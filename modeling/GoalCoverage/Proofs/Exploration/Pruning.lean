import GoalCoverage.Proofs.Exploration.Frontier
import GoalCoverage.Proofs.StateGraph.Detachment

/-!
Pruning, exactly. Cutting out a node with everything below it isolates this part of the graph, however it is linked with
the rest, and the frontier afterwards is told by the frontier and the graph before (`Cleared`).
-/

namespace GoalCoverage

namespace StateGraph

variable {S : Type} {g g' : StateGraph S} {sh : Shape} {n m : NodeId}

/-- The shape after some nodes were cut off. -/
def Shape.cutAll (sh : Shape) (l : List NodeId) : Shape := l.foldl Shape.cutOff sh

theorem Shape.Sound.cutAll {l : List NodeId} (sound : sh.Sound) : (sh.cutAll l).Sound := by
  induction l generalizing sh with
  | nil => exact sound
  | cons n rest ih => exact ih (sound.cutOff n)

/-- Detaching one node after the other isolates all of them, and reports each other node that one of them covered. -/
theorem HasShape.detachAll {l : List NodeId} (acc : List NodeId) (shape : g.HasShape sh) (sound : sh.Sound) (known : ∀ n ∈ l, sh.node n) :
    ∃ released g', l.foldlM (fun (released, g) n => do
        let (more, g) ← StateGraph.detach g n
        return (released ++ more, g)) (acc, g) = .ok (acc ++ released, g') ∧
      g'.HasShape (sh.cutAll l) ∧ g.Isolated g' (· ∈ l) ∧ ∀ m, m ∉ l → (m ∈ released ↔ ∃ b ∈ l, sh.cover m b) := by
  induction l generalizing g sh acc with
  | nil =>
    exact ⟨[], g, by rw [List.append_nil]; rfl, shape, .refl shape sound fun _ => List.not_mem_nil, by simp⟩
  | cons n rest ih =>
    obtain ⟨more, g₁, ok, shape₁, isolated₁, freed, _⟩ := shape.detach_isolated sound (known n List.mem_cons_self)
    obtain ⟨others, g', ok', shape', isolated', found⟩ := ih (acc ++ more) shape₁ (sound.cutOff n) fun m mem =>
      known m (List.mem_cons_of_mem n mem)
    refine ⟨more ++ others, g', ?_, shape', isolated₁.trans isolated' fun _ => List.mem_cons, fun m outside => ?_⟩
    · rw [List.foldlM_cons]
      dsimp only
      rw [ok, ← List.append_assoc]
      exact ok'
    · rw [List.mem_cons, not_or] at outside
      rw [List.mem_append, freed, found m outside.2, List.exists_mem_cons_iff]
      -- A cover among the later nodes is still there when its turn comes.
      have later : (∃ b ∈ rest, (sh.cutOff n).cover m b) ↔ ∃ b ∈ rest, sh.cover m b ∧ b ≠ n := by
        simp [Shape.cutOff, outside.1]
      rw [later]
      grind

end StateGraph

namespace Exploration

open StateGraph

variable {S : Type} {x x' : Exploration S} {sh : Shape} {n m p : NodeId}

theorem foldl_push (x : Exploration S) (l : List NodeId) :
    ∃ back, l.foldl push x = { x with waiting := x.waiting ++ back } ∧ ∀ m ∈ back, m ∈ l := by
  induction l generalizing x with
  | nil => exact ⟨[], by simp, by simp⟩
  | cons n rest ih =>
    obtain ⟨back, queued, among⟩ := ih (x.push n)
    rw [List.foldl_cons, queued, push]
    split_ifs
    · exact ⟨back, rfl, fun m mem => List.mem_cons_of_mem n (among m mem)⟩
    · refine ⟨n :: back, by simp, fun m mem => ?_⟩
      exact (List.mem_cons.1 mem).elim (fun same => same ▸ List.mem_cons_self) fun mem => List.mem_cons_of_mem n (among m mem)

theorem foldl_pushFront (x : Exploration S) (l : List NodeId) :
    ∃ front, l.foldl pushFront x = { x with waiting := front ++ x.waiting } ∧ ∀ m ∈ front, m ∈ l := by
  induction l generalizing x with
  | nil => exact ⟨[], by simp, by simp⟩
  | cons n rest ih =>
    obtain ⟨front, queued, among⟩ := ih (x.pushFront n)
    rw [List.foldl_cons, queued, pushFront]
    split_ifs
    · exact ⟨front, rfl, fun m mem => List.mem_cons_of_mem n (among m mem)⟩
    · refine ⟨front ++ [n], by simp, fun m mem => ?_⟩
      exact (List.mem_append.1 mem).elim (fun mem => List.mem_cons_of_mem n (among m mem)) fun last =>
        List.mem_singleton.1 last ▸ List.mem_cons_self

/-- Which of some existing nodes resume can be found out. -/
theorem filterMapM_resumes {l : List NodeId} (t : Std.TreeSet NodeId) (known : ∀ p ∈ l, x.graph.contains p = true) :
    ∃ resuming, (l.filterMapM fun p => return if ← x.resumes t p then some p else none) = .ok resuming ∧
      ∀ p, p ∈ resuming ↔ p ∈ l ∧ p ∉ t ∧ x.graph.isAttached p = .ok true ∧ x.graph.isCovered p = false := by
  have each : ∀ p ∈ l, ∃ b, x.resumes t p = .ok b ∧
      (b = true ↔ p ∉ t ∧ x.graph.isAttached p = .ok true ∧ x.graph.isCovered p = false) := by
    intro p mem
    obtain ⟨v, here⟩ := contains_iff.1 (known p mem)
    rw [resumes, isAttached_eq here]
    split_ifs with inside
    · rw [← Std.TreeSet.mem_iff_contains] at inside
      exact ⟨false, rfl, by simp [inside]⟩
    · rw [← Std.TreeSet.mem_iff_contains] at inside
      exact ⟨_, rfl, by simp [inside]⟩
  refine ⟨l.filter fun p => (x.resumes t p).toOption.getD false, ?_, fun p => ?_⟩
  · apply filterMapM_guard
    intro p mem
    obtain ⟨b, ok, _⟩ := each p mem
    rw [ok]
    rfl
  · rw [List.mem_filter]
    apply and_congr_right
    intro mem
    obtain ⟨b, ok, resumes⟩ := each p mem
    rw [ok, ← resumes]
    rfl

/--
Some nodes are put to the end of the frontier, and then those of some others to its front that resume. The frontier keeps
its order between them.
-/
theorem exists_requeued {parents : List NodeId} (released : List NodeId) (t : Std.TreeSet NodeId)
    (known : ∀ p ∈ parents, x.graph.contains p = true) :
    ∃ resuming front back,
      (parents.filterMapM fun p => return if ← (released.foldl push x).resumes t p then some p else none) = .ok resuming ∧
      resuming.reverse.foldl pushFront (released.foldl push x) = { x with waiting := front ++ x.waiting ++ back } ∧
      (∀ m ∈ front, m ∈ parents) ∧ (∀ m ∈ back, m ∈ released) ∧ (x.waiting.Nodup → (front ++ x.waiting ++ back).Nodup) ∧
      ∀ m, m ∈ front ++ x.waiting ++ back ↔ m ∈ x.waiting ∨ m ∈ released ∨
        m ∈ parents ∧ m ∉ t ∧ x.graph.isAttached m = .ok true ∧ x.graph.isCovered m = false := by
  let y := released.foldl push x
  have last := Queued.foldl queued_push released x
  have known' : ∀ p ∈ parents, y.graph.contains p = true := by
    rw [last.graph]
    exact known
  obtain ⟨resuming, resumed, mem_resuming⟩ := filterMapM_resumes t known'
  have first := Queued.foldl queued_pushFront resuming.reverse y
  obtain ⟨back, pushed, in_back⟩ := foldl_push x released
  obtain ⟨front, in_turn, in_front⟩ := foldl_pushFront y resuming.reverse
  have whole : resuming.reverse.foldl pushFront y = { x with waiting := front ++ x.waiting ++ back } := by
    rw [in_turn, show y = _ from pushed, List.append_assoc]
  rw [whole] at first
  refine ⟨resuming, front, back, resumed, whole, fun m mem => ?_, in_back, fun nodup => first.nodup (last.nodup nodup),
    fun m => ?_⟩
  · exact ((mem_resuming m).1 (List.mem_reverse.1 (in_front m mem))).1
  · have waits := first.mem m
    rw [last.mem, List.mem_reverse, mem_resuming, last.graph] at waits
    rw [waits]
    tauto

/-- `x'` is `x` without the part `t` below the node `n`. -/
structure Cleared (x x' : Exploration S) (n : NodeId) (t : Std.TreeSet NodeId) : Prop where
  graph : x.graph.Isolated x'.graph (· ∈ t)
  /-- Besides those that waited before, the nodes wait that were covered from the part and those that led to its top. -/
  waiting : ∀ m, m ∈ x'.waiting ↔ m ∉ t ∧ (m ∈ x.waiting ∨ (∃ b ∈ t, x.graph.HasCover m b) ∨
    x.graph.HasParent n m ∧ x'.graph.isAttached m = .ok true ∧ x'.graph.isCovered m = false)
  order : ∃ front back, x'.waiting = front ++ x.waiting.filter (fun m => !t.contains m) ++ back ∧
    (∀ m ∈ front, x.graph.HasParent n m) ∧ ∀ m ∈ back, ∃ b ∈ t, x.graph.HasCover m b
  nodup : x.waiting.Nodup → x'.waiting.Nodup
  last : x'.last = x.last.filter fun m => !t.contains m
  disabled : x'.disabled = x.disabled
  constraint : x'.constraint = x.constraint

theorem exists_cleared (shape : x.graph.HasShape sh) (sound : sh.Sound) (known : sh.node n) :
    ∃ t x', x.graph.subtree n = .ok t ∧ (∀ m, m ∈ t ↔ Relation.ReflTransGen sh.link n m) ∧ x.prune n = .ok x' ∧
      x'.graph.HasShape (sh.cutAll t.toList) ∧ x.Cleared x' n t := by
  obtain ⟨v, here⟩ := (shape.node n).2 known
  obtain ⟨t, below, mem_t⟩ := shape.subtree sound known
  have inside : ∀ m ∈ t.toList, sh.node m := fun m mem =>
    sound.node_of_path known ((mem_t m).1 (Std.TreeSet.mem_toList.1 mem))
  obtain ⟨released, g', cut, shape', isolated, freed⟩ := shape.detachAll [] sound inside
  simp only [Std.TreeSet.mem_toList] at isolated freed
  let y : Exploration S :=
    { x with
      graph := g'
      waiting := x.waiting.filter fun m => !t.contains m
      last := x.last.filter fun m => !t.contains m }
  let outside := released.filter fun m => !t.contains m
  have off : ∀ m, (!t.contains m) = true ↔ m ∉ t := by
    intro m
    rw [Bool.not_eq_true', ← Bool.not_eq_true, Std.TreeSet.mem_iff_contains]
  have mem_outside : ∀ m, m ∈ outside ↔ m ∉ t ∧ ∃ b ∈ t, x.graph.HasCover m b := by
    intro m
    simp only [outside, List.mem_filter, off, shape.hasCover_iff sound]
    exact ⟨fun h => ⟨h.2, (freed m h.2).1 h.1⟩, fun h => ⟨(freed m h.1).2 h.2, h.1⟩⟩
  have lists : ∀ m, m ∈ v.parents.toList ↔ x.graph.HasParent n m := by
    intro m
    rw [shape.hasParent_iff sound, IdSet.mem_toList, (shape.fits n v here).parents]
  have above : ∀ p ∈ v.parents.toList, y.graph.contains p = true := by
    intro p mem
    rw [isolated.contains_eq, shape.contains_iff]
    exact (sound.link p n (((shape.fits n v here).parents p).1 mem)).1
  obtain ⟨resuming, front, back, resumed, whole, in_front, in_back, nodup, mem⟩ :=
    exists_requeued (x := y) outside t above
  refine ⟨t, { y with waiting := front ++ y.waiting ++ back }, below, mem_t, ?ok, shape', isolated, fun m => ?waiting,
    ⟨front, back, rfl, fun m mem => ?front, fun m mem => ?back⟩, fun distinct => nodup (distinct.filter _), rfl, rfl, rfl⟩
  case ok =>
    rw [Exploration.prune]
    simp only [bind, Except.bind, below, parents_eq_ok here] at cut resumed ⊢
    simp only [cut, List.nil_append]
    rw [resumed]
    exact congrArg Except.ok whole
  case waiting =>
    dsimp only
    rw [mem, mem_outside, lists, List.mem_filter, off, and_comm, and_left_comm, and_or_left, and_or_left]
  case front => exact (lists m).1 (in_front m mem)
  case back => exact ((mem_outside m).1 (in_back m mem)).2

theorem Cleared.orderly {t : Std.TreeSet NodeId} (cleared : x.Cleared x' n t) (orderly : x.Orderly) (shape : x.graph.HasShape sh)
    (sound : sh.Sound) : x'.Orderly where
  nodup := cleared.nodup orderly.nodup
  waiting m mem := by
    rw [cleared.graph.contains_eq]
    obtain ⟨_, waits | ⟨b, _, by_b⟩ | ⟨leads, _⟩⟩ := (cleared.waiting m).1 mem
    · exact orderly.waiting m waits
    · exact shape.contains_iff.2 (sound.cover m b ((shape.hasCover_iff sound).1 by_b)).1
    · exact shape.contains_iff.2 (sound.link m n ((shape.hasParent_iff sound).1 leads)).1
  last m is_last := by
    rw [cleared.graph.contains_eq]
    rw [cleared.last] at is_last
    exact orderly.last m (Option.filter_eq_some_iff.1 is_last).1

/-- Pruning succeeds and keeps order, and every other node that loses its cover waits afterwards. -/
theorem Orderly.prune (orderly : x.Orderly) (shape : x.graph.HasShape sh) (sound : sh.Sound) (known : sh.node n) :
    ∃ t x' sh', x.graph.subtree n = .ok t ∧ x.prune n = .ok x' ∧ x'.graph.HasShape sh' ∧ sh'.Sound ∧ x'.Orderly ∧
      ∀ m, m ∉ t → m ∈ x.graph.covered → m ∉ x'.graph.covered → m ∈ x'.waiting := by
  obtain ⟨t, x', below, _, ok, shape', cleared⟩ := exists_cleared shape sound known
  refine ⟨t, x', _, below, ok, shape', sound.cutAll, cleared.orderly orderly shape sound, fun m outside covered lost => ?_⟩
  obtain ⟨b, by_b⟩ := (shape.covered m).1 covered
  have old : x.graph.HasCover m b := (shape.hasCover_iff sound).2 by_b
  have pruned : b ∈ t := by
    by_contra other
    exact lost ((cleared.graph.covered m).2 ⟨b, (cleared.graph.covers m b).2 ⟨old, outside, other⟩⟩)
  exact (cleared.waiting m).2 ⟨outside, .inr (.inl ⟨b, pruned, old⟩)⟩

/--
Pruning a node takes all that is below it, and no more, out of the graph and out of the frontier. Nodes that lose their
cover or, as parents of this node, a child to it wait, besides those that waited before.
-/
theorem prune_exact (built : x.graph.Built) (orderly : x.Orderly) (known : x.graph.contains n = true) :
    ∃ t x', x.graph.subtree n = .ok t ∧ (∀ m, m ∈ t ↔ x.graph.Below n m) ∧ x.prune n = .ok x' ∧ x.Cleared x' n t ∧
      x'.Orderly ∧
      (∀ m ∈ t, x'.graph.isAttached m = .ok false ∧ x'.graph.isCovered m = false ∧ (∀ k, ¬x'.graph.HasCover k m) ∧
        m ∉ x'.waiting) ∧
      ∀ m, m ∉ t → (x'.graph.isCovered m = true ↔ ∃ b, b ∉ t ∧ x.graph.HasCover m b) := by
  obtain ⟨shape, sound⟩ := built.shaped
  have top := shape.contains_iff.1 known
  obtain ⟨t, x', below, mem_t, ok, _, cleared⟩ := exists_cleared shape sound top
  refine ⟨t, x', below, mem_t, ok, cleared, cleared.orderly orderly shape sound, fun m inside => ⟨?_, ?_, ?_, ?_⟩,
    fun m outside => ?_⟩
  · exact cleared.graph.isAttached_eq_false inside (shape.contains_iff.2 (sound.node_of_path top ((mem_t m).1 inside)))
  · rw [← Bool.not_eq_true, isCovered_iff]
    exact fun ⟨b, by_b⟩ => ((cleared.graph.covers m b).1 by_b).2.1 inside
  · exact fun k by_m => ((cleared.graph.covers k m).1 by_m).2.2 inside
  · exact fun waits => ((cleared.waiting m).1 waits).1 inside
  · rw [isCovered_iff]
    apply exists_congr
    intro b
    rw [cleared.graph.covers, and_iff_right outside, and_comm]

section Example

/-- What is below the second node is entered from without at two places, has a cycle, and covers and is covered. -/
def meshing : List (Edit Unit) :=
  [.addRoot (), .addChild 0 () (some 0), .addChild 0 () (some 1), .addChild 1 () (some 2), .link 3 2 (some 3),
    .link 1 3 (some 4), .addChild 2 () none, .addChild 0 () none, .addChild 3 () none, .cover 4 3, .cover 5 2, .cover 6 2]

def mesh : Exploration Unit where
  graph := made meshing
  waiting := [3, 2]
  last := some 6
  disabled := ∅
  constraint := none

theorem mesh_orderly : mesh.Orderly where
  nodup := by decide
  waiting := by decide +kernel
  last n is_last := by
    cases is_last
    decide +kernel

theorem prune_exact_mesh : mesh.graph.contains 1 = true ∧
    ∃ t x', mesh.graph.subtree 1 = .ok t ∧ (∀ m, m ∈ t ↔ mesh.graph.Below 1 m) ∧ mesh.prune 1 = .ok x' ∧
      mesh.Cleared x' 1 t ∧ x'.Orderly ∧
      (∀ m ∈ t, x'.graph.isAttached m = .ok false ∧ x'.graph.isCovered m = false ∧ (∀ k, ¬x'.graph.HasCover k m) ∧
        m ∉ x'.waiting) ∧
      ∀ m, m ∉ t → (x'.graph.isCovered m = true ↔ ∃ b, b ∉ t ∧ mesh.graph.HasCover m b) := by
  have built : mesh.graph.Built := built_made meshing
  have known : mesh.graph.contains 1 = true := by decide +kernel
  exact ⟨known, prune_exact built mesh_orderly known⟩

/-- The parent waits in front, the released node at the end, and of the nodes that waited the one outside. -/
example : (mesh.prune 1).toOption.map (fun x => (x.waiting, x.last, x.graph.covered.toList)) =
    some ([0, 2, 4], none, [5]) := by decide +kernel

end Example

end Exploration

end GoalCoverage
