import GoalCoverage.Proofs.StateGraph.Edits

/-!
Detaching, exactly. `Isolated` says of two graphs that they differ in nothing but the links and the covers of some nodes,
and `detach_exact` that detaching a node isolates just this node, releases the nodes that it covered and, done again,
does nothing.
-/

namespace GoalCoverage.StateGraph

variable {S : Type} {g g' g'' : StateGraph S} {sh : Shape} {n m p c : NodeId} {v : GraphNode S} {cut cut' : NodeId → Prop}

/-- Graphs that store the same are the same. -/
theorem ext_node? (size : g.nodes.size = g'.nodes.size) (node : ∀ n, g.node? n = g'.node? n) (live : g.live = g'.live)
    (root : g.root = g'.root) (covered : ∀ n, n ∈ g.covered ↔ n ∈ g'.covered) : g = g' := by
  have nodes : g.nodes = g'.nodes := by
    apply Array.ext size
    intro i lt lt'
    have slot := node i
    rwa [node?, node?, Array.getElem?_eq_getElem lt, Array.getElem?_eq_getElem lt', Option.join_some, Option.join_some]
      at slot
  cases g
  cases g'
  simp only at nodes live root covered
  rw [nodes, live, root, IdSet.ext_mem covered]

theorem isCovered_iff : g.isCovered n = true ↔ ∃ m, g.HasCover n m := by
  simp only [isCovered, Option.any_eq_true, Option.isSome_iff_exists, HasCover]
  exact ⟨fun ⟨v, here, m, by_m⟩ => ⟨m, v, here, by_m⟩, fun ⟨m, v, here, by_m⟩ => ⟨v, here, m, by_m⟩⟩

/--
`g'` is `g` with some nodes isolated: they are still there, but none of them is the root, and no link and no cover leads
to them or from them. Everything else is as it was.
-/
structure Isolated (g g' : StateGraph S) (cut : NodeId → Prop) : Prop where
  children : ∀ p c, g'.HasChild p c ↔ g.HasChild p c ∧ ¬cut p ∧ ¬cut c
  parents : ∀ p c, g'.HasParent c p ↔ g.HasParent c p ∧ ¬cut p ∧ ¬cut c
  labels : ∀ p c, ¬cut p → ¬cut c → g'.edgeLabel p c = g.edgeLabel p c
  covers : ∀ n m, g'.HasCover n m ↔ g.HasCover n m ∧ ¬cut n ∧ ¬cut m
  covered : ∀ n, n ∈ g'.covered ↔ ∃ m, g'.HasCover n m
  root : ∀ r, g'.root = some r ↔ g.root = some r ∧ ¬cut r
  /-- Each node keeps its state and its mark. -/
  marks : ∀ n, (g'.node? n).map (fun v => (v.state, v.bottom)) = (g.node? n).map fun v => (v.state, v.bottom)
  nextId : g'.nextId = g.nextId
  live : g'.live = g.live

namespace Isolated

theorem refl (shape : g.HasShape sh) (sound : sh.Sound) (nobody : ∀ n, ¬cut n) : g.Isolated g cut where
  children p c := by simp [nobody]
  parents p c := by simp [nobody]
  labels p c _ _ := rfl
  covers n m := by simp [nobody]
  covered n := (shape.consistent sound).covered n
  root r := by simp [nobody]
  marks n := rfl
  nextId := rfl
  live := rfl

/-- Nodes may be isolated one after the other. -/
theorem trans {all : NodeId → Prop} (first : g.Isolated g' cut) (second : g'.Isolated g'' cut')
    (both : ∀ n, all n ↔ cut n ∨ cut' n) : g.Isolated g'' all where
  children p c := by
    rw [second.children, first.children, both, both]
    tauto
  parents p c := by
    rw [second.parents, first.parents, both, both]
    tauto
  labels p c above below := by
    rw [both, not_or] at above below
    rw [second.labels p c above.2 below.2, first.labels p c above.1 below.1]
  covers n m := by
    rw [second.covers, first.covers, both, both]
    tauto
  covered := second.covered
  root r := by
    rw [second.root, first.root, both]
    tauto
  marks n := (second.marks n).trans (first.marks n)
  nextId := second.nextId.trans first.nextId
  live := second.live.trans first.live

variable (isolated : g.Isolated g' cut)

include isolated

theorem contains_eq (n : NodeId) : g'.contains n = g.contains n := by
  rw [contains, contains, ← Option.isSome_map (f := fun v => (v.state, v.bottom)), isolated.marks, Option.isSome_map]

theorem ids : g'.ids = g.ids := ids_eq_of_contains isolated.nextId isolated.contains_eq

/-- There is nothing left around an isolated node. -/
theorem exists_bare (here : cut n) (known : g.contains n = true) :
    ∃ v, g'.node? n = some v ∧ v.parents = ∅ ∧ v.children = ∅ ∧ v.coveredBy = none := by
  obtain ⟨v, there⟩ := contains_iff.1 ((isolated.contains_eq n).trans known)
  refine ⟨v, there, ?_, ?_, ?_⟩
  · exact IdSet.eq_empty_of_forall fun p mem => ((isolated.parents p n).1 ⟨v, there, mem⟩).2.2 here
  · exact IdMap.eq_empty_of_forall fun c mem => ((isolated.children n c).1 ⟨v, there, mem⟩).2.1 here
  · exact Option.eq_none_iff_forall_ne_some.2 fun m by_m => ((isolated.covers n m).1 ⟨v, there, by_m⟩).2.1 here

theorem isAttached_eq_false (here : cut n) (known : g.contains n = true) : g'.isAttached n = .ok false := by
  obtain ⟨v, there, orphan, _⟩ := isolated.exists_bare here known
  have inner : g'.root ≠ some n := fun root => ((isolated.root n).1 root).2 here
  rw [isAttached_eq there, orphan, decide_eq_false inner]
  rfl

end Isolated

namespace HasShape

variable (shape : g.HasShape sh) (sound : sh.Sound)

include shape

/-- Detaching does nothing to a node that is isolated already. -/
theorem severed_eq (unlinked : ∀ p c, sh.link p c → p ≠ n ∧ c ≠ n) (bare : ∀ a b, sh.cover a b → a ≠ n ∧ b ≠ n)
    (here : g.node? m = some v) : severed n m v = v := by
  obtain ⟨children, parents, cover⟩ := shape.fits m v here
  by_cases own : m = n
  · have orphan : v.parents = ∅ :=
      IdSet.eq_empty_of_forall fun p mem => (unlinked p m ((parents p).1 mem)).2 own
    have leaf : v.children = ∅ :=
      IdMap.eq_empty_of_forall fun c mem => (unlinked m c ((children c).1 mem)).1 own
    have uncovered : v.coveredBy = none := by
      rw [Option.eq_none_iff_forall_ne_some]
      exact fun b by_b => (bare m b ((cover b).1 by_b)).1 own
    rw [severed, if_pos own, ← orphan, ← leaf, ← uncovered]
  · have no_parent : n ∉ v.parents := fun mem => (unlinked n m ((parents n).1 mem)).1 rfl
    have no_child : n ∉ v.children.keys := fun mem => (unlinked m n ((children n).1 mem)).2 rfl
    have no_cover : v.coveredBy ≠ some n := fun by_n => (bare m n ((cover n).1 by_n)).2 rfl
    rw [severed, if_neg own, IdSet.erase_of_not_mem no_parent, IdMap.erase_of_not_mem no_child, if_neg no_cover]

include sound

theorem detach_eq_self (known : sh.node n) (unlinked : ∀ p c, sh.link p c → p ≠ n ∧ c ≠ n)
    (bare : ∀ a b, sh.cover a b → a ≠ n ∧ b ≠ n) (inner : sh.root ≠ some n) : g.detach n = .ok ([], g) := by
  obtain ⟨released, g', ok, mapped, covered, freed, _⟩ := shape.detach_mapped sound known
  have none_freed : released = [] := by
    rw [List.eq_nil_iff_forall_not_mem]
    exact fun m mem => (bare m n ((freed m).1 mem).1).2 rfl
  have same : g' = g := by
    refine ext_node? mapped.size (fun m => ?_) mapped.live mapped.root fun m => ?_
    · rw [mapped.node]
      cases here : g.node? m with
      | none => rfl
      | some v => rw [Option.map_some, shape.severed_eq unlinked bare here]
    · rw [covered]
      refine ⟨fun h => h.1, fun mem => ⟨mem, fun by_n => (bare m n by_n).2 rfl, ?_⟩⟩
      obtain ⟨b, by_b⟩ := (shape.covered m).1 mem
      exact (bare m b by_b).1
  rw [ok, none_freed, same, shape.root, if_neg inner]

/-- Detaching isolates the node and releases the nodes that it covered. -/
theorem detach_isolated (known : sh.node n) :
    ∃ released g', g.detach n = .ok (released, g') ∧ g'.HasShape (sh.cutOff n) ∧ g.Isolated g' (· = n) ∧
      (∀ m, m ∈ released ↔ sh.cover m n) ∧ released.Pairwise (· < ·) := by
  obtain ⟨released, h, ok, mapped, _, _, rising⟩ := shape.detach_mapped sound known
  obtain ⟨_, g', ok', shape', _, freed⟩ := shape.detach sound known
  cases ok.symm.trans ok'
  have sound' := sound.cutOff n
  have node : ∀ m, (if g.root = some n then { h with root := none } else h).node? m = (g.node? m).map (severed n m) := by
    intro m
    rw [← mapped.node]
    split_ifs <;> rfl
  refine ⟨released, _, ok', shape', ?isolated, fun m => ?_, rising⟩
  case isolated =>
    refine ⟨fun p c => ?children, fun p c => ?parents, fun p c above below => ?labels, fun a b => ?covers,
      (shape'.consistent sound').covered, fun r => ?root, fun m => ?marks, ?nextId, ?live⟩
    case children => rw [shape'.hasChild_iff sound', shape.hasChild_iff sound, Shape.cutOff]
    case parents => rw [shape'.hasParent_iff sound', shape.hasParent_iff sound, Shape.cutOff]
    case covers => rw [shape'.hasCover_iff sound', shape.hasCover_iff sound, Shape.cutOff]
    case root =>
      rw [shape'.root, shape.root, Shape.cutOff]
      grind
    case labels =>
      rw [edgeLabel, edgeLabel, node]
      cases g.node? p with
      | none => rfl
      | some w => simp [severed, above, IdMap.get?_erase, below]
    case marks =>
      rw [node, Option.map_map]
      congr 1
      funext v
      rw [Function.comp_apply, severed]
      split_ifs <;> rfl
    case nextId =>
      split_ifs <;> exact mapped.size
    case live =>
      split_ifs <;> exact mapped.live
  · rw [freed]
    exact and_iff_left_of_imp fun by_n same => sound.other n (same ▸ by_n)

end HasShape

/--
Detaching isolates a node, whatever the graph around it, and reports the nodes that it covered, which are uncovered.
Done again, it reports nothing and changes nothing.
-/
theorem detach_exact (built : g.Built) (known : g.contains n = true) :
    ∃ released g', g.detach n = .ok (released, g') ∧ g.Isolated g' (· = n) ∧ g'.ids = g.ids ∧
      g'.parents n = .ok ∅ ∧ g'.children n = .ok ∅ ∧ g'.coveredBy n = .ok none ∧
      (g'.root = if g.root = some n then none else g.root) ∧ released.Pairwise (· < ·) ∧
      (∀ m, m ∈ released ↔ g.HasCover m n) ∧ (∀ m ∈ released, g'.coveredBy m = .ok none ∧ m ∉ g'.covered) ∧
      g'.detach n = .ok ([], g') := by
  obtain ⟨shape, sound⟩ := built.shaped
  have node := shape.contains_iff.1 known
  obtain ⟨released, g', ok, shape', isolated, freed, rising⟩ := shape.detach_isolated sound node
  obtain ⟨v, here, orphan, leaf, uncovered⟩ := isolated.exists_bare rfl known
  refine ⟨released, g', ok, isolated, isolated.ids, ?_, ?_, ?_, shape'.root, rising, freed, fun m mem => ?_, ?_⟩
  · rw [parents_eq_ok here, orphan]
  · rw [children_eq_ok here, leaf]
    rfl
  · rw [coveredBy_eq_ok here, uncovered]
  · have by_n : g.HasCover m n := (freed m).1 mem
    have open_now : ∀ b, ¬g'.HasCover m b := by
      intro b by_b
      obtain ⟨old, _, other⟩ := (isolated.covers m b).1 by_b
      exact other (old.unique by_n)
    obtain ⟨w, there⟩ := contains_iff.1 ((isolated.contains_eq m).trans (shape.contains_iff.2 (sound.cover m n by_n).1))
    have free : w.coveredBy = none := Option.eq_none_iff_forall_ne_some.2 fun b by_b => open_now b ⟨w, there, by_b⟩
    refine ⟨?_, fun covered => ?_⟩
    · rw [coveredBy_eq_ok there, free]
    · obtain ⟨b, by_b⟩ := (isolated.covered m).1 covered
      exact open_now b by_b
  · apply shape'.detach_eq_self (sound.cutOff n) node
    · exact fun p c link => link.2
    · exact fun a b by_b => by_b.2
    · exact fun root => ((isolated.root n).1 (shape'.root.trans root)).2 rfl

section Example

/-- A node between two parents and two children, one of them also a parent, that is covered and covers. -/
def knot : List (Edit Unit) :=
  [.addRoot (), .addChild 0 () (some 0), .addChild 0 () none, .addChild 1 () (some 1), .link 3 2 (some 2),
    .link 1 3 (some 3), .addChild 1 () none, .addChild 0 () none, .cover 5 1, .cover 2 1, .cover 1 4, .cover 4 2]

theorem detach_exact_knot : (made knot).contains 1 = true ∧
    ∃ released g', (made knot).detach 1 = .ok (released, g') ∧ (made knot).Isolated g' (· = 1) ∧
      g'.ids = (made knot).ids ∧ g'.parents 1 = .ok ∅ ∧ g'.children 1 = .ok ∅ ∧ g'.coveredBy 1 = .ok none ∧
      (g'.root = if (made knot).root = some 1 then none else (made knot).root) ∧ released.Pairwise (· < ·) ∧
      (∀ m, m ∈ released ↔ (made knot).HasCover m 1) ∧
      (∀ m ∈ released, g'.coveredBy m = .ok none ∧ m ∉ g'.covered) ∧ g'.detach 1 = .ok ([], g') := by
  have known : (made knot).contains 1 = true := by decide +kernel
  exact ⟨known, detach_exact (built_made knot) known⟩

/-- Two nodes are released, and the cover that the node did not give stays. -/
example : ((made knot).detach 1).toOption.map (fun r => (r.1, r.2.covered.toList, r.2.root)) =
    some ([2, 5], [4], some 0) := by decide +kernel

end Example

end GoalCoverage.StateGraph
