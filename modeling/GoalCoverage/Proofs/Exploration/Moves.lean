import GoalCoverage.Proofs.Exploration.Pruning

/-!
Histories of an exploration. Whatever is done to an exploration and, below it, to its graph, with nodes that exist, the
frontier stays orderly, it can be filtered, and no node is forgotten that a removal uncovers (`moves_orderly`). Nodes
are joined by links alone: without these, no node ever has two parents.
-/

namespace GoalCoverage

namespace StateGraph.Shape

variable {sh sh' : Shape} {n p : NodeId}

/-- No node has two parents. -/
def Unjoined (sh : Shape) : Prop := ∀ p q c, sh.link p c → sh.link q c → p = q

theorem Unjoined.lessen (unjoined : sh.Unjoined) (sub : ∀ p c, sh'.link p c → sh.link p c) : sh'.Unjoined :=
  fun p q c first second => unjoined p q c (sub p c first) (sub q c second)

/-- A new node has its only parent. -/
theorem Unjoined.grow (unjoined : sh.Unjoined) (sound : sh.Sound) (new : ¬sh.node n) :
    ((sh.withNode n).withLink p n).Unjoined := by
  intro q r c first second
  obtain old | ⟨rfl, rfl⟩ := first
  · obtain old' | ⟨rfl, rfl⟩ := second
    · exact unjoined q r c old old'
    · exact absurd (sound.link q c old).2.1 new
  · obtain old | ⟨rfl, _⟩ := second
    · exact absurd (sound.link r c old).2.1 new
    · rfl

theorem link_of_cutAll {l : List NodeId} {c : NodeId} (h : (sh.cutAll l).link p c) : sh.link p c := by
  induction l generalizing sh with
  | nil => exact h
  | cons n rest ih => exact (ih h).1

end StateGraph.Shape

namespace Exploration

open StateGraph

variable {S : Type} {x x' : Exploration S} {sh : Shape}

/-- What can be done to an exploration, and to its graph without going through the exploration. -/
inductive Move (S : Type) where
  | add (parent : NodeId) (state : S) (label : Option EdgeId)
  | pop
  | push (n : NodeId)
  | pushFront (n : NodeId)
  | removeWaiting (n : NodeId)
  | retainWaiting (keep : S → Bool)
  | prune (n : NodeId)
  | sweep
  | link (child parent : NodeId) (label : Option EdgeId)
  | cover (n cover : NodeId)
  | uncover (n : NodeId)

namespace Move

def run : Move S → Exploration S → Except Violation (Exploration S)
  | .add p s label, x => return (← x.add p s label).2
  | .pop, x => return match x.pop with
    | some (_, x) => x
    | none => x
  | .push n, x => return x.push n
  | .pushFront n, x => return x.pushFront n
  | .removeWaiting n, x => return x.removeWaiting n
  | .retainWaiting keep, x => x.retainWaiting keep
  | .prune n, x => x.prune n
  | .sweep, x => return x.sweep.2
  | .link c p label, x => return { x with graph := ← x.graph.link c p label }
  | .cover n m, x => return { x with graph := ← x.graph.cover n m }
  | .uncover n, x => return { x with graph := ← x.graph.uncover n }

/-- Do the nodes of a move exist, none as its own parent or cover? -/
def permitted : Move S → Exploration S → Bool
  | .add p _ _, x => x.graph.contains p
  | .push n, x | .pushFront n, x | .removeWaiting n, x | .prune n, x | .uncover n, x => x.graph.contains n
  | .link c p _, x => c != p && x.graph.contains c && x.graph.contains p
  | .cover n m, x => n != m && x.graph.contains n && x.graph.contains m
  | .pop, _ | .retainWaiting _, _ | .sweep, _ => true

/-- May the move give a node a second parent? -/
def joins : Move S → Bool
  | .link _ _ _ => true
  | _ => false

end Move

def play : List (Move S) → Exploration S → Except Violation (Exploration S)
  | [], x => return x
  | move :: rest, x => do play rest (← move.run x)

/-- Are the moves permitted, for as long as none fails? -/
def permits : List (Move S) → Exploration S → Bool
  | [], _ => true
  | move :: rest, x => move.permitted x && match move.run x with
    | .ok x => permits rest x
    | .error _ => true

theorem Move.run_orderly (move : Move S) (orderly : x.Orderly) (shape : x.graph.HasShape sh) (sound : sh.Sound)
    (permitted : move.permitted x = true) :
    ∃ x' sh', move.run x = .ok x' ∧ x'.Orderly ∧ x'.graph.HasShape sh' ∧ sh'.Sound ∧
      (move.joins = false → sh.Unjoined → sh'.Unjoined) := by
  cases move with
  | add p s label =>
    have above := shape.contains_iff.1 permitted
    obtain ⟨g', ok, shape', _⟩ := shape.addChild sound s label above
    have ne : p ≠ x.graph.nodes.size := Nat.ne_of_lt (shape.lt above)
    have grown : ∀ m, g'.contains m = true ↔ m = x.graph.nodes.size ∨ x.graph.contains m = true := by
      intro m
      rw [shape'.contains_iff, shape.contains_iff]
      exact Iff.rfl
    have new : x.graph.nodes.size ∉ x.waiting := fun mem =>
      Nat.lt_irrefl _ (shape.lt (shape.contains_iff.1 (orderly.waiting _ mem)))
    let x' : Exploration S :=
      { x with
        graph := g'
        last := some x.graph.nodes.size
        waiting := x.waiting ++ [x.graph.nodes.size] }
    have ok' : x.add p s label = .ok (x.graph.nodes.size, x') := by
      simp only [Exploration.add, ok, bind, Except.bind, pure, Except.pure]
      rfl
    refine ⟨x', _, by rw [run, ok']; rfl, ⟨?_, fun m mem => ?_, fun m is_last => ?_⟩, shape',
      (sound.withNode _).withLink (.inr above) (.inl rfl) ne,
      fun _ unjoined => unjoined.grow sound fun known => Nat.lt_irrefl _ (shape.lt known)⟩
    · rw [List.nodup_append_comm]
      exact List.nodup_cons.2 ⟨new, orderly.nodup⟩
    · rw [grown]
      exact (List.mem_append.1 mem).elim (fun old => .inr (orderly.waiting m old)) fun last => .inl (List.mem_singleton.1 last)
    · rw [grown]
      exact .inl (Option.some.inj is_last).symm
  | pop =>
    cases waiting : x.waiting with
    | nil => exact ⟨x, sh, by rw [run, Exploration.pop, waiting]; rfl, orderly, shape, sound, fun _ => id⟩
    | cons n rest =>
      refine ⟨{ x with waiting := rest }, sh, by rw [run, Exploration.pop, waiting]; rfl, ?_, shape, sound, fun _ => id⟩
      apply orderly.lessen
      · rw [waiting]
        exact List.sublist_cons_self n rest
      · exact fun _ _ => id
      · exact fun _ is_last => ⟨is_last, id⟩
  | push n =>
    have queued := queued_push x n
    have known : ∀ m ∈ [n], x.graph.contains m = true := fun m mem => List.mem_singleton.1 mem ▸ permitted
    exact ⟨x.push n, sh, rfl, queued.orderly orderly known, queued.graph ▸ shape, sound, fun _ => id⟩
  | pushFront n =>
    have queued := queued_pushFront x n
    have known : ∀ m ∈ [n], x.graph.contains m = true := fun m mem => List.mem_singleton.1 mem ▸ permitted
    exact ⟨x.pushFront n, sh, rfl, queued.orderly orderly known, queued.graph ▸ shape, sound, fun _ => id⟩
  | removeWaiting n =>
    exact ⟨_, sh, rfl, orderly.lessen List.filter_sublist (fun _ _ => id) (fun _ is_last => ⟨is_last, id⟩), shape, sound,
      fun _ => id⟩
  | retainWaiting keep =>
    exact ⟨_, sh, retainWaiting_eq orderly keep,
      orderly.lessen List.filter_sublist (fun _ _ => id) (fun _ is_last => ⟨is_last, id⟩), shape, sound, fun _ => id⟩
  | prune n =>
    obtain ⟨t, x', _, _, ok, shape', cleared⟩ := exists_cleared shape sound (shape.contains_iff.1 permitted)
    exact ⟨x', _, ok, cleared.orderly orderly shape sound, shape', sound.cutAll,
      fun _ unjoined => unjoined.lessen fun _ _ => Shape.link_of_cutAll⟩
  | sweep =>
    obtain ⟨shape', orderly', _⟩ := orderly.sweep shape sound
    exact ⟨x.sweep.2, sh.swept, rfl, orderly', shape', sound.swept, fun _ unjoined => unjoined.lessen fun _ _ h => h.1⟩
  | link c p label =>
    simp only [Move.permitted, Bool.and_eq_true, bne_iff_ne, shape.contains_iff] at permitted
    obtain ⟨⟨ne, below⟩, above⟩ := permitted
    obtain ⟨g', ok, shape', _⟩ := shape.link label above below ne
    refine ⟨{ x with graph := g' }, _, by rw [run, ok]; rfl, ?_, shape', sound.withLink above below ne.symm, fun plain => nomatch plain⟩
    exact orderly.withGraph fun m known => shape'.contains_iff.2 (shape.contains_iff.1 known)
  | cover n m =>
    simp only [Move.permitted, Bool.and_eq_true, bne_iff_ne, shape.contains_iff] at permitted
    obtain ⟨⟨ne, known⟩, covers⟩ := permitted
    obtain ⟨g', ok, shape', _⟩ := shape.cover known covers ne
    refine ⟨{ x with graph := g' }, _, by rw [run, ok]; rfl, ?_, shape', sound.withCover known covers ne, fun _ => id⟩
    exact orderly.withGraph fun m known => shape'.contains_iff.2 (shape.contains_iff.1 known)
  | uncover n =>
    obtain ⟨g', ok, shape', _⟩ := shape.uncover (shape.contains_iff.1 permitted)
    refine ⟨{ x with graph := g' }, _, by rw [run, ok]; rfl, ?_, shape', sound.withoutCover n, fun _ => id⟩
    exact orderly.withGraph fun m known => shape'.contains_iff.2 (shape.contains_iff.1 known)

theorem play_orderly (moves : List (Move S)) (orderly : x.Orderly) (shape : x.graph.HasShape sh) (sound : sh.Sound)
    (permitted : permits moves x = true) :
    ∃ x' sh', play moves x = .ok x' ∧ x'.Orderly ∧ x'.graph.HasShape sh' ∧ sh'.Sound ∧
      ((∀ move ∈ moves, move.joins = false) → sh.Unjoined → sh'.Unjoined) := by
  induction moves generalizing x sh with
  | nil => exact ⟨x, sh, rfl, orderly, shape, sound, fun _ => id⟩
  | cons move rest ih =>
    rw [permits, Bool.and_eq_true] at permitted
    obtain ⟨x₁, sh₁, ok, orderly₁, shape₁, sound₁, unjoined₁⟩ := move.run_orderly orderly shape sound permitted.1
    have others := permitted.2
    rw [ok] at others
    obtain ⟨x', sh', ok', orderly', shape', sound', unjoined'⟩ := ih orderly₁ shape₁ sound₁ others
    refine ⟨x', sh', ?_, orderly', shape', sound', fun plain unjoined => ?_⟩
    · rw [play, ok]
      exact ok'
    · apply unjoined' fun later mem => plain later (List.mem_cons_of_mem move mem)
      exact unjoined₁ (plain move List.mem_cons_self) unjoined

theorem start_orderly (initial : S) : (start initial).Orderly ∧
    ∃ sh, (start initial).graph.HasShape sh ∧ sh.Sound ∧ sh.Unjoined := by
  have shape := (hasShape_empty.allocate Shape.sound_empty initial).withRoot (some 0)
  refine ⟨⟨List.nodup_singleton 0, fun n mem => ?_, fun n is_last => ?_⟩, _, shape,
    (Shape.sound_empty.withNode _).withRoot (.inl rfl), fun _ _ _ link => link.elim⟩
  · exact shape.contains_iff.2 (.inl (List.mem_singleton.1 mem))
  · exact shape.contains_iff.2 (.inl (Option.some.inj is_last).symm)

theorem Move.run_built (move : Move S) (built : x.graph.Built) (ok : move.run x = .ok x') : x'.graph.Built := by
  cases move with
  | add p s label =>
    obtain ⟨a, added, ok⟩ := Except.bind_eq_ok.1 ok
    obtain ⟨r, grown, added⟩ := Except.bind_eq_ok.1 added
    cases ok
    cases added
    exact built.run (e := .addChild p s label) (by rw [Edit.run, grown]; rfl)
  | pop =>
    cases ok
    cases waiting : x.waiting with
    | nil => simpa only [Exploration.pop, waiting] using built
    | cons n rest => simpa only [Exploration.pop, waiting] using built
  | push n =>
    cases ok
    exact graph_push.symm ▸ built
  | pushFront n =>
    cases ok
    exact graph_pushFront.symm ▸ built
  | removeWaiting n =>
    cases ok
    exact built
  | retainWaiting keep =>
    obtain ⟨_, _, ok⟩ := Except.bind_eq_ok.1 ok
    cases ok
    exact built
  | prune n =>
    refine prune_follows (R := fun g g' => g.Built → g'.Built) (fun _ => id) (fun _ _ _ first second h => second (first h))
      (fun g m r cut h => ?_) ok built
    exact h.run (e := .detach m) (by rw [Edit.run, cut]; rfl)
  | sweep =>
    cases ok
    rw [Exploration.sweep, graph_foldl fun _ _ => graph_push]
    exact built.run (e := .sweep) rfl
  | link c p label =>
    obtain ⟨g', linked, ok⟩ := Except.bind_eq_ok.1 ok
    cases ok
    exact built.run (e := .link c p label) (by rw [Edit.run, linked]; rfl)
  | cover n m =>
    obtain ⟨g', covered, ok⟩ := Except.bind_eq_ok.1 ok
    cases ok
    exact built.run (e := .cover n m) (by rw [Edit.run, covered]; rfl)
  | uncover n =>
    obtain ⟨g', uncovered, ok⟩ := Except.bind_eq_ok.1 ok
    cases ok
    exact built.run (e := .uncover n) (by rw [Edit.run, uncovered]; rfl)

/-- A graph is built by whatever is done to its exploration. -/
theorem play_built {moves : List (Move S)} (built : x.graph.Built) (ok : play moves x = .ok x') : x'.graph.Built := by
  induction moves generalizing x with
  | nil =>
    cases ok
    exact built
  | cons move rest ih =>
    obtain ⟨x₁, first, others⟩ := Except.bind_eq_ok.1 ok
    exact ih (move.run_built built first) others

theorem start_built (initial : S) : (start initial).graph.Built := ⟨[.addRoot initial], [0], rfl⟩

/-- At any time the frontier can be filtered, and neither pruning nor sweeping forgets a node that it uncovers. -/
theorem moves_orderly (initial : S) (moves : List (Move S)) (permitted : permits moves (start initial) = true) :
    ∃ x, play moves (start initial) = .ok x ∧ x.waiting.Nodup ∧ (∀ n ∈ x.waiting, x.graph.contains n = true) ∧
      (∀ n, x.last = some n → x.graph.contains n = true) ∧ (∀ keep, ∃ x', x.retainWaiting keep = .ok x') ∧
      (∀ n, x.graph.contains n = true → ∃ t x', x.graph.subtree n = .ok t ∧ x.prune n = .ok x' ∧
        ∀ m, m ∉ t → m ∈ x.graph.covered → m ∉ x'.graph.covered → m ∈ x'.waiting) ∧
      ∀ m, x.sweep.2.graph.contains m = true → m ∈ x.graph.covered → m ∉ x.sweep.2.graph.covered →
        m ∈ x.sweep.2.waiting := by
  obtain ⟨orderly₀, sh₀, shape₀, sound₀, _⟩ := start_orderly initial
  obtain ⟨x, sh, ok, orderly, shape, sound, _⟩ := play_orderly moves orderly₀ shape₀ sound₀ permitted
  refine ⟨x, ok, orderly.nodup, orderly.waiting, orderly.last, fun keep => ⟨_, retainWaiting_eq orderly keep⟩,
    fun n known => ?_, (orderly.sweep shape sound).2.2⟩
  obtain ⟨t, x', _, below, pruned, _, _, _, waits⟩ := orderly.prune shape sound (shape.contains_iff.1 known)
  exact ⟨t, x', below, pruned, waits⟩

section Example

/-- A covered node leaves the frontier, and its cover is pruned. -/
def relay : List (Move Bool) :=
  [.pop, .add 0 true none, .add 0 true none, .add 1 false none, .cover 2 3, .removeWaiting 2, .link 2 1 none,
    .retainWaiting id, .uncover 2, .pushFront 2, .cover 2 3, .pop, .prune 3, .sweep, .push 2]

theorem relay_orderly : permits relay (start false) = true ∧
    ∃ x, play relay (start false) = .ok x ∧ x.waiting.Nodup ∧ (∀ n ∈ x.waiting, x.graph.contains n = true) ∧
      (∀ n, x.last = some n → x.graph.contains n = true) ∧ (∀ keep, ∃ x', x.retainWaiting keep = .ok x') ∧
      (∀ n, x.graph.contains n = true → ∃ t x', x.graph.subtree n = .ok t ∧ x.prune n = .ok x' ∧
        ∀ m, m ∉ t → m ∈ x.graph.covered → m ∉ x'.graph.covered → m ∈ x'.waiting) ∧
      ∀ m, x.sweep.2.graph.contains m = true → m ∈ x.graph.covered → m ∉ x.sweep.2.graph.covered →
        m ∈ x.sweep.2.waiting := by
  have permitted : permits relay (start false) = true := by decide +kernel
  exact ⟨permitted, moves_orderly false relay permitted⟩

/-- The parent of the pruned node waits in front, and the released node is not doubled. -/
example : (play relay (start false)).toOption.map (fun x => (x.waiting, x.last, x.graph.ids)) =
    some ([1, 2], none, [0, 1, 2]) := by decide +kernel

end Example

end Exploration

end GoalCoverage
