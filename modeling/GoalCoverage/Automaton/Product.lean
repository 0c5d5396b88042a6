import GoalCoverage.Automaton.Trim

/-!
The product of several goal automata, each of them with the goal that it stands for.

States are tuples of component states, numbered in the order in which a breadth-first search from the
initial tuple finds them; afterwards the product is trimmed. Components move together, by transitions
whose labels have a common edge, and a component in a final state stays there. Every state of the
product knows the goals of the components that are final in it.
-/

namespace GoalCoverage

structure Component where
  goal : Nat
  automaton : Automaton

/-- Moves of a component; a final state waits. -/
def Component.moves (c : Component) (q : StateId) : List (Label × StateId) :=
  if c.automaton.isFinal q then [(.any, q)]
  else (c.automaton.outgoing q).map fun t => (t.label, t.target)

namespace Unfolding

/-- Follows each common move of some components by the moves of one more. -/
def extend (found : List (Label × List StateId)) (part : Component × StateId) : List (Label × List StateId) :=
  found.flatMap fun move => (part.1.moves part.2).filterMap fun next =>
    (move.1.inter next.1).map fun common => (common, move.2 ++ [next.2])

/-- Common moves of the components, each with the tuple of its targets. -/
def moves (components : List Component) (tuple : List StateId) : List (Label × List StateId) :=
  (components.zip tuple).foldl extend [(.any, [])]

/-- Expands the tuples from number `source` on, as many as there are at most left. -/
def complete (components : List Component) :
    Nat → StateId → Numbering (List StateId) → Numbering (List StateId)
  | 0, _, tuples => tuples
  | left + 1, source, tuples =>
    match tuples.get? source with
    | none => tuples
    | some tuple =>
      complete components left (source + 1) (tuples.insertAll ((moves components tuple).map (·.2)))

theorem size_le_complete (components : List Component) (left : Nat) (source : StateId)
    (tuples : Numbering (List StateId)) : tuples.size ≤ (complete components left source tuples).size := by
  induction left generalizing source tuples with
  | zero => exact Nat.le_refl _
  | succ left ih =>
    rw [complete]
    split
    · exact Nat.le_refl _
    · exact Nat.le_trans (Numbering.size_le_insertAll _ _) (ih _ _)

/-- The number of all tuples of states of the components. -/
def capacity (components : List Component) : Nat :=
  components.foldr (fun c n => c.automaton.size * n) 1

/-- All tuples that can be reached; there are no more than the component sizes allow. -/
def tuples (components : List Component) : Numbering (List StateId) :=
  complete components (capacity components) 0
    (.ofList [components.map (·.automaton.initial)])

theorem size_tuples_pos (components : List Component) : 0 < (tuples components).size :=
  Nat.lt_of_lt_of_le (Numbering.size_ofList_cons_pos _ _) (size_le_complete _ _ _ _)

/-- The transitions from one tuple to others. -/
def transitionsFrom (components : List Component) (tuples : Numbering (List StateId))
    (tuple : List StateId) (source : StateId) : List Transition :=
  (moves components tuple).filterMap fun (label, targets) =>
    (tuples.place? targets).map fun target => ⟨source, target, label⟩

/-- The goals of the components that are final in a tuple. -/
def goalsOf (components : List Component) (tuple : List StateId) : IdSet :=
  .ofList (((components.zip tuple).filter fun part => part.1.automaton.isFinal part.2).map (·.1.goal))

/-- The automaton on some tuples, the first of them as the initial state. -/
def automaton (components : List Component) (name : String) (tuples : Numbering (List StateId))
    (size_pos : 0 < tuples.size) : Automaton :=
  { name
    size := tuples.size
    initial := 0
    finals := .ofList
      ((tuples.toList.filter fun tuple => !(goalsOf components tuple).isEmpty).filterMap tuples.place?)
    transitions := tuples.toList.zipIdx.flatMap fun (tuple, source) =>
      transitionsFrom components tuples tuple source
    initial_lt := size_pos
    finals_lt := fun q hq => by
      obtain ⟨tuple, _, place⟩ := List.mem_filterMap.1 (IdSet.mem_ofList.1 hq)
      exact Numbering.lt_size_of_place? place
    transitions_lt := fun t ht => by
      obtain ⟨⟨tuple, source⟩, member, step⟩ := List.mem_flatMap.1 ht
      obtain ⟨⟨label, targets⟩, _, linked⟩ := List.mem_filterMap.1 step
      obtain ⟨target, place, rfl⟩ := Option.map_eq_some_iff.1 linked
      refine ⟨?_, Numbering.lt_size_of_place? place⟩
      have := (List.mem_zipIdx' member).1
      simpa [Numbering.toList, Numbering.size] using this }

end Unfolding

structure Product where
  automaton : Automaton
  /-- For each state the goals of the components that are final there. -/
  accepting : List IdSet
  /-- The goals of all components. -/
  goals : List Nat

namespace Product

def ofComponents (name : String) (components : List Component) : Except Refusal Product :=
  if components.isEmpty then .error (.emptyProduct name)
  else
    let tuples := Unfolding.tuples components
    let whole := Unfolding.automaton components name tuples (Unfolding.size_tuples_pos components)
    let kept := whole.kept
    .ok
      { automaton := whole.keeping kept whole.size_kept_pos
        accepting := kept.toList.map fun q => Unfolding.goalsOf components ((tuples.get? q).getD [])
        goals := components.map (·.goal) }

def acceptingAt (p : Product) (q : StateId) : IdSet := p.accepting.getD q ∅

end Product

end GoalCoverage
