import GoalCoverage.Proofs.Automaton.Product

/-!
Trimmed products. A state of the trimmed product stands for a tuple of component states, and every tuple on
a way to one that accepts a goal has a state that stands for it (`Stands.next`).
-/

namespace GoalCoverage

open Unfolding (initial tuples goalsOf)

/-- The product of some components before it is trimmed. -/
def Unfolding.whole (name : String) (components : List Component) : Automaton :=
  automaton components name (tuples components) (size_tuples_pos components)

/-- The tuple that a state of the trimmed product stands for. -/
def Unfolding.Stands (name : String) (components : List Component) (i : StateId) (tuple : List StateId) :
    Prop :=
  ∃ q, (whole name components).kept.get? i = some q ∧ (tuples components).get? q = some tuple

namespace Unfolding

variable {name : String} {components : List Component} {i j : StateId} {tuple tuple' : List StateId}
  {e : EdgeId} {trace : List EdgeId}

theorem stands_zero : Stands name components 0 (initial components) :=
  ⟨0, Automaton.get?_kept_zero, get?_tuples_zero components⟩

theorem Stands.tuple_eq (h : Stands name components i tuple) (k : Stands name components i tuple') :
    tuple' = tuple := by
  obtain ⟨q, here, there⟩ := h
  obtain ⟨q', here', there'⟩ := k
  rw [here] at here'
  cases here'
  rw [there] at there'
  exact (Option.some.inj there').symm

theorem Stands.state_eq (h : Stands name components i tuple) (k : Stands name components j tuple) :
    j = i := by
  obtain ⟨q, here, there⟩ := h
  obtain ⟨q', here', there'⟩ := k
  rw [← Numbering.place?_eq_some_iff] at here here' there there'
  rw [there] at there'
  cases there'
  rw [here] at here'
  exact (Option.some.inj here').symm

theorem Stands.mem_tuples (h : Stands name components i tuple) : tuple ∈ (tuples components).toList := by
  obtain ⟨q, _, there⟩ := h
  exact Numbering.mem_iff_get?.2 ⟨q, there⟩

theorem Stands.length (h : Stands name components i tuple) : components.length = tuple.length :=
  length_of_mem_tuples h.mem_tuples

/-- One move of the product, whatever its label. -/
def Follows (components : List Component) (tuple tuple' : List StateId) : Prop :=
  ∃ l : Label, (l, tuple') ∈ moves components tuple

theorem Joins.follows {holds : Guard → Prop} (joins : Joins components holds tuple e tuple') :
    Follows components tuple tuple' :=
  joins.imp fun _ => And.left

theorem linked_of_follows {q q' : StateId} (here : (tuples components).get? q = some tuple)
    (there : (tuples components).get? q' = some tuple') (step : Follows components tuple tuple') :
    (whole name components).Linked q q' := by
  obtain ⟨l, move⟩ := step
  have via : (whole name components).Via (fun _ => True) q q' :=
    via_automaton.2 ⟨tuple, tuple', here, there, l, move, trivial⟩
  obtain ⟨t, mem, source, _, target⟩ := via
  exact ⟨t, mem, source, target⟩

/-- A tuple on a way to one that accepts a goal is useful. -/
theorem useful_of_follows {last : List StateId} {q : StateId} (here : (tuples components).get? q = some tuple)
    (path : Relation.ReflTransGen (Follows components) tuple last)
    (accepting : (goalsOf components last).isEmpty = false) : q ∈ (whole name components).useful := by
  rw [Automaton.mem_useful_iff]
  induction path using Relation.ReflTransGen.head_induction_on generalizing q with
  | refl =>
    refine ⟨q, ?_, .refl⟩
    rw [whole, isFinal_automaton here, accepting]
    rfl
  | @head tuple tuple' step _ ih =>
    obtain ⟨l, move⟩ := step
    have mem := tuples_closed (Numbering.mem_iff_get?.2 ⟨q, here⟩) move
    obtain ⟨q', there⟩ := Numbering.mem_iff_get?.1 mem
    obtain ⟨f, final, path⟩ := ih there
    exact ⟨f, final, .head (linked_of_follows here there ⟨l, move⟩) path⟩

theorem Stands.next {last : List StateId} (stands : Stands name components i tuple)
    (step : Follows components tuple tuple') (path : Relation.ReflTransGen (Follows components) tuple' last)
    (accepting : (goalsOf components last).isEmpty = false) : ∃ j, Stands name components j tuple' := by
  obtain ⟨l, move⟩ := step
  obtain ⟨q', there⟩ := Numbering.mem_iff_get?.1 (tuples_closed stands.mem_tuples move)
  obtain ⟨q, kept, here⟩ := stands
  have link : (whole name components).Linked q q' := linked_of_follows here there ⟨l, move⟩
  obtain ⟨j, place⟩ := Automaton.exists_kept kept link (useful_of_follows there path accepting)
  exact ⟨j, q', place, there⟩

end Unfolding

theorem Product.eq_of_ofComponents {name : String} {components : List Component} {p : Product}
    (ok : ofComponents name components = .ok p) :
    p.automaton = (Unfolding.whole name components).trim ∧
      p.goals = components.map (·.goal) ∧
      p.accepting = (Unfolding.whole name components).kept.toList.map fun q =>
        goalsOf components (((tuples components).get? q).getD []) := by
  rw [ofComponents] at ok
  split at ok
  · cases ok
  · cases ok
    exact ⟨rfl, rfl, rfl⟩

theorem Product.acceptingAt_eq {name : String} {components : List Component} {p : Product} {i : StateId}
    {tuple : List StateId} (ok : ofComponents name components = .ok p)
    (stands : Unfolding.Stands name components i tuple) : p.acceptingAt i = goalsOf components tuple := by
  obtain ⟨q, kept, here⟩ := stands
  rw [Numbering.get?_eq] at kept
  rw [acceptingAt, (eq_of_ofComponents ok).2.2, List.getD_eq_getElem?_getD, List.getElem?_map, kept]
  simp [here]

end GoalCoverage
