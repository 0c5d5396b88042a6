import GoalCoverage.Automaton
import GoalCoverage.IdMap
import GoalCoverage.Numbering

/-!
Trimming: an automaton without its useless states and repeated transitions.

A state survives if it can be reached and a final state can be reached from it. The initial state
always survives, as state 0; the others follow in their old order.
-/

namespace GoalCoverage.Automaton

/-- The states that survive, with their new numbers. -/
def kept (a : Automaton) : Numbering StateId :=
  .ofList (a.initial :: (a.reachable.inter a.useful).toList)

theorem size_kept_pos (a : Automaton) : 0 < a.kept.size := Numbering.size_ofList_cons_pos _ _

/-- A transition between survivors, under their new numbers. -/
def renumber (kept : Numbering StateId) (t : Transition) : Option Transition := do
  return ⟨← kept.place? t.source, ← kept.place? t.target, t.label⟩

theorem renumber_eq_some_iff {kept : Numbering StateId} {t u : Transition} :
    renumber kept t = some u ↔
      kept.place? t.source = some u.source ∧ kept.place? t.target = some u.target ∧ t.label = u.label := by
  obtain ⟨p, q, l⟩ := u
  cases hp : kept.place? t.source <;> cases hq : kept.place? t.target <;>
    simp [renumber, hp, hq]

/-- The final states among some states, under their new numbers. -/
def keptFinals (a : Automaton) (kept : Numbering StateId) : List StateId :=
  (kept.toList.filter a.isFinal).filterMap kept.place?

/-- What is left of an automaton when some states survive, the first of them as the initial state. -/
def keeping (a : Automaton) (kept : Numbering StateId) (size_pos : 0 < kept.size) : Automaton :=
  { name := a.name
    size := kept.size
    initial := 0
    finals := .ofList (a.keptFinals kept)
    transitions := Distinct.ofListBy (·.source) kept.size (a.transitions.filterMap (renumber kept))
    initial_lt := size_pos
    finals_lt := fun q hq => by
      obtain ⟨old, _, place⟩ := List.mem_filterMap.1 (IdSet.mem_ofList.1 hq)
      exact Numbering.lt_size_of_place? place
    transitions_lt := fun t ht => by
      have ends : ∀ t ∈ a.transitions.filterMap (renumber kept), t.source < kept.size ∧ t.target < kept.size := by
        intro t ht
        obtain ⟨old, _, renumbered⟩ := List.mem_filterMap.1 ht
        obtain ⟨source, target, _⟩ := renumber_eq_some_iff.1 renumbered
        exact ⟨Numbering.lt_size_of_place? source, Numbering.lt_size_of_place? target⟩
      rw [Distinct.ofListBy_eq fun t ht => (ends t ht).1] at ht
      exact ends t (Distinct.mem_ofList.1 ht) }

def trim (a : Automaton) : Automaton := a.keeping a.kept a.size_kept_pos

/-- The new number of every survivor. -/
def numbering (a : Automaton) : IdMap StateId := .ofList a.kept.toList.zipIdx

end GoalCoverage.Automaton
