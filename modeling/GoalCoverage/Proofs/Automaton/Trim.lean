import GoalCoverage.Automaton.Trim
import GoalCoverage.Proofs.Automaton.Run
import GoalCoverage.Proofs.Numbering

/-!
What is left of an automaton when some of its states survive. The survivors move among themselves as they did before
(`via_keeping`). Trimming keeps the states on a way from the initial state to a final one (`exists_kept`).
-/

namespace GoalCoverage.Automaton

variable {a : Automaton} {kept : Numbering StateId} {size_pos : 0 < kept.size} {i j q : StateId} {e : EdgeId}

theorem mem_transitions_keeping {u : Transition} :
    u ∈ (a.keeping kept size_pos).transitions ↔ ∃ t ∈ a.transitions, renumber kept t = some u := by
  have ends : ∀ t ∈ a.transitions.filterMap (renumber kept), t.source < kept.size := by
    intro t ht
    obtain ⟨old, _, renumbered⟩ := List.mem_filterMap.1 ht
    exact Numbering.lt_size_of_place? (renumber_eq_some_iff.1 renumbered).1
  simp only [keeping]
  rw [Distinct.ofListBy_eq ends, Distinct.mem_ofList, List.mem_filterMap]

theorem via_keeping {P : Label → Prop} : (a.keeping kept size_pos).Via P i j ↔
    ∃ q q', kept.get? i = some q ∧ kept.get? j = some q' ∧ a.Via P q q' := by
  constructor
  · rintro ⟨u, hu, rfl, has, rfl⟩
    obtain ⟨t, ht, renumbered⟩ := mem_transitions_keeping.1 hu
    obtain ⟨source, target, label⟩ := renumber_eq_some_iff.1 renumbered
    refine ⟨t.source, t.target, ?_, ?_, t, ht, rfl, ?_, rfl⟩
    · exact Numbering.place?_eq_some_iff.1 source
    · exact Numbering.place?_eq_some_iff.1 target
    · rwa [label]
  · rintro ⟨_, _, source, target, t, ht, rfl, has, rfl⟩
    refine ⟨⟨i, j, t.label⟩, mem_transitions_keeping.2 ⟨t, ht, ?_⟩, rfl, has, rfl⟩
    exact renumber_eq_some_iff.2
      ⟨Numbering.place?_eq_some_iff.2 source, Numbering.place?_eq_some_iff.2 target, rfl⟩

theorem isFinal_keeping (here : kept.get? i = some q) : (a.keeping kept size_pos).isFinal i = a.isFinal q := by
  rw [Bool.eq_iff_iff, isFinal, IdSet.contains_iff]
  simp only [keeping, keptFinals, IdSet.mem_ofList, List.mem_filterMap, List.mem_filter, Numbering.place?_eq_some_iff]
  constructor
  · rintro ⟨q', ⟨_, final⟩, there⟩
    rw [here] at there
    exact Option.some.inj there ▸ final
  · intro final
    exact ⟨q, ⟨Numbering.mem_iff_get?.2 ⟨i, here⟩, final⟩, here⟩

theorem via_trim {P : Label → Prop} : a.trim.Via P i j ↔
    ∃ q q', a.kept.get? i = some q ∧ a.kept.get? j = some q' ∧ a.Via P q q' := via_keeping

theorem isFinal_trim (here : a.kept.get? i = some q) : a.trim.isFinal i = a.isFinal q := isFinal_keeping here

theorem label_of_mem_keeping {P : Label → Prop} (each : ∀ t ∈ a.transitions, P t.label) :
    ∀ t ∈ (a.keeping kept size_pos).transitions, P t.label := by
  intro u mem
  obtain ⟨t, here, renumbered⟩ := mem_transitions_keeping.1 mem
  rw [← (renumber_eq_some_iff.1 renumbered).2.2]
  exact each t here

theorem mem_kept : q ∈ a.kept.toList ↔ q = a.initial ∨ q ∈ a.reachable ∧ q ∈ a.useful := by
  rw [kept, Numbering.mem_ofList]
  simp

/-- What a survivor is linked to survives if it is useful. -/
theorem exists_kept {q' : StateId} (here : a.kept.get? i = some q) (link : a.Linked q q') (useful : q' ∈ a.useful) :
    ∃ j, a.kept.get? j = some q' := by
  have start : Relation.ReflTransGen a.Linked a.initial q := by
    cases mem_kept.1 (Numbering.mem_iff_get?.2 ⟨i, here⟩) with
    | inl same => rw [same]
    | inr both => exact mem_reachable_iff.1 both.1
  have reachable : q' ∈ a.reachable := mem_reachable_iff.2 (start.tail link)
  exact Numbering.mem_iff_get?.1 (mem_kept.2 (.inr ⟨reachable, useful⟩))

theorem get?_kept_zero : a.kept.get? 0 = some a.initial := Numbering.get?_ofList_cons _ _

theorem eq_of_parts {a b : Automaton} (name : a.name = b.name) (size : a.size = b.size)
    (initial : a.initial = b.initial) (finals : a.finals = b.finals)
    (transitions : a.transitions = b.transitions) : a = b := by
  cases a
  cases b
  simp_all

end GoalCoverage.Automaton
