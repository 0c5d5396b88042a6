import GoalCoverage.Proofs.Automaton.Trim

/-!
The automaton that reaches one edge. It accepts the traces that contain the edge (`recognizes_reaching`),
it always has a move, and trimming leaves it as it is (`trim_reaching`).
-/

namespace GoalCoverage.Automaton

variable {trace : List EdgeId} {q : StateId}

theorem not_guarded_reaching (name : String) (e : EdgeId) : (reaching name e).isGuarded = false := rfl

theorem isFinal_reaching (name : String) (e : EdgeId) : (reaching name e).isFinal q = decide (q = 1) := by
  rw [Bool.eq_iff_iff, isFinal, reaching, IdSet.contains_iff, IdSet.mem_singleton, decide_eq_true_eq]

theorem total_reaching (name : String) (e : EdgeId) (edges : Nat) : (reaching name e).Total edges := by
  intro q lt live next _
  have waiting : q = 0 := by
    rw [isFinal_reaching, decide_eq_false_iff_not] at live
    exact Nat.lt_one_iff.1 (Nat.lt_of_le_of_ne (Nat.le_of_lt_succ lt) live)
  subst waiting
  exact ⟨⟨0, 0, .any⟩, by simp [outgoing, reaching], rfl⟩

theorem moves_reaching (name : String) (e next : EdgeId) {q' : StateId} :
    (reaching name e).Moves q next q' ↔ q = 0 ∧ (q' = 0 ∨ q' = 1 ∧ next = e) := by
  simp only [Moves, reaching, List.mem_cons, List.not_mem_nil, or_false, exists_eq_or_imp, exists_eq_left]
  simp [Label.contains, Label.any, Label.single, EdgeSet.contains]
  tauto

theorem leads_reaching (name : String) (e : EdgeId) :
    (∃ q', Leads (reaching name e).follow trace 0 q' ∧ (reaching name e).isFinal q' = true) ↔ e ∈ trace := by
  induction trace with
  | nil => simp [Leads, isFinal_reaching]
  | cons next trace ih =>
    have live : (reaching name e).isFinal 0 = false := by simp [isFinal_reaching]
    have final : (reaching name e).isFinal 1 = true := by simp [isFinal_reaching]
    simp only [Leads, mem_follow_of_not_final live, moves_reaching, true_and]
    rw [List.mem_cons]
    constructor
    · rintro ⟨q', ⟨m, rfl | ⟨rfl, here⟩, leads⟩, accepting⟩
      · exact .inr (ih.1 ⟨q', leads, accepting⟩)
      · exact .inl here.symm
    · rintro (here | later)
      · exact ⟨1, ⟨1, .inr ⟨rfl, here.symm⟩, leads_self_of_final final⟩, final⟩
      · obtain ⟨q', leads, accepting⟩ := ih.2 later
        exact ⟨q', ⟨0, .inl rfl, leads⟩, accepting⟩

theorem recognizes_reaching (name : String) (e : EdgeId) : (reaching name e).Recognizes trace ↔ e ∈ trace :=
  leads_reaching name e

theorem kept_reaching (name : String) (e : EdgeId) : (reaching name e).kept = .ofList [0, 1] := by
  have forward : (reaching name e).transitions.map (fun t => (t.source, t.target)) = [(0, 0), (0, 1)] := rfl
  have back : (reaching name e).transitions.map (fun t => (t.target, t.source)) = [(0, 0), (1, 0)] := rfl
  have reachable : (reaching name e).reachable = .ofList [0, 1] := by
    rw [reachable, forward]
    rfl
  have useful : (reaching name e).useful = .ofList [0, 1] := by
    rw [useful, back]
    rfl
  rw [kept, reachable, useful]
  rfl

theorem trim_reaching (name : String) (e : EdgeId) : (reaching name e).trim = reaching name e := by
  simp only [trim, kept_reaching]
  exact eq_of_parts rfl rfl rfl rfl rfl

end GoalCoverage.Automaton
