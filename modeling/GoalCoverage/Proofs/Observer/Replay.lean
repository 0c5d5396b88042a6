import GoalCoverage.Proofs.Automaton.Resolution
import GoalCoverage.Proofs.Observer

/-!
Observation and replay. The states that an observer of one automaton spreads to are the ends of the runs of the automaton,
guards aside (`mem_spread_iff`). So the observer accepts what the automaton accepts, and nothing that the automaton rejects
(`spread_agrees`).
-/

namespace GoalCoverage

namespace Observer

variable {o : Observer} {q : StateId} {trace : List EdgeId} {a : Automaton} {g : Nat}

/-- The states that an observer comes to along a trace if every guard holds. -/
def spread (o : Observer) (trace : List EdgeId) : IdSet :=
  trace.foldl (fun states e => .ofList (states.toList.flatMap (o.follow · e))) (.singleton o.automaton.initial)

theorem mem_spread_iff : q ∈ o.spread trace ↔ o.Run trace q := by
  induction trace using List.reverseRecOn generalizing q with
  | nil => simp [spread, Run, Leads, eq_comm]
  | append_singleton trace e ih =>
    have step : o.spread (trace ++ [e]) = .ofList ((o.spread trace).toList.flatMap (o.follow · e)) := by
      simp [spread]
    rw [step, Run, leads_concat]
    simp only [IdSet.mem_ofList, List.mem_flatMap, IdSet.mem_toList, ih]
    exact Iff.rfl

theorem exists_accepted_iff (watched : Component.Watched ⟨g, a⟩ o) :
    (∃ q ∈ o.spread trace, g ∈ o.acceptedAt q) ↔ a.Recognizes trace := by
  simp only [mem_spread_iff, watched.run_iff, watched.mem_acceptedAt, true_and]
  exact Iff.rfl

/-- What an observer of one automaton accepts, against the answer of the automaton. -/
theorem spread_agrees (o : Observer) (g : Nat) (a : Automaton) (watches : o = .plain g a ∨ o = .powerset g a)
    (trace : List EdgeId) :
    (a.accepts trace = .accept → ∃ q ∈ o.spread trace, g ∈ o.acceptedAt q) ∧
    ((∃ q ∈ o.spread trace, g ∈ o.acceptedAt q) → a.accepts trace ≠ .reject) ∧
    (a.isGuarded = false → ((∃ q ∈ o.spread trace, g ∈ o.acceptedAt q) ↔ a.accepts trace = .accept)) := by
  rw [exists_accepted_iff (show Component.Watched ⟨g, a⟩ o from watches)]
  refine ⟨Automaton.recognizes_of_accepts, fun recognizes answer => ?_, fun free => (Automaton.accepts_iff free).symm⟩
  exact Automaton.not_recognizes_of_reject answer recognizes

/-- The observer accepts what the automaton leaves open. -/
theorem spread_agrees_assuming :
    (Automaton.assuming.accepts [2] = .accept ∧
      ∃ q ∈ (Observer.powerset 7 .assuming).spread [2], 7 ∈ (Observer.powerset 7 .assuming).acceptedAt q) ∧
    (1 ∈ (Observer.plain 7 .assuming).spread [1, 0] ∧ Automaton.assuming.accepts [1, 0] ≠ .reject) ∧
    ((∃ q ∈ (Observer.plain 7 (.reaching "G" 3)).spread [3, 0],
      7 ∈ (Observer.plain 7 (.reaching "G" 3)).acceptedAt q) ↔ (Automaton.reaching "G" 3).accepts [3, 0] = .accept) := by
  have accepted : Automaton.assuming.accepts [2] = .accept := by decide
  have found : 1 ∈ (Observer.plain 7 .assuming).spread [1, 0] := by decide
  refine ⟨⟨accepted, (spread_agrees _ 7 .assuming (.inr rfl) [2]).1 accepted⟩, ⟨found, ?_⟩, ?_⟩
  · exact (spread_agrees _ 7 .assuming (.inl rfl) [1, 0]).2.1 ⟨1, found, by decide⟩
  · exact (spread_agrees _ 7 (.reaching "G" 3) (.inl rfl) [3, 0]).2.2 rfl

end Observer

end GoalCoverage
