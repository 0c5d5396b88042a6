import GoalCoverage.Proofs.Automaton.Acceptance

/-!
Acceptance under resolutions of the guards. An accepted trace is accepted however the guards turn out, and a rejected one
under no resolution; no answer gets worse when the trace goes on (`accepts_resolved`). The check without guards is the case
where none of them holds (`arrives_iff`), and runs in which final states keep themselves lead to a final state just where
some beginning of the trace does (`recognizesUnder_iff`).
-/

namespace GoalCoverage.Automaton

variable {a : Automaton} {q q' : StateId} {e : EdgeId} {trace u : List EdgeId} {n : Nat} {ρ ρ' : Resolution}

/-- A sequence of transitions that are allowed under a resolution, the first of them at place `n`. -/
def PassesUnder (a : Automaton) (ρ : Resolution) (n : Nat) (q : StateId) (trace : List EdgeId) (q' : StateId) : Prop :=
  Way (fun n q e q' => a.Via (·.Allows (ρ n) e) q q') n trace q q'

/-- Under a resolution, some beginning of the trace that stands at place `n` leads to a final state. -/
def ArrivesUnder (a : Automaton) (ρ : Resolution) (n : Nat) (q : StateId) (trace : List EdgeId) : Prop :=
  ∃ u, u <+: trace ∧ ∃ q', a.PassesUnder ρ n q u q' ∧ a.isFinal q' = true

theorem Via.mono {P Q : Label → Prop} (imp : ∀ l, P l → Q l) (via : a.Via P q q') : a.Via Q q q' := by
  obtain ⟨t, mem, source, has, target⟩ := via
  exact ⟨t, mem, source, imp t.label has, target⟩

theorem ArrivesUnder.mono (imp : ∀ n g, ρ n g → ρ' n g) (arrives : a.ArrivesUnder ρ n q trace) :
    a.ArrivesUnder ρ' n q trace := by
  obtain ⟨u, start, q', passes, final⟩ := arrives
  exact ⟨u, start, q', passes.mono fun n _ _ _ via => via.mono fun _ allowed => allowed.mono (imp n), final⟩

theorem arrivesUnder_nil : a.ArrivesUnder ρ n q [] ↔ a.isFinal q = true := by
  simp [ArrivesUnder, PassesUnder, Way]

theorem arrivesUnder_cons : a.ArrivesUnder ρ n q (e :: trace) ↔
    a.isFinal q = true ∨ ∃ m, a.Via (·.Allows (ρ n) e) q m ∧ a.ArrivesUnder ρ (n + 1) m trace := by
  constructor
  · rintro ⟨u, start, q', passes, final⟩
    obtain rfl | ⟨v, rfl, start'⟩ := List.prefix_cons_iff.1 start
    · cases (passes : q = q')
      exact .inl final
    · obtain ⟨m, via, passes⟩ := passes
      exact .inr ⟨m, via, v, start', q', passes, final⟩
  · rintro (final | ⟨m, via, v, start, q', passes, final⟩)
    · exact ⟨[], List.nil_prefix, q, rfl, final⟩
    · exact ⟨e :: v, List.cons_prefix_cons.2 ⟨rfl, start⟩, q', ⟨m, via, passes⟩, final⟩

theorem freeMove_iff : a.FreeMove q e q' ↔ a.Via (·.Allows (fun _ => False) e) q q' := by
  simp only [FreeMove, Via, Label.allows_false, and_assoc]

theorem freeRun_iff : a.FreeRun q trace q' ↔ a.PassesUnder (fun _ _ => False) n q trace q' := by
  induction trace generalizing n q with
  | nil => rw [freeRun_nil, eq_comm]; rfl
  | cons e trace ih =>
    rw [freeRun_cons]
    simp only [freeMove_iff, ih (n := n + 1)]
    exact Iff.rfl

/-- To go without guards is to go where no guard holds. -/
theorem arrives_iff : a.Arrives q trace ↔ a.ArrivesUnder (fun _ _ => False) n q trace := by
  simp only [Arrives, ArrivesUnder, freeRun_iff (n := n)]

theorem ArrivesUnder.of_arrives (arrives : a.Arrives q trace) : a.ArrivesUnder ρ n q trace :=
  (arrives_iff.1 arrives).mono fun _ _ => False.elim

/-- A way to a final state needs no guard, or meets one while there is something to read. -/
theorem ArrivesUnder.arrives_or_facesGuard (arrives : a.ArrivesUnder ρ n q trace) :
    a.Arrives q trace ∨ a.FacesGuard q trace := by
  induction trace generalizing n q with
  | nil => exact .inl (arrives_nil.2 (arrivesUnder_nil.1 arrives))
  | cons e trace ih =>
    rw [arrives_cons, facesGuard_cons]
    obtain final | ⟨m, ⟨t, mem, source, allowed, target⟩, later⟩ := arrivesUnder_cons.1 arrives
    · exact .inl (.inl final)
    · cases guarded : t.label.isGuarded with
      | true => exact .inr (.inl ⟨t, mem, source, guarded⟩)
      | false =>
        have free : a.FreeMove q e m := ⟨t, mem, source, guarded, allowed.1, target⟩
        exact (ih later).imp (fun arrives => .inr ⟨m, free, arrives⟩) fun faces => .inr ⟨m, free, faces⟩

theorem not_arrivesUnder_of_reject (answer : a.accepts trace = .reject) : ¬a.ArrivesUnder ρ n a.initial trace := by
  intro arrives
  obtain ⟨notArrives, notFaces⟩ := accepts_eq_reject_iff.1 answer
  exact arrives.arrives_or_facesGuard.elim notArrives notFaces

theorem Arrives.append (arrives : a.Arrives q trace) : a.Arrives q (trace ++ u) := by
  obtain ⟨v, start, reached⟩ := arrives
  exact ⟨v, start.trans (List.prefix_append trace u), reached⟩

theorem FacesGuard.append (faces : a.FacesGuard q trace) : a.FacesGuard q (trace ++ u) := by
  obtain ⟨v, start, short, reached⟩ := faces
  refine ⟨v, start.trans (List.prefix_append trace u), ?_, reached⟩
  rintro rfl
  exact short (start.eq_of_length_le (by simp))

theorem way_of_final (final : a.isFinal q = true) : Way (fun n => a.Goes (ρ n)) n trace q q := by
  induction trace generalizing n with
  | nil => rfl
  | cons e trace ih => exact ⟨q, (goes_of_final final).2 rfl, ih⟩

/-- A final state waits for the end of the trace. -/
theorem exists_way_iff : (∃ q', Way (fun n => a.Goes (ρ n)) n trace q q' ∧ a.isFinal q' = true) ↔
    a.ArrivesUnder ρ n q trace := by
  induction trace generalizing n q with
  | nil => simp [Way, arrivesUnder_nil]
  | cons e trace ih =>
    rw [arrivesUnder_cons]
    cases final : a.isFinal q with
    | true => exact ⟨fun _ => .inl rfl, fun _ => ⟨q, way_of_final final, final⟩⟩
    | false =>
      simp only [Way, goes_of_not_final final, ← ih, Bool.false_eq_true, false_or]
      constructor
      · rintro ⟨q', ⟨m, via, way⟩, accepting⟩
        exact ⟨m, via, q', way, accepting⟩
      · rintro ⟨m, via, q', way, accepting⟩
        exact ⟨q', ⟨m, via, way⟩, accepting⟩

theorem recognizesUnder_iff : a.RecognizesUnder ρ trace ↔ a.ArrivesUnder ρ 0 a.initial trace := exists_way_iff

/-- Acceptance relies on no guard. -/
theorem recognizes_of_accepts (accepts : a.accepts trace = .accept) : a.Recognizes trace := by
  rw [recognizes_iff, recognizesUnder_iff]
  exact .of_arrives (accepts_eq_accept_iff.1 accepts)

theorem not_recognizes_of_reject (answer : a.accepts trace = .reject) : ¬a.Recognizes trace := by
  rw [recognizes_iff, recognizesUnder_iff]
  exact not_arrivesUnder_of_reject answer

/-- Without guards an automaton accepts what it recognizes. -/
theorem accepts_iff (free : a.isGuarded = false) : a.accepts trace = .accept ↔ a.Recognizes trace := by
  refine ⟨recognizes_of_accepts, fun recognizes => ?_⟩
  cases answer : a.accepts trace with
  | accept => rfl
  | reject => exact absurd recognizes (not_recognizes_of_reject answer)
  | unknown => exact absurd answer (accepts_ne_unknown free)

/-- Answers hold under every resolution of the guards, and for longer traces. -/
theorem accepts_resolved (a : Automaton) (trace : List EdgeId) :
    (a.accepts trace = .accept → ∀ ρ, a.ArrivesUnder ρ 0 a.initial trace) ∧
    (a.accepts trace = .reject → ∀ ρ, ¬a.ArrivesUnder ρ 0 a.initial trace) ∧
    (∀ u, a.accepts trace = .accept → a.accepts (trace ++ u) = .accept) ∧
    (∀ u, a.accepts trace = .unknown → a.accepts (trace ++ u) ≠ .reject) := by
  refine ⟨fun answer ρ => ?_, fun answer ρ => not_arrivesUnder_of_reject answer, fun u answer => ?_,
    fun u answer later => ?_⟩
  · exact .of_arrives (accepts_eq_accept_iff.1 answer)
  · exact accepts_eq_accept_iff.2 (accepts_eq_accept_iff.1 answer).append
  · exact (accepts_eq_reject_iff.1 later).2 (accepts_eq_unknown_iff.1 answer).2.append

/-- Edges 1 and 0 lead to the final state where an assumption holds after the first of them, and edge 2 does so at once. -/
def assuming : Automaton :=
  { name := "G", size := 3, initial := 0, finals := .singleton 1
    transitions := [⟨0, 2, .single 1⟩, ⟨2, 1, ⟨.only (.singleton 0), [.predicate "x > 0"]⟩⟩, ⟨0, 1, .single 2⟩]
    initial_lt := by decide
    finals_lt := by decide
    transitions_lt := by decide }

theorem accepts_resolved_assuming :
    (assuming.accepts [2] = .accept ∧ ∀ ρ, assuming.ArrivesUnder ρ 0 0 [2]) ∧
    (assuming.accepts [0, 0] = .reject ∧ ∀ ρ, ¬assuming.ArrivesUnder ρ 0 0 [0, 0]) ∧
    assuming.accepts ([2] ++ [0]) = .accept ∧
    (assuming.accepts [1, 0] = .unknown ∧ assuming.accepts ([1, 0] ++ [1]) ≠ .reject) := by
  have accepted : assuming.accepts [2] = .accept := by decide
  have rejected : assuming.accepts [0, 0] = .reject := by decide
  have unknown : assuming.accepts [1, 0] = .unknown := by decide
  exact ⟨⟨accepted, (accepts_resolved assuming [2]).1 accepted⟩, ⟨rejected, (accepts_resolved assuming [0, 0]).2.1 rejected⟩,
    (accepts_resolved assuming [2]).2.2.1 [0] accepted, unknown, (accepts_resolved assuming [1, 0]).2.2.2 [1] unknown⟩

end GoalCoverage.Automaton
