import GoalCoverage.Proofs.Automaton.Reaching

/-!
Acceptance with three values. A trace is accepted when a run without guards over some beginning of it ends in a
final state. Otherwise the answer is `unknown` when such a run over less than the trace ends where a guarded
transition leaves, whatever edges that transition matches (`accepts_exact`).
-/

namespace GoalCoverage.Automaton

variable {a : Automaton} {q q' : StateId} {e : EdgeId} {trace u : List EdgeId} {current : IdSet} {guarded : Bool}

/-- A transition without guards that matches the edge. -/
def FreeMove (a : Automaton) (q : StateId) (e : EdgeId) (q' : StateId) : Prop :=
  ∃ t ∈ a.transitions, t.source = q ∧ t.label.isGuarded = false ∧ t.label.contains e = true ∧ t.target = q'

/-- A run without guards, which takes final states for states like any other. -/
inductive FreeRun (a : Automaton) : StateId → List EdgeId → StateId → Prop
  | done (q : StateId) : FreeRun a q [] q
  | move {q m q' : StateId} {e : EdgeId} {u : List EdgeId} : a.FreeMove q e m → FreeRun a m u q' →
    FreeRun a q (e :: u) q'

def GuardedAt (a : Automaton) (q : StateId) : Prop := ∃ t ∈ a.transitions, t.source = q ∧ t.label.isGuarded = true

/-- Some beginning of the trace, the empty one included, leads to a final state. -/
def Arrives (a : Automaton) (q : StateId) (trace : List EdgeId) : Prop :=
  ∃ u, u <+: trace ∧ ∃ q', a.FreeRun q u q' ∧ a.isFinal q' = true

/-- Some beginning of the trace that leaves an edge to read leads to a guarded transition. -/
def FacesGuard (a : Automaton) (q : StateId) (trace : List EdgeId) : Prop :=
  ∃ u, u <+: trace ∧ u ≠ trace ∧ ∃ q', a.FreeRun q u q' ∧ a.GuardedAt q'

theorem freeRun_nil : a.FreeRun q [] q' ↔ q' = q := by
  constructor
  · rintro ⟨⟩
    rfl
  · rintro rfl
    exact .done q'

theorem freeRun_cons : a.FreeRun q (e :: u) q' ↔ ∃ m, a.FreeMove q e m ∧ a.FreeRun m u q' := by
  constructor
  · rintro ⟨⟩
    exact ⟨_, ‹_›, ‹_›⟩
  · rintro ⟨m, move, run⟩
    exact .move move run

theorem arrives_nil : a.Arrives q [] ↔ a.isFinal q = true := by
  simp [Arrives, freeRun_nil]

theorem arrives_cons :
    a.Arrives q (e :: trace) ↔ a.isFinal q = true ∨ ∃ m, a.FreeMove q e m ∧ a.Arrives m trace := by
  constructor
  · rintro ⟨u, start, q', run, final⟩
    obtain rfl | ⟨v, rfl, start'⟩ := List.prefix_cons_iff.1 start
    · rw [freeRun_nil] at run
      exact .inl (run ▸ final)
    · obtain ⟨m, move, run⟩ := freeRun_cons.1 run
      exact .inr ⟨m, move, v, start', q', run, final⟩
  · rintro (final | ⟨m, move, v, start, q', run, final⟩)
    · exact ⟨[], List.nil_prefix, q, .done q, final⟩
    · exact ⟨e :: v, (List.cons_prefix_cons).2 ⟨rfl, start⟩, q', .move move run, final⟩

theorem not_facesGuard_nil : ¬a.FacesGuard q [] := by
  rintro ⟨u, start, short, _⟩
  exact short (List.prefix_nil.1 start)

theorem facesGuard_cons :
    a.FacesGuard q (e :: trace) ↔ a.GuardedAt q ∨ ∃ m, a.FreeMove q e m ∧ a.FacesGuard m trace := by
  constructor
  · rintro ⟨u, start, short, q', run, guarded⟩
    obtain rfl | ⟨v, rfl, start'⟩ := List.prefix_cons_iff.1 start
    · rw [freeRun_nil] at run
      exact .inl (run ▸ guarded)
    · obtain ⟨m, move, run⟩ := freeRun_cons.1 run
      exact .inr ⟨m, move, v, start', fun same => short (congrArg (e :: ·) same), q', run, guarded⟩
  · rintro (guarded | ⟨m, move, v, start, short, q', run, guarded⟩)
    · exact ⟨[], List.nil_prefix, (List.cons_ne_nil e trace).symm, q, .done q, guarded⟩
    · exact ⟨e :: v, List.cons_prefix_cons.2 ⟨rfl, start⟩, fun same => short (List.cons.inj same).2, q',
        .move move run, guarded⟩

theorem mem_step_iff : q' ∈ a.step current e ↔ ∃ q ∈ current, a.FreeMove q e q' := by
  simp only [step, outgoing, FreeMove, IdSet.mem_ofList, List.mem_flatMap, IdSet.mem_toList, List.mem_map, List.mem_filter,
    Bool.and_eq_true, Bool.not_eq_true', beq_iff_eq]
  apply exists_congr
  intro q
  apply and_congr_right
  intro _
  constructor
  · rintro ⟨t, ⟨⟨mem, source⟩, free, matching⟩, target⟩
    exact ⟨t, mem, source, free, matching, target⟩
  · rintro ⟨t, mem, source, free, matching, target⟩
    exact ⟨t, ⟨⟨mem, source⟩, free, matching⟩, target⟩

theorem meetsGuard_iff : a.meetsGuard current = true ↔ ∃ q ∈ current, a.GuardedAt q := by
  simp [meetsGuard, GuardedAt, IdSet.any_iff, outgoing]

/-- The states that are read next stand for all runs that have come so far. -/
theorem exists_mem_step_iff {P : StateId → Prop} :
    (∃ m ∈ a.step current e, P m) ↔ ∃ q ∈ current, ∃ m, a.FreeMove q e m ∧ P m := by
  constructor
  · rintro ⟨m, mem, holds⟩
    obtain ⟨q, here, move⟩ := mem_step_iff.1 mem
    exact ⟨q, here, m, move, holds⟩
  · rintro ⟨q, here, m, move, holds⟩
    exact ⟨m, mem_step_iff.2 ⟨q, here, move⟩, holds⟩

theorem acceptsFrom_eq_accept :
    a.acceptsFrom trace current guarded = .accept ↔ ∃ q ∈ current, a.Arrives q trace := by
  induction trace generalizing current guarded with
  | nil =>
    rw [acceptsFrom]
    simp only [arrives_nil, ← IdSet.any_iff]
    split
    next final => simp [final]
    next live => cases guarded <;> simp [live]
  | cons e trace ih =>
    rw [acceptsFrom]
    simp only [arrives_cons]
    split
    next final =>
      obtain ⟨q, here, final⟩ := IdSet.any_iff.1 final
      exact ⟨fun _ => ⟨q, here, .inl final⟩, fun _ => rfl⟩
    next live =>
      rw [ih, exists_mem_step_iff]
      apply exists_congr
      intro q
      apply and_congr_right
      intro here
      exact (or_iff_right fun final => live (IdSet.any_iff.2 ⟨q, here, final⟩)).symm

/-- What is not accepted is unknown if a guard was met before or is met on the way. -/
theorem acceptsFrom_eq_unknown (refused : ¬∃ q ∈ current, a.Arrives q trace) :
    a.acceptsFrom trace current guarded = .unknown ↔ guarded = true ∨ ∃ q ∈ current, a.FacesGuard q trace := by
  induction trace generalizing current guarded with
  | nil =>
    simp only [arrives_nil, ← IdSet.any_iff] at refused
    rw [acceptsFrom, if_neg refused]
    cases guarded <;> simp [not_facesGuard_nil]
  | cons e trace ih =>
    simp only [arrives_cons] at refused
    have live : ¬current.any a.isFinal = true := by
      intro final
      obtain ⟨q, here, final⟩ := IdSet.any_iff.1 final
      exact refused ⟨q, here, .inl final⟩
    have later : ¬∃ m ∈ a.step current e, a.Arrives m trace := by
      rw [exists_mem_step_iff]
      rintro ⟨q, here, arrives⟩
      exact refused ⟨q, here, .inr arrives⟩
    rw [acceptsFrom, if_neg live, ih later, Bool.or_eq_true, meetsGuard_iff, exists_mem_step_iff, or_assoc,
      ← exists_or]
    simp only [facesGuard_cons, and_or_left]

theorem isGuarded_of_facesGuard (faces : a.FacesGuard q trace) : a.isGuarded = true := by
  obtain ⟨_, _, _, _, _, t, mem, _, guarded⟩ := faces
  exact List.any_eq_true.2 ⟨t, mem, guarded⟩

theorem accepts_eq_accept_iff : a.accepts trace = .accept ↔ a.Arrives a.initial trace := by
  rw [accepts, acceptsFrom_eq_accept]
  simp

theorem accepts_eq_unknown_iff :
    a.accepts trace = .unknown ↔ ¬a.Arrives a.initial trace ∧ a.FacesGuard a.initial trace := by
  by_cases arrives : a.Arrives a.initial trace
  · simp [accepts_eq_accept_iff.2 arrives, arrives]
  · rw [accepts, acceptsFrom_eq_unknown (by simpa using arrives)]
    simp [arrives]

theorem accepts_eq_reject_iff :
    a.accepts trace = .reject ↔ ¬a.Arrives a.initial trace ∧ ¬a.FacesGuard a.initial trace := by
  have reject : a.accepts trace = .reject ↔ ¬a.accepts trace = .accept ∧ ¬a.accepts trace = .unknown := by
    cases a.accepts trace <;> simp
  rw [reject, accepts_eq_accept_iff, accepts_eq_unknown_iff]
  tauto

theorem accepts_ne_unknown (free : a.isGuarded = false) : a.accepts trace ≠ .unknown := by
  intro answer
  rw [isGuarded_of_facesGuard (accepts_eq_unknown_iff.1 answer).2] at free
  cases free

/-- The answer of an automaton to a trace. -/
theorem accepts_exact (a : Automaton) (trace : List EdgeId) :
    (a.accepts trace = .accept ↔ a.Arrives a.initial trace) ∧
    (a.accepts trace = .unknown ↔ ¬a.Arrives a.initial trace ∧ a.FacesGuard a.initial trace) ∧
    (a.accepts trace = .reject ↔ ¬a.Arrives a.initial trace ∧ ¬a.FacesGuard a.initial trace) ∧
    (a.isGuarded = false → a.accepts trace ≠ .unknown) :=
  ⟨accepts_eq_accept_iff, accepts_eq_unknown_iff, accepts_eq_reject_iff, accepts_ne_unknown⟩

/-- Without guards the automaton has an answer, although it does not accept. -/
theorem accepts_exact_reaching : (Automaton.reaching "G" 1).accepts [0] ≠ .unknown :=
  (accepts_exact (.reaching "G" 1) [0]).2.2.2 (not_guarded_reaching "G" 1)

end GoalCoverage.Automaton
