import GoalCoverage.Proofs.Automaton.Resolution
import GoalCoverage.Proofs.Automaton.Trim

/-!
Trimming and acceptance. A survivor makes its way to a final state as before, under every resolution of the guards, because
all that lies on such a way survives (`arrivesUnder_trim_iff`). The answers stay the same but for guards that lead nowhere:
when these are gone, an unknown answer may turn into a rejection (`trim_preserves`).
-/

namespace GoalCoverage.Automaton

variable {a : Automaton} {i j n : Nat} {q q' : StateId} {trace : List EdgeId} {ρ : Resolution}

theorem Via.linked {P : Label → Prop} (via : a.Via P q q') : a.Linked q q' := by
  obtain ⟨t, mem, source, _, target⟩ := via
  exact ⟨t, mem, source, target⟩

theorem guardedAt_iff_via : a.GuardedAt q ↔ ∃ q', a.Via (fun l => l.isGuarded = true) q q' := by
  constructor
  · rintro ⟨t, mem, source, guarded⟩
    exact ⟨t.target, t, mem, source, guarded, rfl⟩
  · rintro ⟨_, t, mem, source, guarded, _⟩
    exact ⟨t, mem, source, guarded⟩

theorem linked_iff_via : a.Linked q q' ↔ a.Via (fun _ => True) q q' := by simp [Linked, Via]

theorem mem_useful_of_path (final : a.isFinal q' = true) (path : Relation.ReflTransGen a.Linked q q') : q ∈ a.useful :=
  mem_useful_iff.2 ⟨q', final, path⟩

theorem mem_useful_of_linked (link : a.Linked q q') (useful : q' ∈ a.useful) : q ∈ a.useful := by
  obtain ⟨f, final, path⟩ := mem_useful_iff.1 useful
  exact mem_useful_of_path final (path.head link)

theorem isDegenerate_iff : a.isDegenerate = true ↔ a.initial ∉ a.useful := by
  rw [isDegenerate, IdSet.isEmpty_iff, mem_useful_iff]
  simp only [IdSet.mem_inter, mem_reachable_iff, not_and, not_exists, isFinal, IdSet.contains_iff]
  exact forall_congr' fun _ => imp_not_comm

theorem passesUnder_trim (here : a.kept.get? i = some q) (final : a.isFinal q' = true)
    (passes : a.PassesUnder ρ n q trace q') :
    ∃ j, a.trim.PassesUnder ρ n i trace j ∧ a.kept.get? j = some q' := by
  refine passes.simulated (fun i q => a.kept.get? i = some q) ?_ here
  intro n q e m i stands via rest
  have path : Relation.ReflTransGen a.Linked m q' :=
    Relation.ReflTransGen.mono (fun _ _ ⟨_, _, via⟩ => via.linked) _ _ rest
  obtain ⟨j, there⟩ := exists_kept stands via.linked (mem_useful_of_path final path)
  exact ⟨j, via_trim.2 ⟨q, m, stands, there, via⟩, there⟩

theorem passesUnder_of_trim (here : a.kept.get? i = some q) (passes : a.trim.PassesUnder ρ n i trace j) :
    ∃ q', a.PassesUnder ρ n q trace q' ∧ a.kept.get? j = some q' := by
  refine passes.simulated (fun q i => a.kept.get? i = some q) ?_ here
  intro n i e k q stands via _
  obtain ⟨q₁, m, source, target, via⟩ := via_trim.1 via
  rw [stands] at source
  cases source
  exact ⟨m, via, target⟩

theorem arrivesUnder_trim_iff (here : a.kept.get? i = some q) :
    a.trim.ArrivesUnder ρ n i trace ↔ a.ArrivesUnder ρ n q trace := by
  constructor
  · rintro ⟨u, start, j, passes, final⟩
    obtain ⟨q', passes, there⟩ := passesUnder_of_trim here passes
    exact ⟨u, start, q', passes, (isFinal_trim there).symm.trans final⟩
  · rintro ⟨u, start, q', passes, final⟩
    obtain ⟨j, passes, there⟩ := passesUnder_trim here final passes
    exact ⟨u, start, j, passes, (isFinal_trim there).trans final⟩

theorem arrives_trim_iff (here : a.kept.get? i = some q) : a.trim.Arrives i trace ↔ a.Arrives q trace := by
  rw [arrives_iff (n := 0), arrives_iff (n := 0), arrivesUnder_trim_iff here]

theorem GuardedAt.of_trim (here : a.kept.get? i = some q) (guarded : a.trim.GuardedAt i) : a.GuardedAt q := by
  obtain ⟨j, via⟩ := guardedAt_iff_via.1 guarded
  obtain ⟨q₁, q', source, _, via⟩ := via_trim.1 via
  rw [here] at source
  cases source
  exact guardedAt_iff_via.2 ⟨q', via⟩

theorem FacesGuard.of_trim (here : a.kept.get? i = some q) (faces : a.trim.FacesGuard i trace) : a.FacesGuard q trace := by
  obtain ⟨u, start, short, j, run, guarded⟩ := faces
  obtain ⟨q', passes, there⟩ := passesUnder_of_trim here (freeRun_iff (n := 0).1 run)
  exact ⟨u, start, short, q', freeRun_iff.2 passes, guarded.of_trim there⟩

theorem mem_useful_trim_iff (here : a.kept.get? i = some q) : i ∈ a.trim.useful ↔ q ∈ a.useful := by
  constructor
  · intro useful
    obtain ⟨f, final, path⟩ := mem_useful_iff.1 useful
    clear useful
    induction path using Relation.ReflTransGen.head_induction_on generalizing q with
    | refl =>
      rw [isFinal_trim here] at final
      exact mem_useful_of_path final .refl
    | head link _ ih =>
      obtain ⟨q₁, m, source, target, via⟩ := via_trim.1 (linked_iff_via.1 link)
      rw [here] at source
      cases source
      exact mem_useful_of_linked via.linked (ih target)
  · intro useful
    obtain ⟨f, final, path⟩ := mem_useful_iff.1 useful
    clear useful
    induction path using Relation.ReflTransGen.head_induction_on generalizing i with
    | refl => exact mem_useful_of_path ((isFinal_trim here).trans final) .refl
    | head link rest ih =>
      obtain ⟨k, there⟩ := exists_kept here link (mem_useful_of_path final rest)
      have via := via_trim.2 ⟨_, _, here, there, linked_iff_via.1 link⟩
      exact mem_useful_of_linked via.linked (ih there)

theorem not_guarded_trim (free : a.isGuarded = false) : a.trim.isGuarded = false := by
  have each : ∀ t ∈ a.trim.transitions, t.label.isGuarded = false :=
    label_of_mem_keeping (P := fun l => l.isGuarded = false) fun t => not_guarded_of_mem free
  simpa [isGuarded] using each

/-- A trimmed automaton stands for the same goal. -/
theorem trim_preserves (a : Automaton) :
    (∀ trace ρ, a.trim.ArrivesUnder ρ 0 a.trim.initial trace ↔ a.ArrivesUnder ρ 0 a.initial trace) ∧
    (∀ trace, a.trim.accepts trace = .accept ↔ a.accepts trace = .accept) ∧
    (∀ trace, a.accepts trace = .reject → a.trim.accepts trace = .reject) ∧
    (a.isGuarded = false → ∀ trace, a.trim.accepts trace = a.accepts trace) ∧
    a.trim.isDegenerate = a.isDegenerate ∧
    (∀ trace, a.trim.accepts trace = .reject → a.accepts trace = .unknown →
      ∀ ρ, ¬a.ArrivesUnder ρ 0 a.initial trace) := by
  have start : a.kept.get? a.trim.initial = some a.initial := get?_kept_zero
  have accept : ∀ trace, a.trim.accepts trace = .accept ↔ a.accepts trace = .accept := fun trace => by
    rw [accepts_eq_accept_iff, accepts_eq_accept_iff, arrives_trim_iff start]
  refine ⟨fun trace ρ => arrivesUnder_trim_iff start, accept, fun trace answer => ?_, fun free trace => ?_, ?_,
    fun trace answer _ ρ => ?_⟩
  · obtain ⟨notArrives, notFaces⟩ := accepts_eq_reject_iff.1 answer
    exact accepts_eq_reject_iff.2 ⟨fun arrives => notArrives ((arrives_trim_iff start).1 arrives),
      fun faces => notFaces (faces.of_trim start)⟩
  · -- Without guards there are two answers, and both automata accept the same traces.
    have known : a.accepts trace ≠ .unknown := accepts_ne_unknown free
    have known' : a.trim.accepts trace ≠ .unknown := accepts_ne_unknown (not_guarded_trim free)
    have same := accept trace
    revert known known' same
    cases a.trim.accepts trace <;> cases a.accepts trace <;> simp
  · rw [Bool.eq_iff_iff, isDegenerate_iff, isDegenerate_iff, mem_useful_trim_iff start]
  · rw [← arrivesUnder_trim_iff start]
    exact not_arrivesUnder_of_reject answer

/-- Edge 0 leads to the final state, by either of two transitions, and edge 1 under an assumption to a dead end. -/
def straying : Automaton :=
  { name := "G", size := 4, initial := 2, finals := .singleton 1
    transitions := [⟨2, 1, .single 0⟩, ⟨2, 3, ⟨.only (.singleton 1), [.predicate "x > 0"]⟩⟩, ⟨2, 1, .single 0⟩]
    initial_lt := by decide
    finals_lt := by decide
    transitions_lt := by decide }

/-- The guard of the dead end is all that leaves an answer open. -/
theorem trim_preserves_straying :
    straying.trim.transitions = [⟨0, 1, .single 0⟩] ∧
    straying.trim.accepts [] = .reject ∧
    (straying.accepts [1] = .unknown ∧ straying.trim.accepts [1] = .reject ∧ ∀ ρ, ¬straying.ArrivesUnder ρ 0 2 [1]) ∧
    (reaching "G" 1).trim.accepts [0] = (reaching "G" 1).accepts [0] := by
  have unknown : straying.accepts [1] = .unknown := by decide
  have rejected : straying.trim.accepts [1] = .reject := by decide +kernel
  refine ⟨by decide +kernel, (trim_preserves straying).2.2.1 [] (by decide), ⟨unknown, rejected, ?_⟩, ?_⟩
  · exact (trim_preserves straying).2.2.2.2.2 [1] rejected unknown
  · exact (trim_preserves (reaching "G" 1)).2.2.2.1 rfl [0]

end GoalCoverage.Automaton
