import GoalCoverage.Proofs.Automaton.Resolution
import GoalCoverage.Proofs.Observer

/-!
Products track goals. Under every resolution of the guards, the goals that a product accepts after a trace are those of the
components with a run to a final state, as long as all components have a run at all; otherwise the product has none
(`ofComponents_tracks`).
-/

namespace GoalCoverage

namespace Product

variable {components : List Component} {p : Product} {inSets : Bool} {ρ : Resolution} {trace : List EdgeId} {g : Nat}

/-- Some state that an observer comes to along the trace accepts the goal. -/
def AcceptsUnder (p : Product) (inSets : Bool) (ρ : Resolution) (trace : List EdgeId) (g : Nat) : Prop :=
  ∃ q, (Observer.product p inSets).RunUnder ρ trace q ∧ g ∈ p.acceptingAt q

theorem acceptsUnder_iff {name : String} (ok : ofComponents name components = .ok p)
    (runs : ∀ c ∈ components, ∃ q, c.automaton.RunUnder ρ trace q) :
    p.AcceptsUnder inSets ρ trace g ↔ ∃ c ∈ components, c.goal = g ∧ c.automaton.RecognizesUnder ρ trace := by
  constructor
  · rintro ⟨q, run, accepted⟩
    exact sound_under ok run accepted
  · rintro ⟨c, mem, rfl, q, run, final⟩
    exact complete_under ok mem run final runs

theorem exists_run_of_runUnder {name : String} {i : StateId} (ok : ofComponents name components = .ok p)
    (run : (Observer.product p inSets).RunUnder ρ trace i) {c : Component} (mem : c ∈ components) :
    ∃ q, c.automaton.RunUnder ρ trace q := by
  obtain ⟨last, _, runs⟩ := Observer.joined_of_runUnder ok run
  obtain ⟨q, _, run⟩ := exists_of_forall₂_right runs.flip mem
  exact ⟨q, run⟩

/-- A product tracks the goals of its components. -/
theorem ofComponents_tracks (name : String) (components : List Component) (inhabited : components ≠ []) :
    ∃ p, ofComponents name components = .ok p ∧
      -- The search for tuples ends by itself.
      (∀ more, Unfolding.complete components (Unfolding.capacity components + more) 0
        (.ofList [Unfolding.initial components]) = Unfolding.tuples components) ∧
      ∀ inSets ρ trace g,
        ((∀ c ∈ components, ∃ q, c.automaton.RunUnder ρ trace q) →
          (p.AcceptsUnder inSets ρ trace g ↔ ∃ c ∈ components, c.goal = g ∧ c.automaton.RecognizesUnder ρ trace)) ∧
        ((∃ c ∈ components, ∀ q, ¬c.automaton.RunUnder ρ trace q) → ¬p.AcceptsUnder inSets ρ trace g) ∧
        ((∀ c ∈ components, c.automaton.Ready ρ trace) →
          (p.AcceptsUnder inSets ρ trace g ↔
            ∃ c ∈ components, c.goal = g ∧ c.automaton.ArrivesUnder ρ 0 c.automaton.initial trace)) := by
  obtain ⟨p, ok⟩ : ∃ p, ofComponents name components = .ok p := by
    rw [ofComponents, if_neg (by simpa using inhabited)]
    exact ⟨_, rfl⟩
  refine ⟨p, ok, fun more => Unfolding.complete_add _ more Unfolding.fits_start (Nat.le_refl _), fun inSets ρ trace g => ?_⟩
  refine ⟨acceptsUnder_iff ok, ?_, fun ready => ?_⟩
  · rintro ⟨c, mem, stuck⟩ ⟨i, run, _⟩
    obtain ⟨q, run⟩ := exists_run_of_runUnder ok run mem
    exact stuck q run
  · rw [acceptsUnder_iff ok fun c mem => (ready c mem).exists_run]
    simp only [Automaton.recognizesUnder_iff]

/-- Two components of one goal, the first of them with a guard, and one of another goal. -/
def tracked : List Component := [⟨1, .assuming⟩, ⟨2, .reaching "H" 0⟩, ⟨1, .reaching "G" 7⟩]

theorem runUnder_assuming : Automaton.assuming.RunUnder (fun n _ => n = 1) [1, 0] 1 :=
  ⟨2, by decide, 1, by decide, rfl⟩

theorem not_runUnder_assuming {ρ : Resolution} (q : StateId) : ¬Automaton.assuming.RunUnder ρ [0, 0] q := by
  rintro ⟨m, goes, _⟩
  rw [Automaton.goes_of_not_final (by decide)] at goes
  obtain ⟨t, mem, source, ⟨matching, _⟩, _⟩ := goes
  have stuck : ∀ t ∈ Automaton.assuming.transitions, t.source = 0 → t.label.contains 0 = false := by decide
  rw [stuck t mem source] at matching
  cases matching

/-- A component that gets stuck takes the product with it; components that are ready do not interfere. -/
theorem ofComponents_tracks_assuming :
    (∃ p, ofComponents "P" tracked = .ok p ∧ p.AcceptsUnder true (fun n _ => n = 1) [1, 0] 1 ∧
      ¬p.AcceptsUnder true (fun n _ => n = 1) [0, 0] 2) ∧
    ∃ p, ofComponents "P" tracked.tail = .ok p ∧
      p.AcceptsUnder false (fun _ _ => False) [1, 0] 2 ∧ ¬p.AcceptsUnder false (fun _ _ => False) [1, 0] 1 := by
  have ready : ∀ (ρ : Resolution), ∀ c ∈ tracked.tail, c.automaton.Ready ρ [1, 0] := by
    intro ρ
    simp only [tracked, List.tail_cons, List.forall_mem_cons]
    refine ⟨?_, ?_, by simp⟩
    · exact (Automaton.total_reaching "H" 0 2).ready (by decide) (by simp [Automaton.reaching, Label.any, Label.single])
    · exact (Automaton.total_reaching "G" 7 2).ready (by decide) (by simp [Automaton.reaching, Label.any, Label.single])
  constructor
  · obtain ⟨p, ok, _, tracks⟩ := ofComponents_tracks "P" tracked (by simp [tracked])
    have runs : ∀ c ∈ tracked, ∃ q, c.automaton.RunUnder (fun n _ => n = 1) [1, 0] q :=
      List.forall_mem_cons.2 ⟨⟨1, runUnder_assuming⟩, fun c mem => (ready _ c mem).exists_run⟩
    refine ⟨p, ok, ((tracks true _ [1, 0] 1).1 runs).2 ?_, (tracks true _ [0, 0] 2).2.1 ?_⟩
    · exact ⟨⟨1, .assuming⟩, List.mem_cons_self, rfl, 1, runUnder_assuming, by decide⟩
    · exact ⟨⟨1, .assuming⟩, List.mem_cons_self, not_runUnder_assuming⟩
  · obtain ⟨p, ok, _, tracks⟩ := ofComponents_tracks "P" tracked.tail (by simp [tracked])
    have accepts : ∀ g, p.AcceptsUnder false (fun _ _ => False) [1, 0] g ↔ ∃ c ∈ tracked.tail, c.goal = g ∧
        c.automaton.accepts [1, 0] = .accept := fun g => by
      rw [(tracks false (fun _ _ => False) [1, 0] g).2.2 (ready _)]
      simp only [Automaton.accepts_eq_accept_iff, Automaton.arrives_iff (n := 0)]
    exact ⟨p, ok, (accepts 2).2 (by decide), fun accepted => absurd ((accepts 1).1 accepted) (by decide)⟩

end Product

end GoalCoverage
