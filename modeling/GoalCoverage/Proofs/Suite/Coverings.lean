import GoalCoverage.Proofs.Suite.Progress
import Mathlib.Data.List.Nodup

/-!
The coverings of goals. Recording coverage enters one test case for one goal, and marking a goal as infeasible enters
none; without configurations neither of them works on regions.
-/

namespace GoalCoverage.Suite

open Diagram

variable {s s' : Suite} {d d' : Diagram} {i j m n : Nat} {γ γ' : Goal} {region o : Option Region} {tc : TestCase}

theorem mem_goalsCoveredBy : i ∈ s.goalsCoveredBy n ↔ s.Lists i n := by
  simp only [goalsCoveredBy, IdMap.mem_keys, IdMap.get?_filter, Lists, Option.filter_eq_some_iff, IdSet.contains_iff]

/-- The regions of all coverings belong to the diagram. -/
def Charted (s : Suite) (d : Diagram) : Prop :=
  s.variability = true → ∀ i γ n o, s.goals.get? i = some γ → γ.covering.get? n = some o → d.Has (o.getD .all)

theorem Sane.charted (sane : s.Sane d) : s.Charted d := by
  intro tracks i γ n o here entry
  obtain ⟨_, r, rfl, has⟩ := sane.covering tracks i γ n o here entry
  exact has

theorem isCovered_of_not_tracks (tracks : s.variability = false) :
    s.isCovered i d = .ok (s.isPartiallyCovered i, d) := by
  rw [isCovered, tracks]
  cases s.isPartiallyCovered i <;> rfl

theorem isCovered_of_none (uncovered : s.isPartiallyCovered i = false) : s.isCovered i d = .ok (false, d) := by
  simp only [isCovered, uncovered, Bool.not_false, if_true]
  rfl

theorem get?_setGoal (index : γ.index = i) (same : γ.SameAs γ') :
    (s.setGoal γ').goals.get? j = if j = i then some γ' else s.goals.get? j := by
  rw [setGoal, IdMap.get?_insert, same.index, index]

/-- Where an entry comes from once coverage is recorded. -/
theorem recordCoverage_covering (drawn : s.Drawn d) (ok : s.recordCoverage n i region d = .ok (s', d'))
    (known : s'.goals.get? j = some γ') (entry : γ'.covering.get? m = some o) :
    (∃ γ, s.goals.get? j = some γ ∧ γ.covering.get? m = some o) ∨
      j = i ∧ m = n ∧ o = if s.variability then some (region.getD .all) else none := by
  obtain ⟨γ, γ₁, here, same, _, covering, rfl, _⟩ := recordCoverage_eq_ok ok
  have goals : (if j = i then some γ₁ else s.goals.get? j) = some γ' := (get?_setGoal (drawn.index i γ here) same).symm.trans known
  split at goals
  next at_i =>
    cases goals
    rw [covering, IdMap.get?_insert] at entry
    split at entry
    next at_n => exact .inr ⟨at_i, at_n, (Option.some.inj entry).symm⟩
    next => exact .inl ⟨γ, at_i ▸ here, entry⟩
  next => exact .inl ⟨γ', goals, entry⟩

/-- Only a stored test case is recorded. -/
theorem stored_of_recordCoverage (ok : s.recordCoverage n i region d = .ok (s', d')) : (s.testCase? n).isSome = true := by
  rw [recordCoverage] at ok
  split at ok
  next => cases ok
  next known => rwa [Bool.not_eq_true, Option.isNone_eq_false_iff] at known

theorem recordCoverage_testCases (ok : s.recordCoverage n i region d = .ok (s', d')) : s'.testCases = s.testCases := by
  obtain ⟨γ, γ', _, _, _, _, rfl, _⟩ := recordCoverage_eq_ok ok
  rfl

theorem recordCoverage_still (plain : s.variability = false) (ok : s.recordCoverage n i region d = .ok (s', d')) :
    d' = d := by
  obtain ⟨γ, γ', _, _, _, _, _, _, kept⟩ := recordCoverage_eq_ok ok
  exact (kept plain).2

/-- How a goal is marked as infeasible, if it is. -/
theorem addInfeasible_eq_ok (ok : s.addInfeasible i region d = .ok (s', d')) :
    (s.variability = true ∧ ∃ γ γ', s.goals.get? i = some γ ∧ γ.SameAs γ' ∧ γ'.covering = γ.covering ∧
      s' = ({ s with infeasible := s.infeasible.insert i }.predict i .infeasible).setGoal γ') ∨
    (s.variability = false ∧ s' = { s with infeasible := s.infeasible.insert i }.predict i .infeasible ∧ d' = d) := by
  simp only [addInfeasible] at ok
  split at ok
  next tracks =>
    obtain ⟨γ, found, ok⟩ := lift_bind_eq_ok.1 ok
    refine .inl ⟨tracks, γ, ?_⟩
    cases before : γ.infeasible with
    | some old =>
      simp only [before] at ok
      rw [state_bind_eq_ok, state_bind_eq_ok, pure_eq_ok] at ok
      refine ⟨_, goal_of_eq_ok found, ?_, ?_, ok.1.symm⟩
      · exact ⟨rfl, rfl, rfl, rfl, rfl⟩
      · rfl
    | none =>
      simp only [before] at ok
      obtain ⟨u, d₁, _, ok⟩ := bind_eq_ok.1 ok
      rw [state_bind_eq_ok, pure_eq_ok] at ok
      refine ⟨_, goal_of_eq_ok found, ?_, ?_, ok.1.symm⟩
      · exact ⟨rfl, rfl, rfl, rfl, rfl⟩
      · rfl
  next plain =>
    rw [pure_eq_ok] at ok
    exact .inr ⟨Bool.eq_false_iff.2 plain, ok.1.symm, ok.2.symm⟩

theorem addInfeasible_covering (drawn : s.Drawn d) (ok : s.addInfeasible i region d = .ok (s', d'))
    (known : s'.goals.get? j = some γ') : ∃ γ, s.goals.get? j = some γ ∧ γ'.covering = γ.covering := by
  obtain ⟨_, γ, γ₁, here, same, covering, rfl⟩ | ⟨_, rfl, _⟩ := addInfeasible_eq_ok ok
  · have goals : (if j = i then some γ₁ else s.goals.get? j) = some γ' := (get?_setGoal (drawn.index i γ here) same).symm.trans known
    split at goals
    next at_i =>
      cases goals
      exact ⟨γ, at_i ▸ here, covering⟩
    next => exact ⟨γ', goals, rfl⟩
  · exact ⟨γ', known, rfl⟩

theorem addInfeasible_still (plain : s.variability = false) (ok : s.addInfeasible i region d = .ok (s', d')) : d' = d := by
  obtain ⟨tracks, _⟩ | ⟨_, _, same⟩ := addInfeasible_eq_ok ok
  · rw [plain] at tracks
    cases tracks
  · exact same

/-- A test case is found by its number if no other has that number. -/
theorem testCase?_eq_of_mem (distinct : (s.testCases.map (·.id)).Nodup) (mem : tc ∈ s.testCases) :
    s.testCase? tc.id = some tc := by
  have stored := testCase?_isNone ⟨tc, mem, rfl⟩
  rw [Option.isNone_eq_false_iff, Option.isSome_iff_exists] at stored
  obtain ⟨tc', found⟩ := stored
  obtain ⟨mem', same⟩ := testCase?_eq_some found
  rw [found, List.inj_on_of_nodup_map distinct mem' mem same]

end GoalCoverage.Suite
