import GoalCoverage.Proofs.Suite.Conservation
import GoalCoverage.Proofs.Suite.Operations

/-!
Suites in order. If callers name only regions of the diagram, whatever they do leaves test cases with different numbers,
coverings of known goals by stored test cases, and regions of the diagram (`Orderly.run`).
-/

namespace GoalCoverage

namespace Goal

variable {γ : Goal} {r : Region}

theorem mem_coveredRegions : r ∈ γ.coveredRegions ↔ ∃ n o, γ.covering.get? n = some o ∧ o.getD .all = r := by
  simp only [coveredRegions, IdMap.values, List.mem_map, IdMap.get?_eq_some_iff]
  constructor
  · rintro ⟨o, ⟨e, mem, rfl⟩, rfl⟩
    exact ⟨e.1, e.2, mem, rfl⟩
  · rintro ⟨n, o, mem, rfl⟩
    exact ⟨o, ⟨(n, o), mem, rfl⟩, rfl⟩

/-- The regions that a goal comes with. -/
def regions (γ : Goal) : List Region := γ.remaining.toList ++ γ.infeasible.toList ++ γ.coveredRegions

end Goal

namespace Diagram

variable {d : Diagram} {region : Option Region} {γ : Goal}

theorem knows_iff : d.Knows region ↔ ∀ r ∈ region.toList, d.Has r := by simp [Knows]

theorem has_regions : (∀ r ∈ γ.regions, d.Has r) ↔ (d.Knows γ.remaining ∧ d.Knows γ.infeasible) ∧
    ∀ n o, γ.covering.get? n = some o → d.Has (o.getD .all) := by
  rw [Goal.regions, List.forall_mem_append, List.forall_mem_append, knows_iff, knows_iff]
  apply and_congr_right
  intro _
  simp only [Goal.mem_coveredRegions]
  exact ⟨fun has n o entry => has _ ⟨n, o, entry, rfl⟩, fun has r ⟨n, o, entry, is⟩ => is ▸ has n o entry⟩

end Diagram

namespace Suite

open Diagram

variable {s s' : Suite} {d d' : Diagram} {i n : Nat} {γ : Goal} {region : Option Region} {o : Operation}

/-- The regions that come with an operation. -/
def Operation.brings : Operation → List Region
  | post (.goals gs) => gs.flatMap Goal.regions
  | post (.testCase _ _ region) | post (.coverage _ _ region) | post (.infeasible _ region) => region.toList
  | post (.ask request) => request.arguments
  | _ => []

/-- What holds of a suite at any time if its callers name only regions of the diagram. -/
structure Orderly (s : Suite) (d : Diagram) : Prop where
  drawn : s.Drawn d
  charted : s.Charted d
  distinct : (s.testCases.map (·.id)).Nodup
  known : ∀ i n, s.Lists i n → ∃ γ, s.goals.get? i = some γ
  stored : ∀ i n, s.Lists i n → n ∈ s.testCases.map (·.id)

theorem orderly_start (variability : Bool) : ({ variability } : Suite).Orderly .fresh where
  drawn :=
    { index := fun i γ here => by cases here
      opened := fun _ i γ here => by cases here
      excluded := fun _ i γ here => by cases here
      ready := fun _ => wellFormed_fresh }
  charted _ i γ n o here := by cases here
  distinct := .nil
  known i n lists := by simp [Lists] at lists
  stored i n lists := by simp [Lists] at lists

namespace Orderly

variable (orderly : s.Orderly d)

include orderly

theorem grow (ext : s.variability = true → d.Extends d') (ready : d'.Ready s.variability) : s.Orderly d' where
  drawn := orderly.drawn.extends ext ready
  charted tracks i γ n o here entry := (ext tracks).has (orderly.charted tracks i γ n o here entry)
  distinct := orderly.distinct
  known := orderly.known
  stored := orderly.stored

/-- Only goals, the numbers of test cases and what they cover matter. -/
theorem congr (variability : s'.variability = s.variability) (goals : s'.goals = s.goals)
    (ids : s'.testCases.map (·.id) = s.testCases.map (·.id)) (coveredBy : s'.coveredBy = s.coveredBy) : s'.Orderly d where
  drawn := ⟨goals ▸ orderly.drawn.index, variability ▸ goals ▸ orderly.drawn.opened,
    variability ▸ goals ▸ orderly.drawn.excluded, variability ▸ orderly.drawn.ready⟩
  charted := by
    rw [Charted, variability, goals]
    exact orderly.charted
  distinct := ids ▸ orderly.distinct
  known i n lists := by
    rw [Lists, coveredBy] at lists
    rw [goals]
    exact orderly.known i n lists
  stored i n lists := by
    rw [Lists, coveredBy] at lists
    rw [ids]
    exact orderly.stored i n lists

theorem store (tc : TestCase) : (s.stored tc).Orderly d := by
  have others := stored_eq s tc
  have variability : (s.stored tc).variability = s.variability := by rw [others]
  refine ⟨⟨?_, ?_, ?_, ?_⟩, ?_, nodup_stored orderly.distinct, fun i n lists => ?_, fun i n lists => ?_⟩
  · exact goals_stored s tc ▸ orderly.drawn.index
  · exact variability ▸ goals_stored s tc ▸ orderly.drawn.opened
  · exact variability ▸ goals_stored s tc ▸ orderly.drawn.excluded
  · exact variability ▸ orderly.drawn.ready
  · rw [Charted, variability, goals_stored]
    exact orderly.charted
  · rw [lists_stored] at lists
    rw [goals_stored]
    exact orderly.known i n lists
  · rw [lists_stored] at lists
    exact ((prefix_stored s tc).map _).subset (orderly.stored i n lists)

theorem coverage (known : s.variability = true → d.Knows region) (ok : s.recordCoverage n i region d = .ok (s', d')) :
    s'.Orderly d' := by
  obtain ⟨develops, testCases⟩ := recordCoverage_develops orderly.drawn known ok
  have stored := stored_of_recordCoverage ok
  refine ⟨develops.drawn, fun tracks j γ' m o here entry => ?_, testCases ▸ orderly.distinct, fun j m lists => ?_,
    fun j m lists => ?_⟩
  · have tracked : s.variability = true := develops.variability ▸ tracks
    obtain ⟨γ, before, entry⟩ | ⟨_, _, rfl⟩ := recordCoverage_covering orderly.drawn ok here entry
    · exact (develops.grows tracked).has (orderly.charted tracked j γ m o before entry)
    · have has : d.Has (region.getD .all) := has_getD orderly.drawn.ready known tracked
      rw [if_pos tracked]
      exact (develops.grows tracked).has has
  · obtain ⟨γ, γ', here, _, _, _, rfl, _⟩ := recordCoverage_eq_ok ok
    obtain old | ⟨rfl, _⟩ := (lists_insert rfl j m).1 lists
    · obtain ⟨γ₁, before⟩ := orderly.known j m old
      exact develops.known j γ₁ before
    · exact develops.known j γ here
  · obtain ⟨γ, γ', here, _, _, _, rfl, _⟩ := recordCoverage_eq_ok ok
    obtain old | ⟨_, rfl⟩ := (lists_insert rfl j m).1 lists
    · exact orderly.stored j m old
    · obtain ⟨tc, found⟩ := Option.isSome_iff_exists.1 stored
      obtain ⟨mem, same⟩ := testCase?_eq_some found
      exact List.mem_map.2 ⟨tc, mem, same⟩

theorem infeasible (known : s.variability = true → d.Knows region) (ok : s.addInfeasible i region d = .ok (s', d')) :
    s'.Orderly d' := by
  obtain ⟨develops, testCases, _⟩ := addInfeasible_develops orderly.drawn known ok
  have before : ∀ j m, s'.Lists j m → s.Lists j m := fun j m lists => (develops.covered j m lists).resolve_right id
  refine ⟨develops.drawn, fun tracks j γ' m o here entry => ?_, testCases ▸ orderly.distinct, fun j m lists => ?_,
    fun j m lists => testCases ▸ orderly.stored j m (before j m lists)⟩
  · have tracked : s.variability = true := develops.variability ▸ tracks
    obtain ⟨γ, there, covering⟩ := addInfeasible_covering orderly.drawn ok here
    rw [covering] at entry
    exact (develops.grows tracked).has (orderly.charted tracked j γ m o there entry)
  · obtain ⟨γ, there⟩ := orderly.known j m (before j m lists)
    exact develops.known j γ there

theorem addGoal (has : s.variability = true → ∀ r ∈ γ.regions, d.Has r) : (s.addGoal γ).Orderly d := by
  have parts := fun tracks => has_regions.1 (has tracks)
  have brought : ∀ j γ', (s.addGoal γ).goals.get? j = some γ' → s.goals.get? j = some γ' ∨
      γ'.index = j ∧ γ'.infeasible = γ.infeasible ∧ γ'.covering = γ.covering ∧
        (s.variability = true → γ'.remaining = some γ.openRegion) := by
    intro j γ' here
    rw [get?_addGoal] at here
    split at here
    next is =>
      cases here
      subst is
      refine .inr ⟨?_, ?_, ?_, fun tracks => ?_⟩
      · split <;> rfl
      · split <;> rfl
      · split <;> rfl
      · rw [tracks, Goal.openRegion]
        cases before : γ.remaining <;> simp [before]
    next => exact .inl here
  have same : (s.addGoal γ).variability = s.variability ∧ (s.addGoal γ).testCases = s.testCases := by
    rw [addGoal_eq]
    exact ⟨rfl, rfl⟩
  have lists : ∀ j n, (s.addGoal γ).Lists j n ↔ s.Lists j n := by
    intro j n
    rw [addGoal_eq]
    exact Iff.rfl
  obtain ⟨variability, testCases⟩ := same
  refine ⟨⟨fun j γ' here => ?_, fun tracks j γ' here => ?_, fun tracks j γ' here => ?_, ?_⟩,
    fun tracks j γ' n o here entry => ?_, testCases ▸ orderly.distinct, fun j n listed => ?_, fun j n listed => ?_⟩
  · exact (brought j γ' here).elim (orderly.drawn.index j γ') (·.1)
  · rw [variability] at tracks
    obtain old | ⟨_, _, _, remaining⟩ := brought j γ' here
    · exact orderly.drawn.opened tracks j γ' old
    · exact ⟨_, remaining tracks, has_getD orderly.drawn.ready (fun tracks => (parts tracks).1.1) tracks⟩
  · rw [variability] at tracks
    obtain old | ⟨_, infeasible, _⟩ := brought j γ' here
    · exact orderly.drawn.excluded tracks j γ' old
    · exact infeasible ▸ (parts tracks).1.2
  · exact variability ▸ orderly.drawn.ready
  · rw [variability] at tracks
    obtain old | ⟨_, _, covering, _⟩ := brought j γ' here
    · exact orderly.charted tracks j γ' n o old entry
    · exact (parts tracks).2 n o (covering ▸ entry)
  · obtain ⟨γ₁, there⟩ := orderly.known j n ((lists j n).1 listed)
    rw [get?_addGoal]
    split
    next => exact ⟨_, rfl⟩
    next => exact ⟨γ₁, there⟩
  · rw [testCases]
    exact orderly.stored j n ((lists j n).1 listed)

theorem addGoals {gs : List Goal} (has : s.variability = true → ∀ r ∈ gs.flatMap Goal.regions, d.Has r) :
    (s.addGoals gs).Orderly d := by
  induction gs generalizing s with
  | nil => exact orderly
  | cons γ rest ih =>
    have variability : (s.addGoal γ).variability = s.variability := by rw [addGoal_eq]
    rw [List.flatMap_cons, List.forall_mem_append] at has
    exact ih (orderly.addGoal fun tracks => (has tracks).1) fun tracks => (has (variability ▸ tracks)).2

/-- No operation that succeeds brings a suite out of order. -/
theorem run (has : s.variability = true → ∀ r ∈ o.brings, d.Has r) (ok : o.run s d = .ok (s', d')) : s'.Orderly d' := by
  cases o with
  | post p =>
    cases p with
    | goals gs =>
      obtain ⟨rfl, rfl⟩ := pure_eq_ok.1 ok
      exact orderly.addGoals has
    | testCase t g region =>
      have variability : (s.stored t).variability = s.variability := by rw [stored_eq]
      exact (orderly.store t).coverage (fun tracks => knows_iff.2 (has (variability ▸ tracks))) ok
    | coverage n g region => exact orderly.coverage (fun tracks => knows_iff.2 (has tracks)) ok
    | infeasible g region => exact orderly.infeasible (fun tracks => knows_iff.2 (has tracks)) ok
    | ask request =>
      cases ok
      have granted := fun tracks => grants_perform (orderly.drawn.ready tracks) request (has tracks)
      exact orderly.grow (fun tracks => (granted tracks).grows) fun tracks => (granted tracks).wellFormed
  | timeOut entries =>
    obtain ⟨rfl, rfl⟩ := pure_eq_ok.1 ok
    exact orderly.congr rfl rfl rfl rfl
  | takeTimedOut =>
    obtain ⟨rfl, rfl⟩ := pure_eq_ok.1 ok
    exact orderly.congr rfl rfl rfl rfl
  | predict g p =>
    obtain ⟨rfl, rfl⟩ := pure_eq_ok.1 ok
    exact orderly.congr rfl rfl rfl rfl

end Orderly

end Suite

end GoalCoverage
