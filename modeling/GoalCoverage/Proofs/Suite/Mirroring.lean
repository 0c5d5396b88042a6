import GoalCoverage.Proofs.Suite.Conservation
import GoalCoverage.Proofs.Suite.Operations

/-!
Suites with and without configurations. A suite that tracks configurations, but is never told of a part of them, answers every
question as a suite without configurations does (`operations_mirror`). The one looks at the regions that are left or covered,
the other at the test cases that it lists.
-/

namespace GoalCoverage

theorem IdMap.contains_insert_of_contains {α : Type} {m : IdMap α} {k k' : Nat} {v : α} (here : m.contains k = true) :
    (m.insert k v).contains k' = m.contains k' := by
  rw [contains, contains, get?_insert]
  split
  next same => exact same ▸ here.symm
  next => rfl

namespace Diagram

variable {l : List Region}

/-- A choice between equals is not computed. -/
theorem choose_same (f g : Region) (d : Diagram) : choose f g g d = (g, d) := by
  rw [choose, chooseWithin]
  split
  next => rfl
  next =>
    split
    next => rfl
    next => exact if_pos rfl

theorem without_all (f : Region) (d : Diagram) : without f .all d = (.empty, d) := choose_same f .empty d

theorem join_all (f : Region) (d : Diagram) : join f .all d = (.all, d) := choose_same f .all d

theorem foldlM_join_all (whole : ∀ r ∈ l, r = .all) {u : Region} (start : l ≠ [] ∨ u = .all) (d : Diagram) :
    l.foldlM join u d = (.all, d) := by
  induction l generalizing u with
  | nil => exact start.elim (absurd rfl) fun is => is ▸ rfl
  | cons r rest ih =>
    have first : (r :: rest).foldlM join u d = rest.foldlM join (join u r d).1 (join u r d).2 := by
      rw [List.foldlM_cons]
      rfl
    rw [first, whole r List.mem_cons_self, join_all]
    exact ih (fun r' mem => whole r' (List.mem_cons_of_mem r mem)) (.inr rfl)

theorem joinAll_all (whole : ∀ r ∈ l, r = .all) (entry : l ≠ []) (d : Diagram) : joinAll l d = (.all, d) :=
  foldlM_join_all whole (.inl entry) d

end Diagram

namespace Suite

open Diagram

variable {s s' m : Suite} {d : Diagram} {G : IdMap Goal} {i n : Nat} {γ γ' : Goal} {region : Option Region} {o : Operation}
  {ops : List Operation}

/-- No part of the configurations is named. -/
def whole (region : Option Region) : Bool := region.all (·.isAll)

theorem whole_iff : whole region = true ↔ region.getD .all = .all := by
  cases region with
  | none => exact iff_of_true rfl rfl
  | some r => exact Region.isAll_iff

namespace Operation

/-- The test cases that must be stored. -/
def cites : Operation → List Nat
  | post (.coverage n _ _) => [n]
  | _ => []

def regions : Operation → List (Option Region)
  | post (.goals gs) => gs.map (·.remaining)
  | post (.testCase _ _ region) | post (.coverage _ _ region) | post (.infeasible _ region) => [region]
  | _ => []

/-- Is the operation permitted, does it cite stored test cases only, and does it concern all configurations alike? -/
def undivided (s : Suite) (o : Operation) : Bool :=
  o.permitted s && (o.cites.all fun n => (s.testCase? n).isSome) && o.regions.all whole

end Operation

def perform : List Operation → Suite → Regional Suite
  | [], s => return s
  | o :: rest, s => do perform rest (← o.run s)

/-- The two suites know the same goals and test cases, and answer alike whatever is asked of them. -/
structure Agree (s m : Suite) (d : Diagram) : Prop where
  goals : ∀ i, m.goals.contains i = s.goals.contains i
  testCases : m.testCases = s.testCases
  covered : ∀ i, ∃ b, s.isCovered i d = .ok (b, d) ∧ m.isCovered i d = .ok (b, d)
  partially : ∀ i, m.isPartiallyCovered i = s.isPartiallyCovered i
  infeasible : ∀ i, m.isInfeasible i = s.isInfeasible i
  resolved : ∀ i, s.goals.contains i = true → ∃ b, s.isResolved i = .ok b ∧ m.isResolved i = .ok b
  timedOut : ∀ i, m.isTimedOut i = s.isTimedOut i
  prediction : ∀ i, m.prediction i = s.prediction i
  coveredBy : ∀ n, m.goalsCoveredBy n = s.goalsCoveredBy n

/-- The suite with other goals, for which it tracks configurations. -/
def tracking (s : Suite) (goals : IdMap Goal) : Suite := { s with variability := true, goals }

/-- The goals of `G` tell the same as the suite, of all configurations or of none. -/
structure Mirrored (s : Suite) (G : IdMap Goal) : Prop where
  plain : s.variability = false
  aligned : s.Aligned
  mirror : (s.tracking G).Aligned
  known : ∀ i, G.contains i = s.goals.contains i
  marked : ∀ i, s.isInfeasible i = true → s.goals.contains i = true
  remaining : ∀ i γ, G.get? i = some γ → γ.remaining = some (if s.resolved i then .empty else .all)
  covering : ∀ i γ n o, G.get? i = some γ → γ.covering.get? n = some o → o = some .all

theorem resolved_eq_of_plain (plain : s.variability = false) :
    s.resolved i = (s.isPartiallyCovered i || s.isInfeasible i) := by
  rw [resolved, plain]
  rfl

theorem isPartiallyCovered_congr (same : s'.coveredBy.get? i = s.coveredBy.get? i) :
    s'.isPartiallyCovered i = s.isPartiallyCovered i := by
  rw [isPartiallyCovered, isPartiallyCovered, same]

theorem mirrored_start : Mirrored { variability := false } ∅ where
  plain := rfl
  aligned := aligned_start false
  mirror := aligned_start true
  known i := rfl
  marked i marked := by cases marked
  remaining i γ here := by cases here
  covering i γ n o here := by cases here

namespace Mirrored

variable (mirrored : Mirrored s G)

include mirrored

/-- Only what concerns no outcome of a goal changes. -/
theorem congr (aligned : s'.Aligned) (mirror : (s'.tracking G).Aligned) (variability : s'.variability = s.variability)
    (goals : s'.goals = s.goals) (coveredBy : s'.coveredBy = s.coveredBy) (infeasible : s'.infeasible = s.infeasible) :
    Mirrored s' G where
  plain := variability.trans mirrored.plain
  aligned := aligned
  mirror := mirror
  known i := goals ▸ mirrored.known i
  marked i marked := by
    rw [goals]
    apply mirrored.marked i
    rwa [isInfeasible, ← infeasible]
  remaining i γ here := by
    have same : s'.resolved i = s.resolved i := by
      simp only [resolved, variability, goals, isPartiallyCovered, coveredBy, isInfeasible, infeasible]
    rw [same]
    exact mirrored.remaining i γ here
  covering := mirrored.covering

/-- Something is recorded of one goal for all configurations, which leaves none. The other goals stay as they are. -/
theorem close (plain : s'.variability = false) (aligned : s'.Aligned) (mirror : (s'.tracking (G.insert γ'.index γ')).Aligned)
    (known : ∀ j, s'.goals.contains j = s.goals.contains j) (here : G.get? i = some γ) (same : γ.SameAs γ')
    (left : γ'.remaining = some .empty) (covering : ∀ n o, γ'.covering.get? n = some o → o = some .all)
    (closed : s'.isPartiallyCovered i = true ∨ s'.isInfeasible i = true)
    (others : ∀ j, j ≠ i → s'.isPartiallyCovered j = s.isPartiallyCovered j ∧ s'.isInfeasible j = s.isInfeasible j) :
    Mirrored s' (G.insert γ'.index γ') := by
  have goals : ∀ j, (G.insert γ'.index γ').get? j = if j = i then some γ' else G.get? j := by
    intro j
    rw [IdMap.get?_insert, same.index, mirrored.mirror.index i γ here]
  have there : G.contains i = true := Option.isSome_iff_exists.2 ⟨γ, here⟩
  have at_i : γ'.index = i := same.index.trans (mirrored.mirror.index i γ here)
  refine ⟨plain, aligned, mirror, fun j => ?_, fun j marks => ?_, fun j γ₁ found => ?_, fun j γ₁ n o found => ?_⟩
  · rw [known, ← mirrored.known, IdMap.contains_insert_of_contains (at_i ▸ there)]
  · rw [known]
    by_cases is : j = i
    · rw [is, ← mirrored.known, there]
    · exact mirrored.marked j ((others j is).2 ▸ marks)
  · rw [goals] at found
    split at found
    next is =>
      cases found
      rw [is, left, if_pos ((resolved_of_plain plain).2 (closed.imp_right IdSet.contains_iff.1))]
    next other =>
      rw [resolved_eq_of_plain plain, (others j other).1, (others j other).2, ← resolved_eq_of_plain mirrored.plain]
      exact mirrored.remaining j γ₁ found
  · rw [goals] at found
    split at found
    next =>
      cases found
      exact covering n o
    next => exact mirrored.covering j γ₁ n o found

theorem exists_tracked (here : s.goals.contains i = true) : ∃ γ, G.get? i = some γ :=
  Option.isSome_iff_exists.1 ((mirrored.known i).trans here)

theorem coverage (d : Diagram) (stored : (s.testCase? n).isSome = true) (here : s.goals.contains i = true)
    (all : whole region = true) : ∃ s' G', s.recordCoverage n i region d = .ok (s', d) ∧
      (s.tracking G).recordCoverage n i region d = .ok (s'.tracking G', d) ∧ Mirrored s' G' := by
  obtain ⟨γ, known⟩ := Option.isSome_iff_exists.1 here
  have plainly : ∃ s' d', s.recordCoverage n i region d = .ok (s', d') := exists_recordCoverage stored known
  obtain ⟨s', d', ok⟩ := plainly
  have aligned := mirrored.aligned.coverage ok
  obtain ⟨γ₁, γ₁', here₁, same₁, _, _, rfl, _, kept⟩ := recordCoverage_eq_ok ok
  obtain ⟨_, rfl⟩ := kept mirrored.plain
  obtain ⟨γ₂, known₂⟩ := mirrored.exists_tracked here
  have also : ∃ m d₂, (s.tracking G).recordCoverage n i region d' = .ok (m, d₂) := exists_recordCoverage stored known₂
  obtain ⟨m, d₂, ok₂⟩ := also
  have mirror := mirrored.mirror.coverage ok₂
  obtain ⟨γ₂, γ₂', here₂, same₂, _, covering, rfl, left, _⟩ := recordCoverage_eq_ok ok₂
  obtain ⟨remaining, rfl⟩ := left rfl
  -- All configurations are covered, so that nothing is computed and nothing is left of what was open.
  rw [whole_iff.1 all, without_all] at remaining ok₂
  have index := mirrored.aligned.index i γ₁ here₁
  refine ⟨_, _, ok, ok₂, mirrored.close mirrored.plain aligned mirror (fun j => ?_) here₂ same₂ remaining
    (fun n' o entry => ?_) (.inl ?_) fun j other => ⟨?_, rfl⟩⟩
  · exact IdMap.contains_insert_of_contains (same₁.index.trans index ▸ here)
  · rw [covering, IdMap.get?_insert] at entry
    split at entry
    next => exact (Option.some.inj entry).symm.trans (congrArg some (whole_iff.1 all))
    next => exact mirrored.covering i γ₂ n' o here₂ entry
  · exact isPartiallyCovered_iff.2 ⟨n, (lists_insert (s := s) rfl i n).2 (.inr ⟨rfl, rfl⟩)⟩
  · exact isPartiallyCovered_congr (IdMap.get?_insert.trans (if_neg other))

theorem infeasible (d : Diagram) (here : s.goals.contains i = true) (all : whole region = true) :
    ∃ s' G', s.addInfeasible i region d = .ok (s', d) ∧
      (s.tracking G).addInfeasible i region d = .ok (s'.tracking G', d) ∧ Mirrored s' G' := by
  obtain ⟨γ, here⟩ := mirrored.exists_tracked here
  have ok := addInfeasible_of_plain (i := i) mirrored.plain region d
  let γ' : Goal := { γ with infeasible := some .all, remaining := some .empty }
  have also : (s.tracking G).addInfeasible i region d = .ok
      (({ s.tracking G with infeasible := s.infeasible.insert i }.predict i .infeasible).setGoal γ', d) := by
    rw [addInfeasible_eq rfl here d region, whole_iff.1 all]
    cases before : γ.infeasible with
    | none =>
      dsimp only
      rw [without_all]
      rfl
    | some old =>
      dsimp only
      rw [join_all, without_all]
      rfl
  refine ⟨_, _, ok, also, mirrored.close mirrored.plain (mirrored.aligned.infeasible ok) (mirrored.mirror.infeasible also)
    (fun j => rfl) here ⟨rfl, rfl, rfl, rfl, rfl⟩ rfl (mirrored.covering i γ · · here) (.inr ?_) fun j other => ⟨rfl, ?_⟩⟩
  · exact IdSet.contains_iff.2 (IdSet.mem_insert.2 (.inl rfl))
  · change (s.infeasible.insert i).contains j = s.infeasible.contains j
    rw [Bool.eq_iff_iff, IdSet.contains_iff, IdSet.contains_iff, IdSet.mem_insert, or_iff_right other]

theorem resolved_of_absent (absent : s.goals.get? i = none) : s.resolved i = false := by
  rw [resolved_eq_of_plain mirrored.plain, Bool.or_eq_false_iff]
  constructor
  · rw [← Bool.not_eq_true, isPartiallyCovered_iff]
    rintro ⟨n, lists⟩
    obtain ⟨γ, o, here, _⟩ := (mirrored.aligned.listed i n).1 lists
    cases absent.symm.trans here
  · rw [← Bool.not_eq_true]
    intro marks
    obtain ⟨γ, here⟩ := Option.isSome_iff_exists.1 (mirrored.marked i marks)
    cases absent.symm.trans here

theorem addGoal (new : s.goals.get? γ.index = none) (uncovered : γ.covering = ∅) (all : whole γ.remaining = true) :
    ∃ G', (s.tracking G).addGoal γ = (s.addGoal γ).tracking G' ∧ Mirrored (s.addGoal γ) G' := by
  have absent : G.get? γ.index = none := by
    rw [← Option.isNone_iff_eq_none, ← Option.isSome_eq_false_iff, ← IdMap.contains, mirrored.known, IdMap.contains, new]
    rfl
  have same : (s.tracking G).addGoal γ = (s.addGoal γ).tracking ((s.tracking G).addGoal γ).goals := by
    rw [addGoal_eq s, addGoal_eq (s.tracking G)]
    rfl
  have entered : ∃ γ', (∀ j, ((s.tracking G).addGoal γ).goals.get? j = if j = γ.index then some γ' else G.get? j) ∧
      γ'.remaining = some .all ∧ γ'.covering = ∅ := by
    refine ⟨_, fun j => get?_addGoal, ?_⟩
    cases left : γ.remaining with
    | none => exact ⟨rfl, uncovered⟩
    | some r =>
      rw [left, whole_iff, Option.getD_some] at all
      exact ⟨all ▸ left, uncovered⟩
  obtain ⟨γ', goals, left, none⟩ := entered
  refine ⟨((s.tracking G).addGoal γ).goals, same, mirrored.plain, mirrored.aligned.addGoal new uncovered,
    same ▸ mirrored.mirror.addGoal absent uncovered, fun j => ?_, fun j marks => ?_, fun j γ₁ found => ?_,
    fun j γ₁ n o found => ?_⟩
  · rw [IdMap.contains, IdMap.contains, goals, get?_addGoal]
    split
    next => rfl
    next => exact mirrored.known j
  · rw [IdMap.contains, get?_addGoal]
    split
    next => rfl
    next => exact mirrored.marked j marks
  · have before : (s.addGoal γ).resolved j = s.resolved j := by
      rw [resolved_eq_of_plain mirrored.plain]
      exact resolved_eq_of_plain mirrored.plain
    rw [before]
    rw [goals] at found
    split at found
    next is =>
      -- Nothing was recorded of a goal before it was added, since only known goals are named.
      cases found
      rw [left, is, mirrored.resolved_of_absent new]
      rfl
    next => exact mirrored.remaining j γ₁ found
  · rw [goals] at found
    split at found
    next =>
      cases found
      rw [none]
      intro entry
      cases entry
    next => exact mirrored.covering j γ₁ n o found

theorem addGoals {gs : List Goal} (distinct : (gs.map (·.index)).Nodup) (new : ∀ γ ∈ gs, s.goals.get? γ.index = none)
    (uncovered : ∀ γ ∈ gs, γ.covering = ∅) (all : ∀ γ ∈ gs, whole γ.remaining = true) :
    ∃ G', (s.tracking G).addGoals gs = (s.addGoals gs).tracking G' ∧ Mirrored (s.addGoals gs) G' := by
  induction gs generalizing s G with
  | nil => exact ⟨G, rfl, mirrored⟩
  | cons γ rest ih =>
    rw [List.map_cons, List.nodup_cons] at distinct
    obtain ⟨G₁, same, first⟩ := mirrored.addGoal (new γ List.mem_cons_self) (uncovered γ List.mem_cons_self)
      (all γ List.mem_cons_self)
    obtain ⟨G₂, same₂, others⟩ := ih first distinct.2
      (new_addGoal distinct.1 fun γ' mem => new γ' (List.mem_cons_of_mem γ mem))
      (fun γ' mem => uncovered γ' (List.mem_cons_of_mem γ mem)) fun γ' mem => all γ' (List.mem_cons_of_mem γ mem)
    exact ⟨G₂, (congrArg (·.addGoals rest) same).trans same₂, others⟩

theorem store (tc : TestCase) : (s.tracking G).stored tc = (s.stored tc).tracking G ∧ Mirrored (s.stored tc) G := by
  have same : (s.tracking G).stored tc = (s.stored tc).tracking G := by
    rw [stored, stored, apply_ite (tracking · G)]
    rfl
  have others := stored_eq s tc
  refine ⟨same, mirrored.congr (mirrored.aligned.store tc) (same ▸ mirrored.mirror.store tc) ?_ ?_ ?_ ?_⟩
  all_goals rw [others]

/-- Whatever is done, it succeeds with configurations and without, and the goals still tell the same. -/
theorem run (undivided : o.undivided s = true) (d : Diagram) :
    ∃ s' G' d', o.run s d = .ok (s', d') ∧ o.run (s.tracking G) d = .ok (s'.tracking G', d') ∧ Mirrored s' G' := by
  rw [Operation.undivided, Bool.and_eq_true, Bool.and_eq_true, List.all_eq_true, List.all_eq_true] at undivided
  obtain ⟨⟨permitted, stored⟩, all⟩ := undivided
  have known : ∀ j ∈ o.names, s.goals.contains j = true := by
    intro j named
    exact Option.isSome_iff_exists.2 (names_of_permitted permitted named)
  cases o with
  | post p =>
    cases p with
    | goals gs =>
      obtain ⟨distinct, new, uncovered⟩ := adds_of_permitted permitted
      obtain ⟨G', same, mirrored'⟩ := mirrored.addGoals distinct new uncovered fun γ mem => all _ (List.mem_map_of_mem mem)
      exact ⟨s.addGoals gs, G', d, rfl, congrArg (fun m => Except.ok (m, d)) same, mirrored'⟩
    | testCase t g region =>
      obtain ⟨same, mirrored'⟩ := mirrored.store t
      have there : (s.stored t).goals.contains g = true := by
        rw [stored_eq]
        exact known g (List.mem_singleton_self g)
      obtain ⟨s', G', ok, also, after⟩ := mirrored'.coverage d (testCase?_stored s t) there
        (all region (List.mem_singleton_self _))
      rw [← same] at also
      exact ⟨s', G', d, ok, also, after⟩
    | coverage n g region =>
      obtain ⟨s', G', done⟩ := mirrored.coverage d (stored n (List.mem_singleton_self n)) (known g (List.mem_singleton_self g))
        (all region (List.mem_singleton_self _))
      exact ⟨s', G', d, done⟩
    | infeasible g region =>
      obtain ⟨s', G', done⟩ := mirrored.infeasible d (known g (List.mem_singleton_self g))
        (all region (List.mem_singleton_self _))
      exact ⟨s', G', d, done⟩
    | ask request => exact ⟨s, G, (request.perform d).2, rfl, rfl, mirrored⟩
  | timeOut entries =>
    exact ⟨s.addTimedOut entries, G, d, rfl, rfl,
      mirrored.congr (mirrored.aligned.congr rfl rfl rfl) (mirrored.mirror.congr rfl rfl rfl) rfl rfl rfl rfl⟩
  | takeTimedOut =>
    exact ⟨s.takeTimedOut.2, G, d, rfl, rfl,
      mirrored.congr (mirrored.aligned.congr rfl rfl rfl) (mirrored.mirror.congr rfl rfl rfl) rfl rfl rfl rfl⟩
  | predict g p =>
    exact ⟨s.predict g p, G, d, rfl, rfl,
      mirrored.congr (mirrored.aligned.congr rfl rfl rfl) (mirrored.mirror.congr rfl rfl rfl) rfl rfl rfl rfl⟩

theorem perform (allowed : allows Operation.undivided ops s d = true) : ∃ s' G' d', perform ops s d = .ok (s', d') ∧
    Suite.perform ops (s.tracking G) d = .ok (s'.tracking G', d') ∧ Mirrored s' G' := by
  induction ops generalizing s G d with
  | nil => exact ⟨s, G, d, rfl, rfl, mirrored⟩
  | cons o rest ih =>
    rw [allows, Bool.and_eq_true] at allowed
    obtain ⟨s₁, G₁, d₁, ok, also, first⟩ := mirrored.run allowed.1 d
    rw [ok] at allowed
    obtain ⟨s', G', d', ok', also', last⟩ := ih first allowed.2
    exact ⟨s', G', d', bind_eq_ok.2 ⟨s₁, d₁, ok, ok'⟩, bind_eq_ok.2 ⟨_, d₁, also, also'⟩, last⟩

/-- Once something covers a goal, it covers the goal for all configurations. -/
theorem isCovered_tracking (i : Nat) (d : Diagram) : (s.tracking G).isCovered i d = .ok (s.isPartiallyCovered i, d) := by
  have tracks : (s.tracking G).variability = true := rfl
  cases listed : s.isPartiallyCovered i with
  | false => exact isCovered_of_none listed
  | true =>
    have partially : (s.tracking G).isPartiallyCovered i = true := listed
    obtain ⟨n, lists⟩ := isPartiallyCovered_iff.1 partially
    obtain ⟨γ, o, here, entry⟩ := (mirrored.mirror.listed i n).1 lists
    have alike : ∀ r ∈ γ.coveredRegions, r = .all := by
      intro r mem
      obtain ⟨o, value, rfl⟩ := List.mem_map.1 mem
      obtain ⟨e, there, rfl⟩ := List.mem_map.1 value
      rw [mirrored.covering i γ e.1 e.2 here (IdMap.get?_eq_some_iff.2 there), Option.getD_some]
    have some_region : γ.coveredRegions ≠ [] :=
      List.ne_nil_of_mem (List.mem_map_of_mem (List.mem_map_of_mem (IdMap.get?_eq_some_iff.1 entry)))
    rw [isCovered_eq tracks partially here, joinAll_all alike some_region]
    rfl

/-- Everything is left of a goal that is not resolved, and nothing of one that is. -/
theorem resolved_tracking (here : G.get? i = some γ) : (s.tracking G).resolved i = s.resolved i := by
  have tracks : (s.tracking G).variability = true := rfl
  have found : (s.tracking G).goals.get? i = some γ := here
  rw [resolved, if_pos tracks, found, Option.any_some, mirrored.remaining i γ here, Option.all_some]
  cases s.resolved i <;> rfl

theorem agree (d : Diagram) : Agree s (s.tracking G) d where
  goals := mirrored.known
  testCases := rfl
  covered i := ⟨_, isCovered_of_not_tracks mirrored.plain, mirrored.isCovered_tracking i d⟩
  partially _ := rfl
  infeasible _ := rfl
  resolved i known := by
    obtain ⟨γ, here⟩ := Option.isSome_iff_exists.1 known
    obtain ⟨γ', there⟩ := mirrored.exists_tracked known
    exact ⟨_, isResolved_eq here, mirrored.resolved_tracking there ▸ isResolved_eq there⟩
  timedOut _ := rfl
  prediction _ := rfl
  coveredBy _ := rfl

end Mirrored

theorem allows_take {check : Suite → Operation → Bool} (allowed : allows check ops s d = true) (n : Nat) :
    allows check (ops.take n) s d = true := by
  induction ops generalizing s d n with
  | nil => rwa [List.take_nil]
  | cons o rest ih =>
    cases n with
    | zero => rfl
    | succ n =>
      rw [allows, Bool.and_eq_true] at allowed
      rw [List.take_succ_cons, allows, allowed.1, Bool.true_and]
      cases ok : o.run s d with
      | error v => rfl
      | ok r =>
        rw [ok] at allowed
        exact ih allowed.2 n

/-- Any operations that concern all configurations alike succeed in a suite without configurations and in one that tracks
them, and after each of them the two suites answer every question alike. -/
theorem operations_mirror (allowed : allows Operation.undivided ops { variability := false } d = true) (n : Nat) :
    ∃ s m d', perform (ops.take n) { variability := false } d = .ok (s, d') ∧
      perform (ops.take n) { variability := true } d = .ok (m, d') ∧ Agree s m d' := by
  obtain ⟨s, G, d', ok, also, mirrored⟩ := mirrored_start.perform (allows_take allowed n)
  exact ⟨s, s.tracking G, d', ok, also, mirrored.agree d'⟩

section Example

/-- Two goals of which one is covered twice and infeasible as well, while the other is put off. -/
def alike : List Operation :=
  [.post (.goals [.forEdge 1 0 0 0, .forEdge 2 1 0 0]), .timeOut [(0, 2), (1, 1)],
    .post (.testCase { id := 1, inputs := [5], path := [], trace := [0], region := none, presence := [], time := 0 } 1 none),
    .post (.coverage 1 1 (some .all)), .post (.infeasible 1 none), .predict 1 .unknown, .takeTimedOut,
    .post (.infeasible 2 (some .all))]

theorem operations_mirror_alike : allows Operation.undivided alike { variability := false } .fresh = true ∧
    ∃ s m d, perform (alike.take 5) { variability := false } .fresh = .ok (s, d) ∧
      perform (alike.take 5) { variability := true } .fresh = .ok (m, d) ∧ Agree s m d := by
  have allowed : allows Operation.undivided alike { variability := false } .fresh = true := by decide +kernel
  exact ⟨allowed, operations_mirror allowed 5⟩

end Example

end Suite

end GoalCoverage
