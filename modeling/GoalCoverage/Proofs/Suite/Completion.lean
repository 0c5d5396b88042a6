import GoalCoverage.Proofs.Suite.Timeline

/-!
When goals are complete. What the timeline counts as complete in a row are the goals covered so far that are complete in
the end (`timeline_completes`). Some of them may need test cases of later rows (`timeline_completes_early`).
-/

namespace GoalCoverage

/-- The regions that a goal is entered with for some test cases. -/
def Goal.regionsBy (γ : Goal) (ts : List TestCase) : List Region :=
  (γ.covering.filter fun n _ => ts.any fun t => t.id == n).values.map (·.getD .all)

namespace Suite

open Diagram

/-- The goals for which the regions of some test cases make up everything. -/
def completedBy (s : Suite) (d : Diagram) (ts : List TestCase) : Finset Nat :=
  (s.goalIds.filter fun g => (s.goals.get? g).any fun γ => (joinAll (γ.regionsBy ts) d).1.isAll).toFinset

def Call.adds : Call → List Goal
  | operation o => o.adds
  | timeline => []

/-- A goal has entries only for test cases that are listed for it. -/
def Entered (s : Suite) : Prop := ∀ i γ n o, s.goals.get? i = some γ → γ.covering.get? n = some o → s.Lists i n

variable {s s' : Suite} {d d' : Diagram} {g i n : Nat} {γ : Goal} {r : Region} {ts ts' : List TestCase} {calls : List Call}
  {region : Option Region} {o : Operation} {c : Call}

theorem mem_regionsBy : r ∈ γ.regionsBy ts ↔ ∃ t ∈ ts, ∃ o, γ.covering.get? t.id = some o ∧ o.getD .all = r := by
  simp only [Goal.regionsBy, IdMap.values, List.map_map, List.mem_map, Function.comp_apply]
  constructor
  · rintro ⟨⟨n, o⟩, entry, rfl⟩
    rw [← IdMap.get?_eq_some_iff, IdMap.get?_filter, Option.filter_eq_some_iff, List.any_eq_true] at entry
    obtain ⟨entry, t, mem, same⟩ := entry
    exact ⟨t, mem, o, beq_iff_eq.1 same ▸ entry, rfl⟩
  · rintro ⟨t, mem, o, entry, rfl⟩
    refine ⟨(t.id, o), ?_, rfl⟩
    rw [← IdMap.get?_eq_some_iff, IdMap.get?_filter, Option.filter_eq_some_iff, List.any_eq_true]
    exact ⟨entry, t, mem, beq_iff_eq.2 rfl⟩

theorem mem_completedBy : g ∈ s.completedBy d ts ↔
    ∃ γ, s.goals.get? g = some γ ∧ (joinAll (γ.regionsBy ts) d).1 = .all := by
  simp only [completedBy, List.mem_toFinset, List.mem_filter, Option.any_eq_true, Region.isAll_iff]
  exact ⟨fun h => h.2, fun h => ⟨IdMap.mem_keys.2 (h.imp fun _ => And.left), h⟩⟩

namespace Entered

variable (entered : s.Entered)

include entered

theorem congr (goals : s'.goals = s.goals) (coveredBy : s'.coveredBy = s.coveredBy) : s'.Entered := by
  intro i γ n o here entry
  rw [Lists, coveredBy]
  exact entered i γ n o (goals ▸ here) entry

theorem coverage (drawn : s.Drawn d) (ok : s.recordCoverage n i region d = .ok (s', d')) : s'.Entered := by
  intro j γ' m o here entry
  have lists : ∀ j m, s'.Lists j m ↔ s.Lists j m ∨ j = i ∧ n = m := by
    obtain ⟨_, _, _, _, _, _, rfl, _⟩ := recordCoverage_eq_ok ok
    exact lists_insert rfl
  rw [lists]
  obtain ⟨γ, before, entry⟩ | ⟨at_i, at_n, _⟩ := recordCoverage_covering drawn ok here entry
  · exact .inl (entered j γ m o before entry)
  · exact .inr ⟨at_i, at_n.symm⟩

theorem infeasible (drawn : s.Drawn d) (ok : s.addInfeasible i region d = .ok (s', d')) : s'.Entered := by
  intro j γ' m o here entry
  have lists : ∀ j m, s'.Lists j m ↔ s.Lists j m := by
    obtain ⟨_, _, _, _, _, _, rfl⟩ | ⟨_, rfl, _⟩ := addInfeasible_eq_ok ok
    · exact fun _ _ => Iff.rfl
    · exact fun _ _ => Iff.rfl
  rw [lists]
  obtain ⟨γ, before, covering⟩ := addInfeasible_covering drawn ok here
  exact entered j γ m o before (covering ▸ entry)

theorem addGoals {gs : List Goal} (bare : ∀ γ ∈ gs, γ.covering = ∅) : (s.addGoals gs).Entered := by
  induction gs generalizing s with
  | nil => exact entered
  | cons γ rest ih =>
    rw [List.forall_mem_cons] at bare
    refine ih (fun j γ' m o here entry => ?_) bare.2
    have lists : (s.addGoal γ).Lists j m ↔ s.Lists j m := by
      rw [addGoal_eq]
      exact Iff.rfl
    rw [get?_addGoal] at here
    split at here
    next =>
      have none : γ'.covering = ∅ := by
        cases here
        split
        next => exact bare.1
        next => exact bare.1
      rw [none] at entry
      cases entry
    next => exact lists.2 (entered j γ' m o here entry)

theorem call (orderly : s.Orderly d) (bare : ∀ γ ∈ c.adds, γ.covering = ∅) (ok : c.run s d = .ok (s', d')) : s'.Entered := by
  cases c with
  | timeline =>
    obtain ⟨rfl, _⟩ := orderly.timeline_run ok
    exact entered.congr rfl rfl
  | operation o =>
    cases o with
    | post p =>
      cases p with
      | goals gs =>
        obtain ⟨rfl, rfl⟩ := pure_eq_ok.1 ok
        exact entered.addGoals bare
      | testCase t g region =>
        have stored : (s.stored t).Entered := entered.congr (goals_stored s t) (by rw [stored_eq])
        exact stored.coverage (orderly.store t).drawn ok
      | coverage n g region => exact entered.coverage orderly.drawn ok
      | infeasible g region => exact entered.infeasible orderly.drawn ok
      | ask request =>
        cases ok
        exact entered
    | timeOut entries =>
      obtain ⟨rfl, rfl⟩ := pure_eq_ok.1 ok
      exact entered.congr rfl rfl
    | takeTimedOut =>
      obtain ⟨rfl, rfl⟩ := pure_eq_ok.1 ok
      exact entered.congr rfl rfl
    | predict g p =>
      obtain ⟨rfl, rfl⟩ := pure_eq_ok.1 ok
      exact entered.congr rfl rfl

end Entered

namespace Orderly

variable (orderly : s.Orderly d) (tracks : s.variability = true)

include orderly tracks

theorem has_regionsBy (here : s.goals.get? g = some γ) : ∀ r ∈ γ.regionsBy ts, d.Has r := by
  intro r mem
  obtain ⟨t, _, o, entry, rfl⟩ := mem_regionsBy.1 mem
  exact orderly.charted tracks g γ t.id o here entry

/-- Some test cases complete a goal if each configuration is in a region that they cover. -/
theorem mem_completedBy_iff : g ∈ s.completedBy d ts ↔
    ∃ γ, s.goals.get? g = some γ ∧ ∀ c, ∃ r ∈ γ.regionsBy ts, d.holds r c = true := by
  rw [mem_completedBy]
  apply exists_congr
  intro γ
  apply and_congr_right
  intro here
  exact (orderly.drawn.ready tracks).joinAll_eq_all_iff (orderly.has_regionsBy tracks here)

theorem completedBy_mono (sub : ts ⊆ ts') : s.completedBy d ts ⊆ s.completedBy d ts' := by
  intro g mem
  obtain ⟨γ, here, everything⟩ := (orderly.mem_completedBy_iff tracks).1 mem
  refine (orderly.mem_completedBy_iff tracks).2 ⟨γ, here, fun c => ?_⟩
  obtain ⟨r, region, inside⟩ := everything c
  obtain ⟨t, there, entry⟩ := mem_regionsBy.1 region
  exact ⟨r, mem_regionsBy.2 ⟨t, sub there, entry⟩, inside⟩

variable (entered : s.Entered)

include entered

/-- Only goals that they cover are completed by some test cases. -/
theorem completedBy_subset : s.completedBy d ts ⊆ s.coveredByAny ts := by
  intro g mem
  obtain ⟨γ, here, everything⟩ := (orderly.mem_completedBy_iff tracks).1 mem
  obtain ⟨r, region, _⟩ := everything fun _ => false
  obtain ⟨t, there, o, entry, _⟩ := mem_regionsBy.1 region
  exact mem_coveredByAny.2 ⟨t, there, entered g γ t.id o here entry⟩

/-- A goal that is covered is complete if all stored test cases complete it. -/
theorem isComplete_iff_mem (covers : g ∈ s.coveredByAny ts) :
    s.isComplete d g = true ↔ g ∈ s.completedBy d s.testCases := by
  obtain ⟨t, _, lists⟩ := mem_coveredByAny.1 covers
  obtain ⟨γ, here⟩ := orderly.known g t.id lists
  have regions : ∀ r, r ∈ γ.coveredRegions ↔ r ∈ γ.regionsBy s.testCases := by
    intro r
    rw [Goal.mem_coveredRegions, mem_regionsBy]
    constructor
    · rintro ⟨n, o, entry, is⟩
      obtain ⟨t', mem, rfl⟩ := List.mem_map.1 (orderly.stored g n (entered g γ n o here entry))
      exact ⟨t', mem, o, entry, is⟩
    · rintro ⟨t', _, o, entry, is⟩
      exact ⟨t'.id, o, entry, is⟩
  have has : ∀ r ∈ γ.coveredRegions, d.Has r := fun r mem => orderly.has_regionsBy tracks here r ((regions r).1 mem)
  rw [isComplete_iff tracks (isPartiallyCovered_iff.2 ⟨t.id, lists⟩) here,
    (orderly.drawn.ready tracks).joinAll_eq_all_iff has, orderly.mem_completedBy_iff tracks]
  simp only [here, Option.some.injEq, exists_eq_left', regions]

end Orderly

/-- In whatever way a suite came about, a row of its timeline counts as complete the goals covered so far that all test
cases together complete. These are at least the goals that the test cases so far complete, and no more just if no goal
covered so far needs a later test case to be complete. -/
theorem timeline_completes {variability : Bool} (bare : ∀ c ∈ calls, ∀ γ ∈ c.adds, γ.covering = ∅)
    (named : grounded calls { variability } .fresh = true) (ok : serve calls { variability } .fresh = .ok (s, d))
    (tracks : s.variability = true) :
    ∃ (order : List TestCase) (rows : List TimelineRow) (s' : Suite) (d' : Diagram),
      s.timeline d = .ok ((s.written rows, s'), d') ∧ order.Perm s.testCases ∧
      (order.Pairwise fun a b => a.time < b.time ∨ a.time = b.time ∧ a.id < b.id) ∧ rows.length = order.length ∧
      ∀ k t r, order[k]? = some t → rows[k]? = some r → r.testCase = t.id ∧
        r.complete = (s.coveredByAny (order.take (k + 1)) ∩ s.completedBy d s.testCases).card ∧
        r.inPart = (s.coveredByAny (order.take (k + 1)) \ s.completedBy d s.testCases).card ∧
        (s.completedBy d (order.take (k + 1))).card ≤ r.complete ∧
        ((s.completedBy d (order.take (k + 1))).card = r.complete ↔
          ∀ g ∈ s.coveredByAny (order.take (k + 1)),
            g ∈ s.completedBy d s.testCases → g ∈ s.completedBy d (order.take (k + 1))) := by
  have start : ({ variability } : Suite).Entered := fun i γ n o here => by cases here
  obtain ⟨orderly, entered⟩ := Orderly.serve (I := Entered)
    (fun c mem _ _ _ _ orderly entered => entered.call orderly (bare c mem)) (orderly_start variability) start named ok
  obtain ⟨d', written, _⟩ := orderly.timeline_eq (fun _ => .refl d) orderly.drawn.ready
  refine ⟨s.chronological, _, _, d', written, perm_chronological, strict_chronological orderly.distinct_chronological,
    orderly.length_timelineRows, fun k t r here found => ?_⟩
  rw [orderly.getElem?_timelineRows, here] at found
  cases found
  have iff : ∀ g ∈ s.coveredByAny (s.chronological.take (k + 1)), s.isComplete d g = true ↔ g ∈ s.completedBy d s.testCases :=
    fun g covers => orderly.isComplete_iff_mem tracks entered covers
  have complete : ((s.coveredByAny (s.chronological.take (k + 1))).filter fun g => s.isComplete d g = true) =
      s.coveredByAny (s.chronological.take (k + 1)) ∩ s.completedBy d s.testCases := by
    ext g
    rw [Finset.mem_filter, Finset.mem_inter]
    exact and_congr_right (iff g)
  have inPart : ((s.coveredByAny (s.chronological.take (k + 1))).filter fun g => s.isComplete d g = false) =
      s.coveredByAny (s.chronological.take (k + 1)) \ s.completedBy d s.testCases := by
    ext g
    rw [Finset.mem_filter, Finset.mem_sdiff, ← Bool.not_eq_true]
    exact and_congr_right fun covers => not_congr (iff g covers)
  have within : s.completedBy d (s.chronological.take (k + 1)) ⊆
      s.coveredByAny (s.chronological.take (k + 1)) ∩ s.completedBy d s.testCases :=
    Finset.subset_inter (orderly.completedBy_subset tracks entered)
      (orderly.completedBy_mono tracks (List.Subset.trans (List.take_subset _ _) perm_chronological.subset))
  simp only [rowOf, if_pos tracks, complete, inPart, true_and]
  refine ⟨Finset.card_le_card within, fun same g covers completes => ?_, fun needs => ?_⟩
  · rw [Finset.eq_of_subset_of_card_le within same.ge]
    exact Finset.mem_inter.2 ⟨covers, completes⟩
  · refine congrArg Finset.card (within.antisymm fun g mem => ?_)
    exact needs g (Finset.mem_inter.1 mem).1 (Finset.mem_inter.1 mem).2

section Example

/-- A goal is covered with a feature, and ten milliseconds later without it. -/
def completing : List Call :=
  [.operation (.post (.ask (.declare "A"))), .operation (.post (.ask (.complement ⟨2⟩))),
    .operation (.post (.goals [.forEdge 1 0 0 0])), .operation (.post (.testCase (madeAfter 1 10) 1 (some ⟨2⟩))),
    .operation (.post (.testCase (madeAfter 2 20) 1 (some ⟨3⟩)))]

theorem bare_completing : ∀ c ∈ completing, ∀ γ ∈ c.adds, γ.covering = ∅ := by
  simp [completing, Call.adds, Operation.adds, Goal.forEdge]

theorem timeline_completes_completing : grounded completing { variability := true } .fresh = true ∧
    (∀ c ∈ completing, ∀ γ ∈ c.adds, γ.covering = ∅) ∧
    ∃ s d s' d', ∃ (order : List TestCase) (rows : List TimelineRow),
      serve completing { variability := true } .fresh = .ok (s, d) ∧ s.variability = true ∧
      s.timeline d = .ok ((s.written rows, s'), d') ∧ order.Perm s.testCases ∧ rows.length = 2 ∧
      ∀ k t r, order[k]? = some t → rows[k]? = some r →
        r.complete = (s.coveredByAny (order.take (k + 1)) ∩ s.completedBy d s.testCases).card := by
  have named : grounded completing { variability := true } .fresh = true := by decide +kernel
  have served : (serve completing { variability := true } .fresh).toOption.any
      (fun x => x.1.variability && x.1.testCases.length == 2) = true := by decide +kernel
  cases ok : serve completing { variability := true } .fresh with
  | error v =>
    rw [ok] at served
    cases served
  | ok x =>
    rw [ok, Except.toOption, Option.any_some, Bool.and_eq_true, beq_iff_eq] at served
    obtain ⟨order, rows, s', d', written, all, _, length, each⟩ := timeline_completes bare_completing named ok served.1
    exact ⟨named, bare_completing, x.1, x.2, s', d', order, rows, rfl, served.1, written, all,
      length.trans (all.length_eq.trans served.2), fun k t r here found => (each k t r here found).2.1⟩

/-- The first row counts a goal as complete that its test case does not complete. -/
theorem timeline_completes_early : grounded completing { variability := true } .fresh = true ∧
    (∀ c ∈ completing, ∀ γ ∈ c.adds, γ.covering = ∅) ∧
    ∃ s d s' d' r, serve completing { variability := true } .fresh = .ok (s, d) ∧ s.variability = true ∧
      s.timeline d = .ok ((s.written s'.timelineRows, s'), d') ∧ s'.timelineRows[0]? = some r ∧
      (s.chronological.take 1).map (·.id) = [r.testCase] ∧
      r.complete = 1 ∧ (s.completedBy d (s.chronological.take 1)).card = 0 := by
  have named : grounded completing { variability := true } .fresh = true := by decide +kernel
  have served : (serve completing { variability := true } .fresh).toOption.any (fun x => x.1.variability &&
      decide (x.1.testCases.Pairwise fun a b => a.precedes b = true) && x.1.testCases[0]?.any fun t =>
        (x.1.testCases.take 1).map (·.id) == [t.id] && (x.1.rowOf x.2 (x.1.testCases.take 1) t).complete == 1 &&
          (x.1.completedBy x.2 (x.1.testCases.take 1)).card == 0) = true := by decide +kernel
  cases ok : serve completing { variability := true } .fresh with
  | error v =>
    rw [ok] at served
    cases served
  | ok x =>
    obtain ⟨orderly, _⟩ := Orderly.serve (I := fun _ => True) (fun _ _ _ _ _ _ _ _ _ => trivial) (orderly_start true)
      trivial named ok
    obtain ⟨d', written, _⟩ := orderly.timeline_eq (fun _ => .refl x.2) orderly.drawn.ready
    rw [ok, Except.toOption, Option.any_some, Bool.and_eq_true, Bool.and_eq_true, decide_eq_true_eq,
      Option.any_eq_true] at served
    obtain ⟨⟨tracks, sorted⟩, t, first, served⟩ := served
    simp only [Bool.and_eq_true, beq_iff_eq] at served
    obtain ⟨⟨same, complete⟩, none⟩ := served
    have order : x.1.chronological = x.1.testCases := List.mergeSort_of_pairwise sorted
    have row := orderly.getElem?_timelineRows 0
    rw [order, first, Option.map_some] at row
    exact ⟨named, bare_completing, x.1, x.2, _, d', _, rfl, tracks, written, row, order ▸ same, complete, order ▸ none⟩

end Example

end Suite

end GoalCoverage
