import GoalCoverage.Proofs.Suite.Credits
import Mathlib.Data.Finset.Card

/-!
The timeline of a suite. In whatever way the suite came about, row by row the timeline counts the goals that the test
cases so far cover (`timeline_counts`).
-/

namespace GoalCoverage.Suite

open Diagram

/-- What callers do with a suite. A timeline that is written leaves its credits in the suite. -/
inductive Call where
  | operation (o : Operation)
  | timeline

namespace Call

def run : Call → Suite → Regional Suite
  | operation o, s => o.run s
  | timeline, s => return (← s.timeline).2

def brings : Call → List Region
  | operation o => o.brings
  | timeline => []

end Call

def serve : List Call → Suite → Regional Suite
  | [], s => return s
  | c :: rest, s => do serve rest (← c.run s)

/-- If configurations are tracked, do the calls name only regions of the diagram, for as long as none fails? -/
def grounded : List Call → Suite → Diagram → Bool
  | [], _, _ => true
  | c :: rest, s, d => (!s.variability || c.brings.all fun r => decide (d.Has r)) && match c.run s d with
    | .ok (s, d) => grounded rest s d
    | .error _ => true

/-- The goals that are recorded as covered by at least one of some test cases. -/
def coveredByAny (s : Suite) (ts : List TestCase) : Finset Nat :=
  (ts.flatMap fun t => (s.goalsCoveredBy t.id).toList).toFinset

/-- The row of a test case, counted from what it and the test cases before it cover. -/
def rowOf (s : Suite) (d : Diagram) (soFar : List TestCase) (t : TestCase) : TimelineRow :=
  { testCase := t.id
    time := t.time
    covered := (s.coveredByAny soFar).card
    complete := if s.variability then ((s.coveredByAny soFar).filter fun g => s.isComplete d g = true).card else 0
    inPart := if s.variability then ((s.coveredByAny soFar).filter fun g => s.isComplete d g = false).card else 0 }

/-- The text of a timeline. -/
def written (s : Suite) (rows : List TimelineRow) : String :=
  String.join ((s.timelineHeader :: rows.map s.timelineRow).map (· ++ "\n"))

variable {s s' : Suite} {d d' : Diagram} {g k : Nat} {t : TestCase} {ts : List TestCase} {calls : List Call} {c : Call}

theorem mem_coveredByAny : g ∈ s.coveredByAny ts ↔ ∃ t ∈ ts, s.Lists g t.id := by
  simp only [coveredByAny, List.mem_toFinset, List.mem_flatMap, IdSet.mem_toList, mem_goalsCoveredBy]

theorem coveredByAny_mono {ts' : List TestCase} (sub : ts ⊆ ts') : s.coveredByAny ts ⊆ s.coveredByAny ts' := by
  intro g mem
  obtain ⟨t, there, lists⟩ := mem_coveredByAny.1 mem
  exact mem_coveredByAny.2 ⟨t, sub there, lists⟩

section Rows

theorem getElem?_creditedRows {complete inPart : Nat} : (creditedRows complete inPart ts)[k]? = ts[k]?.map fun t =>
    let complete := complete + ((ts.take (k + 1)).map (·.newlyCovered)).sum
    let inPart := inPart + ((ts.take (k + 1)).map (·.newlyPartial)).sum
    ⟨t.id, t.time, complete + inPart, complete, inPart⟩ := by
  induction ts generalizing k complete inPart with
  | nil => rfl
  | cons t rest ih =>
    cases k with
    | zero => simp [creditedRows]
    | succ k => simp [creditedRows, ih, Nat.add_assoc]

theorem getElem?_coveringRows {goals : IdSet} : (s.coveringRows goals ts)[k]? = ts[k]?.map fun t =>
    ⟨t.id, t.time, ((ts.take (k + 1)).foldl (fun goals t => goals.union (s.goalsCoveredBy t.id)) goals).size, 0, 0⟩ := by
  induction ts generalizing k goals with
  | nil => rfl
  | cons t rest ih =>
    cases k with
    | zero => simp [coveringRows]
    | succ k => simp [coveringRows, ih]

theorem mem_foldl_union {goals : IdSet} :
    g ∈ ts.foldl (fun goals t => goals.union (s.goalsCoveredBy t.id)) goals ↔ g ∈ s.coveredByAny ts ∨ g ∈ goals := by
  rw [mem_coveredByAny]
  induction ts generalizing goals with
  | nil => simp
  | cons t rest ih =>
    rw [List.foldl_cons, ih, IdSet.mem_union, mem_goalsCoveredBy, List.exists_mem_cons_iff]
    grind

theorem size_foldl_union :
    (ts.foldl (fun goals t => goals.union (s.goalsCoveredBy t.id)) (∅ : IdSet)).size = (s.coveredByAny ts).card := by
  have nodup := (ts.foldl (fun goals t => goals.union (s.goalsCoveredBy t.id)) (∅ : IdSet)).increasing.imp Nat.ne_of_lt
  rw [IdSet.size, ← List.toFinset_card_of_nodup nodup]
  congr 1
  ext g
  rw [List.mem_toFinset, IdSet.mem_toList, mem_foldl_union, or_iff_left (IdSet.not_mem_empty g)]

/-- Goals are covered completely or in part. -/
theorem card_complete_add_card_inPart (s : Suite) (d : Diagram) (goals : Finset Nat) :
    (goals.filter fun g => s.isComplete d g = true).card + (goals.filter fun g => s.isComplete d g = false).card =
      goals.card := by
  rw [← Finset.card_filter_add_card_filter_not (s := goals) fun g => s.isComplete d g = true]
  simp only [Bool.not_eq_true]

theorem chronological_crediting {gs : List Nat} :
    (s.crediting d gs).chronological = s.chronological.map (s.credited d gs) :=
  (List.map_mergeSort (f := s.credited d gs) fun _ _ _ _ => rfl).symm

theorem perm_chronological : s.chronological.Perm s.testCases := List.mergeSort_perm _ _

theorem sorted_chronological : s.chronological.Pairwise fun a b => a.precedes b = true := by
  apply List.pairwise_mergeSort
  · exact fun _ _ _ => TestCase.precedes_trans
  · exact TestCase.precedes_total

/-- Test cases with different numbers are in strict order. -/
theorem strict_chronological (distinct : (s.chronological.map (·.id)).Nodup) :
    s.chronological.Pairwise fun a b => a.time < b.time ∨ a.time = b.time ∧ a.id < b.id := by
  refine (sorted_chronological.and (List.pairwise_map.1 distinct)).imp fun {a b} both => ?_
  obtain ⟨before, other⟩ := both
  rw [TestCase.precedes, decide_eq_true_eq] at before
  exact before.imp_right fun tie => ⟨tie.1, Nat.lt_of_le_of_ne tie.2 other⟩

end Rows

namespace Orderly

variable (orderly : s.Orderly d)

include orderly

theorem distinct_chronological : (s.chronological.map (·.id)).Nodup :=
  (perm_chronological.map _).nodup_iff.2 orderly.distinct

theorem mem_goalIds (lists : ∃ t ∈ ts, s.Lists g t.id) : g ∈ s.goalIds := by
  obtain ⟨t, _, lists⟩ := lists
  exact IdMap.mem_keys.2 (orderly.known g t.id lists)

/-- The goals credited to the first test cases. -/
theorem countP_credits (k : Nat) (complete : Bool) :
    s.goalIds.countP (fun g => ((s.chronological.take k).any fun t => s.creditee? g == some t.id) &&
      s.isComplete d g == complete) =
    ((s.coveredByAny (s.chronological.take k)).filter fun g => s.isComplete d g = complete).card := by
  have nodup : s.goalIds.Nodup := s.goals.keys.increasing.imp Nat.ne_of_lt
  have whole := List.take_append_drop k s.chronological
  rw [List.countP_eq_length_filter, ← List.toFinset_card_of_nodup (nodup.filter _)]
  congr 1
  ext g
  have credited := orderly.creditee_among_iff (g := g) (whole.symm ▸ perm_chronological) (whole.symm ▸ sorted_chronological)
  simp only [List.mem_toFinset, List.mem_filter, Finset.mem_filter, Bool.and_eq_true, List.any_eq_true, beq_iff_eq,
    mem_coveredByAny, credited]
  exact ⟨fun h => h.2, fun h => ⟨orderly.mem_goalIds h.1, h⟩⟩

/-- All rows of the timeline. -/
theorem getElem?_timelineRows (k : Nat) : (s.crediting d s.goalIds).timelineRows[k]? =
    s.chronological[k]?.map (s.rowOf d (s.chronological.take (k + 1))) := by
  cases tracks : s.variability with
  | true =>
    have distinct : ((s.chronological.take (k + 1)).map (·.id)).Nodup :=
      orderly.distinct_chronological.sublist ((List.take_sublist _ _).map _)
    have sums : ∀ complete, ((s.chronological.take (k + 1)).map fun t => s.credits d s.goalIds t.id complete).sum =
        ((s.coveredByAny (s.chronological.take (k + 1))).filter fun g => s.isComplete d g = complete).card := by
      intro complete
      rw [sum_credits distinct, orderly.countP_credits]
    have tracked : (s.crediting d s.goalIds).variability = true := tracks
    rw [timelineRows, if_pos tracked, getElem?_creditedRows, chronological_crediting, List.getElem?_map, Option.map_map,
      ← List.map_take, List.map_map, List.map_map]
    congr 1
    funext t
    have complete := sums true
    have inPart := sums false
    simp only [Function.comp_def, credited, complete, inPart, rowOf, if_pos tracks, Nat.zero_add,
      card_complete_add_card_inPart]
  | false =>
    have plain : (s.crediting d s.goalIds).variability ≠ true := Bool.eq_false_iff.1 tracks
    rw [timelineRows, if_neg plain, getElem?_coveringRows, chronological_crediting, List.getElem?_map, Option.map_map,
      ← List.map_take, List.foldl_map]
    congr 1
    funext t
    have plain : ¬s.variability = true := Bool.eq_false_iff.1 tracks
    rw [Function.comp_apply, rowOf, if_neg plain, if_neg plain, ← size_foldl_union]
    rfl

theorem length_timelineRows : (s.crediting d s.goalIds).timelineRows.length = s.chronological.length := by
  have row := orderly.getElem?_timelineRows
  apply Nat.le_antisymm
  · have past := row s.chronological.length
    rwa [List.getElem?_eq_none (Nat.le_refl _), Option.map_none, List.getElem?_eq_none_iff] at past
  · have past := row (s.crediting d s.goalIds).timelineRows.length
    rwa [List.getElem?_eq_none (Nat.le_refl _), eq_comm, Option.map_eq_none_iff, List.getElem?_eq_none_iff] at past

/-- The column of the goals covered so far. -/
theorem map_covered : (s.crediting d s.goalIds).timelineRows.map (·.covered) =
    (List.range s.chronological.length).map fun k => (s.coveredByAny (s.chronological.take (k + 1))).card := by
  apply List.ext_getElem?
  intro k
  rw [List.getElem?_map, List.getElem?_map, orderly.getElem?_timelineRows, Option.map_map]
  by_cases bound : k < s.chronological.length
  · rw [List.getElem?_eq_getElem bound, List.getElem?_range bound]
    rfl
  · rw [List.getElem?_eq_none (Nat.le_of_not_lt bound), List.getElem?_eq_none (by simpa using bound)]
    rfl

theorem covered_increases :
    ((s.crediting d s.goalIds).timelineRows.map (·.covered)).Pairwise (· ≤ ·) := by
  rw [orderly.map_covered, List.pairwise_map]
  refine List.pairwise_lt_range.imp fun {j k} lt => Finset.card_le_card (coveredByAny_mono ?_)
  exact List.take_subset_take_left _ (Nat.succ_le_succ (Nat.le_of_lt lt))

/-- Every goal that is covered is covered by some test case. -/
theorem feasibleCount_eq : s.feasibleCount = (s.coveredByAny s.chronological).card := by
  have nodup : s.goalIds.Nodup := s.goals.keys.increasing.imp Nat.ne_of_lt
  rw [feasibleCount, ← List.toFinset_card_of_nodup (nodup.filter _)]
  congr 1
  ext g
  rw [List.mem_toFinset, List.mem_filter, isPartiallyCovered_iff, mem_coveredByAny]
  constructor
  · rintro ⟨_, n, lists⟩
    obtain ⟨t, mem, rfl⟩ := List.mem_map.1 (orderly.stored g n lists)
    exact ⟨t, perm_chronological.symm.subset mem, lists⟩
  · rintro ⟨t, mem, lists⟩
    exact ⟨orderly.mem_goalIds ⟨t, mem, lists⟩, t.id, lists⟩

theorem covered_ends :
    ((s.crediting d s.goalIds).timelineRows.map (·.covered)).getLastD 0 = s.feasibleCount := by
  rw [orderly.map_covered, orderly.feasibleCount_eq]
  cases length : s.chronological.length with
  | zero =>
    rw [List.length_eq_zero_iff.1 length]
    rfl
  | succ n =>
    rw [List.range_succ, List.map_append, List.map_singleton, List.getLastD_concat, ← length, List.take_length]

/-- However far the diagram has grown, the timeline is written, and only the credits change. -/
theorem timeline_eq (ext : s.variability = true → d.Extends d') (ready : d'.Ready s.variability) :
    ∃ d'', s.timeline d' = .ok ((s.written (s.crediting d s.goalIds).timelineRows, s.crediting d s.goalIds), d'') ∧
      (s.variability = true → d'.Extends d'') ∧ d''.Ready s.variability := by
  obtain ⟨d'', ok, grows, wellFormed⟩ := orderly.creditAll_eq ext ready
  refine ⟨d'', ?_, grows, wellFormed⟩
  rw [timeline]
  exact bind_eq_ok.2 ⟨_, d'', ok, rfl⟩

end Orderly

/-- Writing the timeline leaves the credits for all goals. -/
theorem Orderly.timeline_run (orderly : s.Orderly d) (ok : Call.timeline.run s d = .ok (s', d')) :
    s' = s.crediting d s.goalIds ∧ (s.variability = true → d.Extends d') ∧ d'.Ready s.variability := by
  obtain ⟨d₂, written, grows, ready⟩ := orderly.timeline_eq (fun _ => .refl d) orderly.drawn.ready
  obtain ⟨_, _, written', same⟩ := bind_eq_ok.1 ok
  cases written.symm.trans written'
  obtain ⟨rfl, rfl⟩ := pure_eq_ok.1 same
  exact ⟨rfl, grows, ready⟩

theorem Orderly.call (orderly : s.Orderly d) (has : s.variability = true → ∀ r ∈ c.brings, d.Has r)
    (ok : c.run s d = .ok (s', d')) : s'.Orderly d' := by
  cases c with
  | operation o => exact orderly.run has ok
  | timeline =>
    obtain ⟨rfl, grows, ready⟩ := orderly.timeline_run ok
    exact (orderly.crediting s.goalIds).grow grows ready

/-- Calls that name only regions of the diagram keep a suite in order, and with it whatever each of them keeps. -/
theorem Orderly.serve {I : Suite → Prop} (step : ∀ c ∈ calls, ∀ s d s' d', s.Orderly d → I s → c.run s d = .ok (s', d') → I s')
    (orderly : s.Orderly d) (start : I s) (named : grounded calls s d = true) (ok : serve calls s d = .ok (s', d')) :
    s'.Orderly d' ∧ I s' := by
  induction calls generalizing s d with
  | nil =>
    obtain ⟨rfl, rfl⟩ := pure_eq_ok.1 ok
    exact ⟨orderly, start⟩
  | cons c rest ih =>
    obtain ⟨s₁, d₁, first, others⟩ := bind_eq_ok.1 ok
    rw [grounded, first, Bool.and_eq_true] at named
    have has : s.variability = true → ∀ r ∈ c.brings, d.Has r := by
      intro tracks
      simpa [tracks] using named.1
    exact ih (fun c mem => step c (List.mem_cons_of_mem _ mem)) (orderly.call has first)
      (step c List.mem_cons_self s d s₁ d₁ orderly start first) named.2 others

/-- Rows are written as columns, the number, the time and the goals covered so far before all others. -/
theorem timelineRow_eq (s : Suite) (r : TimelineRow) : ∃ rest,
    s.timelineRow r = ";".intercalate (([r.testCase, r.time.millis, r.covered] ++ rest).map toString) := by
  rw [timelineRow]
  split
  next => exact ⟨[r.complete, r.inPart], rfl⟩
  next => exact ⟨[], rfl⟩

/-- In whatever way a suite came about, its timeline has a row for each test case, by time and then number, which counts
the goals that are recorded as covered by that test case or one before it. So the counts never decrease and end with all
feasible goals, and the timeline reads the same when it is written again. -/
theorem timeline_counts {variability : Bool} (named : grounded calls { variability } .fresh = true)
    (ok : serve calls { variability } .fresh = .ok (s, d)) :
    ∃ (order : List TestCase) (rows : List TimelineRow) (s' : Suite) (d' d'' : Diagram),
      s.timeline d = .ok ((s.written rows, s'), d') ∧ s'.timeline d' = .ok ((s.written rows, s'), d'') ∧
      order.Perm s.testCases ∧ (order.Pairwise fun a b => a.time < b.time ∨ a.time = b.time ∧ a.id < b.id) ∧
      rows.length = order.length ∧
      (∀ k t r, order[k]? = some t → rows[k]? = some r →
        r.testCase = t.id ∧ r.time = t.time ∧ r.covered = (s.coveredByAny (order.take (k + 1))).card) ∧
      (∀ r ∈ rows, ∃ rest,
        s.timelineRow r = ";".intercalate (([r.testCase, r.time.millis, r.covered] ++ rest).map toString)) ∧
      (rows.map (·.covered)).Pairwise (· ≤ ·) ∧ (rows.map (·.covered)).getLastD 0 = s.feasibleCount := by
  obtain ⟨orderly, _⟩ := Orderly.serve (I := fun _ => True) (fun _ _ _ _ _ _ _ _ _ => trivial) (orderly_start variability)
    trivial named ok
  obtain ⟨d', first, grows, ready⟩ := orderly.timeline_eq (fun _ => .refl d) orderly.drawn.ready
  obtain ⟨d'', second, _⟩ := (orderly.crediting s.goalIds).timeline_eq grows ready
  rw [show (s.crediting d s.goalIds).goalIds = s.goalIds from rfl, crediting_crediting] at second
  refine ⟨s.chronological, _, _, d', d'', first, second, perm_chronological,
    strict_chronological orderly.distinct_chronological, orderly.length_timelineRows, fun k t r here found => ?_,
    fun r _ => s.timelineRow_eq r, orderly.covered_increases, orderly.covered_ends⟩
  rw [orderly.getElem?_timelineRows, here] at found
  cases found
  exact ⟨rfl, rfl, rfl⟩

section Example

/-- A test case with a number, made after so many milliseconds. -/
def madeAfter (id millis : Nat) : TestCase :=
  { id, inputs := [], path := [], trace := [], region := none, presence := [], time := .ofMillis millis }

/-- Two test cases are made at the same time and complete a goal together; one that was made before them is recorded last,
and a timeline is written in between. -/
def simultaneous : List Call :=
  [.operation (.post (.ask (.declare "A"))), .operation (.post (.ask (.complement ⟨2⟩))),
    .operation (.post (.goals [.forEdge 1 0 0 0, .forEdge 2 1 0 0, .forEdge 3 2 0 0])),
    .operation (.post (.testCase (madeAfter 2 20) 1 (some ⟨2⟩))), .operation (.post (.testCase (madeAfter 1 20) 1 (some ⟨3⟩))),
    .timeline, .operation (.post (.coverage 1 2 none)), .operation (.post (.testCase (madeAfter 3 10) 2 (some ⟨2⟩)))]

theorem timeline_counts_simultaneous : grounded simultaneous { variability := true } .fresh = true ∧
    ∃ s d s' d' d'', ∃ (order : List TestCase) (rows : List TimelineRow),
      serve simultaneous { variability := true } .fresh = .ok (s, d) ∧ s.timeline d = .ok ((s.written rows, s'), d') ∧
      s'.timeline d' = .ok ((s.written rows, s'), d'') ∧ order.Perm s.testCases ∧ rows.length = 3 ∧ (rows.map (·.covered)).getLastD 0 = 2 := by
  have named : grounded simultaneous { variability := true } .fresh = true := by decide +kernel
  have served : (serve simultaneous { variability := true } .fresh).toOption.any
      (fun x => x.1.testCases.length == 3 && x.1.feasibleCount == 2) = true := by decide +kernel
  cases ok : serve simultaneous { variability := true } .fresh with
  | error v =>
    rw [ok] at served
    cases served
  | ok x =>
    rw [ok, Except.toOption, Option.any_some, Bool.and_eq_true, beq_iff_eq, beq_iff_eq] at served
    obtain ⟨order, rows, s', d', d'', first, second, all, _, length, _, _, _, ends⟩ := timeline_counts named ok
    exact ⟨named, x.1, x.2, s', d', d'', order, rows, rfl, first, second, all,
      length.trans (all.length_eq.trans served.1), ends.trans served.2⟩

end Example

end GoalCoverage.Suite
