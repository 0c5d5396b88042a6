import GoalCoverage.Proofs.Suite.Coverings
import GoalCoverage.Proofs.Suite.Shrinking

/-!
No configuration of a goal is lost. What is open of a goal, what is infeasible of it and all that was recorded as covered
make up the universal region (`post_conserves`). The entries of the goal itself keep only the last region of each test
case: they account for everything if no entry was replaced by one that lacks some of it, and not in general
(`replacing_loses`).
-/

namespace GoalCoverage

namespace Diagram

variable {d : Diagram} {l : List Region}

theorem WellFormed.joinAll_eq_all_iff (wf : d.WellFormed) (has : ∀ r ∈ l, d.Has r) :
    (joinAll l d).1 = .all ↔ ∀ c, ∃ f ∈ l, d.holds f c = true := by
  obtain ⟨_, ready, has', holds⟩ := joinAll_yields wf has
  constructor
  · intro same c
    rw [← holds c, same]
    exact holds_all
  · intro everything
    apply (ready rfl).eq_of_holds has' (ready rfl).has_all
    intro c
    rw [holds_all]
    exact (holds c).2 (everything c)

end Diagram

/-- The regions of the covering test cases. -/
def Goal.coveredRegions (γ : Goal) : List Region := γ.covering.values.map (·.getD .all)

/-- Is every region that was recorded for a test case contained in the one that the test case is entered with? -/
def Goal.retains (γ : Goal) (recorded : List (Nat × Region)) (d : Diagram) : Bool :=
  recorded.all fun e => (γ.covering.get? e.1).all fun u => (Diagram.implies e.2 (u.getD .all) d).1

namespace Suite

open Diagram

variable {s : Suite} {d : Diagram} {i : Nat} {γ : Goal} {u : Region} {o e : List Region} {k : List (Nat × Region)}

namespace Account

variable (account : Account d γ o k e)

include account

/-- What a test case is entered with was recorded for it. -/
theorem recorded (mem : u ∈ γ.coveredRegions) : ∃ x ∈ k, x.2 = u := by
  obtain ⟨region, value, rfl⟩ := List.mem_map.1 mem
  obtain ⟨entry, there, rfl⟩ := List.mem_map.1 value
  have entered : γ.covering.get? entry.1 = some entry.2 := IdMap.get?_eq_some_iff.2 there
  rw [account.covering] at entered
  obtain ⟨x, mem, same⟩ := List.mem_map.1 (IdMap.mem_of_get?_ofList entered)
  exact ⟨x, mem, by rw [← (Prod.mk.inj same).2, Option.getD_some]⟩

theorem has_recorded (mem : u ∈ k.map (·.2)) : d.Has u := by
  obtain ⟨x, there, rfl⟩ := List.mem_map.1 mem
  exact account.has_covered x there

theorem has_coveredRegions (mem : u ∈ γ.coveredRegions) : d.Has u := by
  obtain ⟨x, there, rfl⟩ := account.recorded mem
  exact account.has_covered x there

/-- If the entries retain what was recorded, no configuration of it is missing from them. -/
theorem entered (wf : d.WellFormed) (retains : γ.retains k d = true) {x : Nat × Region} (mem : x ∈ k) {c : Configuration}
    (inside : d.holds x.2 c = true) : ∃ u ∈ γ.coveredRegions, d.holds u c = true := by
  have listed : (x.1, some x.2) ∈ k.map fun e => (e.1, some e.2) := List.mem_map.2 ⟨x, mem, rfl⟩
  obtain ⟨region, entry⟩ := IdMap.exists_get?_ofList listed
  rw [← account.covering] at entry
  have value : region.getD .all ∈ γ.coveredRegions :=
    List.mem_map_of_mem (List.mem_map.2 ⟨(x.1, region), IdMap.get?_eq_some_iff.1 entry, rfl⟩)
  have kept := List.all_eq_true.1 retains x mem
  rw [entry, Option.all_some] at kept
  exact ⟨_, value, (wf.implies_iff (account.has_covered x mem) (account.has_coveredRegions value)).1 kept c inside⟩

/-- A goal that was opened for everything is open, infeasible or recorded as covered for each configuration. -/
theorem open_or_recorded (whole : ∀ f ∈ o, f = .all) (c : Configuration) :
    d.holds γ.openRegion c = true ∨ (∃ u, γ.infeasible = some u ∧ d.holds u c = true) ∨ ∃ x ∈ k, d.holds x.2 c = true := by
  obtain ⟨r, left, _, holds⟩ := account.remaining
  by_cases covered : ∃ x ∈ k, d.holds x.2 c = true
  · exact .inr (.inr covered)
  · by_cases excluded : ∃ u ∈ e, d.holds u c = true
    · cases found : γ.infeasible with
      | none =>
        obtain ⟨u, mem, _⟩ := excluded
        rw [account.infeasible_none.1 found] at mem
        cases mem
      | some u => exact .inr (.inl ⟨u, rfl, ((account.infeasible_some u found).2 c).2 excluded⟩)
    · rw [Goal.openRegion_of_remaining left, holds c]
      refine .inl ⟨fun f mem => ?_, fun x mem => ?_, fun u mem => ?_⟩
      · rw [whole f mem]
        exact holds_all
      · exact Bool.eq_false_iff.2 fun inside => covered ⟨x, mem, inside⟩
      · exact Bool.eq_false_iff.2 fun inside => excluded ⟨u, mem, inside⟩

/-- Together with what is open and what is infeasible, regions that contain everything recorded make up everything. -/
theorem total (wf : d.WellFormed) (whole : ∀ f ∈ o, f = .all) {l : List Region} (has : ∀ f ∈ l, d.Has f)
    (contains : ∀ x ∈ k, ∀ c, d.holds x.2 c = true → ∃ u ∈ l, d.holds u c = true) :
    (joinAll (γ.openRegion :: γ.infeasible.toList ++ l) d).1 = .all := by
  obtain ⟨r, left, has_r, _⟩ := account.remaining
  rw [Goal.openRegion_of_remaining left]
  refine (wf.joinAll_eq_all_iff fun f mem => ?_).2 fun c => ?_
  · rw [List.mem_append, List.mem_cons, Option.mem_toList] at mem
    obtain (rfl | found) | mem := mem
    · exact has_r
    · exact (account.infeasible_some f found).1
    · exact has f mem
  · obtain inside | ⟨u, found, inside⟩ | ⟨x, mem, inside⟩ := account.open_or_recorded whole c
    · rw [Goal.openRegion_of_remaining left] at inside
      exact ⟨r, List.mem_append_left _ List.mem_cons_self, inside⟩
    · exact ⟨u, List.mem_append_left _ (List.mem_cons_of_mem _ (Option.mem_toList.2 found)), inside⟩
    · obtain ⟨u, mem, inside⟩ := contains x mem c inside
      exact ⟨u, List.mem_append_right _ mem, inside⟩

/-- The entries make up everything only if all that was recorded does, and if they retain that, whenever it does. -/
theorem joinAll_coveredRegions (wf : d.WellFormed) :
    ((joinAll γ.coveredRegions d).1 = .all → (joinAll (k.map (·.2)) d).1 = .all) ∧
      (γ.retains k d = true → (joinAll (k.map (·.2)) d).1 = .all → (joinAll γ.coveredRegions d).1 = .all) := by
  rw [wf.joinAll_eq_all_iff fun f mem => account.has_coveredRegions mem,
    wf.joinAll_eq_all_iff fun f mem => account.has_recorded mem]
  refine ⟨fun everything c => ?_, fun retains everything c => ?_⟩
  · obtain ⟨f, mem, inside⟩ := everything c
    obtain ⟨x, there, rfl⟩ := account.recorded mem
    exact ⟨x.2, List.mem_map_of_mem there, inside⟩
  · obtain ⟨f, mem, inside⟩ := everything c
    obtain ⟨x, there, rfl⟩ := List.mem_map.1 mem
    exact account.entered wf retains there inside

end Account

/-- A goal is covered once the regions of its entries make up everything. -/
theorem isCovered_eq (tracks : s.variability = true) (partially : s.isPartiallyCovered i = true)
    (here : s.goals.get? i = some γ) :
    s.isCovered i d = .ok ((joinAll γ.coveredRegions d).1.isAll, (joinAll γ.coveredRegions d).2) := by
  simp only [isCovered, partially, tracks, Bool.not_true, Bool.false_eq_true, if_false]
  exact lift_bind_eq_ok.2 ⟨γ, goal_eq_ok here, rfl⟩

variable {ps : List Posting}

theorem Books.isCovered_eq_ok (books : Books s d ps) (tracks : s.variability = true) (here : s.goals.get? i = some γ) :
    ∃ b d', s.isCovered i d = .ok (b, d') ∧ (b = true ↔ (joinAll γ.coveredRegions d).1 = .all) := by
  cases partially : s.isPartiallyCovered i with
  | true => exact ⟨_, _, isCovered_eq tracks partially here, Region.isAll_iff⟩
  | false =>
    have none : covered i ps = [] := by
      rw [← Bool.not_eq_true, books.listed, Classical.not_not] at partially
      exact partially
    have account := books.account tracks i γ here
    rw [none] at account
    have entries : γ.coveredRegions = [] := by rw [Goal.coveredRegions, account.covering]; rfl
    refine ⟨false, d, isCovered_of_none partially, iff_of_false Bool.false_ne_true ?_⟩
    rw [entries]
    exact fun same => by cases same

/-- After any run of postings, what is open of a goal that was opened for everything, what is infeasible of it and all
that was recorded as covered make up everything, and the goal counts as covered only if all that was recorded makes up
everything. If the entries retain what was recorded, the same holds of the entries, and the goal counts as covered
whenever all that was recorded makes up everything. -/
theorem post_conserves (permitted : permits ps { variability := true } .fresh = true) (whole : ∀ f ∈ opened i ps, f = .all) :
    ∃ s d, post ps { variability := true } .fresh = .ok (s, d) ∧ ∀ γ, s.goals.get? i = some γ → ∃ r b d',
      γ.remaining = some r ∧ s.isCovered i d = .ok (b, d') ∧
      (joinAll (r :: γ.infeasible.toList ++ (covered i ps).map (·.2)) d).1 = .all ∧
      (b = true → (joinAll ((covered i ps).map (·.2)) d).1 = .all) ∧
      (γ.retains (covered i ps) d = true →
        (joinAll (r :: γ.infeasible.toList ++ γ.coveredRegions) d).1 = .all ∧
        (b = true ↔ (joinAll ((covered i ps).map (·.2)) d).1 = .all)) := by
  rw [← List.append_nil ps] at permitted
  obtain ⟨s, d, ok, follows, books, _⟩ := (books_start true).post permitted
  have tracks : s.variability = true := follows.variability
  have wf := books.ready tracks
  refine ⟨s, d, ok, fun γ here => ?_⟩
  have account := books.account tracks i γ here
  obtain ⟨r, left, _⟩ := account.remaining
  obtain ⟨b, d', answers, meaning⟩ := books.isCovered_eq_ok tracks here
  obtain ⟨only, whenever⟩ := account.joinAll_coveredRegions wf
  have opened := Goal.openRegion_of_remaining left
  refine ⟨r, b, d', left, answers, ?_, fun covers => only (meaning.1 covers), fun retains => ⟨?_, ?_⟩⟩
  · rw [← opened]
    exact account.total wf whole (fun f mem => account.has_recorded mem) fun x mem c inside =>
      ⟨x.2, List.mem_map_of_mem mem, inside⟩
  · rw [← opened]
    exact account.total wf whole (fun f mem => account.has_coveredRegions mem) fun x mem c inside =>
      account.entered wf retains mem inside
  · exact ⟨fun covers => only (meaning.1 covers), fun everything => meaning.2 (whenever retains everything)⟩

section Example

/-- A test case is recorded for one feature, then for either of two, and without the first the goal is infeasible. -/
def growing : List Posting :=
  [.ask (.declare "A"), .ask (.declare "B"), .ask (.join ⟨2⟩ ⟨3⟩), .ask (.complement ⟨2⟩), .goals [.forEdge 1 0 0 0],
    .testCase { id := 1, inputs := [5], path := [], trace := [0], region := none, presence := [], time := 0 } 1 (some ⟨2⟩),
    .coverage 1 1 (some ⟨4⟩), .infeasible 1 (some ⟨5⟩)]

theorem post_conserves_growing : permits growing { variability := true } .fresh = true ∧
    ∃ s d γ r b d', post growing { variability := true } .fresh = .ok (s, d) ∧ s.goals.get? 1 = some γ ∧
      γ.remaining = some r ∧ s.isCovered 1 d = .ok (b, d') ∧
      (joinAll (r :: γ.infeasible.toList ++ γ.coveredRegions) d).1 = .all ∧
      (b = true ↔ (joinAll ((covered 1 growing).map (·.2)) d).1 = .all) := by
  have permitted : permits growing { variability := true } .fresh = true := by decide +kernel
  obtain ⟨s, d, ok, conserves⟩ := post_conserves (i := 1) permitted (by decide +kernel)
  have retains : (post growing { variability := true } .fresh).toOption.any (fun x =>
      (x.1.goals.get? 1).any fun γ => γ.retains (covered 1 growing) x.2) = true := by decide +kernel
  rw [ok, Except.toOption, Option.any_some, Option.any_eq_true] at retains
  obtain ⟨γ, here, retains⟩ := retains
  obtain ⟨r, b, d', left, answers, _, _, kept⟩ := conserves γ here
  exact ⟨permitted, s, d, γ, r, b, d', ok, here, left, answers, kept retains⟩

/-- A test case is recorded for a feature, and then for everything else. -/
def replacing : List Posting :=
  [.ask (.declare "A"), .ask (.complement ⟨2⟩), .goals [.forEdge 1 0 0 0],
    .testCase { id := 1, inputs := [5], path := [], trace := [0], region := none, presence := [], time := 0 } 1 (some ⟨2⟩),
    .coverage 1 1 (some ⟨3⟩)]

/-- The configurations with the feature are no longer open and are in no entry, and the goal does not count as covered. -/
theorem replacing_loses : permits replacing { variability := true } .fresh = true ∧ (∀ f ∈ opened 1 replacing, f = .all) ∧
    ∃ s d γ, post replacing { variability := true } .fresh = .ok (s, d) ∧ s.goals.get? 1 = some γ ∧
      γ.remaining = some .empty ∧ (joinAll (.empty :: γ.infeasible.toList ++ γ.coveredRegions) d).1 ≠ .all ∧
      (joinAll ((covered 1 replacing).map (·.2)) d).1 = .all ∧ ∃ d', s.isCovered 1 d = .ok (false, d') := by
  have permitted : permits replacing { variability := true } .fresh = true := by decide +kernel
  obtain ⟨s, d, ok, follows, books, _⟩ := (books_start true).post ((List.append_nil replacing).symm ▸ permitted)
  have loses : (post replacing { variability := true } .fresh).toOption.any (fun x => (x.1.goals.get? 1).any fun γ =>
      γ.remaining == some .empty && (joinAll (.empty :: γ.infeasible.toList ++ γ.coveredRegions) x.2).1 != .all &&
        (joinAll ((covered 1 replacing).map (·.2)) x.2).1 == .all && (joinAll γ.coveredRegions x.2).1 != .all) = true := by
    decide +kernel
  rw [ok, Except.toOption, Option.any_some, Option.any_eq_true] at loses
  obtain ⟨γ, here, loses⟩ := loses
  simp only [Bool.and_eq_true, beq_iff_eq, bne_iff_ne] at loses
  obtain ⟨⟨⟨left, less⟩, everything⟩, uncovered⟩ := loses
  obtain ⟨b, d', answers, meaning⟩ := books.isCovered_eq_ok follows.variability here
  have no : b = false := Bool.eq_false_iff.2 fun covers => uncovered (meaning.1 covers)
  exact ⟨permitted, by decide +kernel, s, d, γ, ok, here, left, less, everything, d', no ▸ answers⟩

end Example

end Suite

end GoalCoverage
