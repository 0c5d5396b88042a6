import GoalCoverage.Proofs.Diagram.Session
import GoalCoverage.Proofs.Suite.Progress

/-!
What is posted to a suite, and the accounts that result. Any number of postings, with regions that may overlap and
may come again, leaves of each goal what it was opened with less all regions that were posted for it (`Account`).
-/

namespace GoalCoverage

theorem IdMap.eq_empty_of_isEmpty {α : Type} {m : IdMap α} (empty : m.isEmpty = true) : m = ∅ := by
  obtain ⟨entries, _⟩ := m
  have none : entries = [] := List.isEmpty_iff.1 empty
  subst none
  rfl

theorem Goal.openRegion_of_remaining {γ : Goal} {r : Region} (left : γ.remaining = some r) : γ.openRegion = r := by
  rw [openRegion, left, Option.getD_some]

namespace Diagram

instance (d : Diagram) (r : Region) : Decidable (d.Has r) := inferInstanceAs (Decidable (r.index < d.size))

theorem exists_lift_bind {α β : Type} {e : Except Violation α} {k : α → Regional β} {a : α} {d : Diagram} (found : e = .ok a)
    (rest : ∃ b d', k a d = .ok (b, d')) : ∃ b d', ((monadLift e : Regional α) >>= k) d = .ok (b, d') := by
  obtain ⟨b, d', ok⟩ := rest
  exact ⟨b, d', lift_bind_eq_ok.2 ⟨a, found, ok⟩⟩

end Diagram

namespace Suite

open Diagram

variable {s s' : Suite} {d d' : Diagram} {i j t : Nat} {γ γ' : Goal} {u : Region} {region : Option Region}

/-- Something that is posted to a suite, or asked of its diagram in between. -/
inductive Posting where
  | goals (goals : List Goal)
  | testCase (t : TestCase) (g : Nat) (region : Option Region)
  | coverage (t g : Nat) (region : Option Region)
  | infeasible (g : Nat) (region : Option Region)
  | ask (request : Request Region)

namespace Posting

def run : Posting → Suite → Regional Suite
  | goals gs, s => return s.addGoals gs
  | testCase t g region, s => s.addTestCase t g region
  | coverage t g region, s => s.recordCoverage t g region
  | infeasible g region, s => s.addInfeasible g region
  | ask request, s => do
    let _ ← request.perform
    return s

/-- Does the posting come from a caller that adds each goal once, before anything is recorded of it, and names known
goals, stored test cases and, if configurations are tracked, regions of the diagram? -/
def permitted (s : Suite) (d : Diagram) : Posting → Bool
  | goals gs => decide (gs.map (·.index)).Nodup && gs.all fun γ => !s.goals.contains γ.index &&
      (!s.variability || γ.covering.isEmpty && γ.infeasible.isNone && γ.remaining.all fun r => decide (d.Has r))
  | testCase _ g region => s.goals.contains g && (!s.variability || region.all fun r => decide (d.Has r))
  | coverage t g region =>
    (s.testCase? t).isSome && s.goals.contains g && (!s.variability || region.all fun r => decide (d.Has r))
  | infeasible g region => !s.variability || s.goals.contains g && region.all fun r => decide (d.Has r)
  | ask request => !s.variability || request.arguments.all fun r => decide (d.Has r)

/-- What a posting opens a goal with. -/
def opens (i : Nat) : Posting → List Region
  | goals gs => (gs.filter fun γ => γ.index == i).map (·.openRegion)
  | _ => []

/-- The region that a posting records as covered for a goal, with the test case. -/
def covers (i : Nat) : Posting → List (Nat × Region)
  | testCase t g region => if g = i then [(t.id, region.getD .all)] else []
  | coverage t g region => if g = i then [(t, region.getD .all)] else []
  | _ => []

def excludes (i : Nat) : Posting → List Region
  | infeasible g region => if g = i then [region.getD .all] else []
  | _ => []

end Posting

def post : List Posting → Suite → Regional Suite
  | [], s => return s
  | p :: rest, s => do post rest (← p.run s)

/-- Are the postings permitted, for as long as none fails? -/
def permits : List Posting → Suite → Diagram → Bool
  | [], _, _ => true
  | p :: rest, s, d => p.permitted s d && match p.run s d with
    | .ok (s, d) => permits rest s d
    | .error _ => true

def opened (i : Nat) (ps : List Posting) : List Region := ps.flatMap (Posting.opens i)

/-- The regions recorded as covered for a goal, each with its test case, in the order of the recordings. -/
def covered (i : Nat) (ps : List Posting) : List (Nat × Region) := ps.flatMap (Posting.covers i)

def excluded (i : Nat) (ps : List Posting) : List Region := ps.flatMap (Posting.excludes i)

/-- The account of a goal after some regions were posted. For each test case the last region recorded counts. -/
structure Account (d : Diagram) (γ : Goal) (opened : List Region) (covered : List (Nat × Region)) (excluded : List Region) :
    Prop where
  has_opened : ∀ o ∈ opened, d.Has o
  has_covered : ∀ e ∈ covered, d.Has e.2
  has_excluded : ∀ u ∈ excluded, d.Has u
  covering : γ.covering = .ofList (covered.map fun e => (e.1, some e.2))
  remaining : ∃ r, γ.remaining = some r ∧ d.Has r ∧ ∀ c, d.holds r c = true ↔
    (∀ o ∈ opened, d.holds o c = true) ∧ (∀ e ∈ covered, d.holds e.2 c = false) ∧ ∀ u ∈ excluded, d.holds u c = false
  infeasible_none : γ.infeasible = none ↔ excluded = []
  infeasible_some : ∀ r, γ.infeasible = some r →
    d.Has r ∧ ∀ c, d.holds r c = true ↔ ∃ u ∈ excluded, d.holds u c = true

variable {o e : List Region} {k : List (Nat × Region)}

theorem Account.extends (account : Account d γ o k e) (wf : d.WellFormed) (ext : d.Extends d') : Account d' γ o k e := by
  have same : ∀ r c, d.Has r → d'.holds r c = d.holds r c := fun r c has => ext.holds_eq wf has
  have has_o := account.has_opened
  have has_k := account.has_covered
  have has_e := account.has_excluded
  refine ⟨fun r mem => ext.has (has_o r mem), fun x mem => ext.has (has_k x mem), fun r mem => ext.has (has_e r mem),
    account.covering, ?_, account.infeasible_none, fun r found => ?_⟩
  · obtain ⟨r, left, has, holds⟩ := account.remaining
    refine ⟨r, left, ext.has has, fun c => ?_⟩
    rw [same r c has, holds c]
    grind
  · obtain ⟨has, holds⟩ := account.infeasible_some r found
    refine ⟨ext.has has, fun c => ?_⟩
    rw [same r c has, holds c]
    grind

/-- Taking a region from what is open of a goal. -/
theorem Account.without (account : Account d γ o k e) (wf : d.WellFormed) (has : d.Has u) :
    Yields true (without γ.openRegion u) d fun r d' => d'.Has r ∧ ∀ c, d'.holds r c = true ↔
      ((∀ o' ∈ o, d'.holds o' c = true) ∧ (∀ x ∈ k, d'.holds x.2 c = false) ∧ ∀ u' ∈ e, d'.holds u' c = false) ∧
        d'.holds u c = false := by
  obtain ⟨r, left, has_r, _⟩ := account.remaining
  rw [Goal.openRegion_of_remaining left]
  apply (without_yields wf has_r has).mono
  intro r' d' ext _ spec
  obtain ⟨r₁, left₁, _, holds⟩ := (account.extends wf ext).remaining
  cases left.symm.trans left₁
  refine ⟨spec.1, fun c => ?_⟩
  rw [spec.2 c, ← holds c, ← ext.holds_eq wf has_r, ← ext.holds_eq wf has]
  simp

/-- Recording coverage takes the region from what is open, and enters it for the test case. -/
theorem Account.cover (account : Account d γ o k e) (wf : d.WellFormed) (has : d.Has u)
    (infeasible : γ'.infeasible = γ.infeasible) (covering : γ'.covering = γ.covering.insert t (some u))
    (remaining : γ'.remaining = some (Diagram.without γ.openRegion u d).1) :
    Account (Diagram.without γ.openRegion u d).2 γ' o (k ++ [(t, u)]) e := by
  obtain ⟨ext, _, has', holds⟩ := account.without wf has
  have now := account.extends wf ext
  refine ⟨now.has_opened, fun x mem => ?_, now.has_excluded, ?_, ⟨_, remaining, has', fun c => ?_⟩,
    infeasible ▸ now.infeasible_none, infeasible ▸ now.infeasible_some⟩
  · cases List.mem_append.1 mem with
    | inl old => exact now.has_covered x old
    | inr new => exact List.mem_singleton.1 new ▸ ext.has has
  · rw [covering, account.covering, List.map_append, IdMap.ofList, IdMap.ofList, List.foldl_append]
    rfl
  · rw [holds c, List.forall_mem_append, List.forall_mem_singleton]
    tauto

/-- Recording infeasibility takes the region from what is open, and adds it to what is infeasible. -/
theorem Account.exclude (account : Account d γ o k e) (wf : d.WellFormed) (has : d.Has u) {r : Region}
    (covering : γ'.covering = γ.covering) (infeasible : γ'.infeasible = some r) (has_r : d.Has r)
    (union : ∀ c, d.holds r c = true ↔ (∃ u' ∈ e, d.holds u' c = true) ∨ d.holds u c = true)
    (remaining : γ'.remaining = some (Diagram.without γ.openRegion u d).1) :
    Account (Diagram.without γ.openRegion u d).2 γ' o k (e ++ [u]) := by
  obtain ⟨ext, _, has', holds⟩ := account.without wf has
  have now := account.extends wf ext
  refine ⟨now.has_opened, now.has_covered, fun x mem => ?_, covering ▸ now.covering, ⟨_, remaining, has', fun c => ?_⟩,
    by simp [infeasible], fun r' found => ?_⟩
  · cases List.mem_append.1 mem with
    | inl old => exact now.has_excluded x old
    | inr new => exact List.mem_singleton.1 new ▸ ext.has has
  · rw [holds c, List.forall_mem_append, List.forall_mem_singleton]
    tauto
  · cases infeasible.symm.trans found
    refine ⟨ext.has has_r, fun c => ?_⟩
    rw [ext.holds_eq wf has_r, union c, ← ext.holds_eq wf has]
    simp only [List.mem_append, List.mem_singleton, or_and_right, exists_or, exists_eq_left]
    apply or_congr_left
    apply exists_congr
    intro u'
    apply and_congr_right
    intro mem
    rw [ext.holds_eq wf (account.has_excluded u' mem)]

/-- Adding a region to what is infeasible of a goal. -/
theorem Account.union (account : Account d γ o k e) (wf : d.WellFormed) (has : d.Has u) :
    let j := match γ.infeasible with
      | some old => join old u d
      | none => (u, d)
    d.Extends j.2 ∧ j.2.WellFormed ∧ j.2.Has j.1 ∧
      ∀ c, j.2.holds j.1 c = true ↔ (∃ u' ∈ e, j.2.holds u' c = true) ∨ j.2.holds u c = true := by
  cases before : γ.infeasible with
  | none => exact ⟨.refl d, wf, has, fun c => by simp [account.infeasible_none.1 before]⟩
  | some old =>
    have has_old := (account.infeasible_some old before).1
    obtain ⟨ext, ready, has', holds⟩ := join_yields wf has_old has
    have now := ((account.extends wf ext).infeasible_some old before).2
    refine ⟨ext, ready rfl, has', fun c => ?_⟩
    rw [holds c, ← now c, ext.holds_eq wf has_old, ext.holds_eq wf has, Bool.or_eq_true]

/-- The suite keeps an account for each goal, and knows for which goals something was posted. -/
structure Books (s : Suite) (d : Diagram) (ps : List Posting) : Prop where
  index : ∀ i γ, s.goals.get? i = some γ → γ.index = i
  ready : d.Ready s.variability
  listed : ∀ i, s.isPartiallyCovered i = true ↔ covered i ps ≠ []
  marked : ∀ i, s.isInfeasible i = true ↔ excluded i ps ≠ []
  unopened : s.variability = true → ∀ i, s.goals.get? i = none → opened i ps = [] ∧ covered i ps = [] ∧ excluded i ps = []
  account : s.variability = true → ∀ i γ, s.goals.get? i = some γ →
    Account d γ (opened i ps) (covered i ps) (excluded i ps)

variable {ps ps' : List Posting} {p : Posting}

theorem opened_concat : opened i (ps ++ [p]) = opened i ps ++ p.opens i := by simp [opened]

theorem covered_concat : covered i (ps ++ [p]) = covered i ps ++ p.covers i := by simp [covered]

theorem excluded_concat : excluded i (ps ++ [p]) = excluded i ps ++ p.excludes i := by simp [excluded]

theorem books_start (variability : Bool) : Books { variability } .fresh [] where
  index i γ here := by cases here
  ready _ := wellFormed_fresh
  listed i := by simp [isPartiallyCovered, covered]
  marked i := by
    have none : ({ variability } : Suite).isInfeasible i = false := rfl
    simp [none, excluded]
  unopened _ i _ := ⟨rfl, rfl, rfl⟩
  account _ i γ here := by cases here

/-- Only what was posted for each goal matters. -/
theorem Books.congr (books : Books s d ps)
    (same : ∀ i, opened i ps' = opened i ps ∧ covered i ps' = covered i ps ∧ excluded i ps' = excluded i ps) :
    Books s d ps' where
  index := books.index
  ready := books.ready
  listed i := by rw [(same i).2.1, books.listed]
  marked i := by rw [(same i).2.2, books.marked]
  unopened tracks i none := by
    rw [(same i).1, (same i).2.1, (same i).2.2]
    exact books.unopened tracks i none
  account tracks i γ here := by
    rw [(same i).1, (same i).2.1, (same i).2.2]
    exact books.account tracks i γ here

/-- A posting for one goal, which is replaced, or added. -/
theorem Books.enter (books : Books s d ps) (index : γ'.index = i)
    (goals : ∀ j, s'.goals.get? j = if j = i then some γ' else s.goals.get? j) (variability : s'.variability = s.variability)
    (ready : d'.Ready s.variability) (ext : s.variability = true → d.Extends d')
    (others : ∀ j, j ≠ i → p.opens j = [] ∧ p.covers j = [] ∧ p.excludes j = [])
    (listed : ∀ j, s'.isPartiallyCovered j = true ↔ s.isPartiallyCovered j = true ∨ p.covers j ≠ [])
    (marked : ∀ j, s'.isInfeasible j = true ↔ s.isInfeasible j = true ∨ p.excludes j ≠ [])
    (account : s.variability = true →
      Account d' γ' (opened i ps ++ p.opens i) (covered i ps ++ p.covers i) (excluded i ps ++ p.excludes i)) :
    Books s' d' (ps ++ [p]) where
  index j γ here := by
    rw [goals] at here
    split at here
    next same => exact (Option.some.inj here) ▸ index.trans same.symm
    next => exact books.index j γ here
  ready := variability ▸ ready
  listed j := by
    rw [listed, books.listed, covered_concat, ne_eq, ne_eq, ne_eq, List.append_eq_nil_iff]
    tauto
  marked j := by
    rw [marked, books.marked, excluded_concat, ne_eq, ne_eq, ne_eq, List.append_eq_nil_iff]
    tauto
  unopened tracks j none := by
    rw [goals] at none
    split at none
    next => cases none
    next other =>
      rw [opened_concat, covered_concat, excluded_concat, (others j other).1, (others j other).2.1, (others j other).2.2,
        List.append_nil, List.append_nil, List.append_nil]
      exact books.unopened (variability ▸ tracks) j none
  account tracks j γ here := by
    have tracks : s.variability = true := variability ▸ tracks
    rw [opened_concat, covered_concat, excluded_concat]
    rw [goals] at here
    split at here
    next same =>
      cases here
      rw [same]
      exact account tracks
    next other =>
      rw [(others j other).1, (others j other).2.1, (others j other).2.2, List.append_nil, List.append_nil, List.append_nil]
      exact (books.account tracks j γ here).extends (books.ready tracks) (ext tracks)

/-- The suite and its diagram later on. -/
structure Follows (s : Suite) (d : Diagram) (s' : Suite) (d' : Diagram) : Prop where
  variability : s'.variability = s.variability
  grows : s.variability = true → d.Extends d'
  known : ∀ i γ, s.goals.get? i = some γ → ∃ γ', s'.goals.get? i = some γ'

theorem Follows.refl (s : Suite) (d : Diagram) : Follows s d s d := ⟨rfl, fun _ => .refl d, fun _ γ here => ⟨γ, here⟩⟩

theorem Follows.trans {s'' : Suite} {d'' : Diagram} (first : Follows s d s' d') (second : Follows s' d' s'' d'') :
    Follows s d s'' d'' where
  variability := second.variability.trans first.variability
  grows tracks := (first.grows tracks).trans (second.grows (first.variability ▸ tracks))
  known i γ here := by
    obtain ⟨γ', here'⟩ := first.known i γ here
    exact second.known i γ' here'

/-- A goal was replaced. -/
theorem Follows.of_goals (variability : s'.variability = s.variability) (grows : s.variability = true → d.Extends d')
    (goals : ∀ j, s'.goals.get? j = if j = i then some γ' else s.goals.get? j) : Follows s d s' d' where
  variability := variability
  grows := grows
  known j γ there := by
    rw [goals]
    split
    next => exact ⟨γ', rfl⟩
    next => exact ⟨γ, there⟩

theorem exists_recordCoverage (stored : (s.testCase? t).isSome = true) (here : s.goals.get? i = some γ) :
    ∃ s' d', s.recordCoverage t i region d = .ok (s', d') := by
  have missing : (s.testCase? t).isNone = false := by simpa using stored
  let booking : Suite := { s with coveredBy := s.coveredBy.insert i ((s.coveredBy.getD i ∅).insert t) }.predict i .feasible
  have found : booking.goal i = .ok γ := goal_eq_ok here
  simp only [recordCoverage, missing, Bool.false_eq_true, if_false]
  apply exists_lift_bind found
  split
  next => exact ⟨_, _, rfl⟩
  next => exact ⟨_, _, rfl⟩

theorem Books.coverage (books : Books s d ps) (stored : (s.testCase? t).isSome = true) (here : s.goals.get? i = some γ)
    (known : s.variability = true → d.Knows region) :
    ∃ s' d', s.recordCoverage t i region d = .ok (s', d') ∧ Follows s d s' d' ∧
      Books s' d' (ps ++ [.coverage t i region]) := by
  obtain ⟨s', d', ok⟩ := exists_recordCoverage stored here
  obtain ⟨γ₁, γ', here₁, same, infeasible, covering, rfl, left, kept⟩ := recordCoverage_eq_ok ok
  cases here.symm.trans here₁
  have index : γ'.index = i := same.index.trans (books.index i γ here)
  have goals : ∀ j, (s.goals.insert γ'.index γ').get? j = if j = i then some γ' else s.goals.get? j := by
    intro j
    rw [IdMap.get?_insert, index]
  have ext : s.variability = true → d.Extends d' ∧ d'.WellFormed := by
    intro tracks
    obtain ⟨remaining, rfl⟩ := left tracks
    obtain ⟨ext, ready, _⟩ := (books.account tracks i γ here).without (books.ready tracks)
      (has_getD books.ready known tracks)
    exact ⟨ext, ready rfl⟩
  refine ⟨_, d', ok, .of_goals rfl (fun tracks => (ext tracks).1) goals,
    books.enter index goals rfl (fun tracks => (ext tracks).2) (fun tracks => (ext tracks).1) (fun j other => ?_)
      (fun j => ?_) (fun j => ?_) fun tracks => ?_⟩
  · simp [Posting.opens, Posting.covers, Posting.excludes, other.symm]
  · have listed := fun n => lists_insert (s := s) (i := i) (n := t) rfl j n
    rw [isPartiallyCovered_iff, isPartiallyCovered_iff, Posting.covers]
    refine (exists_congr listed).trans ?_
    rw [exists_or]
    apply or_congr_right
    by_cases same : i = j <;> simp [same, eq_comm]
  · exact (or_iff_left fun h => h rfl).symm
  · rw [show (Posting.coverage t i region).opens i = [] from rfl, show (Posting.coverage t i region).excludes i = [] from rfl,
      show (Posting.coverage t i region).covers i = [(t, region.getD .all)] from if_pos rfl, List.append_nil, List.append_nil]
    rw [if_pos tracks] at covering
    obtain ⟨remaining, rfl⟩ := left tracks
    exact (books.account tracks i γ here).cover (books.ready tracks) (has_getD books.ready known tracks) infeasible
      covering remaining

/-- What is infeasible so far, and what is added to it. -/
theorem addInfeasible_eq (tracks : s.variability = true) (here : s.goals.get? i = some γ) (d : Diagram)
    (region : Option Region) : s.addInfeasible i region d =
      let u := match γ.infeasible with
        | some old => join old (region.getD .all) d
        | none => (region.getD .all, d)
      let r := without γ.openRegion (region.getD .all) u.2
      .ok (({ s with infeasible := s.infeasible.insert i }.predict i .infeasible).setGoal
        { γ with infeasible := some u.1, remaining := some r.1 }, r.2) := by
  let booking : Suite := { s with infeasible := s.infeasible.insert i }.predict i .infeasible
  have found : booking.goal i = .ok γ := goal_eq_ok here
  have tracked : booking.variability = true := tracks
  simp only [addInfeasible]
  rw [if_pos tracked]
  apply lift_bind_eq_ok.2
  refine ⟨γ, found, ?_⟩
  cases γ.infeasible with
  | none => rfl
  | some old => rfl

theorem isInfeasible_insert (noted : s'.infeasible = s.infeasible.insert i) (j : Nat) : s'.isInfeasible j = true ↔
    s.isInfeasible j = true ∨ (Posting.infeasible i region).excludes j ≠ [] := by
  rw [isInfeasible, isInfeasible, noted, IdSet.contains_iff, IdSet.contains_iff, IdSet.mem_insert, Posting.excludes]
  by_cases same : i = j <;> simp [same, eq_comm, or_comm]

/-- Without configurations only the mark is entered. -/
theorem addInfeasible_of_plain (plain : s.variability = false) (region : Option Region) (d : Diagram) :
    s.addInfeasible i region d = .ok ({ s with infeasible := s.infeasible.insert i }.predict i .infeasible, d) := by
  let booking : Suite := { s with infeasible := s.infeasible.insert i }.predict i .infeasible
  have untracked : booking.variability ≠ true := Bool.eq_false_iff.1 plain
  simp only [addInfeasible]
  rw [if_neg untracked]
  rfl

theorem Books.infeasible_of_plain (books : Books s d ps) (plain : s.variability = false) :
    ∃ s', s.addInfeasible i region d = .ok (s', d) ∧ Follows s d s' d ∧ Books s' d (ps ++ [.infeasible i region]) := by
  let booking : Suite := { s with infeasible := s.infeasible.insert i }.predict i .infeasible
  have untracked : booking.variability ≠ true := Bool.eq_false_iff.1 plain
  refine ⟨booking, addInfeasible_of_plain plain region d, ⟨rfl, fun _ => .refl d, fun j γ there => ⟨γ, there⟩⟩, books.index,
    books.ready, fun j => ?_, fun j => ?_, fun tracks => absurd tracks untracked, fun tracks => absurd tracks untracked⟩
  · rw [covered_concat, show (Posting.infeasible i region).covers j = [] from rfl, List.append_nil]
    exact books.listed j
  · rw [isInfeasible_insert rfl j, books.marked, excluded_concat, ne_eq, ne_eq, ne_eq, List.append_eq_nil_iff]
    tauto

theorem Books.infeasible_of_tracked (books : Books s d ps) (tracks : s.variability = true)
    (here : s.goals.get? i = some γ) (has : d.Has (region.getD .all)) :
    ∃ s' d', s.addInfeasible i region d = .ok (s', d') ∧ Follows s d s' d' ∧
      Books s' d' (ps ++ [.infeasible i region]) := by
  have account := books.account tracks i γ here
  obtain ⟨ext, wf, has_u, union⟩ := account.union (books.ready tracks) has
  have now := account.extends (books.ready tracks) ext
  obtain ⟨ext', ready, _⟩ := now.without wf (ext.has has)
  have noted := addInfeasible_eq tracks here d region
  generalize (match γ.infeasible with
    | some old => join old (region.getD .all) d
    | none => (region.getD .all, d)) = u at noted ext wf has_u union now ext' ready
  let booking : Suite := { s with infeasible := s.infeasible.insert i }.predict i .infeasible
  let γ' : Goal :=
    { γ with infeasible := some u.1, remaining := some (without γ.openRegion (region.getD .all) u.2).1 }
  have index : γ'.index = i := books.index i γ here
  have goals : ∀ j, (booking.setGoal γ').goals.get? j = if j = i then some γ' else s.goals.get? j := by
    intro j
    rw [setGoal, IdMap.get?_insert, index]
    rfl
  have closed : Account _ γ' _ _ _ := now.exclude wf (ext.has has) rfl rfl has_u union rfl
  refine ⟨booking.setGoal γ', _, noted, .of_goals rfl (fun _ => ext.trans ext') goals,
    books.enter index goals rfl (fun _ => ready rfl) (fun _ => ext.trans ext') (fun j other => ?_)
      (fun j => (or_iff_left fun h => h rfl).symm) (isInfeasible_insert rfl) fun _ => ?_⟩
  · simp [Posting.opens, Posting.covers, Posting.excludes, other.symm]
  · rw [show (Posting.infeasible i region).opens i = [] from rfl, show (Posting.infeasible i region).covers i = [] from rfl,
      show (Posting.infeasible i region).excludes i = [region.getD .all] from if_pos rfl, List.append_nil,
      List.append_nil]
    exact closed

theorem addGoal_eq (s : Suite) (γ : Goal) : s.addGoal γ = { s with
    predictions := s.predictions.insert γ.index .unknown
    goals := s.goals.insert γ.index
      (if s.variability && γ.remaining.isNone then { γ with remaining := some .all } else γ) } := by
  rw [addGoal]
  split <;> rfl

theorem get?_addGoal : (s.addGoal γ).goals.get? j = if j = γ.index then
    some (if s.variability && γ.remaining.isNone then { γ with remaining := some .all } else γ) else s.goals.get? j := by
  rw [addGoal_eq, IdMap.get?_insert]

/-- Goals that differ from one that is added stay new. -/
theorem new_addGoal {gs : List Goal} (other : γ.index ∉ gs.map (·.index)) (new : ∀ γ' ∈ gs, s.goals.get? γ'.index = none) :
    ∀ γ' ∈ gs, (s.addGoal γ).goals.get? γ'.index = none := by
  intro γ' mem
  have differs : γ'.index ≠ γ.index := fun same => other (same ▸ List.mem_map_of_mem mem)
  rw [get?_addGoal, if_neg differs]
  exact new γ' mem

theorem Books.addGoal (books : Books s d ps) (new : s.goals.get? γ.index = none)
    (unrecorded : s.variability = true → γ.covering = ∅ ∧ γ.infeasible = none ∧ d.Knows γ.remaining) :
    Books (s.addGoal γ) d (ps ++ [.goals [γ]]) := by
  let γ' : Goal := if s.variability && γ.remaining.isNone then { γ with remaining := some .all } else γ
  have index : γ'.index = γ.index := by
    simp only [γ']
    split <;> rfl
  refine books.enter index (fun j => get?_addGoal) rfl books.ready (fun _ => .refl d) (fun j other => ?_)
    (fun j => (or_iff_left fun h => h rfl).symm) (fun j => (or_iff_left fun h => h rfl).symm) fun tracks => ?_
  · simp [Posting.opens, Posting.covers, Posting.excludes, other.symm]
  · obtain ⟨opened, covered, excluded⟩ := books.unopened tracks γ.index new
    obtain ⟨covering, infeasible, known⟩ := unrecorded tracks
    rw [opened, covered, excluded, show (Posting.goals [γ]).opens γ.index = [γ.openRegion] by simp [Posting.opens]]
    have left : γ'.covering = ∅ ∧ γ'.infeasible = none ∧ γ'.remaining = some γ.openRegion := by
      simp only [γ', tracks, Bool.true_and]
      cases before : γ.remaining with
      | none => simp [covering, infeasible, Goal.openRegion, before]
      | some r => simp [covering, infeasible, Goal.openRegion, before]
    have has : d.Has γ.openRegion := has_getD books.ready (fun _ => known) tracks
    refine ⟨by simpa using has, by simp [Posting.covers], by simp [Posting.excludes], left.1,
      ⟨_, left.2.2, has, by simp [Posting.covers, Posting.excludes]⟩, by simp [left.2.1, Posting.excludes], ?_⟩
    simp [left.2.1]

theorem Books.addGoals {gs : List Goal} (books : Books s d ps) (distinct : (gs.map (·.index)).Nodup)
    (new : ∀ γ ∈ gs, s.goals.get? γ.index = none)
    (unrecorded : s.variability = true → ∀ γ ∈ gs, γ.covering = ∅ ∧ γ.infeasible = none ∧ d.Knows γ.remaining) :
    Follows s d (s.addGoals gs) d ∧ Books (s.addGoals gs) d (ps ++ [.goals gs]) := by
  induction gs generalizing s ps with
  | nil =>
    refine ⟨.refl s d, books.congr fun i => ?_⟩
    simp [opened_concat, covered_concat, excluded_concat, Posting.opens, Posting.covers, Posting.excludes]
  | cons γ rest ih =>
    rw [List.map_cons, List.nodup_cons] at distinct
    have first := books.addGoal (new γ List.mem_cons_self) fun tracks => unrecorded tracks γ List.mem_cons_self
    obtain ⟨follows, others⟩ := ih first distinct.2
      (new_addGoal distinct.1 fun γ' mem => new γ' (List.mem_cons_of_mem γ mem))
      fun tracks γ' mem => unrecorded tracks γ' (List.mem_cons_of_mem γ mem)
    have grown : Follows s d (s.addGoal γ) d := .of_goals rfl (fun _ => .refl d) fun j => get?_addGoal
    refine ⟨grown.trans follows, others.congr fun i => ?_⟩
    have parts : (Posting.goals (γ :: rest)).opens i = (Posting.goals [γ]).opens i ++ (Posting.goals rest).opens i := by
      rw [Posting.opens, ← List.singleton_append, List.filter_append, List.map_append]
      rfl
    refine ⟨?_, ?_, ?_⟩
    · rw [opened_concat, opened_concat, opened_concat, parts, List.append_assoc]
    · rw [covered_concat, covered_concat, covered_concat, List.append_assoc]
      rfl
    · rw [excluded_concat, excluded_concat, excluded_concat, List.append_assoc]
      rfl

/-- Storing a test case enters nothing. -/
theorem Books.stored (books : Books s d ps) (tc : TestCase) : Books (s.stored tc) d ps := by
  rw [stored_eq]
  exact ⟨books.index, books.ready, books.listed, books.marked, books.unopened, books.account⟩

theorem testCase?_stored (s : Suite) (tc : TestCase) : ((s.stored tc).testCase? tc.id).isSome = true := by
  rw [stored]
  split
  next => simp [testCase?]
  next known => rwa [Bool.not_eq_true, Option.isNone_eq_false_iff] at known

theorem knows_of_all (known : (region.all fun r => decide (d.Has r)) = true) : d.Knows region := by
  intro r found
  simpa [found] using known

/-- A permitted posting succeeds and is entered in the books. -/
theorem Books.run (books : Books s d ps) (permitted : p.permitted s d = true) :
    ∃ s' d', p.run s d = .ok (s', d') ∧ Follows s d s' d' ∧ Books s' d' (ps ++ [p]) := by
  have kept : ∀ {i}, s.goals.contains i = true → ∃ γ, s.goals.get? i = some γ := Option.isSome_iff_exists.1
  cases p with
  | goals gs =>
    simp only [Posting.permitted, Bool.and_eq_true, decide_eq_true_eq, List.all_eq_true, Bool.not_eq_true',
      Bool.or_eq_true] at permitted
    obtain ⟨distinct, each⟩ := permitted
    obtain ⟨follows, books'⟩ := books.addGoals distinct
      (fun γ mem => Option.isSome_eq_false_iff.1 (each γ mem).1 |> Option.isNone_iff_eq_none.1)
      fun tracks γ mem => by
        obtain ⟨_, plain | ⟨⟨covering, infeasible⟩, known⟩⟩ := each γ mem
        · rw [tracks] at plain
          cases plain
        · exact ⟨IdMap.eq_empty_of_isEmpty covering, Option.isNone_iff_eq_none.1 infeasible, knows_of_all known⟩
    exact ⟨s.addGoals gs, d, rfl, follows, books'⟩
  | testCase t g region =>
    simp only [Posting.permitted, Bool.and_eq_true, Bool.or_eq_true, Bool.not_eq_true'] at permitted
    obtain ⟨γ, here⟩ := kept permitted.1
    have same : (s.stored t).goals = s.goals ∧ (s.stored t).variability = s.variability := by
      rw [stored_eq]
      exact ⟨rfl, rfl⟩
    obtain ⟨s', d', ok, follows, books'⟩ := (books.stored t).coverage (testCase?_stored s t) (same.1 ▸ here)
      fun tracks => knows_of_all (permitted.2.resolve_left (by simp [← same.2, tracks]))
    have stores : Follows s d (s.stored t) d := ⟨same.2, fun _ => .refl d, fun j γ there => ⟨γ, same.1 ▸ there⟩⟩
    refine ⟨s', d', ok, stores.trans follows, books'.congr fun i => ?_⟩
    rw [opened_concat, opened_concat, covered_concat, covered_concat, excluded_concat, excluded_concat]
    exact ⟨rfl, rfl, rfl⟩
  | coverage t g region =>
    simp only [Posting.permitted, Bool.and_eq_true, Bool.or_eq_true, Bool.not_eq_true'] at permitted
    obtain ⟨⟨stored, here⟩, known⟩ := permitted
    obtain ⟨γ, here⟩ := kept here
    exact books.coverage stored here fun tracks => knows_of_all (known.resolve_left (by simp [tracks]))
  | infeasible g region =>
    simp only [Posting.permitted, Bool.and_eq_true, Bool.or_eq_true, Bool.not_eq_true'] at permitted
    cases tracks : s.variability with
    | false =>
      obtain ⟨s', ok, rest⟩ := books.infeasible_of_plain tracks
      exact ⟨s', d, ok, rest⟩
    | true =>
      obtain ⟨here, known⟩ := permitted.resolve_left (by simp [tracks])
      obtain ⟨γ, here⟩ := kept here
      exact books.infeasible_of_tracked tracks here (has_getD books.ready (fun _ => knows_of_all known) tracks)
  | ask request =>
    simp only [Posting.permitted, Bool.or_eq_true, Bool.not_eq_true', List.all_eq_true, decide_eq_true_eq] at permitted
    have grants : s.variability = true → d.Extends (request.perform d).2 ∧ (request.perform d).2.WellFormed := by
      intro tracks
      have granted := grants_perform (books.ready tracks) request (permitted.resolve_left (by simp [tracks]))
      exact ⟨granted.grows, granted.wellFormed⟩
    refine ⟨s, (request.perform d).2, rfl, ⟨rfl, fun tracks => (grants tracks).1, fun j γ there => ⟨γ, there⟩⟩, ?_⟩
    have books' : Books s (request.perform d).2 ps :=
      { books with
        ready := fun tracks => (grants tracks).2
        account := fun tracks i γ here => (books.account tracks i γ here).extends (books.ready tracks) (grants tracks).1 }
    refine books'.congr fun i => ?_
    simp [opened_concat, covered_concat, excluded_concat, Posting.opens, Posting.covers, Posting.excludes]

/-- Permitted postings succeed. What the books say then is what is posted further on top of. -/
theorem Books.post {past rest : List Posting} (books : Books s d past) (permitted : permits (ps ++ rest) s d = true) :
    ∃ s' d', post ps s d = .ok (s', d') ∧ Follows s d s' d' ∧ Books s' d' (past ++ ps) ∧ permits rest s' d' = true := by
  induction ps generalizing s d past with
  | nil => exact ⟨s, d, rfl, .refl s d, (List.append_nil past).symm ▸ books, permitted⟩
  | cons p ps ih =>
    rw [List.cons_append, permits, Bool.and_eq_true] at permitted
    obtain ⟨allowed, permitted⟩ := permitted
    obtain ⟨s₁, d₁, ok, follows, books₁⟩ := books.run allowed
    rw [ok] at permitted
    obtain ⟨s', d', ok', follows', books', left⟩ := ih books₁ permitted
    rw [List.append_assoc] at books'
    exact ⟨s', d', bind_eq_ok.2 ⟨s₁, d₁, ok, ok'⟩, follows.trans follows', books', left⟩

end Suite

end GoalCoverage
