import GoalCoverage.Proofs.Suite.Coverings
import GoalCoverage.Proofs.Suite.Postings

/-!
What the callers of a suite do with it. Besides posting they put goals off and take them up again, and they guess.
Operations may be repeated, and test cases and regions may come again; the first operation that fails is the last.
-/

namespace GoalCoverage.Suite

open Diagram

inductive Operation where
  | post (p : Posting)
  | timeOut (entries : List (Nat × Nat))
  | takeTimedOut
  | predict (g : Nat) (p : Prediction)

namespace Operation

def run : Operation → Suite → Regional Suite
  | post p, s => p.run s
  | timeOut entries, s => return s.addTimedOut entries
  | takeTimedOut, s => return s.takeTimedOut.2
  | predict g p, s => return s.predict g p

def adds : Operation → List Goal
  | post (.goals gs) => gs
  | _ => []

/-- The goals for which something is entered. -/
def names : Operation → List Nat
  | post (.testCase _ g _) | post (.coverage _ g _) | post (.infeasible g _) | predict g _ => [g]
  | timeOut entries => entries.map (·.2)
  | _ => []

/-- Does the operation add new goals only, each once and with no covering test case, and name known goals only? -/
def permitted (s : Suite) (o : Operation) : Bool :=
  decide (o.adds.map (·.index)).Nodup && (o.adds.all fun γ => !s.goals.contains γ.index && γ.covering.isEmpty) &&
    o.names.all s.goals.contains

end Operation

/-- Do the operations pass a check, each in the suite that it meets, for as long as none fails? -/
def allows (check : Suite → Operation → Bool) : List Operation → Suite → Diagram → Bool
  | [], _, _ => true
  | o :: rest, s, d => check s o && match o.run s d with
    | .ok (s, d) => allows check rest s d
    | .error _ => true

/-- The suite and its diagram after the operations before the first that fails. -/
def after : List Operation → Suite → Diagram → Suite × Diagram
  | [], s, d => (s, d)
  | o :: rest, s, d => match o.run s d with
    | .ok (s, d) => after rest s d
    | .error _ => (s, d)

variable {s s' : Suite} {d d' : Diagram} {i n : Nat} {γ γ' : Goal} {region : Option Region} {o : Operation}
  {ops : List Operation}

theorem adds_of_permitted (permitted : o.permitted s = true) :
    (o.adds.map (·.index)).Nodup ∧ (∀ γ ∈ o.adds, s.goals.get? γ.index = none) ∧ ∀ γ ∈ o.adds, γ.covering = ∅ := by
  simp only [Operation.permitted, Bool.and_eq_true, decide_eq_true_eq, List.all_eq_true, Bool.not_eq_true'] at permitted
  obtain ⟨⟨distinct, new⟩, _⟩ := permitted
  refine ⟨distinct, fun γ mem => ?_, fun γ mem => IdMap.eq_empty_of_isEmpty (new γ mem).2⟩
  exact Option.isNone_iff_eq_none.1 (Option.isSome_eq_false_iff.1 (new γ mem).1)

theorem names_of_permitted (permitted : o.permitted s = true) (named : i ∈ o.names) : ∃ γ, s.goals.get? i = some γ := by
  simp only [Operation.permitted, Bool.and_eq_true, List.all_eq_true] at permitted
  exact Option.isSome_iff_exists.1 (permitted.2 i named)

/-- The suite lists a test case for a goal just where the goal has an entry for it, and only test cases that it stores, which
have different numbers. -/
structure Aligned (s : Suite) : Prop where
  index : ∀ i γ, s.goals.get? i = some γ → γ.index = i
  distinct : (s.testCases.map (·.id)).Nodup
  listed : ∀ i n, s.Lists i n ↔ ∃ γ o, s.goals.get? i = some γ ∧ γ.covering.get? n = some o
  stored : ∀ i n, s.Lists i n → (s.testCase? n).isSome = true

theorem aligned_start (variability : Bool) : ({ variability } : Suite).Aligned where
  index i γ here := by cases here
  distinct := .nil
  listed i n := by simp [Lists]
  stored i n lists := by simp [Lists] at lists

namespace Aligned

variable (aligned : s.Aligned)

include aligned

theorem congr (goals : s'.goals = s.goals) (testCases : s'.testCases = s.testCases) (coveredBy : s'.coveredBy = s.coveredBy) :
    s'.Aligned where
  index := goals ▸ aligned.index
  distinct := testCases ▸ aligned.distinct
  listed i n := by
    rw [Lists, coveredBy, goals]
    exact aligned.listed i n
  stored i n lists := by
    rw [Lists, coveredBy] at lists
    rw [testCase?, testCases]
    exact aligned.stored i n lists

theorem store (tc : TestCase) : (s.stored tc).Aligned := by
  have others := stored_eq s tc
  refine ⟨?_, nodup_stored aligned.distinct, fun i n => ?_, fun i n lists => ?_⟩
  · rw [others]
    exact aligned.index
  · rw [others]
    exact aligned.listed i n
  · rw [others] at lists
    have before := aligned.stored i n lists
    rw [testCase?, List.find?_isSome] at before ⊢
    obtain ⟨tc', mem, same⟩ := before
    exact ⟨tc', (prefix_stored s tc).subset mem, same⟩

/-- Test cases are entered for one goal and for the suite at once. -/
theorem enter {p : Nat → Prop} (here : s.goals.get? i = some γ) (same : γ.SameAs γ')
    (goals : ∀ j, s'.goals.get? j = if j = i then some γ' else s.goals.get? j) (testCases : s'.testCases = s.testCases)
    (lists : ∀ j m, s'.Lists j m ↔ s.Lists j m ∨ j = i ∧ p m) (known : ∀ m, p m → (s.testCase? m).isSome = true)
    (entries : ∀ m, (∃ o, γ'.covering.get? m = some o) ↔ (∃ o, γ.covering.get? m = some o) ∨ p m) : s'.Aligned := by
  refine ⟨fun j γ₁ there => ?_, testCases ▸ aligned.distinct, fun j m => ?_, fun j m listed => ?_⟩
  · rw [goals] at there
    split at there
    next at_i =>
      cases there
      exact (same.index.trans (aligned.index i γ here)).trans at_i.symm
    next => exact aligned.index j γ₁ there
  · rw [lists, aligned.listed, goals]
    split
    next at_i =>
      subst at_i
      simp [here, entries]
    next other => simp [other]
  · rw [testCase?, testCases]
    exact ((lists j m).1 listed).elim (aligned.stored j m) fun added => known m added.2

theorem coverage (ok : s.recordCoverage n i region d = .ok (s', d')) : s'.Aligned := by
  have known := stored_of_recordCoverage ok
  obtain ⟨γ, γ', here, same, _, covering, rfl, _⟩ := recordCoverage_eq_ok ok
  refine aligned.enter here same (fun j => get?_setGoal (aligned.index i γ here) same) rfl (lists_insert rfl)
    (fun m is => is ▸ known) fun m => ?_
  rw [covering, IdMap.get?_insert]
  split
  next is => simp [is]
  next other => simp [Ne.symm other]

theorem infeasible (ok : s.addInfeasible i region d = .ok (s', d')) : s'.Aligned := by
  obtain ⟨_, γ, γ', here, same, covering, rfl⟩ | ⟨_, rfl, _⟩ := addInfeasible_eq_ok ok
  · refine aligned.enter (p := fun _ => False) here same (fun j => get?_setGoal (aligned.index i γ here) same) rfl
      (fun j m => ?_) (fun _ none => none.elim) fun m => ?_
    · rw [and_false, or_false]
      rfl
    · rw [covering, or_false]
  · exact aligned.congr rfl rfl rfl

theorem addGoal (new : s.goals.get? γ.index = none) (uncovered : γ.covering = ∅) : (s.addGoal γ).Aligned := by
  refine ⟨fun j γ₁ there => ?_, aligned.distinct, fun j n => (aligned.listed j n).trans ?_, aligned.stored⟩
  · rw [get?_addGoal] at there
    split at there
    next at_γ =>
      cases there
      rw [at_γ]
      split <;> rfl
    next => exact aligned.index j γ₁ there
  · rw [get?_addGoal]
    split
    next at_γ =>
      subst at_γ
      split <;> simp [new, uncovered]
    next => exact Iff.rfl

theorem addGoals {gs : List Goal} (distinct : (gs.map (·.index)).Nodup) (new : ∀ γ ∈ gs, s.goals.get? γ.index = none)
    (uncovered : ∀ γ ∈ gs, γ.covering = ∅) : (s.addGoals gs).Aligned := by
  induction gs generalizing s with
  | nil => exact aligned
  | cons γ rest ih =>
    rw [List.map_cons, List.nodup_cons] at distinct
    have first := aligned.addGoal (new γ List.mem_cons_self) (uncovered γ List.mem_cons_self)
    exact ih first distinct.2 (new_addGoal distinct.1 fun γ' mem => new γ' (List.mem_cons_of_mem γ mem))
      fun γ' mem => uncovered γ' (List.mem_cons_of_mem γ mem)

theorem run (permitted : o.permitted s = true) (ok : o.run s d = .ok (s', d')) : s'.Aligned := by
  cases o with
  | post p =>
    cases p with
    | goals gs =>
      obtain ⟨rfl, rfl⟩ := pure_eq_ok.1 ok
      obtain ⟨distinct, new, uncovered⟩ := adds_of_permitted permitted
      exact aligned.addGoals distinct new uncovered
    | testCase t g region => exact (aligned.store t).coverage ok
    | coverage n g region => exact aligned.coverage ok
    | infeasible g region => exact aligned.infeasible ok
    | ask request =>
      cases ok
      exact aligned
  | timeOut entries =>
    obtain ⟨rfl, rfl⟩ := pure_eq_ok.1 ok
    exact aligned.congr rfl rfl rfl
  | takeTimedOut =>
    obtain ⟨rfl, rfl⟩ := pure_eq_ok.1 ok
    exact aligned.congr rfl rfl rfl
  | predict g p =>
    obtain ⟨rfl, rfl⟩ := pure_eq_ok.1 ok
    exact aligned.congr rfl rfl rfl

end Aligned

theorem Aligned.after (aligned : s.Aligned) (allowed : allows Operation.permitted ops s d = true) :
    (after ops s d).1.Aligned := by
  induction ops generalizing s d with
  | nil => exact aligned
  | cons o rest ih =>
    rw [allows, Bool.and_eq_true] at allowed
    obtain ⟨first, others⟩ := allowed
    rw [Suite.after]
    cases ok : o.run s d with
    | error v => exact aligned
    | ok r =>
      rw [ok] at others
      exact ih (aligned.run first ok) others

end GoalCoverage.Suite
