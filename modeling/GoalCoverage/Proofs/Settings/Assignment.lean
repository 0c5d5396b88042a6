import GoalCoverage.Settings.Properties
import Mathlib.Logic.Function.Basic

/-!
What an assignment does to the settings. The settings that are being read are determined by the last text that was
assigned to every option (`draftOf`): an assignment is refused, whatever was assigned before, or it replaces the
text of its own option and leaves the others (`assigns`).
-/

namespace GoalCoverage.Settings

/-- The options of a properties text. -/
inductive Key where
  | criterion
  | optimizeGoalAutomata
  | useCrossProduct
  | usePowerset
  | checkCoverage
  | reuseGraph
  | reusePrecision
  | timeLimit
  | timeLimitIncrement
  | timeoutStrategy
  | retryOrder
  | useOrder
  | inverseOrder
  | maxRetryRounds
  | goalsPerRun
  | allCoveredGoals
  | presenceConditions
  | propagateInfeasibility
  | drawGraphs
  | suiteFile
  | timelineFile
  | automatonTemplate
  | graphTemplate
  deriving DecidableEq

/-- The option of a name. Two options have two names each. -/
def Key.ofName? : String → Option Key
  | "fqlQuery" => some criterion
  | "criterion" => some criterion
  | "optimizeGoalAutomata" => some optimizeGoalAutomata
  | "useAutomataCrossProduct" => some useCrossProduct
  | "usePowerset" => some usePowerset
  | "checkCoverage" => some checkCoverage
  | "reuseARG" => some reuseGraph
  | "reusePredicates" => some reusePrecision
  | "limitsPerGoal.time.cpu" => some timeLimit
  | "limitsPerGoal.time.cpu.increment" => some timeLimitIncrement
  | "timeoutStrategy" => some timeoutStrategy
  | "retryOrder" => some retryOrder
  | "useOrder" => some useOrder
  | "inverseOrder" => some inverseOrder
  | "maxRetryRounds" => some maxRetryRounds
  | "numberOfTestGoalsPerRun" => some goalsPerRun
  | "allCoveredGoalsPerTestCase" => some allCoveredGoals
  | "tiger_with_presenceConditions" => some presenceConditions
  | "useInfeasibilityPropagation" => some propagateInfeasibility
  | "printARGperGoal" => some drawGraphs
  | "testsuiteFile" => some suiteFile
  | "testcaseGenerationTimesFile" => some timelineFile
  | "testcaseGeneartionTimesFile" => some timelineFile
  | "dumpGoalAutomataTo" => some automatonTemplate
  | "argFileTemplate" => some graphTemplate
  | _ => none

/-- The value that a text assigns, or the default if no text is there. -/
def valueOf {α : Type} (read : String → Except Refusal α) (default : α) (text : Option String) : α :=
  match text with
  | none => default
  | some value => (read value).toOption.getD default

theorem valueOf_of_read {α : Type} {read : String → Except Refusal α} {value : String} {a : α} (default : α)
    (reads : read value = .ok a) : valueOf read default (some value) = a := by
  rw [valueOf, reads]
  rfl

/-- A flag that was never set is on. -/
def flagOf (key : String) (text : Option String) : Bool := valueOf (boolean key) true text

/-- Reads the increment of the limit, which unlike the limit has no reading for a negative number. -/
def increment (value : String) : Except Refusal Duration := do
  match durationOf (← seconds "limitsPerGoal.time.cpu.increment" value) with
  | some d => return d
  | none => throw (.invalidOption "limitsPerGoal.time.cpu.increment" .negativeIncrement)

/-- The settings in which every option has the last text that was assigned to it. -/
def draftOf (text : Key → Option String) : Draft where
  settings :=
    { criterion := valueOf Criterion.ofText .edges (text .criterion)
      optimizeGoalAutomata := valueOf (boolean "optimizeGoalAutomata") true (text .optimizeGoalAutomata)
      useCrossProduct := valueOf (boolean "useAutomataCrossProduct") false (text .useCrossProduct)
      usePowerset := valueOf (boolean "usePowerset") true (text .usePowerset)
      checkCoverage := valueOf (boolean "checkCoverage") true (text .checkCoverage)
      reuseGraph := valueOf (boolean "reuseARG") true (text .reuseGraph)
      reusePrecision := valueOf (boolean "reusePredicates") true (text .reusePrecision)
      timeLimit := durationOf (valueOf (seconds "limitsPerGoal.time.cpu") (-1) (text .timeLimit))
      timeLimitIncrement := valueOf increment 0 (text .timeLimitIncrement)
      timeoutStrategy := valueOf TimeoutStrategy.ofText .skip (text .timeoutStrategy)
      retryOrder := valueOf RetryOrder.ofText .inverted (text .retryOrder)
      maxRetryRounds := countOf (valueOf (integer "maxRetryRounds") (-1) (text .maxRetryRounds))
      goalsPerRun := valueOf (natural "numberOfTestGoalsPerRun") 1 (text .goalsPerRun)
      allCoveredGoals := valueOf (boolean "allCoveredGoalsPerTestCase") false (text .allCoveredGoals)
      presenceConditions := valueOf (boolean "tiger_with_presenceConditions") false (text .presenceConditions)
      propagateInfeasibility := valueOf (boolean "useInfeasibilityPropagation") false (text .propagateInfeasibility)
      drawGraphs := valueOf (boolean "printARGperGoal") false (text .drawGraphs)
      suiteFile := (text .suiteFile).getD "testsuite.txt"
      timelineFile := (text .timelineFile).getD "generationTimes.csv"
      automatonTemplate := (text .automatonTemplate).bind fun value => if value.isEmpty then none else some value
      graphTemplate := (text .graphTemplate).getD "output/ARG_goal_%s.dot" }
  useOrder := (text .useOrder).map fun value => flagOf "useOrder" (some value)
  inverseOrder := (text .inverseOrder).map fun value => flagOf "inverseOrder" (some value)

theorem draftOf_none : draftOf (fun _ => none) = {} := rfl

/-- What an assignment does: it is refused, or it sets its own option. -/
def Assigns (key value : String) : Prop :=
  (∃ r, ∀ draft, assign draft key value = .error r) ∨
    ∃ k, Key.ofName? key = some k ∧
      ∀ text, assign (draftOf text) key value = .ok (draftOf (Function.update text k (some value)))

variable {α : Type} {key value : String} {k : Key}

/-- An option whose text is read and then put into the settings. -/
theorem Assigns.of_read (read : String → Except Refusal α) (default : α) (put : α → Draft → Draft)
    (named : Key.ofName? key = some k)
    (does : ∀ draft, assign draft key value = read value >>= fun a => .ok (put a draft))
    (fits : ∀ text, put (valueOf read default (some value)) (draftOf text) =
      draftOf (Function.update text k (some value))) :
    Assigns key value := by
  cases reads : read value with
  | error r => exact .inl ⟨r, fun draft => by rw [does, reads]; rfl⟩
  | ok a =>
    refine .inr ⟨k, named, fun text => ?_⟩
    rw [does, reads, ← fits, valueOf_of_read default reads]
    rfl

/-- An option whose text is taken as it is. -/
theorem Assigns.of_put (put : String → Draft → Draft) (named : Key.ofName? key = some k)
    (does : ∀ draft, assign draft key value = .ok (put value draft))
    (fits : ∀ text, put value (draftOf text) = draftOf (Function.update text k (some value))) :
    Assigns key value :=
  .inr ⟨k, named, fun text => by rw [does, fits]⟩

/-- A change of the settings that leaves the flags. -/
def Draft.edit (f : Settings → Settings) (draft : Draft) : Draft := { draft with settings := f draft.settings }

theorem assign_increment (draft : Draft) (value : String) :
    assign draft "limitsPerGoal.time.cpu.increment" value =
      increment value >>= fun d => .ok (draft.edit ({ · with timeLimitIncrement := d })) := by
  unfold increment
  change seconds _ value >>= _ = _
  cases seconds "limitsPerGoal.time.cpu.increment" value with
  | error r => rfl
  | ok n =>
    cases n with
    | ofNat n => rfl
    | negSucc n => rfl

theorem assign_of_unnamed (unnamed : Key.ofName? key = none) (draft : Draft) (value : String) :
    assign draft key value = .error (.invalidOption key .unknownOption) := by
  unfold Key.ofName? at unnamed
  split at unnamed
  case h_26 =>
    unfold assign
    split
    case h_26 => rfl
    all_goals contradiction
  all_goals contradiction

theorem assigns_of_named (named : Key.ofName? key = some k) (value : String) : Assigns key value := by
  unfold Key.ofName? at named
  split at named
  · exact .of_read Criterion.ofText .edges (fun c => .edit ({ · with criterion := c }))
      rfl (fun _ => rfl) fun _ => rfl
  · exact .of_read Criterion.ofText .edges (fun c => .edit ({ · with criterion := c }))
      rfl (fun _ => rfl) fun _ => rfl
  · exact .of_read (boolean "optimizeGoalAutomata") true (fun b => .edit ({ · with optimizeGoalAutomata := b }))
      rfl (fun _ => rfl) fun _ => rfl
  · exact .of_read (boolean "useAutomataCrossProduct") false (fun b => .edit ({ · with useCrossProduct := b }))
      rfl (fun _ => rfl) fun _ => rfl
  · exact .of_read (boolean "usePowerset") true (fun b => .edit ({ · with usePowerset := b }))
      rfl (fun _ => rfl) fun _ => rfl
  · exact .of_read (boolean "checkCoverage") true (fun b => .edit ({ · with checkCoverage := b }))
      rfl (fun _ => rfl) fun _ => rfl
  · exact .of_read (boolean "reuseARG") true (fun b => .edit ({ · with reuseGraph := b }))
      rfl (fun _ => rfl) fun _ => rfl
  · exact .of_read (boolean "reusePredicates") true (fun b => .edit ({ · with reusePrecision := b }))
      rfl (fun _ => rfl) fun _ => rfl
  · exact .of_read (seconds "limitsPerGoal.time.cpu") (-1) (fun n => .edit ({ · with timeLimit := durationOf n })) rfl
      (fun _ => rfl) fun _ => rfl
  · exact .of_read increment 0 (fun d => .edit ({ · with timeLimitIncrement := d })) rfl (assign_increment · value)
      fun _ => rfl
  · exact .of_read TimeoutStrategy.ofText .skip (fun s => .edit ({ · with timeoutStrategy := s })) rfl (fun _ => rfl)
      fun _ => rfl
  · exact .of_read RetryOrder.ofText .inverted (fun o => .edit ({ · with retryOrder := o })) rfl (fun _ => rfl)
      fun _ => rfl
  · exact .of_read (boolean "useOrder") true (fun b draft => { draft with useOrder := some b }) rfl (fun _ => rfl)
      fun _ => rfl
  · exact .of_read (boolean "inverseOrder") true (fun b draft => { draft with inverseOrder := some b }) rfl
      (fun _ => rfl) fun _ => rfl
  · exact .of_read (integer "maxRetryRounds") (-1) (fun n => .edit ({ · with maxRetryRounds := countOf n })) rfl
      (fun _ => rfl) fun _ => rfl
  · exact .of_read (natural "numberOfTestGoalsPerRun") 1 (fun n => .edit ({ · with goalsPerRun := n })) rfl
      (fun _ => rfl) fun _ => rfl
  · exact .of_read (boolean "allCoveredGoalsPerTestCase") false (fun b => .edit ({ · with allCoveredGoals := b }))
      rfl (fun _ => rfl) fun _ => rfl
  · exact .of_read (boolean "tiger_with_presenceConditions") false
      (fun b => .edit ({ · with presenceConditions := b })) rfl (fun _ => rfl) fun _ => rfl
  · exact .of_read (boolean "useInfeasibilityPropagation") false
      (fun b => .edit ({ · with propagateInfeasibility := b })) rfl (fun _ => rfl) fun _ => rfl
  · exact .of_read (boolean "printARGperGoal") false (fun b => .edit ({ · with drawGraphs := b }))
      rfl (fun _ => rfl) fun _ => rfl
  · exact .of_put (fun file => .edit ({ · with suiteFile := file })) rfl (fun _ => rfl) fun _ => rfl
  · exact .of_put (fun file => .edit ({ · with timelineFile := file })) rfl (fun _ => rfl) fun _ => rfl
  · exact .of_put (fun file => .edit ({ · with timelineFile := file })) rfl (fun _ => rfl) fun _ => rfl
  · exact .of_put (fun value => .edit ({ · with automatonTemplate := if value.isEmpty then none else some value })) rfl
      (fun _ => rfl) fun _ => rfl
  · exact .of_put (fun template => .edit ({ · with graphTemplate := template })) rfl (fun _ => rfl) fun _ => rfl
  · contradiction

theorem assigns (key value : String) : Assigns key value := by
  cases named : Key.ofName? key with
  | some k => exact assigns_of_named named value
  | none => exact .inl ⟨.invalidOption key .unknownOption, fun draft => assign_of_unnamed named draft value⟩

end GoalCoverage.Settings
