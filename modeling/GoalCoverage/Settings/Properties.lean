import GoalCoverage.Settings

/-!
Settings as a properties text.

Every line is blank, a comment that starts with `#`, or an assignment `key = value`; a key may carry the
mark `tiger.`. Later lines override earlier ones. The flags `useOrder` and `inverseOrder` together stand
for a retry order, and once one of them is set they override any other choice of it.
-/

namespace GoalCoverage

namespace TimeoutStrategy

/-- Reads a strategy by its long or its short name, whatever the case; dashes count as underscores. -/
def ofText (s : String) : Except Refusal TimeoutStrategy :=
  let plain := fun c : Char => if c = '-' then '_' else c
  let name := String.ofList ((Text.lower (Text.trim s.toList)).map plain)
  if name ∈ ["skip_after_timeout", "skip"] then .ok skip
  else if name ∈ ["retry_after_timeout", "retry"] then .ok retry
  else .error (.invalidOption "timeoutStrategy" (.unknownStrategy s))

end TimeoutStrategy

namespace RetryOrder

def ofText (s : String) : Except Refusal RetryOrder :=
  let name := String.ofList (Text.lower (Text.trim s.toList))
  if name = "original" then .ok forward
  else if name ∈ ["inverted", "inverse", "reversed"] then .ok inverted
  else if name = "unordered" then .ok unordered
  else .error (.invalidOption "retryOrder" (.unknownOrder s))

end RetryOrder

namespace Settings

/-- Settings while they are read, with the flags that stand for a retry order. -/
structure Draft where
  settings : Settings := {}
  useOrder : Option Bool := none
  inverseOrder : Option Bool := none
  deriving DecidableEq

def boolean (key value : String) : Except Refusal Bool :=
  let name := String.ofList (Text.lower value.toList)
  if name = "true" then .ok true
  else if name = "false" then .ok false
  else .error (.invalidOption key (.notBoolean value))

def integer (key value : String) : Except Refusal Int :=
  match Text.integer? Text.signedBound value.toList with
  | some n => .ok n
  | none => .error (.invalidOption key (.notInteger value))

def natural (key value : String) : Except Refusal Nat :=
  match Text.natural? Text.wordBound value.toList with
  | some n => .ok n
  | none => .error (.invalidOption key (.notInteger value))

/-- A number of seconds, which may be followed by the letter s. -/
def seconds (key value : String) : Except Refusal Int :=
  let digits := match value.toList.reverse with
    | 's' :: rest => rest.reverse
    | _ => value.toList
  integer key (String.ofList (Text.trimEnd digits))

/-- A length of time, unless the number of seconds is negative. -/
def durationOf : Int → Option Duration
  | .ofNat n => some (.ofSeconds n)
  | .negSucc _ => none

/-- A count, unless the number is negative. -/
def countOf : Int → Option Nat
  | .ofNat n => some n
  | .negSucc _ => none

/-- Sets the option of one key. -/
def assign (draft : Draft) (key value : String) : Except Refusal Draft :=
  let s := draft.settings
  let set := fun s : Settings => { draft with settings := s }
  match key with
  | "fqlQuery" | "criterion" => return set { s with criterion := ← Criterion.ofText value }
  | "optimizeGoalAutomata" => return set { s with optimizeGoalAutomata := ← boolean key value }
  | "useAutomataCrossProduct" => return set { s with useCrossProduct := ← boolean key value }
  | "usePowerset" => return set { s with usePowerset := ← boolean key value }
  | "checkCoverage" => return set { s with checkCoverage := ← boolean key value }
  | "reuseARG" => return set { s with reuseGraph := ← boolean key value }
  | "reusePredicates" => return set { s with reusePrecision := ← boolean key value }
  | "limitsPerGoal.time.cpu" => return set { s with timeLimit := durationOf (← seconds key value) }
  | "limitsPerGoal.time.cpu.increment" => do
    match durationOf (← seconds key value) with
    | some d => return set { s with timeLimitIncrement := d }
    | none => throw (.invalidOption key .negativeIncrement)
  | "timeoutStrategy" => return set { s with timeoutStrategy := ← TimeoutStrategy.ofText value }
  | "retryOrder" => return set { s with retryOrder := ← RetryOrder.ofText value }
  | "useOrder" => return { draft with useOrder := some (← boolean key value) }
  | "inverseOrder" => return { draft with inverseOrder := some (← boolean key value) }
  | "maxRetryRounds" => return set { s with maxRetryRounds := countOf (← integer key value) }
  | "numberOfTestGoalsPerRun" => return set { s with goalsPerRun := ← natural key value }
  | "allCoveredGoalsPerTestCase" => return set { s with allCoveredGoals := ← boolean key value }
  | "tiger_with_presenceConditions" => return set { s with presenceConditions := ← boolean key value }
  | "useInfeasibilityPropagation" => return set { s with propagateInfeasibility := ← boolean key value }
  | "printARGperGoal" => return set { s with drawGraphs := ← boolean key value }
  | "testsuiteFile" => return set { s with suiteFile := value }
  | "testcaseGenerationTimesFile" | "testcaseGeneartionTimesFile" =>
    return set { s with timelineFile := value }
  | "dumpGoalAutomataTo" =>
    return set { s with automatonTemplate := if value.isEmpty then none else some value }
  | "argFileTemplate" => return set { s with graphTemplate := value }
  | _ => throw (.invalidOption key .unknownOption)

/-- Reads one line. -/
def readLine (draft : Draft) (line : List Char) : Except Refusal Draft :=
  let line := Text.trim line
  if line.isEmpty || line.head? = some '#' then return draft
  else
    match Text.splitOnce '=' line with
    | none => throw (.invalidOption (String.ofList line) .notAssignment)
    | some (key, value) =>
      let key := Text.trim key
      let key := (Text.strip? "tiger.".toList key).getD key
      assign draft (String.ofList key) (String.ofList (Text.trim value))

/-- The settings that were read, with the retry order of the flags if one of them is set. -/
def Draft.finish (draft : Draft) : Settings :=
  if draft.useOrder.isSome || draft.inverseOrder.isSome then
    { draft.settings with
      retryOrder := .ofFlags (draft.useOrder.getD true) (draft.inverseOrder.getD true) }
  else draft.settings

/-- Reads a properties text on top of the defaults. -/
def ofProperties (text : String) : Except Refusal Settings := do
  let draft ← (Text.lines text.toList).foldlM readLine {}
  return draft.finish

end Settings

end GoalCoverage
