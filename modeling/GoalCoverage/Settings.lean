import GoalCoverage.Goal.Criterion
import GoalCoverage.TestCase

/-!
Settings of test generation and their defaults.
-/

namespace GoalCoverage

/-- What becomes of goals whose analysis ran out of time. -/
inductive TimeoutStrategy where
  | skip
  | retry
  deriving DecidableEq

def TimeoutStrategy.text : TimeoutStrategy → String
  | skip => "SKIP_AFTER_TIMEOUT"
  | retry => "RETRY_AFTER_TIMEOUT"

/-- The order in which timed-out goals are processed again. -/
inductive RetryOrder where
  /-- As they were first attempted. -/
  | forward
  /-- The reverse of that. -/
  | inverted
  /-- As they timed out. -/
  | unordered
  deriving DecidableEq

namespace RetryOrder

def text : RetryOrder → String
  | forward => "original"
  | inverted => "inverted"
  | unordered => "unordered"

def ofFlags : (useOrder inverseOrder : Bool) → RetryOrder
  | false, _ => unordered
  | true, false => forward
  | true, true => inverted

end RetryOrder

structure Settings where
  criterion : Criterion := .edges
  optimizeGoalAutomata : Bool := true
  /-- Observe a batch by one product rather than one automaton for each goal. -/
  useCrossProduct : Bool := false
  usePowerset : Bool := true
  /-- Replay the test cases made so far before a goal is analysed. -/
  checkCoverage : Bool := true
  /-- Keep the state graph from one run of a batch to the next. -/
  reuseGraph : Bool := true
  /-- Hand the precision of one engine to the next. -/
  reusePrecision : Bool := true
  /-- The limit of one run, if there is one. -/
  timeLimit : Option Duration := none
  /-- What a retry round adds to the limit. -/
  timeLimitIncrement : Duration := 0
  timeoutStrategy : TimeoutStrategy := .skip
  retryOrder : RetryOrder := .inverted
  maxRetryRounds : Option Nat := none
  /-- Goals in a batch; all of them if it is 0. -/
  goalsPerRun : Nat := 1
  /-- Record all goals that a test case covers, not just the first. -/
  allCoveredGoals : Bool := false
  /-- Track configurations. -/
  presenceConditions : Bool := false
  propagateInfeasibility : Bool := false
  drawGraphs : Bool := false
  suiteFile : String := "testsuite.txt"
  timelineFile : String := "generationTimes.csv"
  /-- Where composed automata are drawn; %s stands for the name. -/
  automatonTemplate : Option String := none
  /-- Where state graphs are drawn; %s stands for the goal. -/
  graphTemplate : String := "output/ARG_goal_%s.dot"
  deriving DecidableEq

namespace Settings

/-- The number of goals in the next batch when so many are pending. -/
def batchSize (s : Settings) (pending : Nat) : Nat :=
  if s.goalsPerRun = 0 then pending else min s.goalsPerRun pending

end Settings

/-- Puts a name in place of every %s of a path template. -/
def instantiate (template name : String) : String :=
  String.ofList (Text.replacePairs '%' 's' name.toList template.toList)

/-- The path for a name; it leads from the root only if the template itself does. -/
def pathFor (template name : String) : String :=
  if template.startsWith "/" then instantiate template name else "./" ++ instantiate template name

end GoalCoverage
