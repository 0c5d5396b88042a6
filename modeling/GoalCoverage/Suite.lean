import GoalCoverage.Diagram
import GoalCoverage.Failure
import GoalCoverage.Goal
import GoalCoverage.TestCase

/-!
The suite: goals, test cases and what is known of every goal.

A goal may be covered, infeasible or timed out. When configurations are tracked, each of these is known
for a region of configurations, and a goal is resolved once its remaining region is empty; a region that
is recorded as covered or infeasible leaves the remaining region.
-/

namespace GoalCoverage

/-- A guess on a goal that was not analysed yet. -/
inductive Prediction where
  | unknown
  | feasible
  | infeasible
  deriving DecidableEq

def Prediction.text : Prediction → String
  | unknown => "unknown"
  | feasible => "feasible"
  | infeasible => "infeasible"

structure Suite where
  /-- Are configurations tracked? -/
  variability : Bool
  goals : IdMap Goal := ∅
  testCases : List TestCase := []
  /-- For each goal the test cases that cover it. -/
  coveredBy : IdMap IdSet := ∅
  infeasible : IdSet := ∅
  /-- Goals that timed out, by their places in the order of the first attempt. -/
  timedOut : IdMap Nat := ∅
  predictions : IdMap Prediction := ∅

/-- A computation on regions that may be called outside its contract. -/
abbrev Regional (α : Type) := StateT Diagram (Except Violation) α

instance : MonadLift (StateM Diagram) (StateT Diagram (Except Violation)) where
  monadLift m := fun d => .ok (m d)

namespace Suite

/-- Adds a goal, open for every configuration unless it says otherwise. -/
def addGoal (s : Suite) (g : Goal) : Suite :=
  let g := if s.variability && g.remaining.isNone then { g with remaining := some .all } else g
  { s with
    predictions := s.predictions.insert g.index .unknown
    goals := s.goals.insert g.index g }

def addGoals (s : Suite) (gs : List Goal) : Suite := gs.foldl addGoal s

def goal (s : Suite) (g : Nat) : Except Violation Goal :=
  match s.goals.get? g with
  | some goal => .ok goal
  | none => .error (.unknownGoal g)

def goalIds (s : Suite) : List Nat := s.goals.keys.toList

def testCase? (s : Suite) (id : Nat) : Option TestCase := s.testCases.find? (·.id == id)

def isPartiallyCovered (s : Suite) (g : Nat) : Bool :=
  (s.coveredBy.get? g).any fun testCases => !testCases.isEmpty

def isInfeasible (s : Suite) (g : Nat) : Bool := s.infeasible.contains g

def isTimedOut (s : Suite) (g : Nat) : Bool := s.timedOut.values.contains g

/-- Covered for every configuration. -/
def isCovered (s : Suite) (g : Nat) : Regional Bool := do
  if !s.isPartiallyCovered g then return false
  if !s.variability then return true
  let goal ← s.goal g
  let union ← Diagram.joinAll (goal.covering.values.map (·.getD .all))
  return union.isAll

/-- Nothing is left to find out about the goal. -/
def isResolved (s : Suite) (g : Nat) : Except Violation Bool :=
  if s.variability then do
    let goal ← s.goal g
    return goal.remaining.all (·.isEmpty)
  else .ok (s.isPartiallyCovered g || s.isInfeasible g)

/-- Are all of the goals resolved? The first that is not ends the check. -/
def areResolved (s : Suite) : List Nat → Except Violation Bool
  | [] => .ok true
  | g :: rest => do
    if ← s.isResolved g then s.areResolved rest else return false

/-- Those of the goals that are not resolved. -/
def unresolved (s : Suite) (goals : List Nat) : Except Violation (List Nat) :=
  goals.filterMapM fun g => return if ← s.isResolved g then none else some g

def prediction (s : Suite) (g : Nat) : Prediction := s.predictions.getD g .unknown

def predict (s : Suite) (g : Nat) (p : Prediction) : Suite :=
  { s with predictions := s.predictions.insert g p }

def setGoal (s : Suite) (g : Goal) : Suite := { s with goals := s.goals.insert g.index g }

/-- Records that a stored test case covers a goal for the configurations of a region. -/
def recordCoverage (s : Suite) (testCase g : Nat) (region : Option Region) : Regional Suite := do
  if (s.testCase? testCase).isNone then throw (.unknownTestCase testCase)
  let known := (s.coveredBy.getD g ∅).insert testCase
  let s := { s with coveredBy := s.coveredBy.insert g known }.predict g .feasible
  let goal ← s.goal g
  if s.variability then
    let covered := region.getD .all
    let remaining ← Diagram.without goal.openRegion covered
    return s.setGoal { goal with
      remaining := some remaining
      covering := goal.covering.insert testCase (some covered) }
  else
    return s.setGoal { goal with covering := goal.covering.insert testCase none }

/-- Stores a test case unless one with its number is stored, and records that it covers a goal. -/
def addTestCase (s : Suite) (t : TestCase) (g : Nat) (region : Option Region) : Regional Suite :=
  let s := if (s.testCase? t.id).isNone then { s with testCases := s.testCases ++ [t] } else s
  s.recordCoverage t.id g region

/-- Records that no execution reaches a goal for the configurations of a region. -/
def addInfeasible (s : Suite) (g : Nat) (region : Option Region) : Regional Suite := do
  let s := { s with infeasible := s.infeasible.insert g }.predict g .infeasible
  if s.variability then
    let region := region.getD .all
    let goal ← s.goal g
    let infeasible ← match goal.infeasible with
      | some old => Diagram.join old region
      | none => pure region
    let remaining ← Diagram.without goal.openRegion region
    return s.setGoal { goal with infeasible := some infeasible, remaining := some remaining }
  else
    return s

/-- Remembers goals whose analysis ran out of time. -/
def addTimedOut (s : Suite) (entries : List (Nat × Nat)) : Suite :=
  { s with timedOut := entries.foldl (fun m (order, g) => m.insert order g) s.timedOut }

/-- Takes all timed-out goals out of the suite. -/
def takeTimedOut (s : Suite) : IdMap Nat × Suite := (s.timedOut, { s with timedOut := ∅ })

/-- The goals that a test case covers. -/
def goalsCoveredBy (s : Suite) (testCase : Nat) : IdSet :=
  (s.coveredBy.filter fun _ testCases => testCases.contains testCase).keys

def feasibleCount (s : Suite) : Nat := (s.goalIds.filter s.isPartiallyCovered).length

def infeasibleCount (s : Suite) : Nat := s.infeasible.size

def timedOutCount (s : Suite) : Nat := (s.goalIds.filter s.isTimedOut).length

end Suite

end GoalCoverage
