import GoalCoverage.Suite

/-!
Statistics of a suite.

Without configurations every goal counts once per outcome that it has. With them a goal is feasible,
infeasible or timed out if it is nothing else, and partially so otherwise.
-/

namespace GoalCoverage

structure Statistics where
  testCases : Nat := 0
  goals : Nat := 0
  feasible : Nat := 0
  partiallyFeasible : Nat := 0
  infeasible : Nat := 0
  partiallyInfeasible : Nat := 0
  timedOut : Nat := 0
  partiallyTimedOut : Nat := 0
  variability : Bool := false
  deriving DecidableEq

namespace Statistics

def hasTimeouts (t : Statistics) : Bool := decide (0 < t.timedOut ∨ 0 < t.partiallyTimedOut)

def text (t : Statistics) : String :=
  let row := fun (title : String) (n : Nat) => title ++ toString n ++ "\n"
  let tracked := fun (title : String) (n : Nat) => if t.variability then row title n else ""
  row "Number of test cases:                     " t.testCases ++
  row "Number of test goals:                     " t.goals ++
  row "Number of feasible test goals:            " t.feasible ++
  tracked "Number of partially feasible test goals:  " t.partiallyFeasible ++
  row "Number of infeasible test goals:          " t.infeasible ++
  tracked "Number of partially infeasible goals:     " t.partiallyInfeasible ++
  row "Number of timed-out test goals:           " t.timedOut ++
  tracked "Number of partially timed-out goals:      " t.partiallyTimedOut ++
  if t.hasTimeouts then "Timeout occurred during processing of a test goal!\n" else ""

end Statistics

namespace Suite

/-- Counts one goal of a suite that tracks configurations. -/
def tally (s : Suite) (t : Statistics) (g : Nat) : Regional Statistics := do
  let infeasible := s.isInfeasible g
  let timedOut := s.isTimedOut g
  if s.isPartiallyCovered g then
    let t := if infeasible then { t with partiallyInfeasible := t.partiallyInfeasible + 1 } else t
    let t := if timedOut then { t with partiallyTimedOut := t.partiallyTimedOut + 1 } else t
    let complete ← if infeasible || timedOut then pure false else s.isCovered g
    return if complete then { t with feasible := t.feasible + 1 }
      else { t with partiallyFeasible := t.partiallyFeasible + 1 }
  else if infeasible then
    return if timedOut then
      { t with
        partiallyInfeasible := t.partiallyInfeasible + 1
        partiallyTimedOut := t.partiallyTimedOut + 1 }
      else { t with infeasible := t.infeasible + 1 }
  else if timedOut then
    return { t with timedOut := t.timedOut + 1 }
  else
    return t

def statistics (s : Suite) : Regional Statistics :=
  let t : Statistics :=
    { testCases := s.testCases.length, goals := s.goals.size, variability := s.variability }
  if s.variability then s.goalIds.foldlM s.tally t
  else
    return { t with
      feasible := s.feasibleCount
      infeasible := s.infeasibleCount
      timedOut := s.timedOutCount }

end Suite

end GoalCoverage
