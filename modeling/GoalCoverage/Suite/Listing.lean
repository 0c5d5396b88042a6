import GoalCoverage.Suite

/-!
The listing of a suite: the test cases with the goals that they cover, then the goals with their outcomes.
-/

namespace GoalCoverage.Suite

def regionText (s : Suite) (d : Diagram) : Option Region → String
  | none => "TRUE"
  | some r => if s.variability then d.text r else r.text

def testCaseLines (s : Suite) (d : Diagram) (t : TestCase) : String :=
  let region := if s.variability then " for " ++ s.regionText d t.region else ""
  let goals := (s.goalsCoveredBy t.id).toList.map Goal.nameOf
  "  " ++ t.text ++ region ++ "\n    covers: " ++ ", ".intercalate goals ++ "\n"

def coveringText (s : Suite) (d : Diagram) (entry : Nat × Option Region) : String :=
  if s.variability then toString entry.1 ++ " [" ++ s.regionText d entry.2 ++ "]" else toString entry.1

def goalLine (s : Suite) (d : Diagram) (g : Goal) : String :=
  let covered :=
    if g.covering.isEmpty then ""
    else " covered by " ++ ", ".intercalate (g.covering.entries.map (s.coveringText d))
  let infeasible :=
    if s.isInfeasible g.index then
      match g.infeasible with
      | some r => " infeasible for " ++ s.regionText d (some r)
      | none => " infeasible"
    else ""
  let timedOut := if s.isTimedOut g.index then " timed out" else ""
  let remaining :=
    if s.variability && !g.remaining.all (·.isEmpty) then " remaining " ++ s.regionText d g.remaining
    else ""
  "  " ++ g.text ++ ":" ++ covered ++ infeasible ++ timedOut ++ remaining ++ "\n"

def listing (s : Suite) (d : Diagram) : String :=
  "Test cases:\n" ++ String.join (s.testCases.map (s.testCaseLines d)) ++
    "Goals:\n" ++ String.join (s.goals.values.map (s.goalLine d))

end GoalCoverage.Suite
