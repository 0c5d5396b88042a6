import GoalCoverage.Generation

/-!
Replay of test cases.

Before an engine is asked, the traces of the test cases made so far are replayed against the automaton of
a goal. Where the automaton accepts, the test case covers the goal as well. When configurations are
tracked, it covers it for the regions that the test case had whenever it crossed the critical edge.
-/

namespace GoalCoverage.Generator

variable {F P : Type}

/-- The regions of a test case after each crossing of an edge. -/
def crossingRegions (t : TestCase) (edge : EdgeId) : List Region :=
  t.trace.zipIdx.filterMap fun (e, i) => if e = edge then t.presenceAfter (i + 1) else none

/-- The union of those regions that have something in common with a region, or of all of them. -/
def joinCrossings (every : Bool) (opened : Region) (regions : List Region) : StateM Diagram Region :=
  regions.foldlM (fun union r => do
    let skip ← if every then pure false else Diagram.disjoint opened r
    if skip then return union else Diagram.join union r) .empty

/-- Replays one test case against a goal, given as it was before the replay. Yields whether it is covered. -/
def replayOne (goal : Goal) (t : TestCase) : Procedure (Generator F P) Bool := do
  if goal.accepts t.trace != .accept then return false
  let g ← get
  if !g.suite.variability then
    changeSuite (·.recordCoverage t.id goal.index none)
    return true
  if goal.covering.contains t.id then return false
  let now ← Generator.goal goal.index
  let region ← onRegions
    (joinCrossings g.settings.allCoveredGoals now.openRegion (crossingRegions t goal.criticalEdge) :
      StateM Diagram Region)
  if !region.isEmpty then changeSuite (·.recordCoverage t.id goal.index (some region))
  return false

/-- Replays test cases until one covers the goal for every configuration, or all if that is asked for. -/
def replayAll (goal : Goal) : List TestCase → Procedure (Generator F P) Unit
  | [] => return ()
  | t :: rest => do
    let covered ← replayOne goal t
    let g ← get
    if covered && !g.settings.allCoveredGoals then return ()
    replayAll goal rest

/-- Replays all test cases against a goal. -/
def replay (goal : Nat) : Procedure (Generator F P) Unit := do
  let known ← Generator.goal goal
  let g ← get
  replayAll known g.suite.testCases

end GoalCoverage.Generator
