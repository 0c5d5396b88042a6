import GoalCoverage.Suite

/-!
Guesses from infeasible goals.

If no execution reaches the critical edge of a goal, then none reaches an edge that is reached only
through it. The search looks at the control flow alone, so the result is a guess, and it is made for the
later siblings of the goal about which nothing is known.
-/

namespace GoalCoverage.Suite

/-- The goals about which an infeasible goal may tell something. -/
def openSiblings (s : Suite) (goal : Goal) : List Goal :=
  s.goals.values.filter fun g =>
    goal.index < g.index && g.cluster == goal.cluster && s.prediction g.index == .unknown

/-- Predicts every open sibling to be infeasible that is reached only through the goal, and yields them. -/
def propagateInfeasible (s : Suite) (p : Program) (g : Nat) : Except Violation (List Nat × Suite) := do
  let goal ← s.goal g
  let siblings := s.openSiblings goal
  if siblings.isEmpty then return ([], s)
  let found ← p.edgesReached goal.entry goal.criticalEdge (.ofList (siblings.map (·.criticalEdge)))
  let predicted := (siblings.filter fun g => !found.contains g.criticalEdge).map (·.index)
  return (predicted, predicted.foldl (fun s g => s.predict g .infeasible) s)

end GoalCoverage.Suite
