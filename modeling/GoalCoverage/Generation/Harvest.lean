import GoalCoverage.Generation

/-!
The harvest of a run: test cases from the targets that it found.

If the engine has counterexamples, every one that is not spurious yields a test case with input values.
Otherwise every live target yields one from its route in the graph, without values. A test case is made
only if it covers a goal that is still open. Then the targets are pruned, so that exploration can go on.
-/

namespace GoalCoverage

variable {S : Type} [AbstractState S]

/-- Prunes the targets that are still attached, and sweeps. -/
def Exploration.consume (x : Exploration S) (targets : List NodeId) : Except Violation (Exploration S) := do
  let x ← targets.foldlM (fun x t =>
    match x.graph.isAttached t with
    | .ok true => x.prune t
    | _ => .ok x) x
  return x.sweep.2

/-- What a run yielded: how many targets and test cases there were, and what is left of the exploration. -/
structure Harvest (S : Type) where
  targets : Nat
  created : Nat
  reached : Exploration S

namespace Generator

variable {F P : Type}

/-- The region after the first crossing of an edge by a route, or at its end if it does not cross it. -/
def regionAt (route : Route) (presence : List (Option Region)) (edge : EdgeId) : Option Region :=
  match route.edges.idxOf? edge with
  | some i => (presence[i + 1]?).join
  | none => presence.getLast?.join

/-- Is a goal open for some configuration of a region? -/
def isOpenFor (goal : Goal) (region : Option Region) : Procedure (Generator F P) Bool := do
  let g ← get
  match g.suite.variability, region with
  | true, some r => return !(← onRegions (Diagram.disjoint goal.openRegion r : StateM Diagram Bool))
  | _, _ => return true

/-- Records a test case for a route, if it covers one of the goals. -/
def addTestCase (goals : List Nat) (route : Route) (inputs : List Int) (x : Exploration S) :
    Procedure (Generator F P) Unit := do
  let states ← route.nodes.mapM fun n => Procedure.attempt fun g => return (← x.graph.state n, g)
  let presence := states.map AbstractState.presence
  let covered ← goals.filterMapM fun index => do
    let goal ← Generator.goal index
    let region := regionAt route presence goal.criticalEdge
    return if ← isOpenFor goal region then some (index, region) else none
  match covered with
  | [] => return ()
  | (_, first) :: _ => do
    let g ← get
    let id := g.nextTestCase
    let t : TestCase :=
      { id
        inputs
        path := route.nodes
        trace := route.edges
        region := if g.suite.variability then first.or presence.getLast?.join else none
        presence
        time := g.clock id }
    set { g with nextTestCase := id + 1 }
    covered.forM fun (goal, region) => changeSuite (·.addTestCase t goal region)

/-- Makes a test case for a target from its route in the graph. -/
def addReconstructed (batch : List Nat) (x : Exploration S) (target : NodeId) :
    Procedure (Generator F P) Unit := do
  let route ← Procedure.attempt fun g => return (← x.graph.routeTo target, g)
  let state ← Procedure.attempt fun g => return (← x.graph.state target, g)
  let goals := (← unresolved batch).filter (AbstractState.accepted state).contains
  addTestCase goals route [] x

/-- Makes a test case from a counterexample, unless that is spurious or its target is gone. -/
def addExplained (batch : List Nat) (x : Exploration S) (c : Counterexample) :
    Procedure (Generator F P) Unit := do
  if c.spurious || !x.graph.contains c.target then return ()
  let goals ← (← unresolved batch).filterM fun g => return c.route.edges.contains (← goal g).criticalEdge
  addTestCase goals c.route c.model.inputs x

/-- Makes test cases from what was found, and prunes the targets. -/
def harvest (batch : List Nat) (counterexamples : IdMap Counterexample) (x : Exploration S) :
    Procedure (Generator F P) (Harvest S) := do
  let targets := x.targets
  if targets.isEmpty then return ⟨0, 0, x⟩
  let before := (← get).suite.testCases.length
  if counterexamples.isEmpty then targets.forM (addReconstructed batch x)
  else counterexamples.values.forM (addExplained batch x)
  let created := (← get).suite.testCases.length - before
  let reached ← Procedure.attempt fun g => return (← x.consume targets, g)
  return ⟨targets.length, created, reached⟩

end Generator

end GoalCoverage
