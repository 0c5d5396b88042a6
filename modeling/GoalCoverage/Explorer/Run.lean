import GoalCoverage.Explorer

/-!
Runs of the explorer.

A run takes nodes from the front of the queue and expands them, until the expansion of one yields targets
or the queue is empty. Targets are not expanded. A successor at a location where covering is allowed is
covered by the oldest node of which it is a part. The run polls a token before each expansion and once
at its end; when the token has fired, the node goes back to the front of the queue.
-/

namespace GoalCoverage

/-- A token that fires after so many polls, or never. -/
abbrev Token := Option Nat

namespace Token

/-- Has the token fired? -/
def fired (t : Token) : Bool := t == some 0

/-- The token after a poll. -/
def polled (t : Token) : Token := t.map (· - 1)

end Token

/-- What explorers have in common, and when the time of each limited run is over. -/
structure ExplorerFactory where
  program : Program
  tracks : Bool
  maxNodes : Option Nat
  explains : Bool
  deadlines : Nat → Token := fun _ => none
  limitedRuns : Nat := 0

namespace Explorer

abbrev Desk := Bench ExplorerFactory Explorer State

/-- Works on regions. -/
def onDiagram {α : Type} (m : StateM Diagram α) : Procedure Desk α := fun b =>
  let (a, diagram) := m b.diagram
  .ok a { b with diagram }

/-- Works on the exploration. -/
def onReached {α : Type} (f : Exploration State → Except Violation (α × Exploration State)) :
    Procedure Desk α :=
  Procedure.within (·.reached) (fun reached b => { b with reached }) (Procedure.attempt f)

def changeReached (f : Exploration State → Exploration State) : Procedure Desk Unit :=
  modify fun b => { b with reached := f b.reached }

def changeGraph (f : StateGraph State → Except Violation (StateGraph State)) : Procedure Desk Unit :=
  onReached fun x => do
    let graph ← f x.graph
    return ((), { x with graph })

/-- Adds a successor below a node, and yields it if it is a target. -/
def place (n : NodeId) (e : EdgeId) (s : State) : Procedure Desk (Option NodeId) := do
  let b ← get
  if ← onDiagram (b.engine.isDuplicate b.reached.graph n e s) then return none
  let isTarget := AbstractState.isTarget s
  let cover ←
    if !isTarget && b.engine.covering.contains s.location then
      onDiagram (b.engine.findCover b.reached.graph s)
    else pure none
  let child ← onReached (·.add n s (some e))
  match cover with
  | some c => do
    changeReached (·.removeWaiting child)
    changeGraph (·.cover child c)
    return none
  | none => do
    if !isTarget then return none
    changeReached (·.removeWaiting child)
    return some child

/-- Adds all successors on an edge; yields how many there were, and the new targets. -/
def follow (n : NodeId) (s : State) (e : EdgeId) : Procedure Desk (Nat × List NodeId) := do
  let b ← get
  match b.engine.program.edges[e]? with
  | none => return (0, [])
  | some edge => do
    let found ← onDiagram (b.engine.successors s e edge b.reached.disabled)
    let targets ← found.filterMapM (place n e)
    return (found.length, targets)

/-- Expands a node; yields the new targets. -/
def expand (n : NodeId) (s : State) : Procedure Desk (List NodeId) := do
  let b ← get
  let leaving := b.engine.program.leaving s.location
  let results ← leaving.mapM (follow n s)
  if results.all (·.1 == 0) && !leaving.isEmpty then changeGraph (·.setBottom n)
  return results.flatMap (·.2)

/-- Is the state reached for some configuration of the constraint? -/
def isRelevant (x : Explorer) (s : State) : StateM Diagram Bool :=
  match x.tracks, s.presence, x.constraint with
  | true, some pc, some r => return !(← Diagram.disjoint pc r)
  | _, _, _ => return true

/-- Expands a node unless it is gone, detached, covered, a target or outside the constraint. -/
def visit (n : NodeId) : Procedure Desk (List NodeId) := do
  let b ← get
  match b.reached.graph.node? n with
  | none => return []
  | some v => do
    if !canCover b.reached.graph n || AbstractState.isTarget v.state then return []
    if ← onDiagram (b.engine.isRelevant v.state) then expand n v.state else return []

/-- Records counterexamples for the targets, if they are asked for. -/
def record (targets : List NodeId) : Procedure Desk Unit := do
  let b ← get
  if b.engine.explains then
    targets.forM fun t => do
      let b ← get
      match b.engine.explain b.reached.graph t with
      | .error v => Procedure.violate v
      | .ok c =>
        set { b with engine := { b.engine with
          counterexamples := b.engine.counterexamples.insert t c } }

/-- One turn of a run: takes a node from the queue, and ends the run if there is a reason to. -/
def turn (token : Token) : Procedure Desk (Token ⊕ RunEnd) := do
  let b ← get
  match b.reached.pop with
  | none => return .inr ⟨.sound, token.fired⟩
  | some (n, reached) => do
    if token.fired then
      set { b with reached := reached.pushFront n }
      return .inr ⟨.sound, true⟩
    let token := token.polled
    if b.engine.maxNodes.any (· ≤ reached.graph.live) then
      set { b with reached := reached.pushFront n }
      return .inr ⟨.unsound, token.fired⟩
    set { b with reached }
    let targets ← visit n
    if targets.isEmpty then return .inl token
    record targets
    return .inr ⟨.sound, token.fired⟩

/-- A run, of at most `fuel` turns. -/
def run (fuel : Nat) (token : Token) : Procedure Desk RunEnd := do
  modify fun b => { b with engine := { b.engine with counterexamples := ∅ } }
  Procedure.repeatUntil turn fuel token

/-- The token of a run; every limited run has one of its own. -/
def takeToken (limit : Option Duration) : Procedure Desk Token := do
  if limit.isNone then return none
  let b ← get
  let factory := b.surroundings
  set { b with surroundings := { factory with limitedRuns := factory.limitedRuns + 1 } }
  return factory.deadlines factory.limitedRuns

/-- Restricts an explorer and the frontier to a region. -/
def restrict (constraint : Region) (opened : IdMap Region) : Procedure Desk Unit := do
  modify fun b =>
    { b with
      engine := { b.engine with constraint := some constraint, opened }
      reached := b.reached.setConstraint constraint }
  let b ← get
  if b.engine.tracks then
    let kept ← b.reached.waiting.filterMapM fun n => do
      let s ← onReached fun x => return (← x.graph.state n, x)
      return if ← onDiagram (b.engine.isRelevant s) then some n else none
    changeReached fun x => { x with waiting := kept }

/-- The first edge that an automaton refers to and the program does not have. -/
def unknownEdge? (p : Program) (a : Automaton) : Option EdgeId :=
  (a.transitions.flatMap fun t => t.label.edges.named.toList).find? fun e => p.edges.size ≤ e

/-- Checks that the program has all edges of an observer. -/
def checkObserver (p : Program) (o : Observer) : Except Refusal Unit :=
  match unknownEdge? p o.automaton with
  | some e => throw (.composition (.unknownEdge o.automaton.name e))
  | none => return ()

/-- Checks what an explorer is to be composed of. -/
def checkParts (factory : ExplorerFactory) (observers : List Observer) (constraint : Option Region) :
    Except Refusal Unit := do
  if observers.isEmpty then throw (.composition .noObservers)
  if constraint.isSome && !factory.tracks then throw (.composition .constraintWithoutManager)
  observers.forM (checkObserver factory.program)

def compose (factory : ExplorerFactory) (observers : List Observer) (constraint : Option Region)
    (covering : Option IdSet) : Except Refusal Explorer := do
  checkParts factory observers constraint
  return {
    program := factory.program
    tracks := factory.tracks
    observers
    covering := covering.getD factory.program.joins
    constraint
    opened := ∅
    maxNodes := factory.maxNodes
    explains := factory.explains
    counterexamples := ∅ }

/-- Exploration as a kind of analysis. Its precision is the set of locations where states are covered. -/
def analysis : Analysis ExplorerFactory Explorer State IdSet where
  compose observers constraint covering := do
    let (_, factory) ← get
    match compose factory observers constraint covering with
    | .ok x => return x
    | .error r => Procedure.refuse r
  initialState x := Procedure.within (·.1) (fun d s => (d, s.2)) x.initialState
  precision x := x.covering
  run fuel limit := do
    let token ← takeToken limit
    run fuel token
  counterexamples x := x.counterexamples
  disable goals := changeReached (·.disable goals.toList)
  restrict := restrict

end Explorer

end GoalCoverage
