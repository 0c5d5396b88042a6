import GoalCoverage.Dominance
import GoalCoverage.Drawing
import GoalCoverage.Generation.Harvest

/-!
The search for the goals of a batch.

An engine is composed for the unresolved goals of the batch and run on an exploration, again and again;
after each run the targets are harvested and the rest of the exploration is narrowed to what is still
open. The search ends when the time of a run is over, when a run found targets but no test case, when the
frontier is empty or the batch is resolved, and when an unsound run made no progress. Unless the time was
over, the goals that are still open then are infeasible.
-/

namespace GoalCoverage

/-- A generator at work with an engine on an exploration. -/
structure Session (F E S P : Type) where
  generator : Generator F P
  engine : E
  reached : Exploration S

namespace Session

variable {F E S P : Type}

/-- Works with the generator alone. -/
def withGenerator {α : Type} : Procedure (Generator F P) α → Procedure (Session F E S P) α :=
  Procedure.within (·.generator) (fun generator s => { s with generator })

def bench (s : Session F E S P) : Bench F E S :=
  { diagram := s.generator.diagram
    surroundings := s.generator.surroundings
    engine := s.engine
    reached := s.reached }

def setBench (b : Bench F E S) (s : Session F E S P) : Session F E S P :=
  { generator := { s.generator with diagram := b.diagram, surroundings := b.surroundings }
    engine := b.engine
    reached := b.reached }

/-- Works with the engine. -/
def withEngine {α : Type} : Procedure (Bench F E S) α → Procedure (Session F E S P) α :=
  Procedure.within bench setBench

/-- Runs the engine within the limit of the generator. -/
def runEngine (a : Analysis F E S P) (fuel : Nat) : Procedure (Session F E S P) Outcome := do
  let s ← get
  withEngine (a.runBounded fuel s.generator.timeLimit)

/-- Number of nodes and of waiting nodes. -/
def extent (s : Session F E S P) : Nat × Nat := (s.reached.graph.live, s.reached.waiting.length)

/-- Restricts the exploration to what is open in the batch. -/
def restrict (a : Analysis F E S P) (batch : List Nat) (region : Region) :
    Procedure (Session F E S P) Unit := do
  let opened ← withGenerator (Generator.openRegions batch)
  withEngine (a.restrict region opened)

/-- Stops looking for what is resolved. -/
def narrow (a : Analysis F E S P) (batch : List Nat) : Procedure (Session F E S P) Unit := do
  let resolved ← withGenerator (batch.filterM Generator.isResolved)
  if !resolved.isEmpty then withEngine (a.disable (.ofList resolved))
  if (← get).generator.suite.variability then
    let region ← withGenerator (Generator.remainingRegion batch)
    restrict a batch region

/-- Starts the exploration again, unless it is to be kept. -/
def renew (a : Analysis F E S P) : Procedure (Session F E S P) Unit := do
  let s ← get
  if !s.generator.settings.reuseGraph then
    let initial ← withGenerator (Generator.onShared (a.initialState s.engine))
    modify fun s => { s with reached := .start initial }

variable [AbstractState S]

/-- How a search ends, and whether all its runs were sound. -/
structure Finding where
  outcome : Outcome
  sound : Bool
  deriving DecidableEq

/-- One run with its harvest; `sound` tells whether the runs before were sound. -/
def turn (a : Analysis F E S P) (fuel : Nat) (batch : List Nat) (sound : Bool) :
    Procedure (Session F E S P) (Bool ⊕ Finding) := do
  let before := (← get).extent
  let outcome ← runEngine a fuel
  if outcome = .timedOut then return .inr ⟨outcome, sound⟩
  let sound := sound && outcome == .sound
  let s ← get
  let found ← withGenerator (Generator.harvest batch (a.counterexamples s.engine) s.reached)
  modify fun s => { s with reached := found.reached }
  if 0 < found.targets && found.created == 0 then return .inr ⟨.unsound, false⟩
  let done ← withGenerator (Generator.isDone batch)
  if found.reached.waiting.isEmpty || done then return .inr ⟨outcome, sound⟩
  if outcome == .unsound && found.targets == 0 && before == (← get).extent then
    return .inr ⟨outcome, sound⟩
  renew a
  narrow a batch
  return .inl sound

/-- Turns until the search ends, at most `fuel`. -/
def explore (a : Analysis F E S P) (fuel : Nat) (batch : List Nat) :
    Procedure (Session F E S P) Finding :=
  Procedure.repeatUntil (turn a fuel batch) fuel true

end Session

namespace Generator

open Session (Finding)

variable {F E S P : Type}

/-- The observers of some goals: one product of all of them, or one observer for each. -/
def observers (goals : List Nat) : Procedure (Generator F P) (List Observer) := do
  let g ← get
  let components ← goals.mapM fun index => return (⟨index, (← goal index).automaton⟩ : Component)
  if g.settings.useCrossProduct then
    match Product.ofComponents ("x".intercalate (goals.map Goal.nameOf)) components with
    | .ok product => return [.product product g.settings.usePowerset]
    | .error r => Procedure.refuse r
  else
    return components.map fun c =>
      if g.settings.usePowerset then .powerset c.goal c.automaton else .plain c.goal c.automaton

/-- Draws the automata of observers, if that is asked for. -/
def drawAutomata (observers : List Observer) : Procedure (Generator F P) Unit := do
  let g ← get
  match g.settings.automatonTemplate with
  | none => return ()
  | some template =>
    observers.forM fun o =>
      draw template o.automaton.name (Drawing.automaton {} o.automaton)

/-- Draws the graph for each goal of a batch, if that is asked for. -/
def drawGraphs [AbstractState S] (batch : List Nat) (graph : StateGraph S) :
    Procedure (Generator F P) Unit := do
  let g ← get
  if g.settings.drawGraphs then
    batch.forM fun goal => do
      let drawing ← ask fun _ => Drawing.graph {} g.program graph
      draw g.settings.graphTemplate (toString goal) drawing

/-- Marks a goal as infeasible for all that is left of it. -/
def giveUp (index : Nat) : Procedure (Generator F P) Unit := do
  let g ← get
  let known ← goal index
  changeSuite (·.addInfeasible index (if g.suite.variability then known.remaining else none))
  if g.settings.propagateInfeasibility then
    changeSuite fun s => return (← s.propagateInfeasible g.program index).2

/-- Marks a goal as timed out. -/
def postpone (index : Nat) : Procedure (Generator F P) Unit :=
  modify fun g =>
    { g with
      timeouts := g.timeouts ++ [index]
      suite := g.suite.addTimedOut [(g.order.getD index 0, index)] }

/-- Decides on the goals that a search left open. -/
def conclude (batch : List Nat) (outcome : Outcome) : Procedure (Generator F P) Unit := do
  let left ← unresolved batch
  match outcome with
  | .timedOut => left.forM postpone
  | .sound | .unsound => left.forM giveUp

/-- Carries out a procedure of a session with a new engine; yields what is left of the session. -/
def inSession {α : Type} (engine : E) (reached : Exploration S) (m : Procedure (Session F E S P) α) :
    Procedure (Generator F P) (α × E × Exploration S) := fun generator =>
  match m { generator, engine, reached } with
  | .ok a s => .ok (a, s.engine, s.reached) s.generator
  | .error e s => .error e s.generator

/-- Searches for the unresolved goals of a batch with an engine composed for them. -/
def search [AbstractState S] (a : Analysis F E S P) (fuel : Nat) (batch : List Nat) :
    Procedure (Generator F P) Finding := do
  let observers ← observers (← unresolved batch)
  drawAutomata observers
  let variability := (← get).suite.variability
  let region ← if variability then some <$> remainingRegion batch else pure none
  let g ← get
  let precision := if g.settings.reusePrecision then g.precision else none
  let engine ← onShared (a.compose observers region precision)
  let initial ← onShared (a.initialState engine)
  let (finding, engine, reached) ← inSession engine (.start initial) do
    match region with
    | some r => Session.restrict a batch r
    | none => pure ()
    Session.explore a fuel batch
  if g.settings.reusePrecision then
    modify fun g => { g with precision := some (a.precision engine) }
  conclude batch finding.outcome
  drawGraphs batch reached.graph
  return finding

end Generator

end GoalCoverage
