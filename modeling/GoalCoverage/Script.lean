import GoalCoverage.Analysis
import GoalCoverage.Exploration.Command

/-!
Scripted engines.

A scripted engine does in each of its runs what its script says, step by step, and ends the run as the
script says, whatever it found. With scripts any behaviour of an engine can be played, and a journal tells
what was asked of the engines and what they did. The precision of a scripted engine is its number; engines
are numbered from 0 in the order in which they were asked for.
-/

namespace GoalCoverage

namespace Script

/-- A state as a script gives it; it is a target when goals are accepted in it. -/
structure State where
  location : Location
  presence : Option Region
  accepted : IdSet
  deriving DecidableEq

instance : AbstractState State where
  location := State.location
  presence := State.presence
  accepted := State.accepted

inductive Action where
  /-- Take all nodes out of the queue. -/
  | popAll
  /-- Record a counterexample; without a route it takes the one that the graph has. -/
  | explain (target : NodeId) (model : Model) (spurious : Bool) (route : Option Route)
  | command (command : Command State)

/-- A named action. The regions that it mentions are worked out when its turn comes. -/
structure Step where
  name : String
  action : StateM Diagram Action

inductive Ending where
  | sound
  | unsound
  /-- The engine refuses to go on, for a reason. -/
  | refuse (reason : String)
  /-- The engine breaks down with a message. -/
  | breakDown (message : String)
  /-- The engine goes on until its time is over. -/
  | expire
  deriving DecidableEq

structure Run where
  steps : List Step
  ending : Ending

/-- What an engine does when its script has ended: it gives up the frontier. -/
def Run.idle : Run := ⟨[⟨"pop_all", return .popAll⟩], .sound⟩

end Script

structure Script where
  /-- The initial state, if it is not the program entry. -/
  initial : Option (StateM Diagram Script.State) := none
  runs : List Script.Run := []
  /-- The reason why no engine can be composed, if there is one. -/
  refusal : Option String := none

namespace Script

inductive Event where
  | composed (number : Nat) (observers : List Observer) (constraint : Option Region) (precision : Option Nat)
  | started (number : Nat) (ending : Ending)
  | performed (step : String) (answer : Answer State)
  | disabled (goals : List Nat)
  | restricted (constraint : Region) (opened : IdMap Region)

/-- What scripted engines have in common; engines without a script have nothing to do. -/
structure Stage where
  program : Program
  scripts : List Script
  composed : Nat := 0
  journal : Array Event := #[]

structure Engine where
  number : Nat
  script : Script
  constraint : Option Region
  /-- Number of runs so far. -/
  runs : Nat := 0
  counterexamples : IdMap Counterexample := ∅

abbrev Desk := Bench Stage Engine State

def Stage.note (s : Stage) (event : Event) : Stage := { s with journal := s.journal.push event }

def note (event : Event) : Procedure Desk Unit :=
  modify fun b => { b with surroundings := b.surroundings.note event }

/-- Works on regions. -/
def onDiagram {α : Type} (m : StateM Diagram α) : Procedure Desk α := fun b =>
  let (a, diagram) := m b.diagram
  .ok a { b with diagram }

/-- Performs a command on the exploration; one that fails may leave something behind. -/
def obey (c : Command State) : Procedure Desk (Answer State) := fun b =>
  match c.perform b.surroundings.program b.reached with
  | .ok (answer, reached) => .ok answer { b with reached }
  | .error v => .error (.violated v) { b with reached := c.residue b.reached }

/-- The given route to a target, or else the one that the graph has. -/
def routeTo (g : StateGraph State) (target : NodeId) : Option Route → Except Violation Route
  | some route => .ok route
  | none => g.routeTo target

def act : Action → Procedure Desk (Answer State)
  | .popAll => do
    let b ← get
    set { b with reached := { b.reached with waiting := [] } }
    return .popped b.reached.waiting.length
  | .explain target model spurious route => do
    let b ← get
    match routeTo b.reached.graph target route with
    | .error v => Procedure.violate v
    | .ok route =>
      let c : Counterexample := { target, route, model, spurious }
      set { b with engine := { b.engine with
        counterexamples := b.engine.counterexamples.insert target c } }
      return .nothing
  | .command c => obey c

def play (s : Step) : Procedure Desk Unit := do
  let action ← onDiagram s.action
  let answer ← act action
  note (.performed s.name answer)

/-- Ends a run. Without a limit a run that waits for the end of its time never ends. -/
def conclude (limit : Option Duration) : Ending → Procedure Desk RunEnd
  | .sound => return ⟨.sound, false⟩
  | .unsound => return ⟨.unsound, false⟩
  | .refuse reason => Procedure.refuse (.engine reason)
  | .breakDown message => Procedure.violate (.prescribed message)
  | .expire => if limit.isSome then return ⟨.unsound, true⟩ else throw .exhausted

/-- The next run of the script. -/
def run (limit : Option Duration) : Procedure Desk RunEnd := do
  let b ← get
  let next := (b.engine.script.runs[b.engine.runs]?).getD .idle
  set { b with engine := { b.engine with runs := b.engine.runs + 1, counterexamples := ∅ } }
  note (.started b.engine.number next.ending)
  next.steps.forM play
  conclude limit next.ending

/-- The next engine, unless its script says that there is none. -/
def compose (observers : List Observer) (constraint : Option Region) (precision : Option Nat) :
    Procedure (Diagram × Stage) Engine := do
  let (d, stage) ← get
  let number := stage.composed
  let script := stage.scripts.getD number {}
  set (d, { stage.note (.composed number observers constraint precision) with composed := number + 1 })
  match script.refusal with
  | some reason => Procedure.refuse (.composition (.prescribed reason))
  | none => return { number, script, constraint }

/-- The initial state that the script gives, or else the program entry within the constraint. -/
def initialState (x : Engine) : Procedure (Diagram × Stage) State := do
  let (d, stage) ← get
  match x.script.initial with
  | some given =>
    let (s, d) := given d
    set (d, stage)
    return s
  | none =>
    match stage.program.entry with
    | .ok location => return { location, presence := x.constraint, accepted := ∅ }
    | .error v => Procedure.violate v

/-- Scripts as a kind of analysis. -/
def analysis : Analysis Stage Engine State Nat where
  compose := compose
  initialState := initialState
  precision x := x.number
  run _ limit := run limit
  counterexamples x := x.counterexamples
  disable goals := do
    note (.disabled goals.toList)
    modify fun b => { b with reached := b.reached.disable goals.toList }
  restrict constraint opened := do
    note (.restricted constraint opened)
    modify fun b => { b with reached := b.reached.setConstraint constraint }

end Script

end GoalCoverage
