import GoalCoverage.Analysis
import GoalCoverage.Folder
import GoalCoverage.Settings
import GoalCoverage.Suite.Listing
import GoalCoverage.Suite.Statistics
import GoalCoverage.Suite.Timeline

/-!
Generators: the state of test generation.

A generator knows the program, its settings and the suite made so far. What it shares with its engines
are the diagram of regions and the surroundings of the analysis, of type `F`; what it hands from one engine
to the next is a precision, of type `P`. It writes to a folder.
-/

namespace GoalCoverage

structure Generator (F P : Type) where
  settings : Settings
  program : Program
  diagram : Diagram
  surroundings : F
  suite : Suite
  /-- The place of every goal in the list that the generator was made for. -/
  order : IdMap Nat
  nextTestCase : Nat := 1
  /-- The time at which the test case of a number is made. -/
  clock : Nat → Duration
  /-- The limit of one run, which may grow. -/
  timeLimit : Option Duration
  /-- Goals in the batches processed so far; goals that are to be processed again do not count. -/
  processed : Nat := 0
  precision : Option P := none
  /-- Goals that timed out since the last retry round began, in this order. -/
  timeouts : List Nat := []
  folder : Folder := .empty

namespace Generator

variable {F P : Type}

/-- A generator for some goals. Configurations can be tracked only if their features are managed. -/
def ofGoals (settings : Settings) (program : Program) (goals : List Goal) (managed : Bool)
    (diagram : Diagram) (surroundings : F) (clock : Nat → Duration) : Except Refusal (Generator F P) :=
  if settings.presenceConditions && !managed then
    .error (.invalidOption "tiger_with_presenceConditions" .missingManager)
  else
    .ok
      { settings
        program
        diagram
        surroundings
        suite := Suite.addGoals { variability := settings.presenceConditions } goals
        order := .ofList (goals.mapIdx fun i g => (g.index, i))
        clock
        timeLimit := settings.timeLimit }

/-- A generator for the goals of the criterion in the settings. -/
def ofCriterion (settings : Settings) (program : Program) (managed : Bool) (diagram : Diagram)
    (surroundings : F) (clock : Nat → Duration) : Except Refusal (Generator F P) :=
  ofGoals settings program (program.goals settings.criterion settings.optimizeGoalAutomata) managed
    diagram surroundings clock

/-- Works on regions. -/
def onRegions {α : Type} (m : Regional α) : Procedure (Generator F P) α := fun g =>
  match m g.diagram with
  | .ok (a, diagram) => .ok a { g with diagram }
  | .error v => .error (.violated v) g

/-- Asks the suite. -/
def ask {α : Type} (f : Suite → Except Violation α) : Procedure (Generator F P) α := fun g =>
  match f g.suite with
  | .ok a => .ok a g
  | .error v => .error (.violated v) g

def changeSuite (f : Suite → Regional Suite) : Procedure (Generator F P) Unit := do
  let g ← get
  let suite ← onRegions (f g.suite)
  modify fun g => { g with suite }

/-- Works on what the generator shares with its engines. -/
def onShared {α : Type} : Procedure (Diagram × F) α → Procedure (Generator F P) α :=
  Procedure.within (fun g => (g.diagram, g.surroundings))
    (fun (diagram, surroundings) g => { g with diagram, surroundings })

/-- Writes the drawing of a thing. It does not matter if that fails. -/
def draw (template name drawing : String) : Procedure (Generator F P) Unit :=
  modify fun g => { g with folder := (g.folder.write (pathFor template name) drawing).2 }

def isResolved (goal : Nat) : Procedure (Generator F P) Bool := ask (·.isResolved goal)

/-- Are all goals of a batch resolved? -/
def isDone (batch : List Nat) : Procedure (Generator F P) Bool := ask (·.areResolved batch)

def unresolved (batch : List Nat) : Procedure (Generator F P) (List Nat) := ask (·.unresolved batch)

def goal (g : Nat) : Procedure (Generator F P) Goal := ask (·.goal g)

/-- The region for which some goal of a batch is still open. -/
def remainingRegion (batch : List Nat) : Procedure (Generator F P) Region := do
  let goals ← batch.mapM goal
  onRegions (Diagram.joinAll (goals.filterMap (·.remaining)) : StateM Diagram Region)

/-- For each goal of a batch the region for which it is open. -/
def openRegions (batch : List Nat) : Procedure (Generator F P) (IdMap Region) := do
  let entries ← batch.mapM fun g => do
    let known ← goal g
    return (g, if ← isResolved g then .empty else known.openRegion)
  return .ofList entries

/-- Writes the listing and the timeline of the suite. -/
def writeOutputs : Procedure (Generator F P) Unit := do
  let g ← get
  let (written, folder) := g.folder.write g.settings.suiteFile (g.suite.listing g.diagram)
  set { g with folder }
  if !written then Procedure.refuse .unwritable
  let (timeline, suite) ← onRegions g.suite.timeline
  let (written, folder) := folder.write g.settings.timelineFile timeline
  modify fun g => { g with folder, suite := if written then suite else g.suite }
  if !written then Procedure.refuse .unwritable

end Generator

end GoalCoverage
