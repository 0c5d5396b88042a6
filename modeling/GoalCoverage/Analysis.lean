import GoalCoverage.Exploration
import GoalCoverage.Observer
import GoalCoverage.TestCase
import GoalCoverage.Diagram
import GoalCoverage.Text

/-!
The contract of analysis engines.

An engine is composed for the observers of some goals. It is run on an exploration, again and again, and
goes on from the frontier until it finds targets or the frontier is empty. A run may be limited in time:
then it may also end because the time is over, and nothing that goes wrong in it ends the whole
computation.
-/

namespace GoalCoverage

/-- What an engine says of a run. -/
inductive Verdict where
  | sound
  | unsound
  deriving DecidableEq

def Verdict.text : Verdict → String
  | sound => "sound"
  | unsound => "unsound"

/-- The classified result of a run. -/
inductive Outcome where
  | sound
  | unsound
  | timedOut
  deriving DecidableEq

namespace Outcome

def text : Outcome → String
  | sound => "SOUND"
  | unsound => "UNSOUND"
  | timedOut => "TIMED_OUT"

def ofVerdict : Verdict → Outcome
  | .sound => sound
  | .unsound => unsound

end Outcome

/-- Values of named variables, in the order of the names. -/
structure Model where
  entries : List (String × Int)
  deriving DecidableEq

namespace Model

def empty : Model := ⟨[]⟩

def place (name : String) (value : Int) : List (String × Int) → List (String × Int)
  | [] => [(name, value)]
  | (n, v) :: rest =>
    if name < n then (name, value) :: (n, v) :: rest
    else if name = n then (name, value) :: rest
    else (n, v) :: place name value rest

/-- Gives a variable its value, which replaces an earlier one. -/
def insert (m : Model) (name : String) (value : Int) : Model := ⟨place name value m.entries⟩

def ofList (entries : List (String × Int)) : Model :=
  entries.foldl (fun m (name, value) => m.insert name value) empty

/-- The names of input values start like this. -/
def inputPrefix : String := "__VERIFIER_nondet::__retval__"

/-- The variable that holds the input read at place `seq`. -/
def inputName (seq : Nat) : String := inputPrefix ++ "@" ++ toString seq

/-- The place of an input value, if the name is that of one. -/
def inputPlace? (name : String) : Option Nat := do
  let _ ← Text.strip? inputPrefix.toList name.toList
  let seq ← Text.afterLast? '@' name.toList
  Text.natural? Text.wordBound seq

/-- The input values by their places. -/
def inputs (m : Model) : List Int :=
  let placed := m.entries.filterMap fun (name, value) => (inputPlace? name).map fun seq => (seq, value)
  (placed.mergeSort fun a b => decide (a.1 ≤ b.1)).map (·.2)

end Model

/-- An execution that leads to a target. -/
structure Counterexample where
  target : NodeId
  route : Route
  model : Model
  spurious : Bool

/-- How a run ended, and whether its time was over by then. -/
structure RunEnd where
  verdict : Verdict
  expired : Bool

/-- All that a run works on: regions, surroundings shared by all engines, an engine, and an exploration. -/
structure Bench (F E S : Type) where
  diagram : Diagram
  surroundings : F
  engine : E
  reached : Exploration S

/--
A kind of analysis, by the surroundings `F` of its engines, the engines `E`, their states `S`, and the
precision `P` that one engine may hand to the next. Loops get at most `fuel` iterations.
-/
structure Analysis (F E S P : Type) where
  compose : List Observer → Option Region → Option P → Procedure (Diagram × F) E
  /-- The state to start a fresh exploration from. -/
  initialState : E → Procedure (Diagram × F) S
  precision : E → P
  run : (fuel : Nat) → (limit : Option Duration) → Procedure (Bench F E S) RunEnd
  /-- Counterexamples of the latest run, by their targets. -/
  counterexamples : E → IdMap Counterexample
  /-- Stop observing goals on the rest of the frontier. -/
  disable : IdSet → Procedure (Bench F E S) Unit
  /-- Restrict the exploration to a region, and the acceptance of each goal to the region open for it. -/
  restrict : Region → IdMap Region → Procedure (Bench F E S) Unit

namespace Analysis

variable {F E S P : Type}

/--
Runs the engine within a limit. An engine that refuses to go on makes the run unsound, and so does a
violation if there is a limit; without one it ends the computation. If the time is over at the end of a
run, the run timed out, whatever the engine says.
-/
def runBounded (a : Analysis F E S P) (fuel : Nat) (limit : Option Duration) :
    Procedure (Bench F E S) Outcome := fun bench =>
  match a.run fuel limit bench with
  | .ok ending bench =>
    if limit.isSome && ending.expired then .ok .timedOut bench
    else .ok (.ofVerdict ending.verdict) bench
  | .error (.refused _) bench => .ok .unsound bench
  | .error (.violated v) bench =>
    if limit.isSome then .ok .unsound bench else .error (.violated v) bench
  | .error .exhausted bench => .error .exhausted bench

end Analysis

end GoalCoverage
