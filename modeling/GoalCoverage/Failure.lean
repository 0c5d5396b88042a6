/-!
What can go wrong.

A `Refusal` is reported to the caller, who may go on. A `Violation` says that an operation was called
outside its contract, or that an invariant of a graph is broken; it ends the computation. The third
failure, `exhausted`, is met only by a loop that was given too few iterations to end.
-/

namespace GoalCoverage

/-- What is wrong with the value of a setting. -/
inductive SettingFault where
  | notAssignment
  | unknownOption
  | notBoolean (value : String)
  | notInteger (value : String)
  | negativeIncrement
  | unknownCriterion (value : String)
  | unknownStrategy (value : String)
  | unknownOrder (value : String)
  | missingManager
  deriving DecidableEq

def SettingFault.message : SettingFault → String
  | notAssignment => "expected 'key = value'"
  | unknownOption => "unknown option"
  | notBoolean value => "expected a boolean, got '" ++ value ++ "'"
  | notInteger value => "expected an integer, got '" ++ value ++ "'"
  | negativeIncrement => "increment must not be negative"
  | unknownCriterion value => "unknown coverage criterion '" ++ value ++ "'"
  | unknownStrategy value => "unknown strategy '" ++ value ++ "'"
  | unknownOrder value => "unknown order '" ++ value ++ "'"
  | missingManager => "presence conditions need a feature manager"

/-- Why observers cannot be composed with an analysis. -/
inductive CompositionFault where
  | noObservers
  | constraintWithoutManager
  | unknownEdge (automaton : String) (edge : Nat)
  | prescribed (text : String)
  deriving DecidableEq

def CompositionFault.message : CompositionFault → String
  | noObservers => "no observer automata"
  | constraintWithoutManager => "presence condition constraint without a feature manager"
  | unknownEdge automaton edge => "automaton '" ++ automaton ++ "' refers to unknown edge e" ++ toString edge
  | prescribed text => text

inductive Refusal where
  | invalidOption (key : String) (fault : SettingFault)
  | emptyProduct (name : String)
  | composition (fault : CompositionFault)
  | engine (text : String)
  | unwritable
  deriving DecidableEq

def Refusal.message : Refusal → String
  | invalidOption key fault => "invalid option '" ++ key ++ "': " ++ fault.message
  | emptyProduct name => "invalid automaton: product '" ++ name ++ "' has no components"
  | composition fault => "cannot compose analysis: " ++ fault.message
  | engine text => "analysis engine failed: " ++ text
  | unwritable => "file cannot be written"

inductive Violation where
  | outOfRange
  | unknownLocation (location : Nat)
  | emptyProgram
  | unknownState (state : Nat)
  | unknownNode (node : Nat)
  | secondRoot
  | ownParent (node : Nat)
  | asymmetricLink (parent child : Nat)
  | notParentOf (parent child : Nat)
  | notChildOf (child parent : Nat)
  | asymmetricParent (node parent : Nat)
  | asymmetricChild (node child : Nat)
  | ownCover (node : Nat)
  | unknownCover (node : Nat)
  | cyclicParents (node : Nat)
  | unknownGoal (goal : Nat)
  | unknownTestCase (testCase : Nat)
  | negativeCount
  | prescribed (text : String)
  deriving DecidableEq

def Violation.message : Violation → String
  | outOfRange => "index out of bounds"
  | unknownLocation location => "Unknown location N" ++ toString location
  | emptyProgram => "CFA is empty"
  | unknownState state => "Unknown state " ++ toString state
  | unknownNode node => "ARG node #" ++ toString node ++ " does not exist"
  | secondRoot => "ARG already has a root"
  | ownParent node => "ARG node #" ++ toString node ++ " cannot be its own parent"
  | asymmetricLink parent child => "asymmetric link between #" ++ toString parent ++ " and #" ++ toString child
  | notParentOf parent child => "asymmetric link: #" ++ toString parent ++ " not a parent of #" ++ toString child
  | notChildOf child parent => "asymmetric link: #" ++ toString child ++ " not a child of #" ++ toString parent
  | asymmetricParent node parent =>
    "#" ++ toString node ++ " lists parent #" ++ toString parent ++ " asymmetrically"
  | asymmetricChild node child => "#" ++ toString node ++ " lists child #" ++ toString child ++ " asymmetrically"
  | ownCover node => "ARG node #" ++ toString node ++ " cannot cover itself"
  | unknownCover node => "covering node #" ++ toString node ++ " does not exist"
  | cyclicParents node => "cycle in ARG parent links while walking back from #" ++ toString node
  | unknownGoal goal => "Unknown goal G" ++ toString goal
  | unknownTestCase testCase => "Unknown test case " ++ toString testCase
  | negativeCount => "attempt to subtract with overflow"
  | prescribed text => text

inductive Failure where
  | refused (refusal : Refusal)
  | violated (violation : Violation)
  | exhausted
  deriving DecidableEq

/-- A computation over a state that may fail. The state reached before a failure survives it. -/
abbrev Procedure (σ α : Type) := EStateM Failure σ α

namespace Procedure

variable {σ τ α β : Type}

def refuse (refusal : Refusal) : Procedure σ α := throw (.refused refusal)

def violate (violation : Violation) : Procedure σ α := throw (.violated violation)

/-- Applies an operation that changes the state only when it succeeds. -/
def attempt (operation : σ → Except Violation (α × σ)) : Procedure σ α := fun s =>
  match operation s with
  | .ok (a, s') => .ok a s'
  | .error v => .error (.violated v) s

/-- Runs a procedure on a part of the state. -/
def within (get : σ → τ) (set : τ → σ → σ) (procedure : Procedure τ α) : Procedure σ α := fun s =>
  match procedure (get s) with
  | .ok a t => .ok a (set t s)
  | .error e t => .error e (set t s)

/-- Repeats a step until it yields a result, at most the given number of times. -/
def repeatUntil (step : α → Procedure σ (α ⊕ β)) : Nat → α → Procedure σ β
  | 0, _ => throw .exhausted
  | n + 1, a => do
    match ← step a with
    | .inl a => repeatUntil step n a
    | .inr b => pure b

end Procedure

end GoalCoverage
