import GoalCoverage.StateGraph

/-!
Test cases: input values with the execution that they drive.
-/

namespace GoalCoverage

/-- A length of time in microseconds. -/
abbrev Duration := Nat

namespace Duration

def ofMillis (n : Nat) : Duration := 1000 * n

def ofSeconds (n : Nat) : Duration := 1000000 * n

def millis (d : Duration) : Nat := d / 1000

def seconds (d : Duration) : Nat := d / 1000000

end Duration

structure TestCase where
  id : Nat
  inputs : List Int
  /-- Nodes of the state graph along the execution. -/
  path : List NodeId
  /-- Program edges along the execution. -/
  trace : List EdgeId
  region : Option Region
  /-- The regions of the states along the execution. -/
  presence : List (Option Region)
  /-- The time from the start of generation to the making of the test case. -/
  time : Duration
  newlyCovered : Nat := 0
  newlyPartial : Nat := 0
  deriving DecidableEq

namespace TestCase

/-- The region of the state that is reached after so many steps of the trace. -/
def presenceAfter (t : TestCase) (steps : Nat) : Option Region := (t.presence[steps]?).join

def text (t : TestCase) : String :=
  "TestCase " ++ toString t.id ++ " [" ++ ", ".intercalate (t.inputs.map toString) ++ "]"

/-- Earlier test cases come first, and of two made at the same time the one with the lower number. -/
def precedes (a b : TestCase) : Bool := decide (a.time < b.time ∨ a.time = b.time ∧ a.id ≤ b.id)

end TestCase

end GoalCoverage
