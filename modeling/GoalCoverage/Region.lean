/-!
Regions: handles to sets of product configurations.

A region is the index of a decision in a `Diagram`. The first two indices are the terminals, so the
empty and the universal region are recognised without the diagram.
-/

namespace GoalCoverage

structure Region where
  index : Nat
  deriving DecidableEq, Repr

namespace Region

/-- No configuration. -/
def empty : Region := ⟨0⟩

/-- Every configuration. -/
def all : Region := ⟨1⟩

instance : Inhabited Region := ⟨empty⟩

def isTerminal (r : Region) : Bool := decide (r.index ≤ 1)

def isEmpty (r : Region) : Bool := decide (r = empty)

def isAll (r : Region) : Bool := decide (r = all)

@[simp] theorem isEmpty_iff {r : Region} : r.isEmpty = true ↔ r = empty := by simp [isEmpty]

@[simp] theorem isAll_iff {r : Region} : r.isAll = true ↔ r = all := by simp [isAll]

theorem isTerminal_iff {r : Region} : r.isTerminal = true ↔ r = empty ∨ r = all := by
  obtain ⟨i⟩ := r
  simp only [isTerminal, empty, all, decide_eq_true_eq, Region.mk.injEq]
  omega

/-- The terminals have names; any other region is shown by its index. -/
def text (r : Region) : String :=
  if r = empty then "FALSE"
  else if r = all then "TRUE"
  else "@" ++ toString r.index

end Region

end GoalCoverage
