import GoalCoverage.Distinct
import GoalCoverage.Program

/-!
Labels of automaton transitions: a set of program edges with side conditions.

An edge set is everything, a finite set, or the complement of one, so that intersections stay in the
type. Guards are conditions that the edge alone does not decide.
-/

namespace GoalCoverage

inductive EdgeSet where
  | any
  | only (edges : IdSet)
  | except (edges : IdSet)
  deriving DecidableEq

namespace EdgeSet

def contains : EdgeSet → EdgeId → Bool
  | any, _ => true
  | only edges, e => edges.contains e
  | except edges, e => !edges.contains e

/-- Only a finite set is known to be empty, whatever edges there are. -/
def isEmpty : EdgeSet → Bool
  | only edges => edges.isEmpty
  | _ => false

def inter : EdgeSet → EdgeSet → EdgeSet
  | any, t => t
  | s, any => s
  | only a, only b => only (a.inter b)
  | only a, except b => only (a.diff b)
  | except a, only b => only (b.diff a)
  | except a, except b => except (a.union b)

/-- The edges that the set names. -/
def named : EdgeSet → IdSet
  | any => ∅
  | only edges => edges
  | except edges => edges

def namesText (edges : IdSet) : String :=
  "\x7b" ++ ",".intercalate (edges.toList.map edgeText) ++ "\x7d"

def text : EdgeSet → String
  | any => "Σ"
  | only edges => namesText edges
  | except edges => "Σ\\" ++ namesText edges

@[simp] theorem contains_inter (s t : EdgeSet) (e : EdgeId) :
    (s.inter t).contains e = (s.contains e && t.contains e) := by
  rw [Bool.eq_iff_iff]
  cases s <;> cases t <;> simp [inter, contains, IdSet.contains, and_comm, or_comm]

end EdgeSet

inductive Guard where
  /-- The transition exists only in these configurations. -/
  | presence (region : Region)
  /-- An assumption on the values of the program. -/
  | predicate (text : String)
  deriving DecidableEq

def Guard.text : Guard → String
  | presence region => "pc " ++ region.text
  | predicate text => text

structure Label where
  edges : EdgeSet
  guards : List Guard
  deriving DecidableEq

namespace Label

def any : Label := ⟨.any, []⟩

def single (e : EdgeId) : Label := ⟨.only (.singleton e), []⟩

def isGuarded (l : Label) : Bool := !l.guards.isEmpty

def contains (l : Label) (e : EdgeId) : Bool := l.edges.contains e

/-- The label that matches what both match under the guards of both, unless no edge can match. -/
def inter (a b : Label) : Option Label :=
  let edges := a.edges.inter b.edges
  if edges.isEmpty then none else some ⟨edges, Distinct.append a.guards b.guards⟩

def text (l : Label) : String :=
  if l.isGuarded then l.edges.text ++ " [" ++ ", ".intercalate (l.guards.map Guard.text) ++ "]"
  else l.edges.text

end Label

end GoalCoverage
