import GoalCoverage.Automaton.Product

/-!
Observers: automata composed with an analysis to follow the progress of goals.

A plain observer is in one state at a time and leaves nondeterminism to the analysis; a powerset
observer is in a set of states. A product observes a whole batch of goals in either way.
-/

namespace GoalCoverage

inductive Observer where
  | plain (goal : Nat) (automaton : Automaton)
  | powerset (goal : Nat) (automaton : Automaton)
  | product (product : Product) (inSets : Bool)

namespace Observer

def automaton : Observer → Automaton
  | plain _ a => a
  | powerset _ a => a
  | product p _ => p.automaton

def isPowerset : Observer → Bool
  | plain .. => false
  | powerset .. => true
  | product _ inSets => inSets

def goals : Observer → List Nat
  | plain g _ => [g]
  | powerset g _ => [g]
  | product p _ => p.goals

/-- Goals accepted in a state. -/
def acceptedAt (o : Observer) (q : StateId) : IdSet :=
  match o with
  | plain g a => if a.isFinal q then .singleton g else ∅
  | powerset g a => if a.isFinal q then .singleton g else ∅
  | product p _ => p.acceptingAt q

/-- Nothing is left to observe in this state. -/
def isDone (o : Observer) (q : StateId) : Bool :=
  match o with
  | plain _ a => a.isFinal q
  | powerset _ a => a.isFinal q
  | product p _ => (p.acceptingAt q).size == p.goals.length

/-- States after an edge, each with the guards that have to hold. A state that is done stays. -/
def moves (o : Observer) (q : StateId) (e : EdgeId) : List (StateId × List Guard) :=
  if o.isDone q then [(q, [])]
  else ((o.automaton.outgoing q).filter (·.label.contains e)).map fun t => (t.target, t.label.guards)

end Observer

end GoalCoverage
