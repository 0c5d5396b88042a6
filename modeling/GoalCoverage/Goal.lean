import GoalCoverage.Automaton
import GoalCoverage.IdMap

/-!
Coverage goals.

A goal asks for an execution that traverses its critical edge; its automaton accepts such executions.
Goals of one cluster are siblings, and every goal of a cluster is searched from the entry of the cluster.
When configurations are tracked, a goal also records for which of them it is still open, for which it
was found to be infeasible, and which test cases cover it where.
-/

namespace GoalCoverage

structure Goal where
  index : Nat
  criticalEdge : EdgeId
  cluster : Nat
  entry : Location
  automaton : Automaton
  remaining : Option Region := none
  infeasible : Option Region := none
  /-- Covering test cases, each with the region it covers. -/
  covering : IdMap (Option Region) := ∅

namespace Goal

def nameOf (index : Nat) : String := "G" ++ toString index

def name (g : Goal) : String := nameOf g.index

def text (g : Goal) : String := g.name ++ " (" ++ edgeText g.criticalEdge ++ ")"

/-- The goal of traversing an edge, observed by the canonical automaton. -/
def forEdge (index : Nat) (edge : EdgeId) (cluster : Nat) (entry : Location) : Goal :=
  { index, criticalEdge := edge, cluster, entry, automaton := .reaching (nameOf index) edge }

def accepts (g : Goal) (trace : List EdgeId) : Acceptance := g.automaton.accepts trace

/-- The region for which the goal is open, everything unless configurations are tracked. -/
def openRegion (g : Goal) : Region := g.remaining.getD .all

end Goal

end GoalCoverage
