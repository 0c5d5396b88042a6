import GoalCoverage.Automaton.Trim
import GoalCoverage.Goal
import GoalCoverage.Text

/-!
Structural coverage criteria and the goals that they yield for a program.
-/

namespace GoalCoverage

inductive Criterion where
  /-- Every edge. -/
  | edges
  /-- Every edge that leaves a location with several leaving edges. -/
  | decisions
  deriving DecidableEq

namespace Criterion

def text : Criterion → String
  | edges => "edges"
  | decisions => "decisions"

/-- Reads a criterion by one of its names, whatever the case of the letters. -/
def ofText (s : String) : Except Refusal Criterion :=
  let name := String.ofList (Text.lower (Text.trim s.toList))
  if name ∈ ["edges", "edge", "cover edges(@basicblockentry)"] then .ok edges
  else if name ∈ ["decisions", "decision", "cover edges(@decisionedge)"] then .ok decisions
  else .error (.invalidOption "fqlQuery" (.unknownCriterion s))

def selects (c : Criterion) (p : Program) (e : EdgeId) : Bool :=
  match c with
  | edges => true
  | decisions => p.edges[e]?.any fun edge => p.isBranching edge.source

end Criterion

namespace Program

def selected (p : Program) (c : Criterion) : List EdgeId := p.edgeIds.filter (c.selects p)

/-- The function that an edge leaves. -/
def functionOfEdge (p : Program) (e : EdgeId) : String :=
  match p.edges[e]? with
  | some edge => p.locations.getD edge.source ""
  | none => ""

/--
The goals of a criterion, numbered from 1 in the order of their edges. The edges of one function form a
cluster; clusters are numbered from 0 in the order of their first edge.
-/
def goals (p : Program) (c : Criterion) (trimmed : Bool) : List Goal :=
  let edges := p.selected c
  let functions := Distinct.ofList (edges.map p.functionOfEdge)
  edges.mapIdx fun i e =>
    let function := p.functionOfEdge e
    let goal := Goal.forEdge (i + 1) e (functions.idxOf function) ((p.functionEntry? function).getD 0)
    if trimmed then { goal with automaton := goal.automaton.trim } else goal

end Program

end GoalCoverage
