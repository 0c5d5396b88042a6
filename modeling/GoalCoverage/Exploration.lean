import GoalCoverage.StateGraph.Removal

/-!
Explorations: a state graph with its frontier.

The frontier is the queue of nodes that wait to be expanded. An exploration also remembers the node
that was added last, the goals that are no longer observed, and the region that restricts the frontier.
-/

namespace GoalCoverage

structure Exploration (S : Type) where
  graph : StateGraph S
  waiting : List NodeId
  last : Option NodeId
  disabled : IdSet
  constraint : Option Region

namespace Exploration

variable {S : Type}

/-- Only the root, which waits. -/
def start (initial : S) : Exploration S :=
  let (root, graph) := StateGraph.empty.allocate initial
  { graph := { graph with root := some root }
    waiting := [root]
    last := some root
    disabled := ∅
    constraint := none }

/-- Adds a node below `parent`, at the end of the queue. -/
def add (x : Exploration S) (parent : NodeId) (state : S) (label : Option EdgeId) :
    Except Violation (NodeId × Exploration S) := do
  let (n, graph) ← x.graph.addChild parent state label
  return (n, { x with graph, last := some n, waiting := x.waiting ++ [n] })

def pop (x : Exploration S) : Option (NodeId × Exploration S) :=
  match x.waiting with
  | [] => none
  | n :: rest => some (n, { x with waiting := rest })

/-- Puts a node at the end of the queue, unless it waits already. -/
def push (x : Exploration S) (n : NodeId) : Exploration S :=
  if n ∈ x.waiting then x else { x with waiting := x.waiting ++ [n] }

/-- Puts a node at the front of the queue, unless it waits already. -/
def pushFront (x : Exploration S) (n : NodeId) : Exploration S :=
  if n ∈ x.waiting then x else { x with waiting := n :: x.waiting }

def removeWaiting (x : Exploration S) (n : NodeId) : Exploration S :=
  { x with waiting := x.waiting.filter (· != n) }

/-- Keeps the waiting nodes whose states pass a test. -/
def retainWaiting (x : Exploration S) (keep : S → Bool) : Except Violation (Exploration S) := do
  let waiting ← x.waiting.filterMapM fun n => do
    let s ← x.graph.state n
    return if keep s then some n else none
  return { x with waiting }

variable [AbstractState S]

/-- An attached node whose state accepts a goal. -/
def isLiveTarget (x : Exploration S) (n : NodeId) : Bool :=
  (x.graph.node? n).any fun v =>
    (x.graph.root = some n || !v.parents.isEmpty) && AbstractState.isTarget v.state

/-- The live targets, oldest first. -/
def targets (x : Exploration S) : List NodeId := x.graph.ids.filter x.isLiveTarget

omit [AbstractState S]

def disable (x : Exploration S) (goals : List Nat) : Exploration S :=
  { x with disabled := x.disabled.insertAll goals }

def setConstraint (x : Exploration S) (constraint : Region) : Exploration S :=
  { x with constraint := some constraint }

/-- Does a parent of a pruned node have to be expanded again? -/
def resumes (x : Exploration S) (pruned : Std.TreeSet NodeId) (parent : NodeId) : Except Violation Bool := do
  if pruned.contains parent then return false
  return (← x.graph.isAttached parent) && !x.graph.isCovered parent

/--
Cuts a node and everything below it out of the graph and the frontier. Nodes outside that were covered
from inside wait again, at the end of the queue; the former parents of the node wait again at its front,
so that their other continuations are explored.
-/
def prune (x : Exploration S) (n : NodeId) : Except Violation (Exploration S) := do
  let pruned ← x.graph.subtree n
  let parents ← x.graph.parents n
  let (released, graph) ← pruned.toList.foldlM (fun (released, g) m => do
    let (more, g) ← StateGraph.detach g m
    return (released ++ more, g)) ([], x.graph)
  let x := { x with
    graph
    waiting := x.waiting.filter fun m => !pruned.contains m
    last := x.last.filter fun m => !pruned.contains m }
  let x := (released.filter fun m => !pruned.contains m).foldl push x
  let resumed ← parents.toList.filterMapM fun p => return if ← x.resumes pruned p then some p else none
  return resumed.reverse.foldl pushFront x

/-- Deletes detached nodes and yields their number. -/
def sweep (x : Exploration S) : Nat × Exploration S :=
  let (swept, graph) := x.graph.sweep
  let x := { x with
    graph
    waiting := x.waiting.filter graph.contains
    last := x.last.filter graph.contains }
  (swept.removed, swept.uncovered.foldl push x)

end Exploration

end GoalCoverage
