import GoalCoverage.StateGraph

/-!
Removal from a state graph.

`detach` cuts all links and coverings of one node and leaves the node in the arena; `sweep` deletes
every node that the root does not reach along child links. Both report the nodes that lost their cover.
-/

namespace GoalCoverage.StateGraph

variable {S : Type}

/-- Takes `n` out of the parents of its children. -/
def dropFromChildren (g : StateGraph S) (n : NodeId) (children : List NodeId) :
    Except Violation (StateGraph S) :=
  children.foldlM (fun g c => do
    let v ← g.node c
    if !v.parents.contains n then throw (.notParentOf n c)
    return g.update c fun v => { v with parents := v.parents.erase n }) g

/-- Takes `n` out of the children of its parents. -/
def dropFromParents (g : StateGraph S) (n : NodeId) (parents : List NodeId) :
    Except Violation (StateGraph S) :=
  parents.foldlM (fun g p => do
    let v ← g.node p
    if !v.children.contains n then throw (.notChildOf n p)
    return g.update p fun v => { v with children := v.children.erase n }) g

/-- Cuts a node out of the graph and yields the nodes that it covered, which are uncovered. -/
def detach (g : StateGraph S) (n : NodeId) : Except Violation (List NodeId × StateGraph S) := do
  let v ← g.node n
  let g := g.update n fun v => { v with children := ∅ }
  let g ← g.dropFromChildren n v.children.keys.toList
  let v ← g.node n
  let g := g.update n fun v => { v with parents := ∅ }
  let g ← g.dropFromParents n v.parents.toList
  let g ← g.uncover n
  let released := g.covered.toList.filter fun m => decide ((g.node? m).bind (·.coveredBy) = some n)
  let g ← released.foldlM uncover g
  return (released, if g.root = some n then { g with root := none } else g)

structure Swept where
  /-- Number of deleted nodes. -/
  removed : Nat
  /-- Survivors whose cover was deleted. -/
  uncovered : List NodeId
  deriving DecidableEq

/-- The nodes that the root reaches; none without a root. -/
def reached (g : StateGraph S) : Std.TreeSet NodeId :=
  match g.root with
  | none => ∅
  | some r => Closure.reach g.childList g.nodes.size [r]

/-- Deletes every node that the root does not reach. -/
def sweep (g : StateGraph S) : Swept × StateGraph S :=
  let kept := g.reached
  let garbage := g.ids.filter fun n => !kept.contains n
  if garbage.isEmpty then (⟨0, []⟩, g)
  else
    let lost := fun v : GraphNode S => v.coveredBy.any fun c => !kept.contains c
    let survivor := fun v : GraphNode S =>
      { v with
        parents := v.parents.filter kept.contains
        coveredBy := if lost v then none else v.coveredBy }
    let remaining := g.covered.filter kept.contains
    let uncovered := remaining.filter fun n => (g.node? n).any lost
    (⟨garbage.length, uncovered.toList⟩,
      { g with
        nodes := g.nodes.mapIdx fun n v => if kept.contains n then v.map survivor else none
        live := g.live - garbage.length
        covered := remaining.diff uncovered })

end GoalCoverage.StateGraph
