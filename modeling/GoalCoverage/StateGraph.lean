import GoalCoverage.Closure
import GoalCoverage.IdMap
import GoalCoverage.Program

/-!
Graphs of abstract states.

Nodes live in an arena and are numbered in the order of their creation; a number is never used again.
Parent and child links are kept at both ends, and the link of a child may carry the program edge that it
was created for. A node may be covered by another one; coverings are plain references, which are never
followed when links are.
-/

namespace GoalCoverage

abbrev NodeId := Nat

def nodeText (n : NodeId) : String := "#" ++ toString n

/-- What a graph needs to know of the states of an analysis. -/
class AbstractState (S : Type) where
  location : S → Location
  /-- The configurations under which the state is reached, if they are tracked. -/
  presence : S → Option Region
  /-- The goals that are accepted in the state. -/
  accepted : S → IdSet
  isTarget : S → Bool := fun s => !(accepted s).isEmpty

structure GraphNode (S : Type) where
  state : S
  parents : IdSet
  /-- Children, each with the label of its link. -/
  children : IdMap (Option EdgeId)
  coveredBy : Option NodeId
  bottom : Bool

structure StateGraph (S : Type) where
  nodes : Array (Option (GraphNode S))
  /-- Number of existing nodes. -/
  live : Nat
  root : Option NodeId
  covered : IdSet

/-- A walk through the graph: its nodes, and the labels of its links. -/
structure Route where
  nodes : List NodeId
  edges : List EdgeId
  deriving DecidableEq

namespace StateGraph

variable {S : Type}

def empty : StateGraph S := ⟨#[], 0, none, ∅⟩

instance : Inhabited (StateGraph S) := ⟨empty⟩

def node? (g : StateGraph S) (n : NodeId) : Option (GraphNode S) := (g.nodes[n]?).join

def node (g : StateGraph S) (n : NodeId) : Except Violation (GraphNode S) :=
  match g.node? n with
  | some v => .ok v
  | none => .error (.unknownNode n)

def contains (g : StateGraph S) (n : NodeId) : Bool := (g.node? n).isSome

/-- Changes an existing node. -/
def update (g : StateGraph S) (n : NodeId) (f : GraphNode S → GraphNode S) : StateGraph S :=
  { g with nodes := g.nodes.modify n (·.map f) }

/-- The number that the next node gets. -/
def nextId (g : StateGraph S) : NodeId := g.nodes.size

/-- The existing nodes, oldest first. -/
def ids (g : StateGraph S) : List NodeId := (List.range g.nodes.size).filter g.contains

/-- Adds a node without links. -/
def allocate (g : StateGraph S) (state : S) : NodeId × StateGraph S :=
  (g.nextId, { g with nodes := g.nodes.push (some ⟨state, ∅, ∅, none, false⟩), live := g.live + 1 })

def addRoot (g : StateGraph S) (state : S) : Except Violation (NodeId × StateGraph S) :=
  match g.root with
  | some _ => .error .secondRoot
  | none =>
    let (n, g) := g.allocate state
    .ok (n, { g with root := some n })

/-- Links a node below another one. A link that exists is left as it is. -/
def link (g : StateGraph S) (child parent : NodeId) (label : Option EdgeId) :
    Except Violation (StateGraph S) := do
  if child = parent then throw (.ownParent child)
  let c ← g.node child
  let p ← g.node parent
  let linked := c.parents.contains parent
  if linked != p.children.contains child then throw (.asymmetricLink parent child)
  if linked then return g
  let g := g.update child fun v => { v with parents := v.parents.insert parent }
  return g.update parent fun v => { v with children := v.children.insert child label }

/-- Adds a node below `parent`. -/
def addChild (g : StateGraph S) (parent : NodeId) (state : S) (label : Option EdgeId) :
    Except Violation (NodeId × StateGraph S) := do
  let (n, g) := g.allocate state
  let g ← g.link n parent label
  return (n, g)

/-- The root, or a node with a parent. -/
def isAttached (g : StateGraph S) (n : NodeId) : Except Violation Bool :=
  if g.root = some n then .ok true
  else do
    let v ← g.node n
    return !v.parents.isEmpty

def state (g : StateGraph S) (n : NodeId) : Except Violation S := return (← g.node n).state

def parents (g : StateGraph S) (n : NodeId) : Except Violation IdSet := return (← g.node n).parents

def children (g : StateGraph S) (n : NodeId) : Except Violation IdSet := return (← g.node n).children.keys

/-- The oldest parent. -/
def firstParent (g : StateGraph S) (n : NodeId) : Except Violation (Option NodeId) :=
  return (← g.node n).parents.toList.head?

/-- The label of a link, if there is such a link and it has one. -/
def edgeLabel (g : StateGraph S) (parent child : NodeId) : Option EdgeId :=
  (g.node? parent).bind fun p => (p.children.get? child).join

def isBottom (g : StateGraph S) (n : NodeId) : Except Violation Bool := return (← g.node n).bottom

/-- Marks a node as having no continuation. -/
def setBottom (g : StateGraph S) (n : NodeId) : Except Violation (StateGraph S) := do
  let _ ← g.node n
  return g.update n fun v => { v with bottom := true }

def coveredBy (g : StateGraph S) (n : NodeId) : Except Violation (Option NodeId) :=
  return (← g.node n).coveredBy

def isCovered (g : StateGraph S) (n : NodeId) : Bool := (g.node? n).any (·.coveredBy.isSome)

def cover (g : StateGraph S) (n cover : NodeId) : Except Violation (StateGraph S) := do
  if n = cover then throw (.ownCover n)
  if !g.contains cover then throw (.unknownCover cover)
  let _ ← g.node n
  let g := g.update n fun v => { v with coveredBy := some cover }
  return { g with covered := g.covered.insert n }

def uncover (g : StateGraph S) (n : NodeId) : Except Violation (StateGraph S) := do
  let _ ← g.node n
  let g := g.update n fun v => { v with coveredBy := none }
  return { g with covered := g.covered.erase n }

def childList (g : StateGraph S) (n : NodeId) : List NodeId :=
  match g.node? n with
  | some v => v.children.keys.toList
  | none => []

/-- The nodes below `n`, itself included. -/
def subtree (g : StateGraph S) (n : NodeId) : Except Violation (Std.TreeSet NodeId) := do
  let _ ← g.node n
  return Closure.reach g.childList g.nodes.size [n]

/-- The step from a node to its oldest parent, put in front of a route that starts at the node. -/
def stepBack (g : StateGraph S) (parent : NodeId) (route : Route) : Route :=
  let label := match route.nodes with
    | [] => none
    | child :: _ => g.edgeLabel parent child
  ⟨parent :: route.nodes, label.toList ++ route.edges⟩

/-- Extends a route to the front, along oldest parents, by as many steps as are left. -/
def walkBack (g : StateGraph S) (target : NodeId) : Nat → NodeId → Route → Except Violation Route
  | 0, current, route => do
    match ← g.firstParent current with
    | none => return route
    | some _ => throw (.cyclicParents target)
  | left + 1, current, route => do
    match ← g.firstParent current with
    | none => return route
    | some parent => g.walkBack target left parent (g.stepBack parent route)

/--
The route to a node along oldest parents, from a node without parents. A route that revisits no node
has fewer steps than there are nodes, so a longer one shows a cycle.
-/
def routeTo (g : StateGraph S) (target : NodeId) : Except Violation Route :=
  g.walkBack target g.live target ⟨[target], []⟩

/-- Checks that every link is known at both of its ends. -/
def checkLinks (g : StateGraph S) : Except Violation Unit :=
  g.ids.forM fun n => do
    let v ← g.node n
    v.parents.toList.forM fun p => do
      if !(← g.node p).children.contains n then throw (.asymmetricParent n p)
    v.children.keys.toList.forM fun c => do
      if !(← g.node c).parents.contains n then throw (.asymmetricChild n c)

end StateGraph

end GoalCoverage
