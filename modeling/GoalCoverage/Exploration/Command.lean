import GoalCoverage.Drawing
import GoalCoverage.Exploration

/-!
Operations on explorations as data.

A sequence of commands is a history of an exploration; each command has an answer. `perform` changes the
exploration only when it succeeds. What a failing command leaves behind all the same is its `residue`.
-/

namespace GoalCoverage

inductive GraphCommand (S : Type) where
  | addRoot (state : S)
  | addChild (parent : NodeId) (state : S) (label : Option EdgeId)
  | link (child parent : NodeId) (label : Option EdgeId)
  | root
  | contains (node : NodeId)
  | size
  | ids
  | isAttached (node : NodeId)
  | state (node : NodeId)
  | parents (node : NodeId)
  | children (node : NodeId)
  | firstParent (node : NodeId)
  | edgeLabel (parent child : NodeId)
  | setBottom (node : NodeId)
  | isBottom (node : NodeId)
  | cover (node cover : NodeId)
  | uncover (node : NodeId)
  | coveredBy (node : NodeId)
  | covered
  | isCovered (node : NodeId)
  | subtree (node : NodeId)
  | detach (node : NodeId)
  | sweep
  | route (node : NodeId)
  | check
  | node (node : NodeId)
  | graph
  | draw (style : DrawingStyle)

inductive Answer (S : Type) where
  | nothing
  | consistent
  | flag (value : Bool)
  | created (node : NodeId)
  | optional (node : Option Nat)
  | listing (nodes : List Nat)
  | state (state : S)
  | size (live : Nat) (next : NodeId)
  | coverings (nodes : List NodeId)
  | swept (removed : Nat) (uncovered : List NodeId)
  | route (route : Route)
  | node (graph : StateGraph S) (node : NodeId)
  | graph (graph : StateGraph S)
  | drawing (text : String)
  | frontierSize (live waiting : Nat)
  | targets (nodes : List NodeId)
  | region (region : Option Region)
  | pruned (waiting : List NodeId) (last : Option NodeId) (covered : List NodeId)
  | reclaimed (removed : Nat) (waiting : List NodeId) (last : Option NodeId)
  | popped (count : Nat)

namespace GraphCommand

variable {S : Type} [AbstractState S]

def perform (p : Program) (g : StateGraph S) :
    GraphCommand S → Except Violation (Answer S × StateGraph S)
  | addRoot s => do
    let (n, g) ← g.addRoot s
    return (.created n, g)
  | addChild parent s label => do
    let (n, g) ← g.addChild parent s label
    return (.created n, g)
  | link child parent label => return (.nothing, ← g.link child parent label)
  | root => return (.optional g.root, g)
  | contains n => return (.flag (g.contains n), g)
  | size => return (.size g.live g.nextId, g)
  | ids => return (.listing g.ids, g)
  | isAttached n => return (.flag (← g.isAttached n), g)
  | state n => return (.state (← g.state n), g)
  | parents n => return (.listing (← g.parents n).toList, g)
  | children n => return (.listing (← g.children n).toList, g)
  | firstParent n => return (.optional (← g.firstParent n), g)
  | edgeLabel parent child => return (.optional (g.edgeLabel parent child), g)
  | setBottom n => return (.nothing, ← g.setBottom n)
  | isBottom n => return (.flag (← g.isBottom n), g)
  | cover n c => do
    let g ← g.cover n c
    return (.listing g.covered.toList, g)
  | uncover n => do
    let g ← g.uncover n
    return (.listing g.covered.toList, g)
  | coveredBy n => return (.optional (← g.coveredBy n), g)
  | covered => return (.coverings g.covered.toList, g)
  | isCovered n => return (.flag (g.isCovered n), g)
  | subtree n => return (.listing (← g.subtree n).toList, g)
  | detach n => do
    let (released, g) ← g.detach n
    return (.listing released, g)
  | sweep =>
    let (swept, g) := g.sweep
    return (.swept swept.removed swept.uncovered, g)
  | route n => return (.route (← g.routeTo n), g)
  | check => do
    g.checkLinks
    return (.consistent, g)
  | node n => do
    let _ ← g.node n
    return (.node g n, g)
  | graph => return (.graph g, g)
  | draw style => return (.drawing (← Drawing.graph style p g), g)

end GraphCommand

inductive Command (S : Type) where
  | graph (command : GraphCommand S)
  | add (parent : NodeId) (state : S) (label : Option EdgeId)
  | size
  | last
  | waiting
  | pop
  | push (node : NodeId)
  | pushFront (node : NodeId)
  | removeWaiting (node : NodeId)
  | retainAt (locations : List Location)
  | targets
  | disable (goals : List Nat)
  | isDisabled (goal : Nat)
  | constraint
  | setConstraint (constraint : Region)
  | prune (node : NodeId)
  | sweep

namespace Command

variable {S : Type} [AbstractState S]

def perform (p : Program) (x : Exploration S) : Command S → Except Violation (Answer S × Exploration S)
  | graph c => do
    let (answer, g) ← c.perform p x.graph
    return (answer, { x with graph := g })
  | add parent s label => do
    let (n, x) ← x.add parent s label
    return (.created n, x)
  | size => return (.frontierSize x.graph.live x.waiting.length, x)
  | last => return (.optional x.last, x)
  | waiting => return (.listing x.waiting, x)
  | pop =>
    match x.pop with
    | some (n, x) => return (.optional (some n), x)
    | none => return (.optional none, x)
  | push n => return (.listing (x.push n).waiting, x.push n)
  | pushFront n => return (.listing (x.pushFront n).waiting, x.pushFront n)
  | removeWaiting n => return (.listing (x.removeWaiting n).waiting, x.removeWaiting n)
  | retainAt locations => do
    let x ← x.retainWaiting fun s => locations.contains (AbstractState.location s)
    return (.listing x.waiting, x)
  | targets => return (.targets x.targets, x)
  | disable goals => return (.listing (x.disable goals).disabled.toList, x.disable goals)
  | isDisabled goal => return (.flag (x.disabled.contains goal), x)
  | constraint => return (.region x.constraint, x)
  | setConstraint r => return (.region (some r), x.setConstraint r)
  | prune n => do
    let x ← x.prune n
    return (.pruned x.waiting x.last x.graph.covered.toList, x)
  | sweep =>
    let (removed, x) := x.sweep
    return (.reclaimed removed x.waiting x.last, x)

/--
The queue after a filtering that met a missing node: every entry kept so far has changed places with the
first one dropped before it, and the rest is untouched.
-/
def halfRetained (x : Exploration S) (keep : S → Bool) :
    (next kept : Nat) → List NodeId → Array NodeId → Array NodeId
  | _, _, [], queue => queue
  | next, kept, n :: rest, queue =>
    match x.graph.node? n with
    | none => queue
    | some v =>
      if keep v.state then halfRetained x keep (next + 1) (kept + 1) rest (queue.swapIfInBounds kept next)
      else halfRetained x keep (next + 1) kept rest queue

/-- What a failing command leaves behind: a node that could not be linked, a queue filtered by half. -/
def residue (x : Exploration S) : Command S → Exploration S
  | add _ s _ => { x with graph := (x.graph.allocate s).2 }
  | graph (.addChild _ s _) => { x with graph := (x.graph.allocate s).2 }
  | retainAt locations =>
    let keep := fun s => locations.contains (AbstractState.location s)
    { x with waiting := (halfRetained x keep 0 0 x.waiting x.waiting.toArray).toList }
  | _ => x

end Command

end GoalCoverage
