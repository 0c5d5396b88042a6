import GoalCoverage.Analysis

/-!
The explorer: the product of a program with observers, explored breadth-first.

A state is a location with a set of automaton states for each observer and, when configurations are
tracked, the region for which the state is reached. A plain observer yields one successor for each of its
moves, a powerset observer one for all of them. An edge is taken only where its region meets that of the
state. Guards on regions narrow the successor of a plain observer; assumptions on values are taken to hold.
-/

namespace GoalCoverage

namespace Explorer

structure State where
  location : Location
  observers : List IdSet
  presence : Option Region
  accepted : IdSet
  deriving DecidableEq

instance : AbstractState State where
  location := State.location
  presence := State.presence
  accepted := State.accepted

/-- Equal but for the region. -/
def State.samePosition (s t : State) : Bool :=
  s.location == t.location && s.observers == t.observers && s.accepted == t.accepted

/-- What is known of the successors of all observers up to some place. -/
abbrev Partial := List IdSet × Option Region

end Explorer

structure Explorer where
  program : Program
  /-- Are configurations tracked? -/
  tracks : Bool
  observers : List Observer
  /-- Locations at which states may be covered. -/
  covering : IdSet
  constraint : Option Region
  /-- The regions for which goals are open; goals without one are open everywhere. -/
  opened : IdMap Region
  /-- A run gives up when there are so many nodes. -/
  maxNodes : Option Nat
  explains : Bool
  counterexamples : IdMap Counterexample

/-- The locations where control flow merges. -/
def Program.joins (p : Program) : IdSet := .ofList (p.locationIds.filter p.isJoin)

namespace Explorer

/-- Narrows a region, if configurations are tracked. -/
def conjoin (x : Explorer) (presence : Option Region) (r : Region) : StateM Diagram (Option Region) :=
  match x.tracks, presence with
  | true, some pc => return some (← Diagram.meet pc r)
  | _, _ => return presence

/-- Narrows a region by guards; `none` if they cannot hold. -/
def discharge (x : Explorer) (presence : Option Region) :
    List Guard → StateM Diagram (Option (Option Region))
  | [] => return some presence
  | .predicate _ :: rest => x.discharge presence rest
  | .presence r :: rest => do
    let narrowed ← x.conjoin presence r
    if narrowed.any (·.isEmpty) then return none
    else x.discharge narrowed rest

/-- Is a goal open for some configuration of a region? -/
def isOpen (x : Explorer) (presence : Region) (goal : Nat) : StateM Diagram Bool :=
  match x.opened.get? goal with
  | none => return true
  | some r => return !(← Diagram.disjoint presence r)

/-- The goals accepted by the observers in these states, but for disabled goals and those not open. -/
def accepted (x : Explorer) (states : List IdSet) (presence : Option Region) (disabled : IdSet) :
    StateM Diagram IdSet := do
  let observed := (x.observers.zip states).flatMap fun (o, qs) =>
    qs.toList.flatMap fun q => (o.acceptedAt q).toList
  let enabled := (IdSet.ofList observed).diff disabled
  match x.tracks, presence with
  | true, some pc =>
    return .ofList (← enabled.toList.filterMapM fun g => return if ← x.isOpen pc g then some g else none)
  | _, _ => return enabled

/-- Extends what is known by the moves of one more observer. -/
def advance (x : Explorer) (o : Observer) (states : IdSet) (e : EdgeId) (partials : List Partial) :
    StateM Diagram (List Partial) :=
  let moves := states.toList.flatMap (o.moves · e)
  partials.flatMapM fun (sets, presence) => do
    if o.isPowerset then
      let targets ← moves.filterMapM fun (q, guards) =>
        return (← x.discharge presence guards).map fun _ => q
      return if targets.isEmpty then [] else [(sets ++ [IdSet.ofList targets], presence)]
    else
      moves.filterMapM fun (q, guards) =>
        return (← x.discharge presence guards).map fun narrowed => (sets ++ [IdSet.singleton q], narrowed)

/-- The region that is left of a state on an edge. -/
def crossing (x : Explorer) (s : State) (edge : Edge) : StateM Diagram (Option Region) := do
  let presence ← match edge.presence with
    | some r => x.conjoin s.presence r
    | none => pure s.presence
  match x.constraint with
  | some r => x.conjoin presence r
  | none => return presence

/-- The successors of a state on an edge, each of them once. -/
def successors (x : Explorer) (s : State) (e : EdgeId) (edge : Edge) (disabled : IdSet) :
    StateM Diagram (List State) := do
  let presence ← x.crossing s edge
  if presence.any (·.isEmpty) then return []
  let partials ← (x.observers.zip s.observers).foldlM
    (fun partials (o, states) => x.advance o states e partials) [([], presence)]
  let found ← partials.mapM fun (observers, presence) => do
    let accepted ← x.accepted observers presence disabled
    return { location := edge.target, observers, presence, accepted : State }
  return Distinct.ofList found

/-- Does the first region contain the second? -/
def subsumes (x : Explorer) (a b : Option Region) : StateM Diagram Bool :=
  match x.tracks, a, b with
  | true, some a, some b => Diagram.implies b a
  | _, _, _ => return decide (a = b)

/-- Is there already a child for this edge of which the successor is a part? -/
def isDuplicate (x : Explorer) (g : StateGraph State) (n : NodeId) (e : EdgeId) (s : State) :
    StateM Diagram Bool :=
  (g.childList n).anyM fun c =>
    match g.node? c with
    | some v =>
      if v.state.samePosition s && g.edgeLabel n c == some e then
        x.subsumes v.state.presence s.presence
      else return false
    | none => return false

/-- May this node cover others? -/
def canCover (g : StateGraph State) (n : NodeId) : Bool :=
  (g.root = some n || (g.node? n).any fun v => !v.parents.isEmpty) && !g.isCovered n

/-- The oldest node that may cover the state. -/
def findCover (x : Explorer) (g : StateGraph State) (s : State) : StateM Diagram (Option NodeId) :=
  g.ids.findM? fun n =>
    match g.node? n with
    | some v =>
      if v.state.samePosition s && canCover g n then x.subsumes v.state.presence s.presence
      else return false
    | none => return false

/-- Adds the values of the inputs that are read along edges. -/
def valuesAlong (p : Program) : (seq : Nat) → Model → List EdgeId → Except Violation Model
  | _, m, [] => return m
  | seq, m, e :: rest => do
    let edge ← p.edge e
    match edge.kind with
    | .input value =>
      let m := m.insert (Model.inputName seq) value
      let m := match Text.splitAt? " = ".toList edge.label.toList with
        | some (variableName, _) => m.insert (String.ofList variableName ++ "@" ++ toString seq) value
        | none => m
      valuesAlong p (seq + 1) m rest
    | _ => valuesAlong p seq m rest

/-- The execution along the route to a target. -/
def explain (x : Explorer) (g : StateGraph State) (target : NodeId) : Except Violation Counterexample := do
  let route ← g.routeTo target
  let model ← valuesAlong x.program 0 .empty route.edges
  return { target, route, model, spurious := false }

/-- The program entry, with every observer in its initial state. -/
def initialState (x : Explorer) : Procedure Diagram State := fun d =>
  let observers := x.observers.map fun o => IdSet.singleton o.automaton.initial
  let presence := if x.tracks then some (x.constraint.getD .all) else none
  let (accepted, d) := x.accepted observers presence ∅ d
  match x.program.entry with
  | .ok location => .ok { location, observers, presence, accepted } d
  | .error v => .error (.violated v) d

end Explorer

end GoalCoverage
