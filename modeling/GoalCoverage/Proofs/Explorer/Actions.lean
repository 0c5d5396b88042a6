import GoalCoverage.Proofs.Explorer.Barren
import GoalCoverage.Proofs.Explorer.History

/-!
Explorations under all that may be done with them: runs that are complete, cancelled or stopped, prunings of
live targets, sweeps, disablings, and restrictions to any regions. Every action keeps the order (`Action.spec`),
so the graph is regular after any number of them, and the next one succeeds (`regular_of_history`).
-/

namespace GoalCoverage.Explorer

open Diagram StateGraph Procedure

variable {x : Explorer} {d d' : Diagram} {b b' : Desk} {s : State} {root : NodeId} {factory : ExplorerFactory}
  {observers : List Observer} {constraint : Option Region} {covering : Option IdSet}

/-- What may be done with an exploration; regions need not shrink. -/
inductive Action : Desk → Desk → Prop
  | run {b b' : Desk} {fuel : Nat} {token : Token} {ending : RunEnd} : run fuel token b = .ok ending b' → Action b b'
  | prune {b : Desk} {n : NodeId} {y : Exploration State} : n ∈ b.reached.targets → b.reached.prune n = .ok y →
    Action b { b with reached := y }
  | sweep {b : Desk} : Action b { b with reached := b.reached.sweep.2 }
  | disable {b : Desk} (goals : List Nat) : Action b { b with reached := b.reached.disable goals }
  | restrict {b b' : Desk} {constraint : Region} {opened : IdMap Region} :
    b.engine.Known b.diagram constraint opened → restrict constraint opened b = .ok () b' → Action b b'
  | call {b : Desk} {d : Diagram} : b.engine.tracks = true → b.diagram.Call d → Action b { b with diagram := d }

/-- A target whose goals are not explored any more. -/
theorem settled {n : NodeId} {y : Exploration State} (live : n ∈ b.reached.targets) (pruned : b.reached.prune n = .ok y)
    (goals : List Nat) : Relation.ReflTransGen Action b { b with reached := y.sweep.2.disable goals } :=
  .head (.prune live pruned) <| .head .sweep <| .single (.disable goals)

/-- The order of an exploration that started from a state. -/
def InOrder (s : State) (b : Desk) : Prop := Ordered s 0 b ∨ Barren s b

theorem Worked.sameTask (worked : Worked s root b b') : SameTask b.engine b'.engine := by
  rw [worked.engine]
  exact ⟨rfl, rfl, rfl, rfl, rfl⟩

theorem InOrder.fit (order : InOrder s b) : b.engine.Fit b.diagram := by
  obtain ordered | barren := order
  · exact ordered.graph.sound.fit
  · exact barren.fit

/-- The regions of all states belong to the diagram. -/
theorem InOrder.knows {n : NodeId} {v : GraphNode State} (order : InOrder s b) (here : b.reached.graph.node? n = some v) :
    b.diagram.Knows v.state.presence := by
  obtain ordered | barren := order
  · exact (ordered.graph.sound.proper n v here).presence.knows
  · rw [(barren.bare.only n v here).2]
    exact barren.tracked.knows

/-- What else explorers have in common does not matter. -/
theorem InOrder.extends {surroundings : ExplorerFactory} (order : InOrder s b) (ext : b.diagram.Extends d')
    (ready : d'.Ready b.engine.tracks) : InOrder s { b with diagram := d', surroundings } := by
  obtain ordered | barren := order
  · have ordered' := ordered.extends ext ready
    exact .inl ⟨ordered'.graph, ordered'.queue⟩
  · exact .inr ⟨barren.bare, barren.fit.extends ext ready, barren.tracked.extends ext⟩

theorem InOrder.disabled (order : InOrder s b) (goals : List Nat) : InOrder s { b with reached := b.reached.disable goals } :=
  order.imp (·.disable goals) fun barren => ⟨barren.bare, barren.fit, barren.tracked⟩

theorem InOrder.ran (order : InOrder s b) (fuel : Nat) (token : Token) : Ensures (· = .exhausted) (run fuel token) b fun _ b' =>
    InOrder s b' ∧ SameTask b.engine b'.engine ∧ b.diagram.Extends b'.diagram := by
  obtain ordered | barren := order
  · apply (run_orders (T := (· = .exhausted)) rfl ordered fuel token).mono
    intro _ b' worked
    exact ⟨.inl worked.ordered, worked.sameTask, worked.diagram⟩
  · apply (Barren.run (T := (· = .exhausted)) rfl barren fuel token).mono
    intro _ b' spec
    obtain ⟨barren', engine, diagram⟩ := spec
    refine ⟨.inr barren', ?_, diagram ▸ .refl _⟩
    rw [engine]
    exact ⟨rfl, rfl, rfl, rfl, rfl⟩

theorem InOrder.pruned {n : NodeId} (order : InOrder s b) (live : n ∈ b.reached.targets) :
    ∃ y, b.reached.prune n = .ok y ∧ InOrder s { b with reached := y } := by
  obtain ordered | barren := order
  · obtain ⟨y, ok, ordered', _⟩ := ordered.prune live
    exact ⟨y, ok, .inl ordered'⟩
  · obtain ⟨y, ok, barren', _⟩ := barren.prune live
    exact ⟨y, ok, .inr barren'⟩

theorem InOrder.consumed (order : InOrder s b) :
    ∃ z, b.reached.consume b.reached.targets = .ok z ∧ InOrder s { b with reached := z } := by
  obtain ordered | barren := order
  · obtain ⟨z, ok, ordered'⟩ := ordered.consume
    exact ⟨z, ok, .inl ordered'⟩
  · obtain ⟨z, ok, barren'⟩ := barren.consume
    exact ⟨z, ok, .inr barren'⟩

theorem InOrder.restricted {constraint : Region} {opened : IdMap Region} (order : InOrder s b)
    (known : b.engine.Known b.diagram constraint opened) : Ensures (fun _ => False) (restrict constraint opened) b fun _ b' =>
      InOrder s b' ∧ b'.engine = { b.engine with constraint := some constraint, opened } ∧ b.diagram.Extends b'.diagram := by
  obtain ordered | barren := order
  · apply (restrict_orders ordered known).mono
    intro _ b' spec
    obtain ⟨ordered', engine, _, ext, _⟩ := spec
    exact ⟨.inl ordered', engine, ext⟩
  · exact (barren.restrict known).mono fun _ b' spec => ⟨.inr spec.1, spec.2⟩

theorem Action.spec (action : Action b b') (order : InOrder s b) : InOrder s b' ∧ SameTask b.engine b'.engine := by
  cases action with
  | @run _ fuel token ending ok =>
    obtain ⟨order', same, _⟩ := (order.ran fuel token).of_eq_ok ok
    exact ⟨order', same⟩
  | prune live ok =>
    obtain ⟨y, ok', order'⟩ := order.pruned live
    cases ok.symm.trans ok'
    exact ⟨order', .refl _⟩
  | sweep => exact ⟨order.imp Ordered.sweep Barren.sweep, .refl _⟩
  | disable goals => exact ⟨order.disabled goals, .refl _⟩
  | @restrict _ constraint opened known ok =>
    obtain ⟨order', engine, _⟩ := (order.restricted known).of_eq_ok ok
    refine ⟨order', ?_⟩
    rw [engine]
    exact ⟨rfl, rfl, rfl, rfl, rfl⟩
  | call tracks call =>
    obtain ⟨wf, ext⟩ := call.spec (order.fit.ready tracks)
    exact ⟨order.extends ext fun _ => wf, .refl _⟩

theorem inOrder_of_history (history : Relation.ReflTransGen Action b b') (order : InOrder s b) :
    InOrder s b' ∧ SameTask b.engine b'.engine := by
  induction history with
  | refl => exact ⟨order, .refl _⟩
  | tail _ action ih =>
    obtain ⟨order', same⟩ := ih
    obtain ⟨order'', same'⟩ := action.spec order'
    exact ⟨order'', same.trans same'⟩

/-- All regions that an engine is composed of were made in one diagram. -/
structure Managed (factory : ExplorerFactory) (observers : List Observer) (constraint : Option Region) (d : Diagram) :
    Prop where
  built : d.Built
  program : factory.program.Over d
  constraint : d.Knows constraint
  observers : ∀ o ∈ observers, o.Over d

/-- What an exploration starts from is in order. -/
theorem inOrder_of_fresh (fit : x.Fit d) (known : x.tracks = true → ∀ o ∈ x.observers, o.Over d)
    (started : x.initialState d = .ok s d') : x.Initial d' s ∧ d.Extends d' ∧ d'.Ready x.tracks ∧
      InOrder s { diagram := d', surroundings := factory, engine := x, reached := .start s } := by
  obtain ⟨ext, ready, initial⟩ := initial_of_eq_ok fit started
  refine ⟨initial, ext, ready, ?_⟩
  let b : Desk := { diagram := d', surroundings := factory, engine := x, reached := .start s }
  cases target : AbstractState.isTarget s with
  | true => exact .inr (Barren.fresh (b := b) (fit.extends ext ready) initial.proper.presence target)
  | false =>
    exact .inl (Ordered.fresh (b := b) (fun tracks o mem => (known tracks o mem).extends ext) (fit.extends ext ready)
      initial target)

theorem inOrder_of_start (managed : factory.tracks = true → Managed factory observers constraint d)
    (composed : compose factory observers constraint covering = .ok x) (started : x.initialState d = .ok s d') :
    x.Initial d' s ∧ d.Extends d' ∧
      InOrder s { diagram := d', surroundings := factory, engine := x, reached := .start s } := by
  have shape := compose_eq_ok composed
  have fit : x.Fit d := by
    rw [shape]
    exact ⟨fun tracks => (managed tracks).built.wellFormed, fun tracks => (managed tracks).program,
      fun tracks => (managed tracks).constraint, fun _ g => by simp⟩
  have known : x.tracks = true → ∀ o ∈ x.observers, o.Over d := by
    rw [shape]
    exact fun tracks => (managed tracks).observers
  obtain ⟨initial, ext, _, order⟩ := inOrder_of_fresh fit known started
  exact ⟨initial, ext, order⟩

theorem presence_initialState (started : x.initialState d = .ok s d') :
    s.presence = if x.tracks then some (x.constraint.getD .all) else none := by
  rw [initialState] at started
  cases entry : x.program.entry with
  | error v =>
    simp only [entry] at started
    cases started
  | ok location =>
    simp only [entry] at started
    cases started
    rfl

/-- What holds of the graph and the frontier of an exploration. -/
structure Regular (b : Desk) : Prop where
  /-- An attached node but the root has one parent, and its link the edge from there. -/
  linked : ∀ n v, b.reached.graph.node? n = some v → b.reached.graph.Attached n → b.reached.graph.root ≠ some n →
    ∃ p w e edge, v.parents = .singleton p ∧ b.reached.graph.node? p = some w ∧
      b.reached.graph.edgeLabel p n = some e ∧ b.engine.program.edges[e]? = some edge ∧
      edge.source = w.state.location ∧ edge.target = v.state.location
  /-- A covered node is no target, has no children and does not wait. -/
  covered : ∀ n v m, b.reached.graph.node? n = some v → v.coveredBy = some m →
    AbstractState.isTarget v.state = false ∧ v.children = ∅ ∧ n ∉ b.reached.waiting
  /-- Its cover is in use and has all of it. -/
  cover : ∀ n v m, b.reached.graph.node? n = some v → v.coveredBy = some m →
    ∃ w, b.reached.graph.node? m = some w ∧ b.reached.graph.Attached m ∧ w.coveredBy = none ∧
      w.state.location = v.state.location ∧ w.state.observers = v.state.observers ∧
      ∀ c, b.diagram.Within v.state.presence c → b.diagram.Within w.state.presence c
  queue : Queue b.reached.graph b.reached.waiting
  possible : ∀ n v r, b.reached.graph.node? n = some v → v.state.presence = some r → ∃ c, b.diagram.holds r c = true

/-- Whatever is done next succeeds, but for runs that take longer than they may. -/
structure Unbroken (b : Desk) : Prop where
  run : ∀ fuel token, Ensures (· = .exhausted) (run fuel token) b fun _ _ => True
  prune : ∀ n ∈ b.reached.targets, ∃ y, b.reached.prune n = .ok y
  restrict : ∀ constraint opened, b.engine.Known b.diagram constraint opened →
    Ensures (fun _ => False) (restrict constraint opened) b fun _ _ => True

theorem InOrder.unbroken (order : InOrder s b) : Unbroken b where
  run fuel token := (order.ran fuel token).mono fun _ _ _ => trivial
  prune n live := by
    obtain ⟨y, ok, _⟩ := order.pruned live
    exact ⟨y, ok⟩
  restrict constraint opened known := (order.restricted known).mono fun _ _ _ => trivial

theorem Tracked.exists_configuration {presence : Option Region} {r : Region} (tracked : x.Tracked d presence)
    (ready : d.Ready x.tracks) (possible : presence.any (·.isEmpty) = false) (known : presence = some r) :
    ∃ c, d.holds r c = true := by
  obtain ⟨tracks, p, rfl, has⟩ | ⟨_, rfl⟩ := tracked.cases
  · cases known
    exact ((ready tracks).isEmpty_eq_false_iff has).1 possible
  · cases known

theorem Ordered.regular (ordered : Ordered s root b) (possible : s.presence.any (·.isEmpty) = false) :
    Regular b where
  linked n v here attached inner := by
    have sound := ordered.graph.sound
    rw [sound.tree.root_eq] at inner
    obtain ⟨p, mem⟩ := ((sound.tree.attached_iff here).1 attached).resolve_left fun same => inner (congrArg some same.symm)
    obtain ⟨single, _, w, e, there, link⟩ := sound.tree.parent n v p here mem
    obtain ⟨edge, known, source, target⟩ := (sound.follows p w n e v there link here).edge
    refine ⟨p, w, e, edge, single, there, ?_, known, source, target⟩
    rw [edgeLabel, there]
    simp [link]
  covered n v m here by_m := by
    have tree := ordered.graph.sound.tree
    refine ⟨?_, (tree.cover n v m here by_m).1, fun mem => ?_⟩
    · rw [← Bool.not_eq_true]
      intro target
      rw [(tree.target n v here target).2] at by_m
      cases by_m
    · obtain ⟨u, known, _, uncovered⟩ := ordered.queue.waits n mem
      rw [here] at known
      cases known
      rw [uncovered] at by_m
      cases by_m
  cover n v m here by_m := by
    have tree := ordered.graph.sound.tree
    obtain ⟨_, _, w, there, place, uncovered, _⟩ := tree.cover n v m here by_m
    have subsumes := ordered.graph.cover n v m w here by_m there
    exact ⟨w, there, (tree.attached_iff there).2 place, uncovered, subsumes.location, subsumes.observers,
      subsumes.presence⟩
  queue := ordered.queue
  possible n v r here known := by
    have sound := ordered.graph.sound
    apply (sound.proper n v here).presence.exists_configuration sound.fit.ready _ known
    exact (ordered.graph.possible n v here).elim (· ▸ possible) id

theorem Barren.regular (barren : Barren s b) (possible : s.presence.any (·.isEmpty) = false) : Regular b where
  linked n v here attached inner := by
    obtain ⟨u, known, place⟩ := attached
    obtain ⟨rfl, rfl⟩ := barren.bare.only n u known
    exact (place.resolve_left inner).elim fun p mem => absurd mem (IdSet.not_mem_empty p)
  covered n v m here by_m := by
    rw [(barren.bare.only n v here).2] at by_m
    cases by_m
  cover n v m here by_m := by
    rw [(barren.bare.only n v here).2] at by_m
    cases by_m
  queue := by
    obtain ⟨_, idle⟩ | ⟨root, ⟨v, here⟩, sub⟩ := barren.bare.place
    · rw [idle]
      exact ⟨List.nodup_nil, fun n mem => nomatch mem⟩
    · refine ⟨(List.nodup_singleton 0).sublist sub, fun n mem => ?_⟩
      obtain ⟨rfl, _, here⟩ := barren.bare.node mem
      exact ⟨_, here, ⟨_, here, .inl root⟩, rfl⟩
  possible n v r here known := by
    rw [(barren.bare.only n v here).2] at known
    exact barren.tracked.exists_configuration barren.fit.ready possible known

/-- After anything that may be done, the exploration is regular and can go on. -/
theorem regular_of_history (managed : factory.tracks = true → Managed factory observers constraint d)
    (satisfiable : factory.tracks = true → ∀ r, constraint = some r → ∃ c, d.holds r c = true)
    (composed : compose factory observers constraint covering = .ok x) (started : x.initialState d = .ok s d')
    (history : Relation.ReflTransGen Action
      { diagram := d', surroundings := factory, engine := x, reached := .start s } b) : Regular b ∧ Unbroken b := by
  obtain ⟨_, _, start⟩ := inOrder_of_start managed composed started
  obtain ⟨order, _⟩ := inOrder_of_history history start
  have possible : s.presence.any (·.isEmpty) = false := by
    rw [presence_initialState started, compose_eq_ok composed]
    cases tracks : factory.tracks with
    | false => rfl
    | true =>
      cases is : constraint with
      | none => rfl
      | some r =>
        obtain ⟨c, holds⟩ := satisfiable tracks r is
        simp only [if_true, Option.getD_some, Option.any_some]
        rw [← Bool.not_eq_true, Region.isEmpty_iff]
        intro empty
        rw [empty, holds_empty] at holds
        cases holds
  exact ⟨order.elim (·.regular possible) (·.regular possible), order.unbroken⟩

section Gate

/-- A diagram with one feature. -/
def gateDiagram : Diagram := (declare "A" .fresh).2

/-- Two ways to the second location, one of them only with the feature, and an edge from there. -/
def gate : Program := ((Program.ofArrows 2 [(0, 1), (0, 1), (1, 2)]).restrict 0 ⟨2⟩).toOption.getD .empty

def gateFactory : ExplorerFactory := { program := gate, tracks := true, maxNodes := none, explains := true }

/-- The transitions of an automaton that waits for an edge, and moves on it only with the feature. -/
def gatedTransitions (edge : EdgeId) : List Transition :=
  [⟨0, 0, .any⟩, ⟨0, 1, ⟨.only (.singleton edge), [.presence ⟨2⟩]⟩⟩]

theorem gatedTransitions_lt {edge : EdgeId} : ∀ t ∈ gatedTransitions edge, t.source < 2 ∧ t.target < 2 := by
  simp [gatedTransitions]

def gated (name : String) (edge : EdgeId) : Automaton :=
  { Automaton.reaching name edge with
    transitions := gatedTransitions edge
    transitions_lt := gatedTransitions_lt }

/-- An explorer of the program for some observers. -/
def gateExplorer (observers : List Observer) : Explorer :=
  { program := gate, tracks := true, observers, covering := gate.joins, constraint := none, opened := ∅
    maxNodes := none, explains := true, counterexamples := ∅ }

def gateDesk (observers : List Observer) : Desk :=
  { diagram := gateDiagram
    surroundings := gateFactory
    engine := gateExplorer observers
    reached := .start ⟨0, Observer.starts observers, some .all, ∅⟩ }

theorem has_gateDiagram : gateDiagram.Has ⟨2⟩ := by
  rw [Has]
  decide +kernel

theorem over_gate : gate.Over gateDiagram := by
  have regions : ∀ edge ∈ gate.edges, edge.presence = none ∨ edge.presence = some ⟨2⟩ := by
    decide +kernel
  intro e edge there r presence
  cases regions edge (Array.mem_of_getElem? there) with
  | inl free =>
    rw [free] at presence
    cases presence
  | inr guarded =>
    rw [guarded] at presence
    exact Option.some.inj presence ▸ has_gateDiagram

theorem over_gated {name : String} {edge : EdgeId} : ∀ t ∈ (gated name edge).transitions, gateDiagram.HasAll t.label.guards := by
  intro t mem r guard
  have region : r = ⟨2⟩ := by
    simp only [gated, gatedTransitions, List.mem_cons, List.not_mem_nil, or_false] at mem
    obtain rfl | rfl := mem
    · cases guard
    · simpa using guard
  exact region ▸ has_gateDiagram

/-- The exploration when the first run has found a target. -/
def gateFound (observers : List Observer) : Desk := finish (run 9 (some 3)) (gateDesk observers)

/-- The graph and the frontier after that target was pruned. -/
def gatePruned (observers : List Observer) : Exploration State :=
  ((gateFound observers).reached.prune 1).toOption.getD (gateFound observers).reached

/-- The exploration after that, and after its goal was disabled. -/
def gateLeft (observers : List Observer) : Desk :=
  { gateFound observers with reached := (gatePruned observers).sweep.2.disable [2] }

/-- The exploration with the feature only. -/
def gateRestricted (observers : List Observer) : Desk := finish (restrict ⟨2⟩ ∅) (gateLeft observers)

/-- The exploration when the second run has found another target. -/
def gateDone (observers : List Observer) : Desk := finish (run 9 none) (gateRestricted observers)

theorem history_gate (found : succeeds (run 9 (some 3)) (gateDesk observers) = true)
    (live : 1 ∈ (gateFound observers).reached.targets) (pruned : ((gateFound observers).reached.prune 1).isOk = true)
    (has : (gateLeft observers).diagram.Has ⟨2⟩) (restricted : succeeds (restrict ⟨2⟩ ∅) (gateLeft observers) = true) :
    Relation.ReflTransGen Action (gateDesk observers) (gateRestricted observers) := by
  obtain ⟨_, first⟩ := exists_eq_ok found
  obtain ⟨_, second⟩ := exists_eq_ok restricted
  have ok : (gateFound observers).reached.prune 1 = .ok (gatePruned observers) := Except.eq_ok_getD pruned _
  have known : (gateLeft observers).engine.Known (gateLeft observers).diagram ⟨2⟩ ∅ :=
    ⟨fun _ => has, fun _ g => by simp⟩
  have left : Relation.ReflTransGen Action (gateFound observers) (gateLeft observers) := settled live ok [2]
  exact .head (.run first) (left.tail (.restrict known second))

/-- The last edge only with the feature, and the first one. -/
def gateObservers : List Observer := [.plain 1 (gated "G1" 2), .powerset 2 (.reaching "G2" 0)]

theorem managed_gate : Managed gateFactory gateObservers none gateDiagram where
  built := .call .fresh (.declare .fresh "A")
  program := over_gate
  constraint := knows_none
  observers o mem := by
    simp only [gateObservers, List.mem_cons, List.not_mem_nil, or_false] at mem
    obtain rfl | rfl := mem
    · exact over_gated
    · exact Observer.over_of_not_guarded rfl

theorem composed_gate : compose gateFactory gateObservers none none = .ok (gateExplorer gateObservers) := rfl

theorem started_gate : (gateExplorer gateObservers).initialState gateDiagram =
    .ok ⟨0, Observer.starts gateObservers, some .all, ∅⟩ gateDiagram := rfl

theorem regular_gate : Regular (gateDone gateObservers) ∧ Unbroken (gateDone gateObservers) := by
  have has : (gateLeft gateObservers).diagram.Has ⟨2⟩ := by
    rw [Has]
    decide +kernel
  have history := history_gate (by decide +kernel) (by decide +kernel) (by decide +kernel) has
    (by decide +kernel)
  obtain ⟨_, last⟩ := exists_eq_ok (m := run 9 none) (s := gateRestricted gateObservers) (by decide +kernel)
  exact regular_of_history (fun _ => managed_gate) (fun _ r none => by cases none) composed_gate started_gate
    (history.tail (.run last))

end Gate

end GoalCoverage.Explorer
