import GoalCoverage.Proofs.Explorer.Actions

/-!
Counterexamples. Whatever was done before, the counterexamples of a run are walks of the program down the graph
to live targets, and without guards every goal that is credited to such a target accepts the walk
(`genuine_of_history`).
-/

namespace GoalCoverage

/-- Every observer has components of its own. -/
theorem Watches.sound_of_follow_each {groups : List (List Component)} {observers : List Observer} {sets : List IdSet}
    {trace : List EdgeId} {g : Nat} (watches : List.Forall₂ (fun group o => Watches group [o]) groups observers)
    (follow : Observer.Follow observers sets trace) (accepts : Observer.Accepts observers sets g) :
    ∃ group ∈ groups, ∃ c ∈ group, c.goal = g ∧ c.automaton.Recognizes trace := by
  obtain ⟨o, states, zipped, q, mem, accepted⟩ := accepts
  obtain ⟨group, here, watch⟩ := exists_of_forall₂_right watches (List.of_mem_zip zipped).1
  exact ⟨group, here, watch.sound (List.mem_singleton.2 rfl) (List.forall₂_zip follow zipped q mem) accepted⟩

namespace Explorer

open Diagram StateGraph Procedure

variable {x : Explorer} {d d' : Diagram} {b b' : Desk} {s t : State} {n : NodeId} {e : EdgeId}
  {v : GraphNode State} {factory : ExplorerFactory} {observers : List Observer}
  {constraint : Option Region} {covering : Option IdSet} {groups : List (List Component)} {c : Counterexample}

/-- An edge leads from one state to another, whose configurations are all in the first state and take the edge. -/
structure Crosses (factory : ExplorerFactory) (d : Diagram) (s : State) (e : EdgeId) (t : State) : Prop where
  edge : ∃ edge, factory.program.edges[e]? = some edge ∧ edge.source = s.location ∧ edge.target = t.location
  presence : factory.tracks = true → ∀ c, d.Within t.presence c →
    d.Within s.presence c ∧ factory.program.Allows d c e

/-- A counterexample to the goals of a target. -/
structure Genuine (factory : ExplorerFactory) (groups : List (List Component)) (b : Desk) (n : NodeId)
    (c : Counterexample) : Prop where
  target : c.target = n
  first : c.route.nodes.head? = b.reached.graph.root
  last : c.route.nodes.getLast? = some n
  length : c.route.edges.length + 1 = c.route.nodes.length
  path : factory.program.IsPath c.route.edges
  links : ∀ (i : Nat) e, c.route.edges[i]? = some e → ∃ p m w u, c.route.nodes[i]? = some p ∧
    c.route.nodes[i + 1]? = some m ∧ b.reached.graph.node? p = some w ∧ b.reached.graph.node? m = some u ∧
      Crosses factory b.diagram w.state e u.state
  accepts : ∀ v, b.reached.graph.node? n = some v → ∀ g ∈ v.state.accepted, ∃ group ∈ groups, ∃ comp ∈ group,
    comp.goal = g ∧ comp.automaton.accepts c.route.edges = .accept
  /-- The target is in the graph, with some goals, and with some configurations if they are tracked. -/
  live : ∃ v, b.reached.graph.node? n = some v ∧ AbstractState.isTarget v.state = true ∧
    (factory.tracks = true → ∃ r, v.state.presence = some r ∧ ∃ c, b.diagram.holds r c = true)

theorem Follows.crosses (follows : x.Follows d s e t) (program : x.program = factory.program)
    (tracks : x.tracks = factory.tracks) : Crosses factory d s e t := by
  refine ⟨program ▸ follows.edge, fun tracked c within => ?_⟩
  obtain ⟨before, passes⟩ := follows.presence c within
  exact ⟨before, program ▸ passes (tracks.trans tracked)⟩

/-- A target comes after an edge, so it has a configuration. -/
theorem Orderly.exists_configuration {first : State} {root : NodeId} {g : StateGraph State}
    (orderly : x.Orderly first d g root) {nodes : List NodeId} {edges : List EdgeId} (branch : g.Branch root nodes edges n)
    (here : g.node? n = some v) (target : AbstractState.isTarget v.state = true) (tracks : x.tracks = true) :
    ∃ r, v.state.presence = some r ∧ ∃ c, d.holds r c = true := by
  have sound := orderly.sound
  have tracked := (sound.proper n v here).presence
  obtain ⟨_, r, known, _⟩ | ⟨untracked, _⟩ := tracked.cases
  · refine ⟨r, known, tracked.exists_configuration sound.fit.ready ?_ known⟩
    cases branch with
    | root =>
      rw [(sound.start v here).2.2] at target
      cases target
    | step _ link =>
      obtain ⟨w, there, child⟩ := link
      exact (sound.follows _ w n _ v there child here).possible
  · rw [tracks] at untracked
    cases untracked

/-- Whatever was done before a run, its counterexamples are genuine. -/
theorem genuine_of_history {fuel : Nat} {token : Token} {ending : RunEnd}
    (manager : factory.tracks = true → d.Built ∧ factory.program.Over d ∧ d.Knows constraint)
    (watches : List.Forall₂ (fun group o => Watches group [o]) groups observers)
    (free : ∀ group ∈ groups, ∀ comp ∈ group, comp.automaton.isGuarded = false)
    (composed : compose factory observers constraint covering = .ok x) (started : x.initialState d = .ok s d')
    (history : Relation.ReflTransGen Action
      { diagram := d', surroundings := factory, engine := x, reached := .start s } b)
    (last : run fuel token b = .ok ending b') (recorded : b'.engine.counterexamples.get? n = some c) :
    Genuine factory groups b' n c := by
  have managed : factory.tracks = true → Managed factory observers constraint d := by
    intro tracks
    obtain ⟨built, program, known⟩ := manager tracks
    refine ⟨built, program, known, fun o mem => Observer.over_of_not_guarded ?_⟩
    obtain ⟨group, here, watch⟩ := exists_of_forall₂_right watches mem
    exact watch.not_guarded (free group here) (List.mem_singleton.2 rfl)
  obtain ⟨_, _, start⟩ := inOrder_of_start managed composed started
  obtain ⟨order, same⟩ := inOrder_of_history history start
  have shape := compose_eq_ok composed
  obtain ordered | barren := order
  · have worked := (run_orders (T := fun _ => True) trivial ordered fuel token).of_eq_ok last
    have task := same.trans worked.sameTask
    have program : b'.engine.program = factory.program := task.program.trans (by rw [shape])
    have tracks : b'.engine.tracks = factory.tracks := task.tracks.trans (by rw [shape])
    have kinds : b'.engine.observers = observers := task.observers.trans (by rw [shape])
    have orderly := worked.ordered.graph
    have sound := orderly.sound
    obtain ⟨_, live, target, _, branch⟩ := worked.explained n c recorded
    obtain ⟨v, here, _, credited⟩ := Exploration.mem_targets.1 live
    have journey := sound.journey branch here
    exact
      { target
        first := branch.head?.trans sound.tree.root_eq.symm
        last := branch.getLast?
        length := branch.length.symm
        path := by
          rw [← program]
          obtain ⟨entry, located, walk⟩ := journey.walk
          exact ⟨entry, v.state.location, located, walk⟩
        links := by
          intro i e there
          obtain ⟨p, m, before, after, w, known, child⟩ := branch.exists_link there
          obtain ⟨u, known', _⟩ := sound.tree.child p w m _ known child
          exact ⟨p, m, w, u, before, after, known, known',
            (sound.follows p w m e u known child known').crosses program tracks⟩
        accepts := by
          intro v' here' g mem
          rw [← kinds] at watches
          obtain ⟨group, known, comp, has, goal, recognizes⟩ := Watches.sound_of_follow_each watches
            (sound.journey branch here').follow ((sound.proper n v' here').accepted g mem)
          exact ⟨group, known, comp, has, goal, (Automaton.accepts_iff (free group known comp has)).2 recognizes⟩
        live := by
          refine ⟨v, here, credited, fun tracked => ?_⟩
          exact orderly.exists_configuration branch here credited (tracks.trans tracked) }
  · have empty := ((Barren.run (T := fun _ => True) trivial barren fuel token).of_eq_ok last).2.1
    rw [empty, IdMap.get?_empty] at recorded
    cases recorded

section Gate

def freeComponents : List Component := [⟨1, .reaching "G1" 2⟩, ⟨2, .reaching "G2" 0⟩]

/-- One observer without guards in each way. -/
def freeObservers : List Observer := [.plain 1 (.reaching "G1" 2), .powerset 2 (.reaching "G2" 0)]

theorem composed_free : compose gateFactory freeObservers none none = .ok (gateExplorer freeObservers) := rfl

theorem started_free : (gateExplorer freeObservers).initialState gateDiagram =
    .ok ⟨0, Observer.starts freeObservers, some .all, ∅⟩ gateDiagram := rfl

/-- The second of two ways to the last edge, after a target on the first way was pruned. -/
theorem genuine_gate : ∃ c, (gateDone freeObservers).engine.counterexamples.get? 5 = some c ∧ c.route.edges = [1, 2] ∧
    Genuine gateFactory (freeComponents.map fun comp => [comp]) (gateDone freeObservers) 5 c := by
  have has : (gateLeft freeObservers).diagram.Has ⟨2⟩ := by
    rw [Has]
    decide +kernel
  have history := history_gate (by decide +kernel) (by decide +kernel) (by decide +kernel) has (by decide +kernel)
  obtain ⟨_, last⟩ := exists_eq_ok (m := run 9 none) (s := gateRestricted freeObservers) (by decide +kernel)
  have route : ((gateDone freeObservers).engine.counterexamples.get? 5).map (·.route.edges) = some [1, 2] := by
    decide +kernel
  obtain ⟨c, recorded, edges⟩ := Option.map_eq_some_iff.1 route
  have watches : List.Forall₂ (fun group o => Watches group [o]) (freeComponents.map fun comp => [comp]) freeObservers :=
    .cons (.each (.cons (.inl rfl) .nil)) (.cons (.each (.cons (.inr rfl) .nil)) .nil)
  have manager : gateFactory.tracks = true →
      gateDiagram.Built ∧ gateFactory.program.Over gateDiagram ∧ gateDiagram.Knows none :=
    fun _ => ⟨.call .fresh (.declare .fresh "A"), over_gate, knows_none⟩
  exact ⟨c, recorded, edges, genuine_of_history manager watches (by decide) composed_free started_free history last recorded⟩

end Gate

end Explorer

end GoalCoverage
