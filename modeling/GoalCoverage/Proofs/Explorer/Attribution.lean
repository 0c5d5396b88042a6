import GoalCoverage.Proofs.Explorer.Actions

/-!
Regions of targets. With a plain observer every configuration in the region of a target has a run of the automaton
along the route to it whose guards it meets (`justified_of_history`). A powerset observer makes a move that is
possible for some configurations and keeps the region of all of them, so there it is true without guards only
(`unjustified_gate`).
-/

namespace GoalCoverage

variable {d : Diagram} {c : Configuration} {a : Automaton} {q q' : StateId} {e : EdgeId} {guards : List Guard}

/-- Does a configuration lie in the region of a guard? Assumptions on values are taken to hold. -/
def Guard.admits (d : Diagram) (c : Configuration) : Guard → Bool
  | presence region => d.holds region c
  | predicate _ => true

theorem Diagram.meets_iff : d.Meets guards c ↔ guards.all (·.admits d c) = true := by
  rw [List.all_eq_true]
  constructor
  · intro meets g mem
    cases g with
    | presence r => exact meets r mem
    | predicate _ => rfl
  · exact fun all r mem => all _ mem

namespace Automaton

/-- The states after an edge by transitions that a configuration may take; a final state stays. -/
def followIn (d : Diagram) (c : Configuration) (a : Automaton) (q : StateId) (e : EdgeId) : List StateId :=
  if a.isFinal q then [q]
  else ((a.outgoing q).filter fun t => t.label.contains e && t.label.guards.all (·.admits d c)).map (·.target)

def RunIn (d : Diagram) (c : Configuration) (a : Automaton) (trace : List EdgeId) (q : StateId) : Prop :=
  Leads (a.followIn d c) trace a.initial q

/-- Some run along the trace that a configuration may take ends in a final state. -/
def RecognizesIn (d : Diagram) (c : Configuration) (a : Automaton) (trace : List EdgeId) : Prop :=
  ∃ q, a.RunIn d c trace q ∧ a.isFinal q = true

/-- An observer of an automaton makes moves of the automaton. -/
theorem mem_followIn_of_moves {o : Observer} {goal : Nat} (watched : Component.Watched ⟨goal, a⟩ o)
    (move : (q', guards) ∈ o.moves q e) (meets : d.Meets guards c) : q' ∈ a.followIn d c q e := by
  have shape : o.moves q e = if a.isFinal q then [(q, [])]
      else ((a.outgoing q).filter (·.label.contains e)).map fun t => (t.target, t.label.guards) := by
    cases watched with
    | inl plain => rw [plain]; rfl
    | inr powerset => rw [powerset]; rfl
  rw [shape] at move
  rw [followIn]
  split at move
  next final =>
    rw [if_pos final]
    cases List.mem_singleton.1 move
    exact List.mem_singleton.2 rfl
  next live =>
    rw [if_neg live]
    obtain ⟨t, mem, same⟩ := List.mem_map.1 move
    obtain ⟨here, contains⟩ := List.mem_filter.1 mem
    cases same
    refine List.mem_map.2 ⟨t, List.mem_filter.2 ⟨here, ?_⟩, rfl⟩
    rw [Bool.and_eq_true]
    exact ⟨contains, Diagram.meets_iff.1 meets⟩

end Automaton

namespace Explorer

open Diagram StateGraph Procedure

variable {x : Explorer} {d' : Diagram} {b b' : Desk} {s first : State} {n root : NodeId} {g : StateGraph State}
  {v : GraphNode State} {factory : ExplorerFactory} {o : Observer} {constraint : Option Region}
  {covering : Option IdSet} {goal : Nat} {nodes : List NodeId} {edges : List EdgeId} {S : IdSet}

/-- A plain observer, or a powerset observer of an automaton without guards. -/
inductive Exact (goal : Nat) (a : Automaton) : Observer → Prop
  | plain : Exact goal a (.plain goal a)
  | powerset : a.isGuarded = false → Exact goal a (.powerset goal a)

theorem Exact.watched (exact : Exact goal a o) : Component.Watched ⟨goal, a⟩ o := by
  cases exact with
  | plain => exact .inl rfl
  | powerset _ => exact .inr rfl

theorem Exact.eq_initial (exact : Exact goal a o) (states : Observer.starts [o] = [S]) (mem : q ∈ S) : q = a.initial := by
  rw [Observer.starts, List.map_singleton, exact.watched.automaton_eq] at states
  rw [← List.singleton_inj.1 states] at mem
  exact IdSet.mem_singleton.1 mem

/-- Whoever is in the region after a move meets its guards. -/
theorem Exact.exists_move {presence : Option Region} {U : IdSet} (exact : Exact goal a o) (tracks : x.tracks = true)
    (led : x.Led d presence o e S U) (mem : q' ∈ U) (within : d.Within presence c) :
    ∃ q ∈ S, q' ∈ a.followIn d c q e := by
  obtain ⟨q, here, guards, move, meets⟩ := led q' mem
  refine ⟨q, here, Automaton.mem_followIn_of_moves exact.watched move ?_⟩
  cases exact with
  | plain => exact meets rfl tracks c within
  | powerset free =>
    have none : guards = [] := guards_of_mem_moves (o := .powerset goal a) free move
    rw [none]
    exact fun r mem => nomatch mem

/-- The states of the observer at a node are reached by runs that every configuration of the node may take. -/
theorem Orderly.runIn (orderly : x.Orderly first d g root) (exact : Exact goal a o) (alone : x.observers = [o])
    (tracks : x.tracks = true) (branch : g.Branch root nodes edges n) (here : g.node? n = some v)
    (states : v.state.observers = [S]) (mem : q ∈ S) (within : d.Within v.state.presence c) : a.RunIn d c edges q := by
  have sound := orderly.sound
  induction branch generalizing v S q with
  | root =>
    rw [(sound.start v here).2.1, alone] at states
    exact (exact.eq_initial states mem).symm
  | @step nodes edges p n e branch link ih =>
    obtain ⟨w, there, child⟩ := link
    have guided := orderly.guided p w n e v there child here
    rw [Guided, alone, states] at guided
    generalize before : w.state.observers = sets at guided
    cases guided with
    | cons led rest =>
      cases rest
      obtain ⟨q₀, old, move⟩ := exact.exists_move tracks led mem within
      have earlier := ((sound.follows p w n e v there child here).presence c within).1
      exact leads_concat.2 ⟨q₀, ih there before old earlier, move⟩

/-- There is a route to the node, and along it a run to a final state for every configuration of the node. -/
structure Justified (a : Automaton) (b : Desk) (n : NodeId) (v : GraphNode State) (route : Route) : Prop where
  here : b.reached.graph.node? n = some v
  found : b.reached.graph.routeTo n = .ok route
  recognizes : ∀ c, b.diagram.Within v.state.presence c → a.RecognizesIn b.diagram c route.edges

/-- A target is credited with the goal of the only observer, which is in a final state. -/
theorem Proper.exists_final (proper : x.Proper d s) (exact : Exact goal a o) (alone : x.observers = [o])
    (target : AbstractState.isTarget s = true) : ∃ S, s.observers = [S] ∧ ∃ q ∈ S, a.isFinal q = true := by
  obtain ⟨k, credited⟩ : ∃ k, k ∈ s.accepted := by
    apply IdSet.isEmpty_eq_false_iff.1
    exact Bool.not_eq_true' _ ▸ target
  obtain ⟨o', S, zipped, q, mem, accepted⟩ := proper.accepted k credited
  have length := proper.length
  rw [alone] at length zipped
  obtain ⟨S, single⟩ := List.length_eq_one_iff.1 length.symm
  rw [single] at zipped
  cases List.mem_singleton.1 zipped
  exact ⟨_, single, q, mem, (exact.watched.mem_acceptedAt.1 accepted).2⟩

theorem justified_of_history (managed : Managed factory [o] constraint d) (tracks : factory.tracks = true)
    (exact : Exact goal a o) (composed : compose factory [o] constraint covering = .ok x)
    (started : x.initialState d = .ok s d')
    (history : Relation.ReflTransGen Action
      { diagram := d', surroundings := factory, engine := x, reached := .start s } b) :
    ∀ n ∈ b.reached.targets, ∃ v route, Justified a b n v route := by
  intro n live
  obtain ⟨initial, _, start⟩ := inOrder_of_start (fun _ => managed) composed started
  obtain ⟨order, same⟩ := inOrder_of_history history start
  have shape := compose_eq_ok composed
  have alone : b.engine.observers = [o] := same.observers.trans (by rw [shape])
  have tracked : b.engine.tracks = true := same.tracks.trans (by rw [shape]; exact tracks)
  obtain ⟨v, here, attached, target⟩ := Exploration.mem_targets.1 live
  obtain ordered | barren := order
  · have sound := ordered.graph.sound
    obtain ⟨route, found, branch⟩ := routeTo_spec sound.tree attached
    obtain ⟨S, states, q, mem, final⟩ := (sound.proper n v here).exists_final exact alone target
    exact ⟨v, route, here, found, fun c within =>
      ⟨q, ordered.graph.runIn exact alone tracked branch here states mem within, final⟩⟩
  · obtain ⟨rfl, rfl⟩ := barren.bare.only n v here
    obtain ⟨S, states, q, mem, final⟩ := initial.proper.exists_final exact (by rw [shape]) target
    rw [initial.observers, shape] at states
    have first := exact.eq_initial states mem
    exact ⟨_, ⟨[0], []⟩, here, walkBack_eq_ok here rfl 0 _ _, fun c _ => ⟨q, first.symm, final⟩⟩

section Gate

/-- The edge that needs no feature counts with the feature only. -/
def gatedSecond : Automaton := gated "G1" 1

theorem justified_gate : ∃ v route, Justified gatedSecond (gateFound [.plain 1 gatedSecond]) 3 v route := by
  have managed : Managed gateFactory [.plain 1 gatedSecond] none gateDiagram :=
    { built := .call .fresh (.declare .fresh "A")
      program := over_gate
      constraint := knows_none
      observers := fun o mem => by
        rw [List.mem_singleton.1 mem]
        exact over_gated }
  obtain ⟨_, first⟩ := exists_eq_ok (m := run 9 (some 3)) (s := gateDesk [.plain 1 gatedSecond]) (by decide +kernel)
  have found : Action (gateDesk [.plain 1 gatedSecond]) (gateFound [.plain 1 gatedSecond]) := .run first
  have live : 3 ∈ (gateFound [.plain 1 gatedSecond]).reached.targets := by decide +kernel
  have composed : compose gateFactory [.plain 1 gatedSecond] none none = .ok (gateExplorer [.plain 1 gatedSecond]) := rfl
  have started : (gateExplorer [.plain 1 gatedSecond]).initialState gateDiagram =
      .ok ⟨0, Observer.starts [.plain 1 gatedSecond], some .all, ∅⟩ gateDiagram := rfl
  exact justified_of_history managed rfl .plain composed started (.single found) 3 live

/-- A powerset observer credits the target for all configurations, also for those without the feature. -/
theorem unjustified_gate :
    compose gateFactory [.powerset 1 gatedSecond] none none = .ok (gateExplorer [.powerset 1 gatedSecond]) ∧
    (gateExplorer [.powerset 1 gatedSecond]).initialState gateDiagram =
      .ok ⟨0, Observer.starts [.powerset 1 gatedSecond], some .all, ∅⟩ gateDiagram ∧
    (∃ ending, run 9 (some 3) (gateDesk [.powerset 1 gatedSecond]) = .ok ending (gateFound [.powerset 1 gatedSecond])) ∧
    2 ∈ (gateFound [.powerset 1 gatedSecond]).reached.targets ∧
      ∀ v route, ¬Justified gatedSecond (gateFound [.powerset 1 gatedSecond]) 2 v route := by
  refine ⟨rfl, rfl, exists_eq_ok (by decide +kernel), by decide +kernel, fun v route justified => ?_⟩
  let bare : Configuration := fun _ => false
  have way : (gateFound [.powerset 1 gatedSecond]).reached.graph.routeTo 2 = .ok ⟨[0, 2], [1]⟩ := by decide +kernel
  have region : ((gateFound [.powerset 1 gatedSecond]).reached.graph.node? 2).map (·.state.presence) = some (some .all) := by
    decide +kernel
  have stays : gatedSecond.followIn (gateFound [.powerset 1 gatedSecond]).diagram bare 0 1 = [0] := by decide +kernel
  rw [justified.here, Option.map_some, Option.some.injEq] at region
  have everywhere : (gateFound [.powerset 1 gatedSecond]).diagram.Within v.state.presence bare := by
    rw [region, within_some]
    exact holds_all
  obtain ⟨q, run, final⟩ := justified.recognizes bare everywhere
  cases justified.found.symm.trans way
  obtain ⟨m, step, rfl⟩ := run
  rw [show gatedSecond.initial = 0 from rfl, stays, List.mem_singleton] at step
  rw [step] at final
  cases final

end Gate

end Explorer

end GoalCoverage
