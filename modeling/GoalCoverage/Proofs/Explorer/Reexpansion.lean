import GoalCoverage.Proofs.Explorer.Evidence
import GoalCoverage.Proofs.Explorer.Offers
import GoalCoverage.Proofs.Explorer.Resumption

/-!
To expand a node again is harmless. If it has what it had below it when it was expanded, and configurations and goals
have only been excluded since, then a second expansion finds nothing but duplicates (`harmless_of_history`).
-/

namespace GoalCoverage.Explorer

open Diagram StateGraph Procedure

variable {x : Explorer} {d d' : Diagram} {b b' q : Desk} {s t : State} {n : NodeId} {e : EdgeId} {factory : ExplorerFactory}
  {observers : List Observer} {constraint : Option Region} {covering : Option IdSet} {y : Exploration State}

/-- What lasts of an exploration in order, whatever is done with it. -/
structure Lasts (s : State) (b b' : Desk) : Prop where
  ordered : Ordered s 0 b'
  task : SameTask b.engine b'.engine
  diagram : b.diagram.Extends b'.diagram
  disabled : ∀ goal ∈ b.reached.disabled, goal ∈ b'.reached.disabled
  inherits : b.reached.graph.Inherits b'.reached.graph

theorem Lasts.trans {b'' : Desk} (first : Lasts s b b') (second : Lasts s b' b'') : Lasts s b b'' where
  ordered := second.ordered
  task := first.task.trans second.task
  diagram := first.diagram.trans second.diagram
  disabled goal mem := second.disabled goal (first.disabled goal mem)
  inherits := first.inherits.trans second.inherits

theorem Action.lasts (action : Action b b') (ordered : Ordered s 0 b) : Lasts s b b' := by
  cases action with
  | @run _ fuel token ending ok =>
    have worked := (run_orders (T := fun _ => True) trivial ordered fuel token).of_eq_ok ok
    exact ⟨worked.ordered, worked.sameTask, worked.diagram, fun goal mem => worked.disabled ▸ mem, worked.inherits⟩
  | prune live ok =>
    obtain ⟨y, ok', ordered', disabled, inherits, _⟩ := ordered.prune live
    cases ok.symm.trans ok'
    exact ⟨ordered', .refl _, .refl _, fun goal mem => disabled ▸ mem, inherits⟩
  | sweep =>
    obtain ⟨cleaned, _⟩ := sweep_spec ordered.graph.sound.tree
    refine ⟨ordered.sweep, .refl _, .refl _, fun goal mem => ?_, ?_⟩
    · rw [Exploration.sweep_eq ordered.graph.sound.tree]
      exact mem
    · rw [Exploration.sweep_eq ordered.graph.sound.tree]
      exact cleaned.shrinks.inherits cleaned.size
  | disable goals =>
    refine ⟨ordered.disable goals, .refl _, .refl _, fun goal mem => ?_, .refl _⟩
    exact IdSet.mem_insertAll.2 (.inr mem)
  | @restrict _ constraint opened known ok =>
    obtain ⟨ordered', engine, _, ext, graph, disabled⟩ := (restrict_orders (T := fun _ => True) ordered known).of_eq_ok ok
    refine ⟨ordered', ?_, ext, fun goal mem => disabled ▸ mem, ?_⟩
    · rw [engine]
      exact ⟨rfl, rfl, rfl, rfl, rfl⟩
    · rw [graph]
      exact .refl _
  | call tracks call =>
    obtain ⟨wf, ext⟩ := call.spec (ordered.graph.sound.fit.ready tracks)
    exact ⟨ordered.extends ext fun _ => wf, .refl _, ext, fun _ mem => mem, .refl _⟩

theorem lasts_of_history (history : Relation.ReflTransGen Action b b') (ordered : Ordered s 0 b) : Lasts s b b' := by
  induction history with
  | refl => exact ⟨ordered, .refl _, .refl _, fun _ mem => mem, .refl _⟩
  | tail _ action ih => exact ih.trans (action.lasts ih.ordered)

/-- `n`, with the state `t`, is expanded by a turn of a run from `b` to `q`, and has no targets below it then. -/
structure Expansion (b : Desk) (n : NodeId) (t : State) (q : Desk) : Prop where
  turn : ∃ token token' y, b.reached.pop = some (n, y) ∧ turn token b = .ok (.inl token') q
  expandable : Expandable b.reached.graph n t
  plain : ∀ e m w, q.reached.graph.Link n e m → q.reached.graph.node? m = some w → NoTarget w.state

/-- The node is still there with all that it had below it, and no configuration has been admitted and no goal been opened
again. -/
structure Narrowed (n : NodeId) (q b' : Desk) : Prop where
  node : ∃ v, b'.reached.graph.node? n = some v
  children : ∀ e m, q.reached.graph.Link n e m → b'.reached.graph.Link n e m
  admits : ∀ c, b'.engine.Admits b'.diagram c → q.engine.Admits q.diagram c
  opens : ∀ goal c, b'.engine.Opens b'.diagram goal c → q.engine.Opens q.diagram goal c

theorem SameTask.passes_iff {x' : Explorer} {c : Configuration} (task : SameTask x x') :
    x'.Passes d c e ↔ x.Passes d c e := by
  rw [Passes, Passes, task.program, task.tracks]

theorem SameTask.accepts_iff {x' : Explorer} {sets : List IdSet} {goal : Nat} (task : SameTask x x') :
    Observer.Accepts x'.observers sets goal ↔ Observer.Accepts x.observers sets goal := by
  rw [task.observers]

/-- What was below a node when it was expanded is enough for what is asked of it later. -/
theorem Offers.narrowed (offers : q.engine.Offers q.diagram q.reached.disabled q.reached.graph n t e fun _ => True)
    (plain : ∀ e m w, q.reached.graph.Link n e m → q.reached.graph.node? m = some w → NoTarget w.state)
    (sound : q.engine.Sound q.diagram q.reached.graph 0) (before : q.engine.Tracked q.diagram t.presence)
    (lasts : Lasts s q b') (narrowed : Narrowed n q b') :
    b'.engine.Offers b'.diagram b'.reached.disabled b'.reached.graph n t e NoTarget := by
  have fit := sound.fit
  have left : ∀ c, b'.engine.Leaves b'.diagram t e c → q.engine.Leaves q.diagram t e c := by
    intro c leaves
    have passes := lasts.task.passes_iff.1 leaves.passes
    exact ⟨(before.within_iff fit.ready lasts.diagram).1 leaves.within, (fit.passes_iff lasts.diagram).1 passes,
      narrowed.admits c leaves.admits⟩
  intro edge there leaves sets joint
  rw [lasts.task.program] at there
  rw [lasts.task.observers] at joint
  obtain ⟨m, w, link, child, location, serves, _⟩ := offers edge there (leaves.imp left) sets joint
  have link' := narrowed.children e m link
  obtain ⟨v, here, label⟩ := link'
  obtain ⟨w', child', _⟩ := lasts.ordered.graph.sound.tree.child n v m _ here label
  have same : w'.state = w.state := lasts.inherits.state_eq child child'
  have after := (sound.proper m w child).presence
  refine ⟨m, w', ⟨v, here, label⟩, child', same ▸ location, ?_, same ▸ plain e m w link child⟩
  rw [same]
  refine ⟨serves.observers, fun c leaves => ?_, fun goal c accepts enabled leaves opens => ?_⟩
  · exact (after.within_iff fit.ready lasts.diagram).2 (serves.presence c (left c leaves))
  · exact serves.accepted goal c (lasts.task.accepts_iff.1 accepts) (fun mem => enabled (lasts.disabled goal mem))
      (left c leaves) (narrowed.opens goal c opens)

/-- An expansion of a node finds nothing and changes nothing, whether or not the node is looked at first. -/
structure Harmless (b : Desk) (n : NodeId) (t : State) : Prop where
  expand : ∃ b', expand n t b = .ok [] b' ∧ Undisturbed b b'
  visit : ∃ b', visit n b = .ok [] b' ∧ Undisturbed b b'

theorem pop_eq_some (popped : b.reached.pop = some (n, y)) : b.reached.waiting = n :: y.waiting ∧
    y = { b.reached with waiting := y.waiting } := by
  rw [Exploration.pop] at popped
  cases queue : b.reached.waiting with
  | nil =>
    rw [queue] at popped
    cases popped
  | cons m rest =>
    rw [queue] at popped
    cases popped
    exact ⟨rfl, rfl⟩

theorem Ordered.popped (ordered : Ordered s 0 b) (popped : b.reached.pop = some (n, y)) :
    Ordered s 0 { b with reached := y } ∧ y.graph = b.reached.graph := by
  obtain ⟨queue, rest⟩ := pop_eq_some popped
  rw [rest]
  refine ⟨⟨ordered.graph, ordered.queue.sublist ?_⟩, rfl⟩
  rw [queue]
  exact List.sublist_cons_self n y.waiting

/-- An expanded node has a child for all that was asked of it. -/
theorem Expansion.offers (expansion : Expansion b n t q) (ordered : Ordered s 0 b)
    (free : ∀ o ∈ b.engine.observers, o.automaton.isGuarded = false) :
    Ordered s 0 q ∧ q.engine = b.engine ∧ (∃ w, q.reached.graph.node? n = some w ∧ w.state = t) ∧
      ∀ e ∈ b.engine.program.leaving t.location,
        q.engine.Offers q.diagram q.reached.disabled q.reached.graph n t e fun _ => True := by
  obtain ⟨token, token', y, popped, going⟩ := expansion.turn
  obtain ⟨_, _, n', y', popped', _, visited⟩ := turn_eq_inl_iff.1 going
  cases popped.symm.trans popped'
  obtain ⟨ordered', same⟩ := ordered.popped popped
  have expandable : Expandable y.graph n t := same ▸ expansion.expandable
  obtain ⟨enlarged, offers⟩ := (visit_offers (T := anything) ordered' free expandable).of_eq_ok visited
  obtain ⟨v, here, state, _⟩ := expandable.node
  obtain ⟨w, there, kept⟩ := enlarged.graph n v here
  exact ⟨enlarged.ordered, enlarged.engine, ⟨w, there, kept.state.trans state⟩, offers⟩

theorem Ordered.harmless (ordered : Ordered s 0 b) (free : ∀ o ∈ b.engine.observers, o.automaton.isGuarded = false)
    (expansion : Expansion b n t q) (after : Relation.ReflTransGen Action q b') (narrowed : Narrowed n q b')
    (waiting : List NodeId) : Harmless { b' with reached := { b'.reached with waiting } } n t := by
  obtain ⟨ordered', engine, ⟨w, here, state⟩, offers⟩ := expansion.offers ordered free
  have lasts := lasts_of_history after ordered'
  have task : SameTask b.engine b'.engine := engine ▸ lasts.task
  obtain ⟨v, there⟩ := narrowed.node
  obtain rfl : v.state = t := (lasts.inherits.state_eq here there).trans state
  have sound := ordered'.graph.sound
  have before : q.engine.Tracked q.diagram v.state.presence := state ▸ (sound.proper n w here).presence
  have offers' : ∀ e ∈ b'.engine.program.leaving v.state.location,
      b'.engine.Offers b'.diagram b'.reached.disabled b'.reached.graph n v.state e NoTarget := by
    rw [task.program]
    exact fun e mem => (offers e mem).narrowed expansion.plain sound before lasts narrowed
  have free' : ∀ o ∈ b'.engine.observers, o.automaton.isGuarded = false := by
    rw [task.observers]
    exact free
  let b₁ : Desk := { b' with reached := { b'.reached with waiting } }
  have sound' : b₁.engine.Sound b₁.diagram b₁.reached.graph 0 := lasts.ordered.graph.sound
  constructor
  case expand =>
    obtain ⟨out, b'', ok, none, undisturbed⟩ := (expand_again (b := b₁) sound' free' there offers').exists_result
    exact ⟨b'', none ▸ ok, undisturbed⟩
  case visit =>
    obtain ⟨out, b'', ok, none, undisturbed⟩ := (visit_again (b := b₁) sound' free' there offers').exists_result
    exact ⟨b'', none ▸ ok, undisturbed⟩

/-- After anything that may be done, a node is expanded; after anything that may be done since but admits no configuration
and opens no goal again, it is harmless to expand it again. Whatever waits then makes no difference. A run that is cancelled
stops between any two of its turns, so the explorations in the midst of runs are among these. -/
theorem harmless_of_history (managed : factory.tracks = true → Managed factory observers constraint d)
    (free : ∀ o ∈ observers, o.automaton.isGuarded = false)
    (composed : compose factory observers constraint covering = .ok x) (started : x.initialState d = .ok s d')
    (history : Relation.ReflTransGen Action
      { diagram := d', surroundings := factory, engine := x, reached := .start s } b)
    (expansion : Expansion b n t q) (after : Relation.ReflTransGen Action q b') (narrowed : Narrowed n q b')
    (waiting : List NodeId) : Harmless { b' with reached := { b'.reached with waiting } } n t := by
  obtain ⟨_, _, start⟩ := inOrder_of_start managed composed started
  obtain ⟨order, task⟩ := inOrder_of_history history start
  have free' : ∀ o ∈ b.engine.observers, o.automaton.isGuarded = false := by
    rw [task.observers, compose_eq_ok composed]
    exact free
  obtain ordered | barren := order
  · exact ordered.harmless free' expansion after narrowed waiting
  · -- The only node of such an exploration is a target.
    obtain ⟨w, here, state, _⟩ := expansion.expandable.node
    have target := barren.bare.target
    rw [(barren.bare.only n w here).2] at state
    rw [show s = t from state, expansion.expandable.plain] at target
    cases target

section Gate

/-- The exploration when its first node, that waited again, was expanded again. -/
def gateExpanded : Desk := finish (turn none) (gateLeft freeObservers)

/-- The exploration when the next run has found a target below the second child. -/
def gateExplored : Desk := finish (run 9 none) gateExpanded

/-- The exploration without that target and its goal. -/
def gateSettled : Desk :=
  { gateExplored with
    reached := ((gateExplored.reached.prune 5).toOption.getD gateExplored.reached).sweep.2.disable [1] }

/-- The exploration when it is for configurations with the feature only. -/
def gateNarrowed : Desk := finish (restrict ⟨2⟩ ∅) gateSettled

theorem expansion_gate :
    Expansion (gateLeft freeObservers) 0 ⟨0, Observer.starts freeObservers, some .all, ∅⟩ gateExpanded where
  turn := by
    obtain ⟨out, turned⟩ := exists_eq_ok (m := turn none) (s := gateLeft freeObservers) (by decide +kernel)
    have first : (gateLeft freeObservers).reached.pop.map (·.1) = some 0 := by decide +kernel
    have going : (match turn none (gateLeft freeObservers) with
        | .ok (.inl _) _ => true
        | _ => false) = true := by
      decide +kernel
    obtain ⟨⟨_, y⟩, popped, rfl⟩ := Option.map_eq_some_iff.1 first
    cases out with
    | inl token' => exact ⟨none, token', y, popped, turned⟩
    | inr ending =>
      rw [turned] at going
      cases going
  expandable := by
    have root : (gateLeft freeObservers).reached.graph.root = some 0 := by decide +kernel
    have entry : ((gateLeft freeObservers).reached.graph.node? 0).map (fun v => (v.state, v.coveredBy)) =
        some (⟨0, Observer.starts freeObservers, some .all, ∅⟩, none) := by
      decide +kernel
    obtain ⟨v, here, is⟩ := Option.map_eq_some_iff.1 entry
    obtain ⟨state, uncovered⟩ := Prod.mk.inj is
    exact ⟨⟨v, here, state, uncovered⟩, ⟨v, here, .inl root⟩, rfl⟩
  plain e m w link child := by
    have plain : ((gateExpanded.reached.graph.node? 0).all fun v => v.children.keys.toList.all fun m =>
        (gateExpanded.reached.graph.node? m).all fun w => !AbstractState.isTarget w.state) = true := by
      decide +kernel
    obtain ⟨v, here, label⟩ := link
    rw [here, Option.all_some, List.all_eq_true] at plain
    have target := plain m (IdSet.mem_toList.2 (IdMap.mem_keys.2 ⟨_, label⟩))
    rw [child, Option.all_some, Bool.not_eq_true'] at target
    exact target

theorem narrowed_gate : Narrowed 0 gateExpanded gateNarrowed where
  node := by
    have there : (gateNarrowed.reached.graph.node? 0).isSome = true := by decide +kernel
    exact Option.isSome_iff_exists.1 there
  children e m link := by
    have same : (gateNarrowed.reached.graph.node? 0).map (·.children) =
        (gateExpanded.reached.graph.node? 0).map (·.children) := by
      decide +kernel
    obtain ⟨v, here, label⟩ := link
    rw [here] at same
    obtain ⟨v', here', children⟩ := Option.map_eq_some_iff.1 same
    exact ⟨v', here', children ▸ label⟩
  admits c _ _ := by
    have free : gateExpanded.engine.constraint = none := by decide +kernel
    rw [free]
    exact within_none
  opens goal c _ _ := by
    have free : gateExpanded.engine.opened = ∅ := by decide +kernel
    rw [free, IdMap.get?_empty]
    exact within_none

theorem harmless_of_history_gate :
    Harmless { gateNarrowed with reached := { gateNarrowed.reached with waiting := [0] } } 0
      ⟨0, Observer.starts freeObservers, some .all, ∅⟩ := by
  obtain ⟨_, first⟩ := exists_eq_ok (m := run 9 (some 3)) (s := gateDesk freeObservers) (by decide +kernel)
  obtain ⟨_, second⟩ := exists_eq_ok (m := run 9 none) (s := gateExpanded) (by decide +kernel)
  obtain ⟨_, third⟩ := exists_eq_ok (m := restrict ⟨2⟩ ∅) (s := gateSettled) (by decide +kernel)
  have pruned : (gateFound freeObservers).reached.prune 1 = .ok (gatePruned freeObservers) :=
    Except.eq_ok_getD (by decide +kernel) _
  have pruned' : gateExplored.reached.prune 5 =
      .ok ((gateExplored.reached.prune 5).toOption.getD gateExplored.reached) :=
    Except.eq_ok_getD (by decide +kernel) _
  have has : gateSettled.diagram.Has ⟨2⟩ := by
    rw [Has]
    decide +kernel
  have managed : Managed gateFactory freeObservers none gateDiagram := by
    refine ⟨.call .fresh (.declare .fresh "A"), over_gate, knows_none, fun o mem => Observer.over_of_not_guarded ?_⟩
    exact (by decide : ∀ o ∈ freeObservers, o.automaton.isGuarded = false) o mem
  have history : Relation.ReflTransGen Action (gateDesk freeObservers) (gateLeft freeObservers) :=
    .head (.run first) (settled (by decide +kernel) pruned [2])
  have left : Relation.ReflTransGen Action gateExplored gateSettled := settled (by decide +kernel) pruned' [1]
  have after : Relation.ReflTransGen Action gateExpanded gateNarrowed :=
    .head (.run second) (left.tail (.restrict ⟨fun _ => has, fun _ g => by simp⟩ third))
  exact harmless_of_history (fun _ => managed) (by decide) composed_free started_free history expansion_gate after
    narrowed_gate [0]

end Gate

end GoalCoverage.Explorer
