import GoalCoverage.Proofs.Explorer.OrderedUpkeep

/-!
Explorations that start at a target. The root is never expanded, so nothing is added to the graph and nothing
is recorded; it may be pruned like any target, and then nothing is left.
-/

namespace GoalCoverage.Explorer

open StateGraph Procedure

variable {b : Desk} {s : State} {n : NodeId} {g : StateGraph State} {waiting : List NodeId}
  {T : Failure → Prop} {constraint : Region} {opened : IdMap Region}

/-- At most a root that is a target, which may wait; or the root after it was pruned. -/
structure Bare (s : State) (g : StateGraph State) (waiting : List NodeId) : Prop where
  target : AbstractState.isTarget s = true
  only : ∀ n v, g.node? n = some v → n = 0 ∧ v = ⟨s, ∅, ∅, none, false⟩
  covered : g.covered = ∅
  place : (g.root = none ∧ waiting = []) ∨ (g.root = some 0 ∧ (∃ v, g.node? 0 = some v) ∧ waiting.Sublist [0])

structure Barren (s : State) (b : Desk) : Prop where
  bare : Bare s b.reached.graph b.reached.waiting
  fit : b.engine.Fit b.diagram
  tracked : b.engine.Tracked b.diagram s.presence

theorem Barren.fresh (fit : b.engine.Fit b.diagram) (tracked : b.engine.Tracked b.diagram s.presence)
    (target : AbstractState.isTarget s = true) : Barren s { b with reached := .start s } where
  bare :=
    { target
      only := fun _ _ => Exploration.node?_start.1
      covered := rfl
      place := .inr ⟨rfl, ⟨_, Exploration.node?_start.2 ⟨rfl, rfl⟩⟩, .refl _⟩ }
  fit := fit
  tracked := tracked

theorem Bare.sublist {waiting' : List NodeId} (bare : Bare s g waiting) (sub : waiting'.Sublist waiting) :
    Bare s g waiting' where
  target := bare.target
  only := bare.only
  covered := bare.covered
  place := by
    obtain ⟨none, idle⟩ | ⟨root, here, le⟩ := bare.place
    · rw [idle] at sub
      exact .inl ⟨none, List.sublist_nil.1 sub⟩
    · exact .inr ⟨root, here, sub.trans le⟩

theorem Bare.node (bare : Bare s g waiting) (mem : n ∈ waiting) :
    n = 0 ∧ g.root = some 0 ∧ g.node? 0 = some ⟨s, ∅, ∅, none, false⟩ := by
  obtain ⟨_, idle⟩ | ⟨root, ⟨v, here⟩, sub⟩ := bare.place
  · rw [idle] at mem
    cases mem
  · refine ⟨List.mem_singleton.1 (sub.subset mem), root, ?_⟩
    rw [here, (bare.only 0 v here).2]

/-- The root is taken from the frontier and left as it is. -/
theorem Barren.visit (here : b.reached.graph.node? n = some ⟨s, ∅, ∅, none, false⟩)
    (target : AbstractState.isTarget s = true) :
    Ensures T (visit n) b fun out b' => out = [] ∧ b' = b := by
  rw [Explorer.visit, ensures_bind, ensures_get]
  simp only [here, target, Bool.or_true, if_true]
  exact ⟨rfl, rfl⟩

theorem Barren.turn {token : Token} (barren : Barren s b) :
    Ensures T (turn token) b fun _ b' => Barren s b' ∧ b'.engine = b.engine ∧ b'.diagram = b.diagram := by
  rw [Explorer.turn, ensures_bind, ensures_get]
  cases queue : b.reached.waiting with
  | nil =>
    simp only [Exploration.pop, queue]
    exact ⟨barren, rfl, rfl⟩
  | cons n rest =>
    obtain ⟨rfl, _, here⟩ := barren.bare.node (n := n) (by simp [queue])
    have sub : (0 :: rest).Sublist [0] := by
      obtain ⟨_, idle⟩ | ⟨_, _, sub⟩ := barren.bare.place
      · rw [queue] at idle
        cases idle
      · rwa [queue] at sub
    have alone : rest = [] := List.eq_nil_of_length_eq_zero (by simpa using sub.length_le)
    subst alone
    have back : { b.reached with waiting := [0] } = b.reached := by rw [← queue]
    simp only [Exploration.pop, queue, pushFront_eq, List.not_mem_nil, if_false, back]
    split
    next => exact ⟨barren, rfl, rfl⟩
    next =>
      split
      next => exact ⟨barren, rfl, rfl⟩
      next =>
        rw [ensures_bind, ensures_set, ensures_bind]
        apply (Barren.visit (b := { b with reached := { b.reached with waiting := [] } }) here
          barren.bare.target).mono
        intro out b' spec
        obtain ⟨rfl, rfl⟩ := spec
        exact ⟨⟨barren.bare.sublist (List.nil_sublist _), barren.fit, barren.tracked⟩, rfl, rfl⟩

theorem Barren.run (exhausted : T .exhausted) (barren : Barren s b) (fuel : Nat) (token : Token) :
    Ensures T (run fuel token) b fun _ b' =>
      Barren s b' ∧ b'.engine = { b.engine with counterexamples := ∅ } ∧ b'.diagram = b.diagram := by
  rw [Explorer.run, ensures_bind, ensures_modify]
  refine Ensures.repeatUntil
    (I := fun _ b' => Barren s b' ∧ b'.engine = { b.engine with counterexamples := ∅ } ∧ b'.diagram = b.diagram)
    exhausted (fun t b' holds => ?_) fuel
    ⟨⟨barren.bare, ⟨barren.fit.ready, barren.fit.program, barren.fit.constraint, barren.fit.opened⟩,
      barren.tracked.isSome, barren.tracked.knows⟩, rfl, rfl⟩
  obtain ⟨barren', engine, diagram⟩ := holds
  apply (Barren.turn barren').mono
  intro r b'' spec
  obtain ⟨barren'', engine', diagram'⟩ := spec
  have holds' : Barren s b'' ∧ b''.engine = { b.engine with counterexamples := ∅ } ∧ b''.diagram = b.diagram :=
    ⟨barren'', engine'.trans engine, diagram'.trans diagram⟩
  cases r with
  | inl _ => exact holds'
  | inr _ => exact holds'

/-- Without links and covers a root is cut off by taking its place from it. -/
theorem Bare.detach (bare : Bare s g waiting) (root : g.root = some 0)
    (here : g.node? 0 = some ⟨s, ∅, ∅, none, false⟩) :
    ∃ g', g.detach 0 = .ok ([], g') ∧ Bare s g' [] ∧ g'.node? 0 = some ⟨s, ∅, ∅, none, false⟩ := by
  let g₁ := g.update 0 fun v => { v with children := ∅ }
  let g₂ := g₁.update 0 fun v => { v with parents := ∅ }
  let g₃ := g₂.update 0 fun v => { v with coveredBy := none }
  let g₄ : StateGraph State := { g₃ with covered := g.covered.erase 0 }
  have here₁ : g₁.node? 0 = some ⟨s, ∅, ∅, none, false⟩ := by rw [node?_update_of_node? here, if_pos rfl]
  have here₂ : g₂.node? 0 = some ⟨s, ∅, ∅, none, false⟩ := by rw [node?_update_of_node? here₁, if_pos rfl]
  have here₃ : g₃.node? 0 = some ⟨s, ∅, ∅, none, false⟩ := by rw [node?_update_of_node? here₂, if_pos rfl]
  have erased : g₄.covered = ∅ := by
    simp only [g₄, bare.covered]
    rfl
  have uncovered : g₂.uncover 0 = .ok g₄ := by
    simp only [uncover, node_eq_ok here₂, bind, Except.bind, pure, Except.pure]
    rfl
  have rooted : g₄.root = some 0 := root
  refine ⟨{ g₄ with root := none }, ?_, ⟨bare.target, fun n v known => ?_, erased, .inl ⟨rfl, rfl⟩⟩, here₃⟩
  · have children : (∅ : IdMap (Option EdgeId)).keys.toList = [] := rfl
    have none : (∅ : IdSet).toList = [] := rfl
    simp only [StateGraph.detach, node_eq_ok here, bind, Except.bind, pure, Except.pure, children, dropFromChildren,
      List.foldlM_nil]
    rw [show (g.update 0 fun v => { v with children := ∅ }) = g₁ from rfl, node_eq_ok here₁]
    simp only [none, dropFromParents, List.foldlM_nil, pure, Except.pure]
    rw [show (g₁.update 0 fun v => { v with parents := ∅ }) = g₂ from rfl, uncovered]
    simp only [erased, none, List.filter_nil, List.foldlM_nil, pure, Except.pure, rooted, if_true]
  · have known' : g₃.node? n = some v := known
    by_cases same : n = 0
    · subst same
      rw [here₃] at known'
      cases known'
      exact ⟨rfl, rfl⟩
    · rw [node?_update, if_neg same, node?_update, if_neg same, node?_update, if_neg same] at known'
      exact bare.only n v known'

theorem Barren.prune (barren : Barren s b) (live : n ∈ b.reached.targets) :
    ∃ y, b.reached.prune n = .ok y ∧ Barren s { b with reached := y } ∧
      y.graph.node? 0 = some ⟨s, ∅, ∅, none, false⟩ := by
  obtain ⟨v, here, ⟨u, known, attached⟩, _⟩ := Exploration.mem_targets.1 live
  obtain ⟨rfl, rfl⟩ := barren.bare.only n v here
  rw [here] at known
  cases known
  have root : b.reached.graph.root = some 0 := attached.elim id fun ⟨p, mem⟩ => absurd mem (IdSet.not_mem_empty p)
  obtain ⟨g', detached, bare, stays⟩ := barren.bare.detach root here
  obtain ⟨t, subtree, listed, contains⟩ := Exploration.subtree_of_leaf here rfl
  have parents : b.reached.graph.parents 0 = .ok ∅ := by
    rw [StateGraph.parents, node_eq_ok here]
    rfl
  have none : (∅ : IdSet).toList = [] := rfl
  have idle : (b.reached.waiting.filter fun m => !t.contains m) = [] := by
    rw [List.filter_eq_nil_iff]
    intro m mem
    rw [contains, (barren.bare.node mem).1]
    simp
  refine ⟨{ b.reached with
    graph := g'
    waiting := []
    last := b.reached.last.filter fun m => !t.contains m }, ?_, ⟨bare, barren.fit, barren.tracked⟩, stays⟩
  simp only [Exploration.prune, subtree, parents, listed, detached, none, idle, bind, Except.bind, pure, Except.pure,
    List.foldlM_cons, List.foldlM_nil, List.append_nil, List.filter_nil, List.foldl_nil, List.filterMapM_nil,
    List.reverse_nil]

/-- Sweeping deletes the root if it was pruned, and nothing else. -/
theorem Bare.sweep (bare : Bare s g waiting) :
    g.sweep.1.uncovered = [] ∧ Bare s g.sweep.2 (waiting.filter g.sweep.2.contains) := by
  obtain ⟨none, idle⟩ | ⟨root, ⟨v, here⟩, sub⟩ := bare.place
  · have reached : g.reached = ∅ := by rw [StateGraph.reached, none]
    rw [idle, StateGraph.sweep]
    split
    next => exact ⟨rfl, bare.target, bare.only, bare.covered, .inl ⟨none, rfl⟩⟩
    next =>
      have covered : g.covered.filter g.reached.contains = ∅ := by rw [bare.covered]; rfl
      simp only [covered]
      refine ⟨rfl, bare.target, fun n v known => ?_, rfl, .inl ⟨none, rfl⟩⟩
      -- Nothing is kept that the root does not reach.
      cases at_n : g.nodes[n]? <;> simp [reached, node?, Array.getElem?_mapIdx, at_n] at known
  · have leaf : v.children = ∅ := by rw [(bare.only 0 v here).2]
    let x : Exploration State := ⟨g, waiting, .none, ∅, .none⟩
    obtain ⟨t, subtree, _, contains⟩ := Exploration.subtree_of_leaf (x := x) here leaf
    have reached : g.reached = t := by
      have found : g.subtree 0 = .ok t := subtree
      rw [StateGraph.subtree, node_eq_ok here] at found
      rw [StateGraph.reached, root]
      exact Except.ok.inj found
    have clean : (g.ids.filter fun n => !g.reached.contains n) = [] := by
      rw [List.filter_eq_nil_iff]
      intro n mem
      obtain ⟨u, known⟩ := mem_ids.1 mem
      rw [reached, contains, (bare.only n u known).1]
      simp
    rw [StateGraph.sweep, clean]
    exact ⟨rfl, bare.sublist List.filter_sublist⟩

theorem Barren.sweep (barren : Barren s b) : Barren s { b with reached := b.reached.sweep.2 } := by
  obtain ⟨none, bare⟩ := barren.bare.sweep
  rw [Exploration.sweep]
  simp only [none, List.foldl_nil]
  exact ⟨bare, barren.fit, barren.tracked⟩

theorem Barren.consume (barren : Barren s b) :
    ∃ z, b.reached.consume b.reached.targets = .ok z ∧ Barren s { b with reached := z } := by
  have spent := consume_eq_ok (I := fun _ y => Barren s { b with reached := y }) (y := b.reached)
    (fun t rest y barren live => by
      obtain ⟨y', ok, barren', stays⟩ := barren.prune live
      refine ⟨y', ok, barren', fun m u known => ?_⟩
      obtain ⟨rfl, rfl⟩ := barren.bare.only m u known
      exact ⟨_, stays, rfl⟩)
    (fun _ _ _ barren _ => barren) barren
  obtain ⟨z, ok, barren'⟩ := spent
  exact ⟨z.sweep.2, ok, barren'.sweep⟩

theorem Barren.restrict (barren : Barren s b) (known : b.engine.Known b.diagram constraint opened) :
    Ensures T (restrict constraint opened) b fun _ b' => Barren s b' ∧
      b'.engine = { b.engine with constraint := some constraint, opened } ∧ b.diagram.Extends b'.diagram := by
  have present : ∀ n ∈ b.reached.waiting, ∃ v, b.reached.graph.node? n = some v ∧
      b.engine.Tracked b.diagram v.state.presence := by
    intro n mem
    obtain ⟨rfl, _, here⟩ := barren.bare.node mem
    exact ⟨_, here, barren.tracked⟩
  apply (restrict_spec barren.fit known present).mono
  intro _ b' holds
  obtain ⟨d', kept, rfl, ext, ready, sub⟩ := holds
  exact ⟨⟨barren.bare.sublist sub, (barren.fit.restricted known).extends ext ready, barren.tracked.isSome,
    ext.knows barren.tracked.knows⟩, rfl, ext⟩

end GoalCoverage.Explorer
