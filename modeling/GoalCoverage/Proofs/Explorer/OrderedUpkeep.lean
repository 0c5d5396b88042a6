import GoalCoverage.Proofs.Explorer.GuardedRuns
import GoalCoverage.Proofs.Explorer.Upkeep

/-!
What happens to an ordered exploration between runs. Pruning live targets, sweeping and restricting succeed and
keep the order, and a fresh exploration that does not start at a target is in order.
-/

namespace GoalCoverage.Explorer

open Diagram StateGraph Procedure

variable {x : Explorer} {d d' : Diagram} {b b' : Desk} {s first : State} {n m p root : NodeId}
  {v w : GraphNode State} {y : Exploration State} {T : Failure → Prop} {constraint : Region} {opened : IdMap Region}

theorem Ordered.pruned (ordered : Ordered first root b) (here : b.reached.graph.node? n = some v)
    (target : AbstractState.isTarget v.state = true) (mem : p ∈ v.parents)
    (there : b.reached.graph.node? p = some w) (pruned : b.reached.Pruned y n v p w) :
    Ordered first root { b with reached := y } := by
  have cut := pruned.graph
  have tree := ordered.graph.sound.tree
  obtain ⟨parent, lt, w', e, there', link⟩ := tree.parent n v p here mem
  rw [there] at there'
  cases there'
  have tree' := tree.cutOff here there (Nat.ne_of_lt lt) parent target cut
  obtain ⟨place, uncovered, _⟩ := tree.of_child there link
  have rested : Queue y.graph (b.reached.waiting.filter (· != n)) := by
    refine ⟨ordered.queue.nodup.filter _, fun m mem => ?_⟩
    obtain ⟨mem, other⟩ := List.mem_filter.1 mem
    obtain ⟨u, known, attached, open'⟩ := ordered.queue.waits m mem
    obtain ⟨u', known', parents, cover⟩ := cut.rests there (by simpa using other) known
    refine ⟨u', known', ?_, cover.trans open'⟩
    rw [tree'.attached_iff known', parents]
    exact (tree.attached_iff known).1 attached
  refine ⟨ordered.graph.shrinks tree' (cut.shrinks here there), ?_⟩
  rw [pruned.waiting]
  split
  next => exact rested
  next fresh =>
    refine ⟨List.nodup_cons.2 ⟨fresh, rested.nodup⟩, fun m mem => ?_⟩
    cases List.mem_cons.1 mem with
    | inr mem => exact rested.waits m mem
    | inl same =>
      subst same
      obtain ⟨u, known, parents, cover⟩ := cut.rests there (Nat.ne_of_lt lt) there
      refine ⟨u, known, ?_, cover.trans uncovered⟩
      rw [tree'.attached_iff known, parents]
      exact place

/-- Pruning a live target succeeds. -/
theorem Ordered.prune (ordered : Ordered first root b) (live : n ∈ b.reached.targets) :
    ∃ y, b.reached.prune n = .ok y ∧ Ordered first root { b with reached := y } ∧ y.disabled = b.reached.disabled ∧
      b.reached.graph.Inherits y.graph ∧
      ∀ m u, b.reached.graph.node? m = some u → ∃ u', y.graph.node? m = some u' ∧ u'.state = u.state := by
  obtain ⟨v, here, attached, target⟩ := Exploration.mem_targets.1 live
  obtain ⟨p, mem⟩ := ordered.graph.sound.exists_parent here attached target
  obtain ⟨w, y, there, ok, pruned⟩ := Exploration.prune_spec ordered.graph.sound.tree here target mem
  exact ⟨y, ok, ordered.pruned here target mem there pruned, pruned.disabled,
    (pruned.graph.shrinks here there).inherits pruned.graph.size, fun m u known => pruned.graph.stays here there known⟩

theorem Ordered.sweep (ordered : Ordered first root b) : Ordered first root { b with reached := b.reached.sweep.2 } := by
  have tree := ordered.graph.sound.tree
  obtain ⟨cleaned, _⟩ := sweep_spec tree
  have node := fun n v => cleaned.node?_eq_some (n := n) (v := v)
  rw [Exploration.sweep_eq tree]
  refine ⟨ordered.graph.shrinks tree.sweep cleaned.shrinks, ordered.queue.nodup.filter _, fun m mem => ?_⟩
  obtain ⟨v, here, attached, uncovered⟩ := ordered.queue.waits m (List.mem_filter.1 mem).1
  have known := (node m v).2 ⟨here, attached⟩
  refine ⟨v, known, ?_, uncovered⟩
  rw [tree.sweep.attached_iff known]
  exact (tree.attached_iff here).1 attached

/-- Consuming the live targets succeeds. -/
theorem Ordered.consume (ordered : Ordered first root b) :
    ∃ z, b.reached.consume b.reached.targets = .ok z ∧ Ordered first root { b with reached := z } := by
  have spent := consume_eq_ok (I := fun _ y => Ordered first root { b with reached := y }) (y := b.reached)
    (fun t rest y ordered live => by
      obtain ⟨y', ok, ordered', _, _, stays⟩ := ordered.prune live
      exact ⟨y', ok, ordered', stays⟩)
    (fun _ _ _ ordered _ => ordered) ordered
  obtain ⟨z, ok, ordered'⟩ := spent
  exact ⟨z.sweep.2, ok, ordered'.sweep⟩

theorem Ordered.disable (ordered : Ordered first root b) (goals : List Nat) :
    Ordered first root { b with reached := b.reached.disable goals } := ⟨ordered.graph, ordered.queue⟩

/-- The regions that an exploration is restricted to belong to the diagram. -/
structure Known (x : Explorer) (d : Diagram) (constraint : Region) (opened : IdMap Region) : Prop where
  constraint : x.tracks = true → d.Has constraint
  opened : x.tracks = true → ∀ g, d.Knows (opened.get? g)

/-- A desk whose explorer is restricted, with what is left of the frontier. -/
def Desk.restricted (b : Desk) (constraint : Region) (opened : IdMap Region) (d : Diagram) (kept : List NodeId) : Desk :=
  { b with
    diagram := d
    engine := { b.engine with constraint := some constraint, opened }
    reached := { b.reached with constraint := some constraint, waiting := kept } }

theorem Fit.restricted (fit : x.Fit d) (known : x.Known d constraint opened) :
    Fit { x with constraint := some constraint, opened } d where
  ready := fit.ready
  program := fit.program
  constraint tracks := knows_some.2 (known.constraint tracks)
  opened := known.opened

/-- A restriction looks at the regions of the waiting nodes, and only drops some of the nodes. -/
theorem restrict_spec (fit : b.engine.Fit b.diagram) (known : b.engine.Known b.diagram constraint opened)
    (present : ∀ n ∈ b.reached.waiting, ∃ v, b.reached.graph.node? n = some v ∧
      b.engine.Tracked b.diagram v.state.presence) :
    Ensures T (restrict constraint opened) b fun _ b' => ∃ d' kept, b' = b.restricted constraint opened d' kept ∧
      b.diagram.Extends d' ∧ d'.Ready b.engine.tracks ∧ kept.Sublist b.reached.waiting := by
  let b₁ := b.restricted constraint opened b.diagram b.reached.waiting
  have fit₁ : b₁.engine.Fit b₁.diagram := fit.restricted known
  rw [restrict, ensures_bind, ensures_modify, ensures_bind, ensures_get]
  split
  next =>
    let Done (done out : List NodeId) (b' : Desk) : Prop :=
      ∃ d', b' = { b₁ with diagram := d' } ∧ b.diagram.Extends d' ∧ d'.Ready b.engine.tracks ∧ out.Sublist done
    have filtered : Ensures T (b₁.reached.waiting.filterMapM fun n => do
        let s ← onReached fun x => return (← x.graph.state n, x)
        return if ← onDiagram (b₁.engine.isRelevant s) then some n else none) b₁ (Done b₁.reached.waiting) := by
      apply Ensures.filterMapM (I := Done) _ ⟨b.diagram, rfl, .refl _, fit.ready, .slnil⟩
      intro n done out b' mem holds
      obtain ⟨d', rfl, ext, ready, sub⟩ := holds
      obtain ⟨v, here, isSome, knows⟩ := present n mem
      have tracked : b₁.engine.Tracked d' v.state.presence := ⟨isSome, ext.knows knows⟩
      have later : b₁.engine.Fit d' := fit₁.extends (d := b.diagram) ext ready
      have found : b₁.reached.graph.state n = .ok v.state := by
        have here₁ : b₁.reached.graph.node? n = some v := here
        rw [StateGraph.state, node_eq_ok here₁]
        rfl
      rw [ensures_bind]
      apply ensures_onReached (a := v.state) (x := b₁.reached)
      · simp only [found, bind, Except.bind, pure, Except.pure]
      rw [ensures_bind]
      apply ensures_onDiagram (b := { b₁ with diagram := d' }) (isRelevant_yields later tracked)
      intro relevant d'' ext' ready' _
      refine ⟨d'', rfl, ext.trans ext', ready', sub.append ?_⟩
      cases relevant <;> simp
    rw [ensures_bind]
    apply filtered.mono
    intro kept b' holds
    obtain ⟨d', rfl, ext, ready, sub⟩ := holds
    exact ⟨d', kept, rfl, ext, ready, sub⟩
  next => exact ⟨b.diagram, b.reached.waiting, rfl, .refl _, fit.ready, .refl _⟩

theorem restrict_orders (ordered : Ordered first root b) (known : b.engine.Known b.diagram constraint opened) :
    Ensures T (restrict constraint opened) b fun _ b' => Ordered first root b' ∧
      b'.engine = { b.engine with constraint := some constraint, opened } ∧
      b'.surroundings = b.surroundings ∧ b.diagram.Extends b'.diagram ∧
      b'.reached.graph = b.reached.graph ∧ b'.reached.disabled = b.reached.disabled := by
  have sound := ordered.graph.sound
  have present : ∀ n ∈ b.reached.waiting, ∃ v, b.reached.graph.node? n = some v ∧
      b.engine.Tracked b.diagram v.state.presence := by
    intro n mem
    obtain ⟨v, here, _⟩ := ordered.queue.waits n mem
    exact ⟨v, here, (sound.proper n v here).presence⟩
  apply (restrict_spec sound.fit known present).mono
  intro _ b' holds
  obtain ⟨d', kept, rfl, ext, ready, sub⟩ := holds
  have altered := ordered.graph.altered (y := { b.engine with constraint := some constraint, opened }) rfl rfl rfl
    (sound.fit.restricted known)
  exact ⟨⟨altered.extends ext ready, ordered.queue.sublist sub⟩, rfl, rfl, ext, rfl, rfl⟩

theorem Ordered.fresh (known : b.engine.tracks = true → ∀ o ∈ b.engine.observers, o.Over b.diagram)
    (fit : b.engine.Fit b.diagram) (initial : b.engine.Initial b.diagram s) (plain : AbstractState.isTarget s = false) :
    Ordered s 0 { b with reached := .start s } := by
  have only : ∀ n v, (Exploration.start s).graph.node? n = some v → n = 0 ∧ v = ⟨s, ∅, ∅, none, false⟩ :=
    fun _ _ => Exploration.node?_start.1
  have here : (Exploration.start s).graph.node? 0 = some ⟨s, ∅, ∅, none, false⟩ :=
    Exploration.node?_start.2 ⟨rfl, rfl⟩
  have unlinked : ∀ p w n l, (Exploration.start s).graph.node? p = some w → w.children.get? n ≠ some l := by
    intro p w n l known link
    rw [(only p w known).2, IdMap.get?_empty] at link
    cases link
  refine ⟨⟨⟨tree_start plain, fit, fun n v known => ?_, fun v known => ?_, fun p w n e v known link => ?_⟩, known,
    fun n v known => ?_, fun p w n e v known link => ?_, fun n v m w known by_m => ?_⟩, List.nodup_singleton 0,
    fun n mem => ?_⟩
  · rw [(only n v known).2]
    exact initial.proper
  · rw [(only 0 v known).2]
    exact ⟨initial.entry, initial.observers, plain⟩
  · exact absurd link (unlinked p w n _ known)
  · rw [(only n v known).2]
    exact .inl rfl
  · exact absurd link (unlinked p w n _ known)
  · rw [(only n v known).2] at by_m
    cases by_m
  · rw [List.mem_singleton.1 mem]
    exact ⟨_, here, ⟨_, here, .inl rfl⟩, rfl⟩

end GoalCoverage.Explorer
