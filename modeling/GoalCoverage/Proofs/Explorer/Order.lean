import GoalCoverage.Proofs.Explorer.Expansion
import GoalCoverage.Proofs.Explorer.Guards

/-!
The order of explorations, whatever the guards of the observers. Links follow edges and moves that the guards
allow, covers have all of what they cover, every state but the first has a configuration (`Orderly`), and the frontier lists
attached nodes without a cover, each of them once (`Queue`). Both are kept while successors are placed
(`visit_orders`).
-/

namespace GoalCoverage.Explorer

open Diagram StateGraph Procedure

variable {x : Explorer} {d d' : Diagram} {b b' b'' : Desk} {s t first : State} {n m p root : NodeId} {e : EdgeId}
  {g g' : StateGraph State} {v w : GraphNode State} {cov : Option NodeId} {waiting waiting' : List NodeId}
  {T : Failure → Prop}

/-- The order of a graph that was grown from a first state. -/
structure Orderly (x : Explorer) (first : State) (d : Diagram) (g : StateGraph State) (root : NodeId) : Prop where
  sound : x.Sound d g root
  known : x.tracks = true → ∀ o ∈ x.observers, o.Over d
  possible : ∀ n v, g.node? n = some v → v.state = first ∨ v.state.presence.any (·.isEmpty) = false
  guided : ∀ p w n e v, g.node? p = some w → w.children.get? n = some (some e) → g.node? n = some v →
    x.Guided d w.state e v.state
  cover : ∀ n v m w, g.node? n = some v → v.coveredBy = some m → g.node? m = some w →
    Subsumes d w.state v.state

/-- A frontier of nodes that may be expanded or are targets, each of them once. -/
structure Queue (g : StateGraph State) (waiting : List NodeId) : Prop where
  nodup : waiting.Nodup
  waits : ∀ n ∈ waiting, ∃ v, g.node? n = some v ∧ g.Attached n ∧ v.coveredBy = none

theorem Orderly.extends (orderly : x.Orderly first d g root) (ext : d.Extends d') (ready : d'.Ready x.tracks) :
    x.Orderly first d' g root where
  sound := orderly.sound.extends ext ready
  known tracks o mem := (orderly.known tracks o mem).extends ext
  possible := orderly.possible
  guided p w n e v here link there := (orderly.guided p w n e v here link there).extends orderly.known
    orderly.sound.fit.ready ext (orderly.sound.proper n v there).presence
  cover n v m w here by_m there := (orderly.cover n v m w here by_m there).extends orderly.sound.fit ext
    (orderly.sound.proper m w there).presence (orderly.sound.proper n v here).presence

theorem Orderly.placed (orderly : x.Orderly first d g root) (here : g.node? p = some w)
    (follows : x.Follows d w.state e s) (proper : x.Proper d s) (guided : x.Guided d w.state e s)
    (covers : ∀ m u, cov = some m → g.node? m = some u → Subsumes d u.state s)
    (placed : Placed g g' root p w s e cov) : x.Orderly first d g' root where
  sound := orderly.sound.placed here follows proper placed
  known := orderly.known
  possible n v known := by
    obtain ⟨_, same, _⟩ | ⟨_, u, old, same, _⟩ := placed.cases here known
    · rw [same]
      exact .inr follows.possible
    · rw [same]
      exact orderly.possible n u old
  guided q u n f v there link child := by
    obtain ⟨rfl, source, target⟩ | ⟨u', v', old, link', old', source, target⟩ :=
      placed.link_cases orderly.sound.tree here there link child
    · rw [source, target]
      exact guided
    · rw [source, target]
      exact orderly.guided q u' n f v' old link' old'
  cover n v m u known by_m there := by
    obtain ⟨same, covered, y, is, state⟩ | ⟨u', y, old, by_m', is, same, state⟩ :=
      placed.cover_cases orderly.sound.tree here known by_m there
    · rw [same, state]
      exact covers m y covered is
    · rw [same, state]
      exact orderly.cover n u' m y old by_m' is

theorem Orderly.shrinks (orderly : x.Orderly first d g root) (tree : g'.Tree root) (shrinks : g.Shrinks g') :
    x.Orderly first d g' root where
  sound := orderly.sound.shrinks tree shrinks
  known := orderly.known
  possible n v known := by
    obtain ⟨u, old, less⟩ := shrinks n v known
    rw [less.state]
    exact orderly.possible n u old
  guided p w n e v known link there := by
    obtain ⟨u, old, less⟩ := shrinks p w known
    obtain ⟨u', old', less'⟩ := shrinks n v there
    rw [less.state, less'.state]
    exact orderly.guided p u n e u' old (less.children n _ link) old'
  cover n v m w known by_m there := by
    obtain ⟨u, old, less⟩ := shrinks n v known
    obtain ⟨u', old', less'⟩ := shrinks m w there
    rw [less.state, less'.state]
    exact orderly.cover n u m u' old (less.coveredBy m by_m) old'

theorem Queue.grows (queue : Queue g waiting) (tree : g.Tree root) (tree' : g'.Tree root) (grows : g.Grows g') :
    Queue g' waiting where
  nodup := queue.nodup
  waits n mem := by
    obtain ⟨v, here, attached, uncovered⟩ := queue.waits n mem
    obtain ⟨v', here', kept⟩ := grows n v here
    exact ⟨v', here', attached.grows tree tree' grows, kept.coveredBy.trans uncovered⟩

theorem Queue.sublist (queue : Queue g waiting) (sub : waiting'.Sublist waiting) : Queue g waiting' where
  nodup := queue.nodup.sublist sub
  waits n mem := queue.waits n (sub.subset mem)

/-- A new node waits last, if it waits at all. -/
theorem Queue.settled (queue : Queue b.reached.graph b.reached.waiting) (tree : b.reached.graph.Tree root)
    (here : b.reached.graph.node? p = some w) (settled : Settled root b p w e s cov g' waiting') :
    Queue g' waiting' := by
  have placed := settled.placed
  have old := queue.grows tree placed.tree (placed.grows here (tree.fresh_not_child here))
  have new : b.reached.graph.nodes.size ∉ b.reached.waiting := by
    intro mem
    obtain ⟨_, known, _⟩ := queue.waits _ mem
    exact Nat.lt_irrefl _ (lt_of_node? known)
  refine ⟨(old.nodup.append (List.nodup_singleton _) (by simpa using new)).sublist settled.sublist, fun n mem => ?_⟩
  cases List.mem_append.1 (settled.sublist.subset mem) with
  | inl mem => exact old.waits n mem
  | inr is =>
    cases List.mem_singleton.1 is
    obtain ⟨rfl, _⟩ := settled.waits.1 mem
    have known := placed.node b.reached.graph.nodes.size
    rw [if_pos rfl] at known
    exact ⟨_, known, ⟨_, known, .inr ⟨p, IdSet.mem_singleton.2 rfl⟩⟩, rfl⟩

/-- What is in order of a desk. -/
structure Ordered (first : State) (root : NodeId) (b : Desk) : Prop where
  graph : b.engine.Orderly first b.diagram b.reached.graph root
  queue : Queue b.reached.graph b.reached.waiting

/-- `m` was added below `n` and waits: it is no target, and where states may be covered, nothing had all of it. -/
structure Sprout (b b' : Desk) (n m : NodeId) : Prop where
  link : ∃ e, b'.reached.graph.Link n e m
  node : ∃ v, b'.reached.graph.node? m = some v ∧ AbstractState.isTarget v.state = false ∧
    (v.state.location ∈ b'.engine.covering → Novel b'.diagram b.reached.graph v.state)

/-- What becomes of an ordered desk while the node `n` is expanded. -/
structure Enlarged (first : State) (root n : NodeId) (b b' : Desk) : Prop where
  before : Ordered first root b
  ordered : Ordered first root b'
  engine : b'.engine = b.engine
  surroundings : b'.surroundings = b.surroundings
  disabled : b'.reached.disabled = b.reached.disabled
  diagram : b.diagram.Extends b'.diagram
  graph : b.reached.graph.Grows b'.reached.graph
  inherits : b.reached.graph.Inherits b'.reached.graph
  waiting : ∃ new, b'.reached.waiting = b.reached.waiting ++ new ∧ ∀ m ∈ new, Sprout b b' n m

/-- Of what may cover others, nothing is lost. -/
theorem Enlarged.coverer (enlarged : Enlarged first root n b b') (here : b.reached.graph.node? m = some v)
    (attached : b.reached.graph.Attached m) (uncovered : v.coveredBy = none) :
    ∃ v', b'.reached.graph.node? m = some v' ∧ b'.reached.graph.Attached m ∧ v'.coveredBy = none ∧ v'.state = v.state := by
  obtain ⟨v', here', kept⟩ := enlarged.graph m v here
  have attached' := attached.grows enlarged.before.graph.sound.tree enlarged.ordered.graph.sound.tree enlarged.graph
  exact ⟨v', here', attached', kept.coveredBy.trans uncovered, kept.state⟩

theorem Sprout.before (sprout : Sprout b' b'' n m) (enlarged : Enlarged first root n b b') : Sprout b b'' n m where
  link := sprout.link
  node := by
    obtain ⟨v, here, plain, novel⟩ := sprout.node
    refine ⟨v, here, plain, fun allowed k u there attached uncovered subsumes => ?_⟩
    obtain ⟨u', there', attached', uncovered', same⟩ := enlarged.coverer there attached uncovered
    exact novel allowed k u' there' attached' uncovered' (same ▸ subsumes)

theorem Sprout.after (sprout : Sprout b b' n m) (before : Enlarged first root n b b') (enlarged : Enlarged first root n b' b'') :
    Sprout b b'' n m where
  link := by
    obtain ⟨e, w, here, label⟩ := sprout.link
    obtain ⟨w', here', kept⟩ := enlarged.graph n w here
    exact ⟨e, w', here', kept.children m _ label⟩
  node := by
    obtain ⟨v, here, plain, novel⟩ := sprout.node
    obtain ⟨v', here', kept⟩ := enlarged.graph m v here
    have sound := enlarged.before.graph.sound
    rw [← kept.state] at plain novel
    refine ⟨v', here', plain, fun allowed k u there attached uncovered subsumes => ?_⟩
    rw [enlarged.engine] at allowed
    obtain ⟨u', there', _, _, same⟩ := before.coverer there attached uncovered
    have tracked := (sound.proper k u' there').presence
    have tracked' := (sound.proper m v here).presence
    rw [same] at tracked
    rw [← kept.state] at tracked'
    exact novel allowed k u there attached uncovered ((Subsumes.extends_iff sound.fit enlarged.diagram tracked tracked').1 subsumes)

theorem Enlarged.refl (ordered : Ordered first root b) : Enlarged first root n b b :=
  ⟨ordered, ordered, rfl, rfl, rfl, .refl _, .refl _, .refl _, [], by simp⟩

theorem Enlarged.trans (one : Enlarged first root n b b') (two : Enlarged first root n b' b'') :
    Enlarged first root n b b'' where
  before := one.before
  ordered := two.ordered
  engine := two.engine.trans one.engine
  surroundings := two.surroundings.trans one.surroundings
  disabled := two.disabled.trans one.disabled
  diagram := one.diagram.trans two.diagram
  graph := one.graph.trans two.graph
  inherits := one.inherits.trans two.inherits
  waiting := by
    obtain ⟨new, waiting, sprouts⟩ := one.waiting
    obtain ⟨new', waiting', sprouts'⟩ := two.waiting
    refine ⟨new ++ new', by rw [waiting', waiting, List.append_assoc], fun m mem => ?_⟩
    cases List.mem_append.1 mem with
    | inl mem => exact (sprouts m mem).after one two
    | inr mem => exact (sprouts' m mem).before one

theorem Ordered.extends (ordered : Ordered first root b) (ext : b.diagram.Extends d') (ready : d'.Ready b.engine.tracks) :
    Ordered first root { b with diagram := d' } := ⟨ordered.graph.extends ext ready, ordered.queue⟩

theorem Ordered.onDiagram (ordered : Ordered first root b) (ext : b.diagram.Extends d') (ready : d'.Ready b.engine.tracks) :
    Enlarged first root n b { b with diagram := d' } :=
  ⟨ordered, ordered.extends ext ready, rfl, rfl, rfl, ext, .refl _, .refl _, [], by simp⟩

theorem Expandable.enlarged (expandable : Expandable b.reached.graph n s) (tree : b.reached.graph.Tree root)
    (enlarged : Enlarged first root n b b') : Expandable b'.reached.graph n s := by
  obtain ⟨w, here, same, uncovered⟩ := expandable.node
  obtain ⟨w', here', kept⟩ := enlarged.graph n w here
  exact ⟨⟨w', here', kept.state.trans same, kept.coveredBy.trans uncovered⟩,
    expandable.attached.grows tree enlarged.ordered.graph.sound.tree enlarged.graph, expandable.plain⟩

theorem mem_targets_enlarged (target : m ∈ b.reached.targets) (tree : b.reached.graph.Tree root)
    (enlarged : Enlarged first root n b b') : m ∈ b'.reached.targets := by
  rw [Exploration.mem_targets] at target ⊢
  obtain ⟨v, here, attached, accepts⟩ := target
  obtain ⟨v', here', kept⟩ := enlarged.graph m v here
  exact ⟨v', here', attached.grows tree enlarged.ordered.graph.sound.tree enlarged.graph, kept.state ▸ accepts⟩

/-- A new node waits at the end, if it waits at all. -/
theorem Settled.waiting_eq (settled : Settled root b p w e s cov g' waiting') (queue : Queue b.reached.graph b.reached.waiting) :
    ∃ new, waiting' = b.reached.waiting ++ new ∧ ∀ m ∈ new, m = b.reached.graph.nodes.size := by
  obtain ⟨old, new, rfl, sub, last⟩ := List.sublist_append_iff.1 settled.sublist
  refine ⟨new, ?_, fun m mem => List.mem_singleton.1 (last.subset mem)⟩
  have kept : b.reached.waiting ⊆ old := by
    intro k mem
    obtain ⟨v, here, _⟩ := queue.waits k mem
    have other : k ≠ b.reached.graph.nodes.size := Nat.ne_of_lt (lt_of_node? here)
    exact (List.mem_append.1 (settled.kept k mem other)).resolve_right fun mem => other (List.mem_singleton.1 (last.subset mem))
  rw [sub.eq_of_length_le (queue.nodup.subperm kept).length_le]

/-- The desk after a successor was placed. -/
theorem Enlarged.settled {last : Option NodeId} (ordered : Ordered first root b) (here : b.reached.graph.node? p = some w)
    (succeeds : b.engine.Succeeds b.diagram b.reached.disabled w.state e s)
    (guided : b.engine.Guided b.diagram w.state e s)
    (covers : ∀ m u, cov = some m → b.reached.graph.node? m = some u → Subsumes b.diagram u.state s)
    (novel : cov = none → AbstractState.isTarget s = false → s.location ∈ b.engine.covering →
      Novel b.diagram b.reached.graph s)
    (settled : Settled root b p w e s cov g' waiting') :
    Enlarged first root p b
      { b with reached := { b.reached with graph := g', waiting := waiting', last := last } } where
  before := ordered
  ordered :=
    ⟨ordered.graph.placed here succeeds.follows succeeds.proper guided covers settled.placed,
      ordered.queue.settled ordered.graph.sound.tree here settled⟩
  engine := rfl
  surroundings := rfl
  disabled := rfl
  diagram := .refl _
  graph := settled.placed.grows here (ordered.graph.sound.tree.fresh_not_child here)
  inherits := settled.placed.inherits here
  waiting := by
    obtain ⟨new, same, only⟩ := settled.waiting_eq ordered.queue
    refine ⟨new, same, fun m mem => ?_⟩
    cases only m mem
    obtain ⟨uncovered, plain⟩ := settled.waits.1 (same ▸ List.mem_append_right _ mem)
    obtain ⟨link, child⟩ := link_of_placed here settled.placed
    exact ⟨⟨e, link⟩, _, child, plain, novel uncovered plain⟩

theorem settle_orders (cover : Option NodeId) (ordered : Ordered first root b)
    (expandable : Expandable b.reached.graph n t)
    (succeeds : b.engine.Succeeds b.diagram b.reached.disabled t e s) (guided : b.engine.Guided b.diagram t e s)
    (spec : Covers b.diagram b.reached.graph s cover)
    (novel : cover = none → AbstractState.isTarget s = false → s.location ∈ b.engine.covering →
      Novel b.diagram b.reached.graph s) :
    Ensures T (settle n e s cover) b fun out b' => Enlarged first root n b b' ∧
      HasChild b'.diagram b'.reached.graph n e s ∧ ∀ m, out = some m → m ∈ b'.reached.targets := by
  obtain ⟨w, here, rfl, _⟩ := id expandable.node
  apply (settle_spec cover ordered.graph.sound.tree expandable here rfl spec).mono
  intro out b' holds
  obtain ⟨g', waiting', last, rfl, settled, live⟩ := holds
  refine ⟨.settled ordered here succeeds guided ?_ novel settled, hasChild_of_placed here settled.placed, live⟩
  intro m u covered known
  obtain ⟨_, u', known', _, _, subsumes⟩ := spec m covered
  rw [known] at known'
  cases known'
  exact subsumes

theorem place_orders (ordered : Ordered first root b) (expandable : Expandable b.reached.graph n t)
    (succeeds : b.engine.Succeeds b.diagram b.reached.disabled t e s) (guided : b.engine.Guided b.diagram t e s) :
    Ensures T (place n e s) b fun out b' => Enlarged first root n b b' ∧
      HasChild b'.diagram b'.reached.graph n e s ∧ ∀ m, out = some m → m ∈ b'.reached.targets := by
  obtain ⟨w, here, rfl, _⟩ := id expandable.node
  have sound := ordered.graph.sound
  have before := (sound.proper n w here).presence
  have tracked := succeeds.proper.presence
  apply place_spec sound tracked
  case duplicate =>
    intro d' ext ready child
    exact ⟨ordered.onDiagram ext ready, child.later sound tracked ext (.refl _), fun m found => nomatch found⟩
  case added =>
    intro d' cover ext ready covers novel
    have enlarged : Enlarged first root n b { b with diagram := d' } := ordered.onDiagram ext ready
    have guided' := guided.extends ordered.graph.known sound.fit.ready ext tracked
    apply (settle_orders cover enlarged.ordered expandable (succeeds.extends sound.fit ext before) guided' covers novel).mono
    intro out b' spec
    exact ⟨enlarged.trans spec.1, spec.2⟩

/-- Every successor that is found on an edge at one desk has a child at the other. -/
def Continued (b b' : Desk) (n : NodeId) (s : State) (e : EdgeId) : Prop :=
  ∀ edge, b.engine.program.edges[e]? = some edge →
    (b.engine.successors s e edge b.reached.disabled b.diagram).2.Extends b'.diagram ∧
    ∀ t ∈ (b.engine.successors s e edge b.reached.disabled b.diagram).1,
      b'.engine.Tracked b'.diagram t.presence ∧ HasChild b'.diagram b'.reached.graph n e t

theorem Continued.enlarged (continued : Continued b b' n s e) (sound : b'.engine.Sound b'.diagram b'.reached.graph root)
    (enlarged : Enlarged first root n b' b'') : Continued b b'' n s e := by
  intro edge there
  obtain ⟨ext, children⟩ := continued edge there
  refine ⟨ext.trans enlarged.diagram, fun t mem => ?_⟩
  obtain ⟨tracked, child⟩ := children t mem
  rw [enlarged.engine]
  exact ⟨tracked.extends enlarged.diagram, child.later sound tracked enlarged.diagram enlarged.graph⟩

/-- Between two desks an edge was followed. -/
def Followed (first : State) (root : NodeId) (b b' : Desk) (n : NodeId) (s : State) (e : EdgeId) : Prop :=
  ∃ b₁, Enlarged first root n b b₁ ∧ Enlarged first root n b₁ b' ∧ Continued b₁ b' n s e

theorem Followed.before (followed : Followed first root b' b'' n s e) (enlarged : Enlarged first root n b b') :
    Followed first root b b'' n s e := by
  obtain ⟨b₁, before, after, continued⟩ := followed
  exact ⟨b₁, enlarged.trans before, after, continued⟩

theorem Followed.after (followed : Followed first root b b' n s e) (enlarged : Enlarged first root n b' b'') :
    Followed first root b b'' n s e := by
  obtain ⟨b₁, before, after, continued⟩ := followed
  exact ⟨b₁, before, after.trans enlarged, continued.enlarged after.ordered.graph.sound enlarged⟩

theorem follow_orders (ordered : Ordered first root b) (expandable : Expandable b.reached.graph n s)
    (leaving : e ∈ b.engine.program.leaving s.location) :
    Ensures T (follow n s e) b fun r b' => Enlarged first root n b b' ∧
      Continued b b' n s e ∧ ∀ m ∈ r.2, m ∈ b'.reached.targets := by
  obtain ⟨w, here, rfl, _⟩ := id expandable.node
  obtain ⟨edge, there, source⟩ := Program.mem_leaving.1 leaving
  have sound := ordered.graph.sound
  have proper := sound.proper n w here
  have guided : Yields b.engine.tracks (b.engine.successors w.state e edge b.reached.disabled) b.diagram _ :=
    successors_guided sound.fit ordered.graph.known proper there source
  obtain ⟨ext₁, ready₁, spec⟩ := guided
  let found := (b.engine.successors w.state e edge b.reached.disabled b.diagram).1
  let b₁ : Desk := { b with diagram := (b.engine.successors w.state e edge b.reached.disabled b.diagram).2 }
  have enlarged₁ : Enlarged first root n b b₁ := ordered.onDiagram ext₁ ready₁
  have sound₁ := enlarged₁.ordered.graph.sound
  let Done (done : List State) (out : List NodeId) (b' : Desk) : Prop :=
    Enlarged first root n b b' ∧ Enlarged first root n b₁ b' ∧
      (∀ t ∈ done, b'.engine.Tracked b'.diagram t.presence ∧ HasChild b'.diagram b'.reached.graph n e t) ∧
      ∀ m ∈ out, m ∈ b'.reached.targets
  simp only [follow, ensures_bind, ensures_get, there]
  change Ensures T (found.filterMapM (place n e)) b₁ _
  apply (Ensures.filterMapM (I := Done) _ ⟨enlarged₁, .refl enlarged₁.ordered, by simp, by simp⟩).mono
  · intro out b' holds
    refine ⟨holds.1, fun edge' there' => ?_, holds.2.2.2⟩
    cases there.symm.trans there'
    exact ⟨holds.2.1.diagram, holds.2.2.1⟩
  intro t done out b' mem holds
  obtain ⟨total, enlarged, children, targets⟩ := holds
  obtain ⟨succeeds, guided⟩ := spec t mem
  have tracked := succeeds.proper.presence
  have succeeds' : b'.engine.Succeeds b'.diagram b'.reached.disabled w.state e t := by
    rw [enlarged.engine, enlarged.disabled]
    exact succeeds.extends sound₁.fit enlarged.diagram (proper.presence.extends ext₁)
  have guided' : b'.engine.Guided b'.diagram w.state e t := by
    rw [enlarged.engine]
    exact guided.extends enlarged₁.ordered.graph.known ready₁ enlarged.diagram tracked
  apply (place_orders enlarged.ordered (expandable.enlarged sound.tree total) succeeds' guided').mono
  intro out' b'' spec'
  obtain ⟨enlarged', child, target⟩ := spec'
  have sound' := enlarged.ordered.graph.sound
  refine ⟨total.trans enlarged', enlarged.trans enlarged', fun u mem' => ?_, fun m mem' => ?_⟩
  · rw [enlarged'.engine]
    cases List.mem_append.1 mem' with
    | inl old =>
      obtain ⟨tracked, child⟩ := children u old
      exact ⟨tracked.extends enlarged'.diagram, child.later sound' tracked enlarged'.diagram enlarged'.graph⟩
    | inr new =>
      rw [List.mem_singleton.1 new]
      exact ⟨succeeds'.proper.presence.extends enlarged'.diagram, child⟩
  · cases List.mem_append.1 mem' with
    | inl old => exact mem_targets_enlarged (targets m old) sound'.tree enlarged'
    | inr new => exact target m (by simpa using new)

/-- Marking a node as having no continuation changes nothing else. -/
theorem Enlarged.marked (ordered : Ordered first root b) (here : b.reached.graph.node? n = some v)
    (marked : b.reached.graph.Marked g' n v) :
    Enlarged first root n b { b with reached := { b.reached with graph := g' } } :=
  have tree := ordered.graph.sound.tree
  have tree' := tree.marked here marked
  have grows := marked.grows here
  ⟨ordered, ⟨ordered.graph.shrinks tree' (marked.shrinks here), ordered.queue.grows tree tree' grows⟩, rfl, rfl, rfl,
    .refl _, grows, (marked.shrinks here).inherits marked.size, [], by simp⟩

/-- When a node has been expanded, every successor that was found on the way has a child. -/
theorem expand_orders (ordered : Ordered first root b) (expandable : Expandable b.reached.graph n s) :
    Ensures T (expand n s) b fun out b' => Enlarged first root n b b' ∧
      (∀ e ∈ b.engine.program.leaving s.location, Followed first root b b' n s e) ∧
      ∀ m ∈ out, m ∈ b'.reached.targets := by
  have tree := ordered.graph.sound.tree
  let leaving := b.engine.program.leaving s.location
  let Done (done : List EdgeId) (out : List (Nat × List NodeId)) (b' : Desk) : Prop :=
    Enlarged first root n b b' ∧ (∀ e ∈ done, Followed first root b b' n s e) ∧
      ∀ r ∈ out, ∀ m ∈ r.2, m ∈ b'.reached.targets
  have followed : Ensures T (leaving.mapM (follow n s)) b (Done leaving) := by
    apply Ensures.mapM (I := Done) _ ⟨.refl ordered, by simp, by simp⟩
    intro e done out b' mem holds
    obtain ⟨enlarged, followed, targets⟩ := holds
    have mem' : e ∈ b'.engine.program.leaving s.location := by
      rw [enlarged.engine]
      exact mem
    apply (follow_orders enlarged.ordered (expandable.enlarged tree enlarged) mem').mono
    intro r b'' spec
    obtain ⟨enlarged', continued, targets'⟩ := spec
    refine ⟨enlarged.trans enlarged', fun f mem => ?_, fun r' mem m target => ?_⟩
    · cases List.mem_append.1 mem with
      | inl old => exact (followed f old).after enlarged'
      | inr new =>
        rw [List.mem_singleton.1 new]
        exact ⟨b', enlarged, enlarged', continued⟩
    · cases List.mem_append.1 mem with
      | inl old => exact mem_targets_enlarged (targets r' old m target) enlarged.ordered.graph.sound.tree enlarged'
      | inr new =>
        rw [List.mem_singleton.1 new] at target
        exact targets' m target
  rw [expand, ensures_bind, ensures_get, ensures_bind]
  apply followed.mono
  intro results b' holds
  obtain ⟨enlarged, followed, targets⟩ := holds
  have sound := enlarged.ordered.graph.sound
  have flat : ∀ m ∈ results.flatMap (·.2), m ∈ b'.reached.targets := by
    intro m mem
    obtain ⟨r, here, target⟩ := List.mem_flatMap.1 mem
    exact targets r here m target
  simp only
  split
  next =>
    obtain ⟨v, known, _⟩ := expandable.enlarged tree enlarged |>.node
    obtain ⟨g', ok, marked⟩ := setBottom_spec known
    have marked' := Enlarged.marked enlarged.ordered known marked
    rw [ensures_bind]
    apply ensures_changeGraph ok
    exact ⟨enlarged.trans marked', fun e mem => (followed e mem).after marked',
      fun m mem => mem_targets_enlarged (flat m mem) sound.tree marked'⟩
  next => exact ⟨enlarged, followed, flat⟩

theorem visit_orders (ordered : Ordered first root b) :
    Ensures T (visit n) b fun out b' => Enlarged first root n b b' ∧
      (∀ s, Expandable b.reached.graph n s → (∀ c, b.diagram.Within s.presence c → ¬b.engine.Admits b.diagram c) ∨
        ∀ e ∈ b.engine.program.leaving s.location, Followed first root b b' n s e) ∧
      ∀ m ∈ out, m ∈ b'.reached.targets := by
  have sound := ordered.graph.sound
  rw [visit, ensures_bind, ensures_get]
  cases here : b.reached.graph.node? n with
  | none =>
    refine ⟨.refl ordered, fun s expandable => ?_, by simp⟩
    obtain ⟨w, known, _⟩ := expandable.node
    rw [here] at known
    cases known
  | some v =>
    have state : ∀ s, Expandable b.reached.graph n s → s = v.state ∧ v.coveredBy = none := by
      intro s expandable
      obtain ⟨w, known, same, uncovered⟩ := expandable.node
      cases here.symm.trans known
      exact ⟨same.symm, uncovered⟩
    dsimp only
    split
    next skipped =>
      refine ⟨.refl ordered, fun s expandable => ?_, by simp⟩
      obtain ⟨rfl, uncovered⟩ := state s expandable
      have able : canCover b.reached.graph n = true :=
        (canCover_iff sound.tree).2 ⟨expandable.attached, fun w known => by cases here.symm.trans known; exact uncovered⟩
      rw [able, expandable.plain] at skipped
      cases skipped
    next open' =>
      rw [Bool.or_eq_true, not_or, Bool.not_eq_true', Bool.not_eq_false, Bool.not_eq_true,
        canCover_iff sound.tree] at open'
      obtain ⟨⟨attached, uncovered⟩, plain⟩ := open'
      have expandable : Expandable b.reached.graph n v.state := ⟨⟨v, here, rfl, uncovered v here⟩, attached, plain⟩
      rw [ensures_bind]
      apply ensures_onDiagram (isRelevant_yields sound.fit (sound.proper n v here).presence)
      intro relevant d₁ ext ready spec
      have enlarged : Enlarged first root n b { b with diagram := d₁ } := ordered.onDiagram ext ready
      cases relevant with
      | true =>
        apply (expand_orders enlarged.ordered expandable).mono
        intro out b' spec
        obtain ⟨enlarged', followed, targets⟩ := spec
        refine ⟨enlarged.trans enlarged', fun s expandable => .inr ?_, targets⟩
        obtain ⟨rfl, _⟩ := state s expandable
        exact fun e mem => (followed e mem).before enlarged
      | false =>
        refine ⟨enlarged, fun s expandable => .inl ?_, by simp⟩
        obtain ⟨rfl, _⟩ := state s expandable
        exact spec rfl

end GoalCoverage.Explorer
