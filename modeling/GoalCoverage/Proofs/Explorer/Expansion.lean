import GoalCoverage.Proofs.Explorer.Placement

/-!
The expansion of a node. The desk stays in order while successors are placed below the node, and the graph
only grows (`Grown`); in the end the node has all its children (`visit_ensures`).
-/

namespace GoalCoverage.Explorer

open Diagram StateGraph Procedure

variable {b b' b'' : Desk} {s t : State} {n m p root : NodeId} {e : EdgeId} {g g' : StateGraph State}
  {v w : GraphNode State} {busy cov : Option NodeId} {d' : Diagram} {α : Type} {T : Failure → Prop}

/-- The exploration of a desk is in order, but for the children of the busy node. -/
structure Steady (root : NodeId) (busy : Option NodeId) (b : Desk) : Prop where
  free : ∀ o ∈ b.engine.observers, o.automaton.isGuarded = false
  sound : b.engine.Sound b.diagram b.reached.graph root
  complete : b.engine.Complete b.diagram b.reached.graph root b.reached.waiting b.reached.disabled busy
  queued : ∀ n ∈ b.reached.waiting, ∃ v, b.reached.graph.node? n = some v

/-- What becomes of a desk while a node is expanded. -/
structure Grown (root : NodeId) (busy : Option NodeId) (b b' : Desk) : Prop where
  steady : Steady root busy b'
  engine : b'.engine = b.engine
  surroundings : b'.surroundings = b.surroundings
  disabled : b'.reached.disabled = b.reached.disabled
  diagram : b.diagram.Extends b'.diagram
  graph : b.reached.graph.Grows b'.reached.graph
  fresh : ∀ n v, b'.reached.graph.node? n = some v → (∃ u, b.reached.graph.node? n = some u) ∨
    b'.engine.Ripe b'.diagram b'.reached.disabled v.state

/-- A node that may be expanded: attached, uncovered and no target. -/
structure Expandable (g : StateGraph State) (n : NodeId) (s : State) : Prop where
  node : ∃ w, g.node? n = some w ∧ w.state = s ∧ w.coveredBy = none
  attached : g.Attached n
  plain : AbstractState.isTarget s = false

/-- There is a child for the edge that has all of a successor. -/
def HasChild (d : Diagram) (g : StateGraph State) (n : NodeId) (e : EdgeId) (s : State) : Prop :=
  ∃ m w, g.Link n e m ∧ g.node? m = some w ∧ Subsumes d w.state s

theorem Grown.refl (steady : Steady root busy b) : Grown root busy b b where
  steady := steady
  engine := rfl
  surroundings := rfl
  disabled := rfl
  diagram := .refl _
  graph := .refl _
  fresh _ v here := .inl ⟨v, here⟩

theorem Grown.trans {busy' : Option NodeId} (first : Grown root busy' b b') (second : Grown root busy b' b'') :
    Grown root busy b b'' where
  steady := second.steady
  engine := second.engine.trans first.engine
  surroundings := second.surroundings.trans first.surroundings
  disabled := second.disabled.trans first.disabled
  diagram := first.diagram.trans second.diagram
  graph := first.graph.trans second.graph
  fresh n v here := by
    obtain ⟨u, old⟩ | ripe := second.fresh n v here
    · obtain older | ripe := first.fresh n u old
      · exact .inl older
      · obtain ⟨v', here', kept⟩ := second.graph n u old
        rw [here] at here'
        cases here'
        have sound := first.steady.sound
        rw [second.engine, second.disabled, kept.state]
        exact .inr (ripe.extends sound.fit second.diagram (sound.proper n u old).presence)
    · exact .inr ripe

theorem Expandable.grown (expandable : Expandable b.reached.graph n s) (tree : b.reached.graph.Tree root)
    (grown : Grown root busy b b') : Expandable b'.reached.graph n s := by
  obtain ⟨w, here, same, uncovered⟩ := expandable.node
  obtain ⟨w', here', kept⟩ := grown.graph n w here
  refine ⟨⟨w', here', kept.state.trans same, kept.coveredBy.trans uncovered⟩, ?_, expandable.plain⟩
  exact expandable.attached.grows tree grown.steady.sound.tree grown.graph

theorem mem_targets_grown (target : n ∈ b.reached.targets) (tree : b.reached.graph.Tree root)
    (grown : Grown root busy b b') : n ∈ b'.reached.targets := by
  rw [Exploration.mem_targets] at target ⊢
  obtain ⟨v, here, attached, accepts⟩ := target
  obtain ⟨v', here', kept⟩ := grown.graph n v here
  refine ⟨v', here', attached.grows tree grown.steady.sound.tree grown.graph, ?_⟩
  rw [kept.state]
  exact accepts

theorem HasChild.later {x : Explorer} {d : Diagram} (child : HasChild d g n e s) (sound : x.Sound d g root)
    (tracked : x.Tracked d s.presence) (ext : d.Extends d') (grows : g.Grows g') : HasChild d' g' n e s := by
  obtain ⟨m, w, ⟨u, before, label⟩, here, subsumes⟩ := child
  obtain ⟨u', after, keptu⟩ := grows n u before
  obtain ⟨w', here', keptw⟩ := grows m w here
  refine ⟨m, w', ⟨u', after, keptu.children m _ label⟩, here', ?_⟩
  rw [keptw.state]
  exact subsumes.extends sound.fit ext (sound.proper m w here).presence tracked

theorem HasChild.grown (child : HasChild b.diagram b.reached.graph n e s) (steady : Steady root busy b)
    (tracked : b.engine.Tracked b.diagram s.presence) (grown : Grown root busy b b') :
    HasChild b'.diagram b'.reached.graph n e s :=
  child.later steady.sound tracked grown.diagram grown.graph

theorem Served.grown (served : b.engine.Served b.diagram b.reached.graph n s e) (steady : Steady root busy b)
    (tracked : b.engine.Tracked b.diagram s.presence) (grown : Grown root busy b b') :
    b'.engine.Served b'.diagram b'.reached.graph n s e := by
  rw [grown.engine]
  exact (served.extends steady.sound grown.diagram tracked).grows grown.graph

/-- Computations on regions do not disturb anything. -/
theorem Steady.onDiagram (steady : Steady root busy b) (ext : b.diagram.Extends d')
    (ready : d'.Ready b.engine.tracks) : Grown root busy b { b with diagram := d' } where
  steady :=
    { free := steady.free
      sound := steady.sound.extends ext ready
      complete := steady.complete.extends steady.sound ext
      queued := steady.queued }
  engine := rfl
  surroundings := rfl
  disabled := rfl
  diagram := ext
  graph := .refl _
  fresh _ v here := .inl ⟨v, here⟩

theorem ensures_onDiagram {m : StateM Diagram α} {Q : α → Diagram → Prop} {P : α → Desk → Prop}
    (yields : Yields b.engine.tracks m b.diagram Q)
    (next : ∀ a d', b.diagram.Extends d' → d'.Ready b.engine.tracks → Q a d' → P a { b with diagram := d' }) :
    Ensures T (onDiagram m) b P :=
  next _ _ yields.1 yields.2.1 yields.2.2

theorem ensures_onDiagram_same {m : StateM Diagram α} {a : α} {P : α → Desk → Prop} (same : m b.diagram = (a, b.diagram))
    (holds : P a b) : Ensures T (onDiagram m) b P := by
  rw [Ensures, onDiagram, same]
  exact holds

theorem ensures_onReached {f : Exploration State → Except Violation (α × Exploration State)} {a : α}
    {x : Exploration State} {P : α → Desk → Prop} (ok : f b.reached = .ok (a, x))
    (holds : P a { b with reached := x }) : Ensures T (onReached f) b P := by
  rw [onReached, ensures_within, ensures_attempt ok]
  exact holds

theorem ensures_changeReached {f : Exploration State → Exploration State} {P : Unit → Desk → Prop}
    (holds : P () { b with reached := f b.reached }) : Ensures T (changeReached f) b P := holds

theorem ensures_changeGraph {f : StateGraph State → Except Violation (StateGraph State)}
    {P : Unit → Desk → Prop} (ok : f b.reached.graph = .ok g)
    (holds : P () { b with reached := { b.reached with graph := g } }) : Ensures T (changeGraph f) b P := by
  apply ensures_onReached _ holds
  simp only [ok, bind, Except.bind, pure, Except.pure]

theorem Subsumes.refl (d : Diagram) (s : State) : Subsumes d s s := ⟨rfl, rfl, rfl, fun _ h => h⟩

theorem placed_of_added (tree : g.Tree root) (here : g.node? p = some w) (attached : g.Attached p)
    (uncovered : w.coveredBy = none) (plain : AbstractState.isTarget w.state = false)
    (added : g.Added g' p w s (some e)) : Placed g g' root p w s e none :=
  ⟨added.node, tree.added here attached uncovered plain added⟩

theorem placed_of_covered {g₁ : StateGraph State} {u : GraphNode State} (tree : g.Tree root)
    (here : g.node? p = some w) (placed : Placed g g₁ root p w s e none) (coverer : g.node? m = some u)
    (attached : g.Attached m) (uncovered : u.coveredBy = none) (plain : AbstractState.isTarget s = false)
    (covers : AbstractState.isTarget u.state = false)
    (covered : g₁.Covered g' g.nodes.size ⟨s, .singleton p, ∅, none, false⟩ m) :
    Placed g g' root p w s e (some m) := by
  have grows := placed.grows here (tree.fresh_not_child here)
  have new : g₁.node? g.nodes.size = some ⟨s, .singleton p, ∅, none, false⟩ := by
    rw [placed.node, if_pos rfl]
  obtain ⟨u', coverer', kept⟩ := grows m u coverer
  have alone : ∀ k y, g₁.node? k = some y → y.coveredBy ≠ some g.nodes.size := by
    intro k y known by_new
    obtain ⟨_, _, none, _⟩ | ⟨_, z, old, _, _, same, _⟩ := placed.cases here known
    · rw [none] at by_new
      cases by_new
    · obtain ⟨_, _, _, is, _⟩ := tree.cover k z _ old (same.symm.trans by_new)
      exact Nat.lt_irrefl _ (lt_of_node? is)
  refine ⟨fun k => ?_, placed.tree.covered' new coverer' (Nat.ne_of_gt (lt_of_node? coverer)) rfl
    ⟨p, IdSet.mem_singleton.2 rfl⟩ plain (attached.grows tree placed.tree grows)
    (kept.coveredBy.trans uncovered) (kept.state ▸ covers) alone covered⟩
  rw [covered.node, placed.node]
  split_ifs <;> rfl

/-- The desk after a successor was placed. -/
theorem Grown.placed {waiting' : List NodeId} {last : Option NodeId} (steady : Steady root busy b)
    (here : b.reached.graph.node? p = some w)
    (succeeds : b.engine.Succeeds b.diagram b.reached.disabled w.state e s)
    (placed : Placed b.reached.graph g' root p w s e cov)
    (covers : ∀ m u, cov = some m → b.reached.graph.node? m = some u → Subsumes b.diagram u.state s)
    (kept : ∀ n ∈ b.reached.waiting, n ≠ b.reached.graph.nodes.size → n ∈ waiting')
    (idle : cov = none → AbstractState.isTarget s = false → b.reached.graph.nodes.size ∈ waiting')
    (only : ∀ n ∈ waiting', n ∈ b.reached.waiting ∨ n = b.reached.graph.nodes.size) :
    Grown root busy b
      { b with reached := { b.reached with graph := g', waiting := waiting', last := last } } where
  steady :=
    { free := steady.free
      sound := steady.sound.placed here succeeds.follows succeeds.proper placed
      complete := steady.complete.placed steady.sound here succeeds.credits placed covers kept idle
      queued := fun n mem => by
        cases only n mem with
        | inl old =>
          obtain ⟨v, known⟩ := steady.queued n old
          obtain ⟨v', known', _⟩ := placed.grows here (steady.sound.tree.fresh_not_child here) n v known
          exact ⟨v', known'⟩
        | inr new => exact ⟨_, by rw [placed.node, if_pos new]⟩ }
  engine := rfl
  surroundings := rfl
  disabled := rfl
  diagram := .refl _
  graph := placed.grows here (steady.sound.tree.fresh_not_child here)
  fresh n v known := by
    obtain ⟨_, same, _⟩ | ⟨_, u, old, _⟩ := placed.cases here known
    · rw [same]
      exact .inr succeeds.ripe
    · exact .inl ⟨u, old⟩

theorem link_of_placed (here : g.node? p = some w) (placed : Placed g g' root p w s e cov) :
    g'.Link p e g.nodes.size ∧ g'.node? g.nodes.size = some ⟨s, .singleton p, ∅, cov, false⟩ := by
  have ne : p ≠ g.nodes.size := Nat.ne_of_lt (lt_of_node? here)
  let w' := { w with children := w.children.insert g.nodes.size (some e) }
  refine ⟨⟨w', ?_, ?_⟩, ?_⟩
  · rw [placed.node, if_neg ne, if_pos rfl]
  · rw [IdMap.get?_insert, if_pos rfl]
  · rw [placed.node, if_pos rfl]

theorem hasChild_of_placed {d : Diagram} (here : g.node? p = some w)
    (placed : Placed g g' root p w s e cov) : HasChild d g' p e s :=
  have ⟨link, child⟩ := link_of_placed here placed
  ⟨g.nodes.size, _, link, child, .refl d s⟩

/-- The graph and the frontier after a successor was added: the node waits unless it is covered or a target. -/
structure Settled (root : NodeId) (b : Desk) (n : NodeId) (w : GraphNode State) (e : EdgeId) (s : State)
    (cover : Option NodeId) (g' : StateGraph State) (waiting' : List NodeId) : Prop where
  placed : Placed b.reached.graph g' root n w s e cover
  sublist : waiting'.Sublist (b.reached.waiting ++ [b.reached.graph.nodes.size])
  kept : ∀ k ∈ b.reached.waiting, k ≠ b.reached.graph.nodes.size → k ∈ waiting'
  waits : b.reached.graph.nodes.size ∈ waiting' ↔ cover = none ∧ AbstractState.isTarget s = false

/-- Adding a successor once it is known what covers it. -/
theorem settle_spec (cover : Option NodeId) (tree : b.reached.graph.Tree root)
    (expandable : Expandable b.reached.graph n t) (here : b.reached.graph.node? n = some w) (same : w.state = t)
    (spec : ∀ m, cover = some m → AbstractState.isTarget s = false ∧ ∃ u, b.reached.graph.node? m = some u ∧
      b.reached.graph.Attached m ∧ u.coveredBy = none ∧ Subsumes b.diagram u.state s) :
    Ensures T (settle n e s cover) b fun out b' => ∃ g' waiting' last,
      b' = { b with reached := { b.reached with graph := g', waiting := waiting', last := last } } ∧
      Settled root b n w e s cover g' waiting' ∧ ∀ m, out = some m → m ∈ b'.reached.targets := by
  obtain ⟨w', here', same', uncovered⟩ := expandable.node
  rw [here] at here'
  cases here'
  have plain : AbstractState.isTarget w.state = false := same ▸ expandable.plain
  have fresh := tree.fresh_not_child here
  obtain ⟨g', ok, added⟩ := addChild_spec s (some e) here fresh
  have placed := placed_of_added tree here expandable.attached uncovered plain added
  have new : g'.node? b.reached.graph.nodes.size = some ⟨s, .singleton n, ∅, none, false⟩ := by
    rw [added.node, if_pos rfl]
  rw [settle, ensures_bind]
  apply ensures_onReached (Exploration.add_eq ok)
  cases cover with
  | some m =>
    obtain ⟨plain, u, coverer, attached, open', subsumes⟩ := spec m rfl
    obtain ⟨u', coverer', _⟩ := added.grows here fresh m u coverer
    obtain ⟨g'', ok', marked⟩ := cover_spec new coverer' (Nat.ne_of_gt (lt_of_node? coverer))
    have covers : AbstractState.isTarget u.state = false := by
      rw [← plain]
      exact congrArg (fun a : IdSet => !a.isEmpty) subsumes.accepted
    rw [ensures_bind]
    apply ensures_changeReached
    rw [ensures_bind]
    apply ensures_changeGraph ok'
    refine ⟨_, _, _, rfl, ⟨placed_of_covered tree here placed coverer attached open' plain covers marked,
      List.filter_sublist, fun k mem other => ?_, ?_⟩, fun m found => nomatch found⟩
    · simp [Exploration.removeWaiting, mem, other]
    · simp [Exploration.removeWaiting]
  | none =>
    cases target : AbstractState.isTarget s with
    | false =>
      refine ⟨_, _, _, rfl, ⟨placed, .refl _, fun k mem _ => ?_, ?_⟩, fun m found => nomatch found⟩
      · simp [mem]
      · simp [target]
    | true =>
      refine ⟨_, _, _, rfl, ⟨placed, List.filter_sublist, fun k mem other => ?_, ?_⟩, fun m found => ?_⟩
      · simp [mem, other]
      · simp [target]
      · cases found
        rw [Exploration.mem_targets]
        have attached : g'.Attached b.reached.graph.nodes.size := ⟨_, new, .inr ⟨n, IdSet.mem_singleton.2 rfl⟩⟩
        exact ⟨_, new, attached, target⟩

theorem settle_ensures (cover : Option NodeId) (steady : Steady root busy b)
    (expandable : Expandable b.reached.graph n t)
    (succeeds : b.engine.Succeeds b.diagram b.reached.disabled t e s)
    (spec : ∀ m, cover = some m → AbstractState.isTarget s = false ∧ ∃ u, b.reached.graph.node? m = some u ∧
      b.reached.graph.Attached m ∧ u.coveredBy = none ∧ Subsumes b.diagram u.state s) :
    Ensures T (settle n e s cover) b fun out b' => Grown root busy b b' ∧
      HasChild b'.diagram b'.reached.graph n e s ∧ ∀ m, out = some m → m ∈ b'.reached.targets := by
  obtain ⟨w, here, rfl, _⟩ := id expandable.node
  apply (settle_spec cover steady.sound.tree expandable here rfl spec).mono
  intro out b' holds
  obtain ⟨g', waiting', last, rfl, settled, live⟩ := holds
  refine ⟨.placed steady here succeeds settled.placed ?_ settled.kept ?_ ?_, hasChild_of_placed here settled.placed,
    live⟩
  · intro m u covered known
    obtain ⟨_, u', known', _, _, subsumes⟩ := spec m covered
    rw [known] at known'
    cases known'
    exact subsumes
  · exact fun uncovered plain => settled.waits.2 ⟨uncovered, plain⟩
  · intro k mem
    simpa using settled.sublist.subset mem

/-- What may cover a successor, in a diagram. -/
def Covers (d : Diagram) (g : StateGraph State) (s : State) (cover : Option NodeId) : Prop :=
  ∀ m, cover = some m → AbstractState.isTarget s = false ∧ ∃ u, g.node? m = some u ∧ g.Attached m ∧
    u.coveredBy = none ∧ Subsumes d u.state s

theorem Novel.extends {x : Explorer} {d : Diagram} (novel : Novel d g s) (sound : x.Sound d g root)
    (tracked : x.Tracked d s.presence) (ext : d.Extends d') : Novel d' g s := by
  intro m v here attached uncovered subsumes
  exact novel m v here attached uncovered
    ((Subsumes.extends_iff sound.fit ext (sound.proper m v here).presence tracked).1 subsumes)

/-- A successor is a duplicate, or it is added once it is known what covers it; before, only the diagram grows. -/
theorem place_spec {P : Option NodeId → Desk → Prop} (sound : b.engine.Sound b.diagram b.reached.graph root)
    (tracked : b.engine.Tracked b.diagram s.presence)
    (duplicate : ∀ d', b.diagram.Extends d' → d'.Ready b.engine.tracks → HasChild b.diagram b.reached.graph n e s →
      P none { b with diagram := d' })
    (added : ∀ d' cover, b.diagram.Extends d' → d'.Ready b.engine.tracks → Covers d' b.reached.graph s cover →
      (cover = none → AbstractState.isTarget s = false → s.location ∈ b.engine.covering → Novel d' b.reached.graph s) →
      Ensures T (settle n e s cover) { b with diagram := d' } P) :
    Ensures T (place n e s) b P := by
  rw [place, ensures_bind, ensures_get, ensures_bind]
  apply ensures_onDiagram (isDuplicate_yields sound.fit sound.proper tracked)
  intro known d₁ ext₁ ready₁ spec₁
  cases known with
  | true => exact duplicate d₁ ext₁ ready₁ (spec₁.1 rfl)
  | false =>
    simp only [Bool.false_eq_true, if_false]
    split
    next allowed =>
      rw [Bool.and_eq_true, Bool.not_eq_true'] at allowed
      have sound₁ := sound.extends ext₁ ready₁
      have tracked₁ := tracked.extends ext₁
      have search := findCover_yields sound.tree sound₁.fit sound₁.proper tracked₁
      rw [ensures_bind]
      apply ensures_onDiagram (b := { b with diagram := d₁ }) search
      intro cover d₂ ext₂ ready₂ spec₂
      obtain ⟨found, missed⟩ := spec₂
      apply added d₂ cover (ext₁.trans ext₂) ready₂
      · intro m is
        obtain ⟨u, coverer, attached, open', subsumes⟩ := found m is
        exact ⟨allowed.1, u, coverer, attached, open',
          subsumes.extends sound₁.fit ext₂ (sound₁.proper m u coverer).presence tracked₁⟩
      · exact fun none _ _ => (missed none).extends sound₁ tracked₁ ext₂
    next forbidden =>
      refine added d₁ none ext₁ ready₁ (fun m found => nomatch found) fun _ plain here => absurd ?_ forbidden
      rw [plain, IdSet.contains_iff.2 here]
      rfl

theorem place_ensures (steady : Steady root busy b) (expandable : Expandable b.reached.graph n t)
    (succeeds : b.engine.Succeeds b.diagram b.reached.disabled t e s) :
    Ensures T (place n e s) b fun out b' => Grown root busy b b' ∧
      HasChild b'.diagram b'.reached.graph n e s ∧ ∀ m, out = some m → m ∈ b'.reached.targets := by
  obtain ⟨w, here, rfl, uncovered⟩ := id expandable.node
  have before := (steady.sound.proper n w here).presence
  have tracked := succeeds.proper.presence
  apply place_spec steady.sound tracked
  case duplicate =>
    intro d' ext ready child
    have grown := steady.onDiagram ext ready
    exact ⟨grown, child.grown steady tracked grown, fun m found => nomatch found⟩
  case added =>
    intro d' cover ext ready covers _
    have grown := steady.onDiagram ext ready
    apply (settle_ensures cover grown.steady expandable (succeeds.extends steady.sound.fit ext before) covers).mono
    intro out b' spec
    exact ⟨grown.trans spec.1, spec.2⟩

/-- All edges but those that are still to be followed have been served. -/
theorem follow_ensures (steady : Steady root busy b) (expandable : Expandable b.reached.graph n s)
    (leaving : e ∈ b.engine.program.leaving s.location) :
    Ensures T (follow n s e) b fun r b' => Grown root busy b b' ∧
      b'.engine.Served b'.diagram b'.reached.graph n s e ∧ ∀ m ∈ r.2, m ∈ b'.reached.targets := by
  obtain ⟨w, here, rfl, uncovered⟩ := id expandable.node
  obtain ⟨edge, there, source⟩ := Program.mem_leaving.1 leaving
  have fit := steady.sound.fit
  have proper := steady.sound.proper n w here
  simp only [follow, ensures_bind, ensures_get, there]
  apply ensures_onDiagram (successors_yields fit steady.free proper there source)
  intro found d₁ ext₁ ready₁ spec
  let b₁ : Desk := { b with diagram := d₁ }
  have grown₁ : Grown root busy b b₁ := steady.onDiagram ext₁ ready₁
  have tree := grown₁.steady.sound.tree
  have ready : Expandable b₁.reached.graph n w.state := expandable
  let Done (done : List State) (out : List NodeId) (b' : Desk) : Prop :=
    Grown root busy b₁ b' ∧
      (∀ t ∈ done, b'.engine.Tracked b'.diagram t.presence ∧ HasChild b'.diagram b'.reached.graph n e t) ∧
      ∀ m ∈ out, m ∈ b'.reached.targets
  have placed : Ensures T (found.filterMapM (place n e)) b₁ (Done found) := by
    apply Ensures.filterMapM _ ⟨.refl grown₁.steady, by simp, by simp⟩
    intro t done out b' mem holds
    obtain ⟨grown, children, targets⟩ := holds
    have succeeds : b'.engine.Succeeds b'.diagram b'.reached.disabled w.state e t := by
      rw [grown.engine, grown.disabled]
      exact (spec.1 t mem).extends grown₁.steady.sound.fit grown.diagram (proper.presence.extends ext₁)
    apply (place_ensures grown.steady (ready.grown tree grown) succeeds).mono
    intro out' b'' spec'
    obtain ⟨grown', child, target⟩ := spec'
    refine ⟨grown.trans grown', fun u mem' => ?_, fun m mem' => ?_⟩
    · rw [grown'.engine]
      cases List.mem_append.1 mem' with
      | inl old =>
        obtain ⟨tracked, child⟩ := children u old
        exact ⟨tracked.extends grown'.diagram, child.grown grown.steady tracked grown'⟩
      | inr new =>
        rw [List.mem_singleton.1 new]
        exact ⟨succeeds.proper.presence.extends grown'.diagram, child⟩
    · cases List.mem_append.1 mem' with
      | inl old => exact mem_targets_grown (targets m old) grown.steady.sound.tree grown'
      | inr new => exact target m (by simpa using new)
  apply placed.mono
  intro out b' holds
  obtain ⟨grown, children, targets⟩ := holds
  refine ⟨grown₁.trans grown, ?_, targets⟩
  have total := grown₁.trans grown
  rw [total.engine]
  intro c edge' admits within passes there' leaving' sets joint
  rw [there] at there'
  cases there'
  rw [proper.presence.within_iff fit.ready total.diagram] at within
  rw [fit.admits_iff total.diagram] at admits
  rw [fit.passes_iff total.diagram] at passes
  obtain ⟨t, mem, location, observers, holds⟩ := spec.2 c within admits passes sets joint
  obtain ⟨_, m, v, link, known, subsumes⟩ := children t mem
  refine ⟨m, v, link, known, subsumes.location.trans location, subsumes.observers.trans observers, ?_⟩
  apply subsumes.presence c
  rwa [(spec.1 t mem).proper.presence.within_iff ready₁ grown.diagram]

/-- Marking a node as having no continuation changes nothing else. -/
theorem Grown.marked (steady : Steady root busy b) (here : b.reached.graph.node? n = some v)
    (marked : b.reached.graph.Marked g' n v) :
    Grown root busy b { b with reached := { b.reached with graph := g' } } := by
  have grows := marked.grows here
  have shrinks := marked.shrinks here
  have tree := steady.sound.tree
  have tree' := tree.marked here marked
  refine ⟨⟨steady.free, steady.sound.shrinks tree' shrinks, ?_, fun m mem => ?_⟩, rfl, rfl, rfl, .refl _, grows,
    fun m u known => ?_⟩
  · apply steady.complete.shrinks shrinks
    intro m y u old known attached uncovered plain free idle
    obtain ⟨u', known', kept⟩ := grows m y old
    rw [known] at known'
    cases known'
    have attached' : b.reached.graph.Attached m := by
      rw [tree.attached_iff old, ← kept.parents]
      exact (tree'.attached_iff known).1 attached
    have uncovered' := kept.coveredBy.symm.trans uncovered
    exact fun e => (steady.complete.expanded m y old attached' uncovered' plain free idle e).grows grows
  · obtain ⟨y, old⟩ := steady.queued m mem
    obtain ⟨y', known, _⟩ := grows m y old
    exact ⟨y', known⟩
  · obtain ⟨y, old, _⟩ := shrinks m u known
    exact .inl ⟨y, old⟩

/-- Once the busy node has its children, nothing is left to do for it. -/
theorem Steady.release (steady : Steady root (some n) b)
    (done : ∀ v, b.reached.graph.node? n = some v → b.reached.graph.Attached n → v.coveredBy = none →
      AbstractState.isTarget v.state = false → b.engine.Expanded b.diagram b.reached.graph n v.state) :
    Steady root none b where
  free := steady.free
  sound := steady.sound
  complete :=
    { start := steady.complete.start
      credits := steady.complete.credits
      cover := steady.complete.cover
      expanded := fun m v here attached uncovered plain free _ => by
        by_cases same : n = m
        · subst same
          exact done v here attached uncovered plain
        · have idle : some n ≠ some m := fun h => same (Option.some.inj h)
          exact steady.complete.expanded m v here attached uncovered plain free idle }
  queued := steady.queued

theorem Grown.release (grown : Grown root (some n) b b') (expandable : Expandable b.reached.graph n s)
    (expanded : b'.engine.Expanded b'.diagram b'.reached.graph n s) : Grown root none b b' where
  steady := by
    apply grown.steady.release
    intro v here _ _ _
    obtain ⟨w, before, same, _⟩ := expandable.node
    obtain ⟨v', after, kept⟩ := grown.graph n w before
    rw [here] at after
    cases after
    rw [kept.state, same]
    exact expanded
  engine := grown.engine
  surroundings := grown.surroundings
  disabled := grown.disabled
  diagram := grown.diagram
  graph := grown.graph
  fresh := grown.fresh

theorem expand_ensures (steady : Steady root (some n) b) (expandable : Expandable b.reached.graph n s) :
    Ensures T (expand n s) b fun out b' => Grown root none b b' ∧ ∀ m ∈ out, m ∈ b'.reached.targets := by
  obtain ⟨w, here, rfl, uncovered⟩ := id expandable.node
  have tracked := (steady.sound.proper n w here).presence
  have tree := steady.sound.tree
  let leaving := b.engine.program.leaving w.state.location
  let Done (done : List EdgeId) (out : List (Nat × List NodeId)) (b' : Desk) : Prop :=
    Grown root (some n) b b' ∧
      (∀ e ∈ done, b'.engine.Served b'.diagram b'.reached.graph n w.state e) ∧
      ∀ r ∈ out, ∀ m ∈ r.2, m ∈ b'.reached.targets
  have followed : Ensures T (leaving.mapM (follow n w.state)) b (Done leaving) := by
    apply Ensures.mapM (I := Done) _ ⟨.refl steady, by simp, by simp⟩
    intro e done out b' mem holds
    obtain ⟨grown, served, targets⟩ := holds
    have mem' : e ∈ b'.engine.program.leaving w.state.location := by
      rw [grown.engine]
      exact mem
    apply (follow_ensures grown.steady (expandable.grown tree grown) mem').mono
    intro r b'' spec
    obtain ⟨grown', served', targets'⟩ := spec
    refine ⟨grown.trans grown', fun f mem => ?_, fun r' mem m target => ?_⟩
    · cases List.mem_append.1 mem with
      | inl old =>
        have tracked' : b'.engine.Tracked b'.diagram w.state.presence := by
          rw [grown.engine]
          exact tracked.extends grown.diagram
        exact (served f old).grown grown.steady tracked' grown'
      | inr new =>
        rw [List.mem_singleton.1 new]
        exact served'
    · cases List.mem_append.1 mem with
      | inl old => exact mem_targets_grown (targets r' old m target) grown.steady.sound.tree grown'
      | inr new =>
        rw [List.mem_singleton.1 new] at target
        exact targets' m target
  rw [expand, ensures_bind, ensures_get, ensures_bind]
  apply followed.mono
  intro results b' holds
  obtain ⟨grown, served, targets⟩ := holds
  have expanded : b'.engine.Expanded b'.diagram b'.reached.graph n w.state := by
    intro e c edge admits within passes there source
    have mem : e ∈ leaving := by
      rw [grown.engine] at there
      exact Program.mem_leaving.2 ⟨edge, there, source⟩
    exact served e mem c edge admits within passes there source
  have flat : ∀ m ∈ results.flatMap (·.2), m ∈ b'.reached.targets := by
    intro m mem
    obtain ⟨r, here, target⟩ := List.mem_flatMap.1 mem
    exact targets r here m target
  simp only
  split
  next =>
    obtain ⟨v, known, _⟩ := expandable.grown tree grown |>.node
    obtain ⟨g', ok, marked⟩ := setBottom_spec known
    have marked' := Grown.marked grown.steady known marked
    rw [ensures_bind]
    apply ensures_changeGraph ok
    refine ⟨(grown.trans marked').release expandable fun e => ?_, fun m mem => ?_⟩
    · exact (expanded e).grows marked'.graph
    · exact mem_targets_grown (flat m mem) grown.steady.sound.tree marked'
  next => exact ⟨grown.release expandable expanded, flat⟩

theorem visit_ensures (steady : Steady root (some n) b) :
    Ensures T (visit n) b fun out b' => Grown root none b b' ∧ ∀ m ∈ out, m ∈ b'.reached.targets := by
  rw [visit, ensures_bind, ensures_get]
  cases here : b.reached.graph.node? n with
  | none =>
    refine ⟨.refl (steady.release fun v known => ?_), by simp⟩
    rw [here] at known
    cases known
  | some v =>
    dsimp only
    split
    next skipped =>
      refine ⟨.refl (steady.release fun v' known attached uncovered plain => ?_), by simp⟩
      rw [here] at known
      cases known
      have able : canCover b.reached.graph n = true := by
        rw [canCover_iff steady.sound.tree]
        refine ⟨attached, fun v' known => ?_⟩
        rw [here] at known
        cases known
        exact uncovered
      rw [able, plain] at skipped
      cases skipped
    next open' =>
      rw [Bool.or_eq_true, not_or, Bool.not_eq_true', Bool.not_eq_false, Bool.not_eq_true,
        canCover_iff steady.sound.tree] at open'
      obtain ⟨⟨attached, uncovered⟩, plain⟩ := open'
      have expandable : Expandable b.reached.graph n v.state := ⟨⟨v, here, rfl, uncovered v here⟩, attached, plain⟩
      have tracked := (steady.sound.proper n v here).presence
      rw [ensures_bind]
      apply ensures_onDiagram (isRelevant_yields steady.sound.fit tracked)
      intro relevant d₁ ext ready spec
      have grown := steady.onDiagram ext ready
      cases relevant with
      | true =>
        apply (expand_ensures grown.steady expandable).mono
        intro out b' spec
        exact ⟨grown.trans spec.1, spec.2⟩
      | false =>
        refine ⟨grown.release expandable fun e c edge admits within => ?_, by simp⟩
        -- Nobody is left who could ask for a successor.
        rw [tracked.within_iff steady.sound.fit.ready ext] at within
        exact absurd ((steady.sound.fit.admits_iff ext).1 admits) (spec rfl c within)

end GoalCoverage.Explorer
