import GoalCoverage.Proofs.Explorer.Runs

/-!
What happens to an exploration between runs. Pruning live targets, sweeping, disabling goals and narrowing
regions all keep the exploration in order, and a fresh exploration is in order.
-/

namespace GoalCoverage.Explorer

open Diagram StateGraph Procedure

variable {x : Explorer} {d d' : Diagram} {b b' : Desk} {s : State} {n m p root : NodeId}
  {v w : GraphNode State} {y : Exploration State} {busy : Option NodeId} {T : Failure → Prop}

theorem Steady.pruned (steady : Steady root none b) (here : b.reached.graph.node? n = some v)
    (target : AbstractState.isTarget v.state = true) (parent : v.parents = .singleton p)
    (there : b.reached.graph.node? p = some w) (pruned : b.reached.Pruned y n v p w) :
    Steady root none { b with reached := y } := by
  have cut := pruned.graph
  have tree := steady.sound.tree
  have mem : p ∈ v.parents := parent ▸ IdSet.mem_singleton.2 rfl
  have ne : p ≠ n := Nat.ne_of_lt (tree.parent n v p here mem).2.1
  have tree' := tree.cutOff here there ne parent target cut
  have shrinks := cut.shrinks here there
  have resumed : p ∈ y.waiting := by
    rw [pruned.waiting]
    split
    next old => exact old
    next => exact List.mem_cons_self
  have waits : ∀ m, m ∈ b.reached.waiting → m ≠ n → m ∈ y.waiting := by
    intro m mem other
    have kept : m ∈ b.reached.waiting.filter (· != n) := List.mem_filter.2 ⟨mem, by simpa using other⟩
    rw [pruned.waiting]
    split
    next => exact kept
    next => exact List.mem_cons_of_mem p kept
  have only : ∀ m ∈ y.waiting, m = p ∨ m ∈ b.reached.waiting := by
    intro m mem
    rw [pruned.waiting] at mem
    split at mem
    next => exact .inr (List.mem_filter.1 mem).1
    next =>
      cases List.mem_cons.1 mem with
      | inl is => exact .inl is
      | inr mem => exact .inr (List.mem_filter.1 mem).1
  refine ⟨steady.free, steady.sound.shrinks tree' shrinks, ?_, fun m mem => ?_⟩
  · have complete := steady.complete
    rw [← pruned.disabled] at complete
    apply complete.shrinks shrinks
    intro m u u' old known attached uncovered plain free idle
    have other : m ≠ n := by
      intro same
      subst same
      rw [here] at old
      cases old
      rw [target] at plain
      cases plain
    have other' : m ≠ p := fun same => free (same ▸ resumed)
    have same : b.reached.graph.node? m = some u' := by
      rw [← known, cut.node, if_neg other, if_neg other']
    rw [old] at same
    cases same
    have attached' := (tree.attached_iff old).2 ((tree'.attached_iff known).1 attached)
    have served := complete.expanded m u old attached' uncovered plain (fun mem => free (waits m mem other)) idle
    intro e c edge admits within passes edge_known leaving sets joint
    obtain ⟨k, z, ⟨q, is_q, child⟩, child_known, location, observers, holds⟩ :=
      served e c edge admits within passes edge_known leaving sets joint
    rw [old] at is_q
    cases is_q
    obtain ⟨z', known', state⟩ := cut.stays here there child_known
    rw [← state] at location observers holds
    exact ⟨k, z', ⟨u, known, child⟩, known', location, observers, holds⟩
  · cases only m mem with
    | inl is =>
      obtain ⟨u, known, _⟩ := cut.stays here there there
      exact ⟨u, is ▸ known⟩
    | inr old =>
      obtain ⟨u, known⟩ := steady.queued m old
      obtain ⟨u', known', _⟩ := cut.stays here there known
      exact ⟨u', known'⟩

/-- A live target hangs below a node. -/
theorem Sound.exists_parent {g : StateGraph State} (sound : x.Sound d g root) (here : g.node? n = some v)
    (attached : g.Attached n) (target : AbstractState.isTarget v.state = true) : ∃ p, p ∈ v.parents := by
  cases (sound.tree.attached_iff here).1 attached with
  | inl same =>
    subst same
    rw [(sound.start v here).2.2] at target
    cases target
  | inr hanging => exact hanging

/-- Pruning a live target succeeds. It takes the target away and adds none. -/
theorem Steady.prune (steady : Steady root none b) (live : n ∈ b.reached.targets) :
    ∃ y, b.reached.prune n = .ok y ∧ Steady root none { b with reached := y } ∧
      y.disabled = b.reached.disabled ∧
      (∀ m u, b.reached.graph.node? m = some u → ∃ u', y.graph.node? m = some u' ∧ u'.state = u.state) ∧
      ∀ m ∈ y.targets, m ∈ b.reached.targets ∧ m ≠ n := by
  have tree := steady.sound.tree
  obtain ⟨v, here, attached, target⟩ := Exploration.mem_targets.1 live
  obtain ⟨p, mem⟩ := steady.sound.exists_parent here attached target
  obtain ⟨w, y, there, ok, pruned⟩ := Exploration.prune_spec tree here target mem
  have cut := pruned.graph
  have parent := (tree.parent n v p here mem).1
  have steady' := steady.pruned here target parent there pruned
  refine ⟨y, ok, steady', pruned.disabled, fun m u known => cut.stays here there known, fun m live' => ?_⟩
  obtain ⟨u, known, attached', target'⟩ := Exploration.mem_targets.1 live'
  have other : m ≠ n := by
    intro same
    subst same
    have detached : u.parents = ∅ := by
      rw [cut.node, if_pos rfl] at known
      cases known
      rfl
    cases (steady'.sound.tree.attached_iff known).1 attached' with
    | inl same =>
      subst same
      exact tree.orphan v p here mem
    | inr hanging =>
      obtain ⟨q, mem⟩ := hanging
      rw [detached] at mem
      exact IdSet.not_mem_empty q mem
  refine ⟨Exploration.mem_targets.2 ?_, other⟩
  have place := (steady'.sound.tree.attached_iff known).1 attached'
  rw [cut.node, if_neg other] at known
  split_ifs at known with same
  · subst same
    cases known
    exact ⟨w, there, (tree.attached_iff there).2 place, target'⟩
  · exact ⟨u, known, (tree.attached_iff known).2 place, target'⟩

theorem Steady.sweep (steady : Steady root none b) : Steady root none { b with reached := b.reached.sweep.2 } ∧
    b.reached.sweep.2.disabled = b.reached.disabled ∧ ∀ m ∈ b.reached.sweep.2.targets, m ∈ b.reached.targets := by
  have tree := steady.sound.tree
  have tree' := tree.sweep
  obtain ⟨cleaned, _⟩ := sweep_spec tree
  have node := fun n v => cleaned.node?_eq_some (n := n) (v := v)
  have shrinks := cleaned.shrinks
  rw [Exploration.sweep_eq tree]
  refine ⟨⟨steady.free, steady.sound.shrinks tree' shrinks, ?_, fun m mem => ?_⟩, rfl, fun m live => ?_⟩
  · apply steady.complete.shrinks shrinks
    intro m u u' old known attached uncovered plain free idle
    have known' := ((node m u').1 known).1
    rw [old] at known'
    cases known'
    have attached' := ((node m u).1 known).2
    have resting : m ∉ b.reached.waiting := by
      intro mem
      exact free (List.mem_filter.2 ⟨mem, contains_iff.2 ⟨u, known⟩⟩)
    have served := steady.complete.expanded m u old attached' uncovered plain resting idle
    intro e c edge admits within passes edge_known leaving sets joint
    obtain ⟨k, z, ⟨q, is_q, child⟩, child_known, rest⟩ :=
      served e c edge admits within passes edge_known leaving sets joint
    rw [old] at is_q
    cases is_q
    exact ⟨k, z, ⟨u, known, child⟩, (node k z).2 ⟨child_known, tree.attached_of_child old child⟩, rest⟩
  · exact contains_iff.1 (List.mem_filter.1 mem).2
  · rw [Exploration.mem_targets] at live ⊢
    obtain ⟨u, known, _, target⟩ := live
    obtain ⟨known', attached⟩ := (node m u).1 known
    exact ⟨u, known', attached, target⟩

theorem Steady.disable (steady : Steady root none b) (goals : List Nat) :
    Steady root none { b with reached := b.reached.disable goals } where
  free := steady.free
  sound := steady.sound
  complete :=
    { start := steady.complete.start
      credits := fun n v here g c accepts enabled =>
        steady.complete.credits n v here g c accepts fun old => enabled (IdSet.mem_insertAll.2 (.inr old))
      cover := steady.complete.cover
      expanded := steady.complete.expanded }
  queued := steady.queued

/-- Regions that only shrink. -/
structure Narrows (x : Explorer) (d : Diagram) (constraint : Region) (opened : IdMap Region) : Prop where
  constraint_known : x.tracks = true → d.Has constraint
  opened_known : x.tracks = true → ∀ g, d.Knows (opened.get? g)
  constraint_sub : x.tracks = true → ∀ c, d.holds constraint c = true → d.Within x.constraint c
  opened_sub : x.tracks = true → ∀ g c, d.Within (opened.get? g) c → d.Within (x.opened.get? g) c

theorem Steady.narrowed {constraint : Region} {opened : IdMap Region} (steady : Steady root none b)
    (narrows : b.engine.Narrows b.diagram constraint opened) :
    Steady root none { b with
      engine := { b.engine with constraint := some constraint, opened }
      reached := b.reached.setConstraint constraint } := by
  let x' : Explorer := { b.engine with constraint := some constraint, opened }
  have sound := steady.sound
  have complete := steady.complete
  have admits : ∀ c, x'.Admits b.diagram c → b.engine.Admits b.diagram c := fun c admits tracks =>
    narrows.constraint_sub tracks c (within_some.1 (admits tracks))
  have opens : ∀ g c, x'.Opens b.diagram g c → b.engine.Opens b.diagram g c := fun g c opens tracks =>
    narrows.opened_sub tracks g c (opens tracks)
  have fit : x'.Fit b.diagram :=
    ⟨sound.fit.ready, sound.fit.program, fun tracks => knows_some.2 (narrows.constraint_known tracks),
      narrows.opened_known⟩
  refine ⟨steady.free, ⟨sound.tree, fit, fun n v here => ?_, sound.start, fun p w n e v here link there => ?_⟩,
    ⟨fun v c here within => ?_, fun n v here g c accepts enabled within open' => ?_, complete.cover, ?_⟩, steady.queued⟩
  · have proper := sound.proper n v here
    exact ⟨proper.length, ⟨proper.presence.isSome, proper.presence.knows⟩, proper.accepted⟩
  · have follows := sound.follows p w n e v here link there
    exact ⟨follows.edge, follows.observers, follows.presence, follows.possible⟩
  · exact complete.start v c here (admits c within)
  · exact complete.credits n v here g c accepts enabled within (opens g c open')
  · intro n v here attached uncovered plain free idle e c edge within
    exact complete.expanded n v here attached uncovered plain free idle e c edge (admits c within)

/-- No configuration of the node is admitted. -/
def Idle (b : Desk) (n : NodeId) : Prop :=
  ∀ v, b.reached.graph.node? n = some v → ∀ c, b.diagram.Within v.state.presence c → ¬b.engine.Admits b.diagram c

/-- Idle nodes need not wait. -/
theorem Steady.drop {waiting : List NodeId} (steady : Steady root none b) (only : ∀ m ∈ waiting, m ∈ b.reached.waiting)
    (sub : ∀ m ∈ b.reached.waiting, m ∈ waiting ∨ Idle b m) :
    Steady root none { b with reached := { b.reached with waiting } } where
  free := steady.free
  sound := steady.sound
  complete :=
    { start := steady.complete.start
      credits := steady.complete.credits
      cover := steady.complete.cover
      expanded := fun m v here attached uncovered plain free idle => by
        by_cases mem : m ∈ b.reached.waiting
        · intro e c edge admits within
          exact absurd admits (((sub m mem).resolve_left free) v here c within)
        · exact steady.complete.expanded m v here attached uncovered plain mem idle }
  queued m mem := steady.queued m (only m mem)

theorem restrict_ensures {constraint : Region} {opened : IdMap Region} (steady : Steady root none b)
    (narrows : b.engine.Narrows b.diagram constraint opened) :
    Ensures T (restrict constraint opened) b fun _ b' => Steady root none b' ∧
      b'.engine = { b.engine with constraint := some constraint, opened } ∧
      b'.surroundings = b.surroundings ∧ b.diagram.Extends b'.diagram ∧
      b'.reached.graph = b.reached.graph ∧ b'.reached.disabled = b.reached.disabled := by
  have narrowed := steady.narrowed narrows
  let b₁ : Desk := { b with
    engine := { b.engine with constraint := some constraint, opened }
    reached := b.reached.setConstraint constraint }
  rw [restrict, ensures_bind, ensures_modify, ensures_bind, ensures_get]
  split
  next =>
    let Done (done : List NodeId) (out : List NodeId) (b' : Desk) : Prop :=
      ∃ d', b' = { b₁ with diagram := d' } ∧ b₁.diagram.Extends d' ∧ d'.Ready b₁.engine.tracks ∧
        (∀ m ∈ out, m ∈ done) ∧ ∀ m ∈ done, m ∈ out ∨ Idle b₁ m
    have filtered : Ensures T (b₁.reached.waiting.filterMapM fun n => do
        let s ← onReached fun x => return (← x.graph.state n, x)
        return if ← onDiagram (b₁.engine.isRelevant s) then some n else none) b₁ (Done b₁.reached.waiting) := by
      apply Ensures.filterMapM (I := Done) _ ⟨b₁.diagram, rfl, .refl _, narrowed.sound.fit.ready, by simp, by simp⟩
      intro n done out b' mem holds
      obtain ⟨d', rfl, ext, ready, only, idle⟩ := holds
      obtain ⟨v, here⟩ := narrowed.queued n mem
      have tracked := (narrowed.sound.proper n v here).presence
      have later := (narrowed.onDiagram ext ready).steady
      have found : b₁.reached.graph.state n = .ok v.state := by
        rw [StateGraph.state, node_eq_ok here]
        rfl
      rw [ensures_bind]
      apply ensures_onReached (a := v.state) (x := b₁.reached)
      · simp only [found, bind, Except.bind, pure, Except.pure]
      rw [ensures_bind]
      apply ensures_onDiagram (isRelevant_yields later.sound.fit (tracked.extends ext))
      intro relevant d'' ext' ready' spec
      refine ⟨d'', rfl, ext.trans ext', ready', fun m mem => ?_, fun m mem => ?_⟩
      · cases List.mem_append.1 mem with
        | inl old => exact List.mem_append_left _ (only m old)
        | inr new =>
          have last : m = n := by
            cases relevant with
            | false => simp at new
            | true => simpa using new
          simp [last]
      · cases List.mem_append.1 mem with
        | inl old => exact (idle m old).imp_left (List.mem_append_left _)
        | inr new =>
          rw [List.mem_singleton.1 new]
          cases relevant with
          | true => exact .inl (by simp)
          | false =>
            refine .inr fun u known c within admits => ?_
            rw [here] at known
            cases known
            have fit := narrowed.sound.fit
            exact spec rfl c ((tracked.within_iff fit.ready ext).2 within) ((fit.admits_iff ext).2 admits)
    rw [ensures_bind]
    apply filtered.mono
    intro kept b' holds
    obtain ⟨d', rfl, ext, ready, only, idle⟩ := holds
    have later := narrowed.onDiagram ext ready
    have dropped : Steady root none { b₁ with diagram := d', reached := { b₁.reached with waiting := kept } } := by
      apply later.steady.drop only
      intro m mem
      refine (idle m mem).imp_right fun idle v here c within admits => ?_
      have fit := narrowed.sound.fit
      have tracked := (narrowed.sound.proper m v here).presence
      exact idle v here c ((tracked.within_iff fit.ready ext).1 within) ((fit.admits_iff ext).1 admits)
    exact ⟨dropped, rfl, rfl, ext, rfl, rfl⟩
  next => exact ⟨narrowed, rfl, rfl, .refl _, rfl, rfl⟩

/-- A state to start from. -/
structure Initial (x : Explorer) (d : Diagram) (s : State) : Prop where
  entry : x.program.entry = .ok s.location
  observers : s.observers = Observer.starts x.observers
  proper : x.Proper d s
  credits : x.Credits d ∅ s
  presence : ∀ c, x.Admits d c → d.Within s.presence c

/-- The region of the constraint is where an exploration starts. -/
theorem tracked_start (fit : x.Fit d) :
    x.Tracked d (if x.tracks then some (x.constraint.getD .all) else none) ∧
      ∀ c, x.Admits d c → d.Within (if x.tracks then some (x.constraint.getD .all) else none) c := by
  have ready := fit.ready
  have constraint := fit.constraint
  simp only [Admits]
  cases tracks : x.tracks with
  | false => exact ⟨⟨tracks.symm, knows_none⟩, fun _ _ => within_none⟩
  | true =>
    rw [tracks] at ready
    cases known : x.constraint with
    | none => exact ⟨⟨tracks.symm, knows_some.2 (ready rfl).has_all⟩, by simp⟩
    | some r => exact ⟨⟨tracks.symm, knows_some.2 (constraint tracks r known)⟩, by simp⟩

theorem ensures_initialState {entry : Location} (fit : x.Fit d) (located : x.program.entry = .ok entry) :
    Ensures T x.initialState d fun s d' => d.Extends d' ∧ d'.Ready x.tracks ∧ x.Initial d' s := by
  obtain ⟨tracked, presence⟩ := tracked_start fit
  have found : Yields x.tracks (x.accepted (Observer.starts x.observers) _ ∅) d fun out _ => out = _ :=
    accepted_yields fit tracked
  obtain ⟨ext, ready, accepted⟩ := found
  have same := accepted.trans (credited_extends fit tracked ext).symm
  simp only [Ensures, initialState, located]
  refine ⟨ext, ready, located, rfl, ?_, credits_credited same, fun c admits => ?_⟩
  · exact proper_credited (by simp) (tracked.extends ext) same
  · exact (tracked.within_iff fit.ready ext).2 (presence c ((fit.admits_iff ext).1 admits))

theorem tree_start (plain : AbstractState.isTarget s = false) : (Exploration.start s).graph.Tree 0 := by
  have node := fun n v => Exploration.node?_start (s := s) (n := n) (v := v)
  have none : ∀ n, n ∉ (∅ : IdSet) := IdSet.not_mem_empty
  refine ⟨rfl, ⟨_, (node 0 _).2 ⟨rfl, rfl⟩⟩, ?_, ?_, ?_, ?_, ?_, ?_, ?_, rfl⟩
  · grind
  · grind
  · grind [IdMap.get?_empty]
  · grind
  · grind
  · grind
  · intro n
    have covered : (Exploration.start s).graph.covered = ∅ := rfl
    grind

theorem Steady.fresh (free : ∀ o ∈ b.engine.observers, o.automaton.isGuarded = false)
    (fit : b.engine.Fit b.diagram) (initial : b.engine.Initial b.diagram s)
    (plain : AbstractState.isTarget s = false) : Steady 0 none { b with reached := .start s } := by
  have only : ∀ n v, (Exploration.start s).graph.node? n = some v → n = 0 ∧ v = ⟨s, ∅, ∅, none, false⟩ :=
    fun _ _ => Exploration.node?_start.1
  refine ⟨free, ⟨tree_start plain, fit, fun n v here => ?_, fun v here => ?_, fun p w n e v here link => ?_⟩,
    ⟨fun v c here admits => ?_, fun n v here => ?_, fun n v m w here by_m => ?_, fun n v here _ _ _ idle => ?_⟩,
    fun n mem => ?_⟩
  · rw [(only n v here).2]
    exact initial.proper
  · rw [(only 0 v here).2]
    exact ⟨initial.entry, initial.observers, plain⟩
  · rw [(only p w here).2, IdMap.get?_empty] at link
    cases link
  · rw [(only 0 v here).2]
    exact initial.presence c admits
  · rw [(only n v here).2]
    exact initial.credits
  · rw [(only n v here).2] at by_m
    cases by_m
  · exact absurd (List.mem_singleton.2 (only n v here).1) idle
  · rw [List.mem_singleton.1 mem]
    exact ⟨_, rfl⟩

theorem Initial.plain (initial : x.Initial d s)
    (unfinished : ∀ g, ¬Observer.Accepts x.observers (Observer.starts x.observers) g) :
    AbstractState.isTarget s = false := by
  rw [← Bool.not_eq_true]
  intro target
  have inhabited : s.accepted.isEmpty = false := Bool.not_eq_true' _ ▸ target
  obtain ⟨g, mem⟩ := IdSet.isEmpty_eq_false_iff.1 inhabited
  apply unfinished g
  rw [← initial.observers]
  exact initial.proper.accepted g mem

/-- Of the nodes in target states the live ones are those that the graph takes for attached. -/
theorem isAttached_iff_live (here : y.graph.node? n = some v) (target : AbstractState.isTarget v.state = true) :
    y.graph.isAttached n = .ok true ↔ n ∈ y.targets := by
  have place : n ∈ y.targets ↔ y.graph.root = some n ∨ ∃ p, p ∈ v.parents := by
    rw [Exploration.mem_targets]
    constructor
    · intro h
      obtain ⟨_, _, ⟨u, known, place⟩, _⟩ := h
      rw [here] at known
      cases known
      exact place
    · intro place
      exact ⟨v, here, ⟨v, here, place⟩, target⟩
  rw [place, isAttached_eq here, Except.ok.injEq, Bool.or_eq_true, decide_eq_true_eq, Bool.not_eq_true',
    IdSet.isEmpty_eq_false_iff]

/-- Targets are pruned one after another, unless they are gone by then; `I` is about those that are left. -/
theorem exists_foldlM_prune {I : List NodeId → Exploration State → Prop} (targets : List NodeId)
    (prune : ∀ t rest y, I (t :: rest) y → t ∈ y.targets → ∃ y', y.prune t = .ok y' ∧ I rest y' ∧
      ∀ m u, y.graph.node? m = some u → ∃ u', y'.graph.node? m = some u' ∧ u'.state = u.state)
    (skip : ∀ t rest y, I (t :: rest) y → t ∉ y.targets → I rest y) (start : I targets y)
    (known : ∀ t ∈ targets, ∃ v, y.graph.node? t = some v ∧ AbstractState.isTarget v.state = true) :
    ∃ z, targets.foldlM (fun y t =>
      match y.graph.isAttached t with
      | .ok true => y.prune t
      | _ => .ok y) y = .ok z ∧ I [] z := by
  induction targets generalizing y with
  | nil => exact ⟨y, rfl, start⟩
  | cons t rest ih =>
    obtain ⟨v, here, target⟩ := known t List.mem_cons_self
    have known_rest := fun u mem => known u (List.mem_cons_of_mem t mem)
    rw [List.foldlM_cons]
    by_cases live : t ∈ y.targets
    · obtain ⟨y', ok, pruned, stays⟩ := prune t rest y start live
      have known' : ∀ u ∈ rest, ∃ v, y'.graph.node? u = some v ∧ AbstractState.isTarget v.state = true := by
        intro u mem
        obtain ⟨w, there, goal⟩ := known_rest u mem
        obtain ⟨w', there', same⟩ := stays u w there
        exact ⟨w', there', same ▸ goal⟩
      simp only [(isAttached_iff_live here target).2 live, ok, bind, Except.bind]
      exact ih pruned known'
    · have detached : y.graph.isAttached t ≠ .ok true := fun h => live ((isAttached_iff_live here target).1 h)
      split
      next attached => exact absurd attached detached
      next => exact ih (skip t rest y start live) known_rest

theorem consume_eq_ok {I : List NodeId → Exploration State → Prop}
    (prune : ∀ t rest y, I (t :: rest) y → t ∈ y.targets → ∃ y', y.prune t = .ok y' ∧ I rest y' ∧
      ∀ m u, y.graph.node? m = some u → ∃ u', y'.graph.node? m = some u' ∧ u'.state = u.state)
    (skip : ∀ t rest y, I (t :: rest) y → t ∉ y.targets → I rest y) (start : I y.targets y) :
    ∃ z, y.consume y.targets = .ok z.sweep.2 ∧ I [] z := by
  have known : ∀ t ∈ y.targets, ∃ v, y.graph.node? t = some v ∧ AbstractState.isTarget v.state = true := by
    intro t live
    obtain ⟨v, here, _, target⟩ := Exploration.mem_targets.1 live
    exact ⟨v, here, target⟩
  obtain ⟨z, folded, left⟩ := exists_foldlM_prune y.targets prune skip start known
  exact ⟨z, congrArg (· >>= fun y : Exploration State => pure y.sweep.2) folded, left⟩

/-- The live targets can be pruned one after another. -/
theorem Steady.consume (steady : Steady root none b) :
    ∃ z, b.reached.consume b.reached.targets = .ok z ∧ Steady root none { b with reached := z } ∧
      z.disabled = b.reached.disabled ∧ z.targets = [] := by
  let Left (rest : List NodeId) (y : Exploration State) : Prop := Steady root none { b with reached := y } ∧
    y.disabled = b.reached.disabled ∧ ∀ m ∈ y.targets, m ∈ rest
  have prune : ∀ t rest y, Left (t :: rest) y → t ∈ y.targets → ∃ y', y.prune t = .ok y' ∧ Left rest y' ∧
      ∀ m u, y.graph.node? m = some u → ∃ u', y'.graph.node? m = some u' ∧ u'.state = u.state := by
    intro t rest y left live
    obtain ⟨steady, disabled, all⟩ := left
    obtain ⟨y', ok, steady', disabled', stays, fewer⟩ := steady.prune live
    refine ⟨y', ok, ⟨steady', disabled'.trans disabled, fun m mem => ?_⟩, stays⟩
    obtain ⟨was, ne⟩ := fewer m mem
    exact (List.mem_cons.1 (all m was)).resolve_left ne
  have skip : ∀ t rest y, Left (t :: rest) y → t ∉ y.targets → Left rest y := by
    intro t rest y left gone
    obtain ⟨steady, disabled, all⟩ := left
    refine ⟨steady, disabled, fun m mem => ?_⟩
    exact (List.mem_cons.1 (all m mem)).resolve_left fun same => gone (same ▸ mem)
  obtain ⟨z, ok, steady', disabled, none⟩ := consume_eq_ok prune skip ⟨steady, rfl, fun _ h => h⟩
  obtain ⟨swept, same, fewer⟩ := steady'.sweep
  refine ⟨z.sweep.2, ok, swept, same.trans disabled, ?_⟩
  rw [List.eq_nil_iff_forall_not_mem]
  exact fun m mem => List.not_mem_nil (none m (fewer m mem))

end GoalCoverage.Explorer
