import GoalCoverage.Proofs.Explorer.Actions

/-!
What a node that was expanded has below it, whatever was done before: a child for every joint move of observers
without guards, with all configurations that leave on the edge (`visit_offers`). As long as it has them, to expand it
again changes nothing (`expand_again`).
-/

namespace GoalCoverage

namespace StateGraph

variable {S : Type} {g g' g'' : StateGraph S}

/-- A node without its mark. -/
def GraphNode.unmarked (v : GraphNode S) : GraphNode S := { v with bottom := false }

/-- The same graph, but for the marks of nodes without a continuation. -/
structure Alike (g g' : StateGraph S) : Prop where
  node : ∀ m, (g'.node? m).map GraphNode.unmarked = (g.node? m).map GraphNode.unmarked
  size : g'.nodes.size = g.nodes.size
  live : g'.live = g.live
  root : g'.root = g.root
  covered : g'.covered = g.covered

theorem Alike.refl (g : StateGraph S) : g.Alike g := ⟨fun _ => rfl, rfl, rfl, rfl, rfl⟩

theorem Marked.alike {n : NodeId} {v : GraphNode S} (marked : g.Marked g' n v) (here : g.node? n = some v) : g.Alike g' where
  node m := by
    rw [marked.node]
    split
    next same =>
      rw [same, here]
      rfl
    next => rfl
  size := marked.size
  live := marked.live
  root := marked.root
  covered := marked.covered

end StateGraph

namespace Explorer

open Diagram StateGraph Procedure

variable {x : Explorer} {d d' : Diagram} {b b' b'' : Desk} {s t first : State} {n m root : NodeId} {e : EdgeId}
  {g g' : StateGraph State} {w : GraphNode State} {sets : List IdSet} {disabled : IdSet} {presence : Option Region}
  {kind : State → Prop} {T : Failure → Prop}

/-! ### The first time -/

/-- `t` has all that leaves `s` by a joint move, and the goals that are accepted there. -/
structure Serves (x : Explorer) (d : Diagram) (disabled : IdSet) (s : State) (e : EdgeId) (sets : List IdSet) (t : State) :
    Prop where
  observers : t.observers = sets
  presence : ∀ c, x.Leaves d s e c → d.Within t.presence c
  accepted : ∀ goal c, Observer.Accepts x.observers sets goal → goal ∉ disabled → x.Leaves d s e c → x.Opens d goal c →
    goal ∈ t.accepted

/-- There is such a child, and one of a kind, for every joint move on an edge, if any configuration leaves on it. -/
def Offers (x : Explorer) (d : Diagram) (disabled : IdSet) (g : StateGraph State) (n : NodeId) (s : State) (e : EdgeId)
    (kind : State → Prop) : Prop :=
  ∀ edge, x.program.edges[e]? = some edge → (∃ c, x.Leaves d s e c) → ∀ sets ∈ Observer.joint x.observers s.observers e,
    ∃ m w, g.Link n e m ∧ g.node? m = some w ∧ w.state.location = edge.target ∧
      x.Serves d disabled s e sets w.state ∧ kind w.state

theorem Serves.extends (serves : x.Serves d disabled s e sets t) (fit : x.Fit d) (ext : d.Extends d')
    (before : x.Tracked d s.presence) (after : x.Tracked d t.presence) : x.Serves d' disabled s e sets t where
  observers := serves.observers
  presence c leaves := (after.within_iff fit.ready ext).2 (serves.presence c ((Leaves.extends fit before ext).1 leaves))
  accepted goal c accepts enabled leaves opens :=
    serves.accepted goal c accepts enabled ((Leaves.extends fit before ext).1 leaves) ((fit.opens_iff ext).1 opens)

theorem Offers.later (offers : x.Offers d disabled g n s e kind) (sound : x.Sound d g root)
    (before : x.Tracked d s.presence) (ext : d.Extends d') (grows : g.Grows g') : x.Offers d' disabled g' n s e kind := by
  intro edge there leaves sets joint
  simp only [Leaves.extends sound.fit before ext] at leaves
  obtain ⟨m, w, ⟨u, here, label⟩, child, location, serves, is⟩ := offers edge there leaves sets joint
  obtain ⟨u', here', keptu⟩ := grows n u here
  obtain ⟨w', child', keptw⟩ := grows m w child
  rw [← keptw.state] at location is
  refine ⟨m, w', ⟨u', here', keptu.children m _ label⟩, child', location, ?_, is⟩
  rw [keptw.state]
  exact serves.extends sound.fit ext before (sound.proper m w child).presence

theorem Tracked.inhabited (tracked : x.Tracked d presence) (ready : d.Ready x.tracks)
    (possible : presence.any (·.isEmpty) = false) : ∃ c, d.Within presence c := by
  obtain ⟨tracks, p, rfl, has⟩ | ⟨_, rfl⟩ := tracked.cases
  · simp only [within_some]
    exact ((ready tracks).isEmpty_eq_false_iff has).1 possible
  · exact ⟨fun _ => false, within_none⟩

/-- A goal that is open in a region is open for one of its configurations. -/
theorem exists_opens {goal : Nat} (tracked : x.Tracked d presence) (opens : x.OpensIn d goal presence)
    (inhabited : ∃ c, d.Within presence c) : ∃ c, d.Within presence c ∧ x.Opens d goal c := by
  obtain ⟨c, within⟩ := inhabited
  obtain ⟨tracks, p, rfl, _⟩ | ⟨untracked, rfl⟩ := tracked.cases
  · cases opened : x.opened.get? goal with
    | none => exact ⟨c, within, fun _ => by rw [opened]; exact within_none⟩
    | some r =>
      obtain ⟨c, inside, here⟩ := opens tracks p r rfl opened
      exact ⟨c, within_some.2 inside, fun _ => by rw [opened]; exact within_some.2 here⟩
  · exact ⟨c, within, fun tracks => by rw [untracked] at tracks; cases tracks⟩

theorem Serves.of_subsumes {u : State} (serves : x.Serves d disabled s e sets t) (subsumes : Subsumes d u t) :
    x.Serves d disabled s e sets u where
  observers := subsumes.observers.trans serves.observers
  presence c leaves := subsumes.presence c (serves.presence c leaves)
  accepted goal c accepts enabled leaves opens := by
    rw [subsumes.accepted]
    exact serves.accepted goal c accepts enabled leaves opens

/-- Where every successor has a child, nothing is missing. -/
theorem Continued.offers (continued : Continued b b' n s e) (enlarged : Enlarged first root n b b')
    (sound : b.engine.Sound b.diagram b.reached.graph root) (proper : b.engine.Proper b.diagram s)
    (free : ∀ o ∈ b.engine.observers, o.automaton.isGuarded = false) :
    b'.engine.Offers b'.diagram b'.reached.disabled b'.reached.graph n s e fun _ => True := by
  have fit := sound.fit
  have before := proper.presence
  rw [enlarged.engine, enlarged.disabled]
  intro edge there leaves sets joint
  simp only [Leaves.extends fit before enlarged.diagram] at leaves
  have found : Yields b.engine.tracks (b.engine.successors s e edge b.reached.disabled) b.diagram _ :=
    successors_exact fit free proper there
  obtain ⟨first_ext, ready, presence, tracked, left, listed⟩ := found
  obtain ⟨c, leaves⟩ := leaves
  have mem := (listed _).2 ⟨inhabited_of_within ((left c).2 leaves), sets, joint, rfl⟩
  obtain ⟨ext, children⟩ := continued edge there
  obtain ⟨_, m, w, link, child, subsumes⟩ := children _ mem
  refine ⟨m, w, link, child, subsumes.location, .of_subsumes ⟨rfl, fun c leaves => ?_, ?_⟩ subsumes, trivial⟩
  · rw [tracked.within_iff ready ext, left]
    exact (Leaves.extends fit before enlarged.diagram).1 leaves
  · intro goal c accepts enabled leaves opens
    have within := (left c).2 ((Leaves.extends fit before enlarged.diagram).1 leaves)
    have opens' := (fit.opens_iff first_ext).2 ((fit.opens_iff enlarged.diagram).1 opens)
    exact mem_credited.2 ⟨accepts, enabled, opensIn_of_opens within opens'⟩

/-- When a node has been visited that could be expanded, nothing is missing below it. -/
theorem visit_offers (ordered : Ordered first root b) (free : ∀ o ∈ b.engine.observers, o.automaton.isGuarded = false)
    (expandable : Expandable b.reached.graph n s) :
    Ensures T (visit n) b fun _ b' => Enlarged first root n b b' ∧
      ∀ e ∈ b.engine.program.leaving s.location,
        b'.engine.Offers b'.diagram b'.reached.disabled b'.reached.graph n s e fun _ => True := by
  obtain ⟨w, here, rfl, _⟩ := id expandable.node
  have sound := ordered.graph.sound
  have proper := sound.proper n w here
  apply (visit_orders ordered).mono
  intro _ b' spec
  obtain ⟨enlarged, visited, _⟩ := spec
  refine ⟨enlarged, fun e mem => ?_⟩
  obtain nobody | followed := visited w.state expandable
  · intro edge there leaves
    rw [enlarged.engine] at leaves
    simp only [Leaves.extends sound.fit proper.presence enlarged.diagram] at leaves
    obtain ⟨c, leaves⟩ := leaves
    exact absurd leaves.admits (nobody c leaves.within)
  · obtain ⟨b₁, before, after, continued⟩ := followed e mem
    have proper₁ : b₁.engine.Proper b₁.diagram w.state := by
      rw [before.engine]
      exact proper.extends before.diagram
    have free₁ : ∀ o ∈ b₁.engine.observers, o.automaton.isGuarded = false := by
      rw [before.engine]
      exact free
    exact continued.offers after before.ordered.graph.sound proper₁ free₁

/-! ### The second time -/

/-- What a second expansion comes to: the exploration stays as it is, but for the mark of the node. -/
structure Undisturbed (b b' : Desk) : Prop where
  engine : b'.engine = b.engine
  surroundings : b'.surroundings = b.surroundings
  diagram : b.diagram.Extends b'.diagram
  reached : b'.reached = { b.reached with graph := b'.reached.graph }
  graph : b.reached.graph.Alike b'.reached.graph

/-- Only the diagram may have grown. -/
def Recomputed (b b' : Desk) : Prop := ∃ d', b' = { b with diagram := d' } ∧ b.diagram.Extends d' ∧ d'.Ready b.engine.tracks

theorem Recomputed.refl (ready : b.diagram.Ready b.engine.tracks) : Recomputed b b := ⟨b.diagram, rfl, .refl _, ready⟩

theorem Recomputed.trans (one : Recomputed b b') (two : Recomputed b' b'') : Recomputed b b'' := by
  obtain ⟨d', rfl, ext, _⟩ := one
  obtain ⟨d'', rfl, ext', ready⟩ := two
  exact ⟨d'', rfl, ext.trans ext', ready⟩

theorem Recomputed.undisturbed (recomputed : Recomputed b b') : Undisturbed b b' := by
  obtain ⟨d', rfl, ext, _⟩ := recomputed
  exact ⟨rfl, rfl, ext, rfl, .refl _⟩

/-- A successor that has a child already is left out. -/
theorem place_again (sound : b.engine.Sound b.diagram b.reached.graph root) (tracked : b.engine.Tracked b.diagram t.presence)
    (child : HasChild b.diagram b.reached.graph n e t) :
    Ensures T (place n e t) b fun out b' => out = none ∧ Recomputed b b' := by
  rw [place, ensures_bind, ensures_get, ensures_bind]
  apply ensures_onDiagram (isDuplicate_yields sound.fit sound.proper tracked)
  intro known d' ext ready spec
  rw [if_pos (spec.2 child)]
  exact ⟨rfl, d', rfl, ext, ready⟩

/-- A state that is no target. -/
def NoTarget (s : State) : Prop := AbstractState.isTarget s = false

theorem accepted_eq_empty (plain : NoTarget s) : s.accepted = ∅ := by
  refine IdSet.eq_empty_of_forall fun goal mem => ?_
  have target : AbstractState.isTarget s = true := by
    have inhabited : s.accepted.isEmpty = false := IdSet.isEmpty_eq_false_iff.2 ⟨goal, mem⟩
    exact Bool.not_eq_true' _ ▸ inhabited
  exact Bool.false_ne_true (Eq.trans plain.symm target)

/-- Where children that are no targets have all, every successor has a child. -/
theorem Offers.hasChild (offers : x.Offers d disabled g n s e NoTarget) (sound : x.Sound d g root) {edge : Edge}
    (there : x.program.edges[e]? = some edge) (ext : d.Extends d') (ready : d'.Ready x.tracks)
    (tracked : x.Tracked d' presence) (left : ∀ c, d'.Within presence c ↔ x.Leaves d s e c)
    (possible : presence.any (·.isEmpty) = false) (joint : sets ∈ Observer.joint x.observers s.observers e) :
    HasChild d' g n e ⟨edge.target, sets, presence, x.credited d' sets presence disabled⟩ := by
  have inhabited := tracked.inhabited ready possible
  obtain ⟨m, w, link, child, location, serves, plain⟩ :=
    offers edge there (inhabited.imp fun c => (left c).1) sets joint
  have idle : w.state.accepted = ∅ := accepted_eq_empty plain
  refine ⟨m, w, link, child, location, serves.observers, ?_, fun c within => ?_⟩
  · -- A goal that is accepted now would have been accepted then.
    rw [idle, eq_comm]
    refine IdSet.eq_empty_of_forall fun goal mem => ?_
    obtain ⟨accepts, enabled, opens⟩ := mem_credited.1 mem
    obtain ⟨c, within, opens⟩ := exists_opens tracked opens inhabited
    have credited := serves.accepted goal c accepts enabled ((left c).1 within) ((sound.fit.opens_iff ext).1 opens)
    rw [idle] at credited
    exact IdSet.not_mem_empty goal credited
  · rw [(sound.proper m w child).presence.within_iff sound.fit.ready ext]
    exact serves.presence c ((left c).1 within)

theorem follow_again (sound : b.engine.Sound b.diagram b.reached.graph root)
    (free : ∀ o ∈ b.engine.observers, o.automaton.isGuarded = false) (proper : b.engine.Proper b.diagram s)
    (offers : b.engine.Offers b.diagram b.reached.disabled b.reached.graph n s e NoTarget) :
    Ensures T (follow n s e) b fun r b' => r.2 = [] ∧ Recomputed b b' := by
  rw [follow, ensures_bind, ensures_get]
  cases there : b.engine.program.edges[e]? with
  | none => exact ⟨rfl, .refl sound.fit.ready⟩
  | some edge =>
    simp only [ensures_bind]
    apply ensures_onDiagram (successors_exact sound.fit free proper there)
    intro found d₁ ext₁ ready₁ spec
    obtain ⟨presence, tracked, left, listed⟩ := spec
    let b₁ : Desk := { b with diagram := d₁ }
    have sound₁ : b₁.engine.Sound b₁.diagram b₁.reached.graph root := sound.extends ext₁ ready₁
    have first : Recomputed b b₁ := ⟨d₁, rfl, ext₁, ready₁⟩
    apply (Ensures.filterMapM (I := fun _ out b' => out = [] ∧ Recomputed b₁ b') _ ⟨rfl, .refl ready₁⟩).mono
    · exact fun out b' holds => ⟨holds.1, first.trans holds.2⟩
    intro t done out b' mem holds
    obtain ⟨rfl, d', rfl, ext', ready'⟩ := holds
    obtain ⟨possible, sets, joint, rfl⟩ := (listed t).1 mem
    have child := offers.hasChild sound there ext₁ ready₁ tracked left possible joint
    have sound' : b.engine.Sound d' b.reached.graph root := sound₁.extends ext' ready'
    apply (place_again (b := { b with diagram := d' }) sound' (tracked.extends ext')
      (child.later sound₁ tracked ext' (.refl _))).mono
    intro out' b'' spec'
    obtain ⟨rfl, again⟩ := spec'
    exact ⟨rfl, .trans ⟨d', rfl, ext', ready'⟩ again⟩

/-- To expand a node again that has everything changes nothing. -/
theorem expand_again (sound : b.engine.Sound b.diagram b.reached.graph root)
    (free : ∀ o ∈ b.engine.observers, o.automaton.isGuarded = false) (here : b.reached.graph.node? n = some w)
    (offers : ∀ e ∈ b.engine.program.leaving w.state.location,
      b.engine.Offers b.diagram b.reached.disabled b.reached.graph n w.state e NoTarget) :
    Ensures T (expand n w.state) b fun out b' => out = [] ∧ Undisturbed b b' := by
  have proper := sound.proper n w here
  let leaving := b.engine.program.leaving w.state.location
  let Done (_ : List EdgeId) (out : List (Nat × List NodeId)) (b' : Desk) : Prop :=
    (∀ r ∈ out, r.2 = []) ∧ Recomputed b b'
  have followed : Ensures T (leaving.mapM (follow n w.state)) b (Done leaving) := by
    apply Ensures.mapM (I := Done) _ ⟨by simp, .refl sound.fit.ready⟩
    intro e done out b' mem holds
    obtain ⟨none, d', rfl, ext, ready⟩ := holds
    have offers' : b.engine.Offers d' b.reached.disabled b.reached.graph n w.state e NoTarget :=
      (offers e mem).later sound proper.presence ext (.refl _)
    apply (follow_again (b := { b with diagram := d' }) (sound.extends ext ready) free (proper.extends ext) offers').mono
    intro r b'' spec
    refine ⟨fun r' mem => ?_, .trans ⟨d', rfl, ext, ready⟩ spec.2⟩
    cases List.mem_append.1 mem with
    | inl old => exact none r' old
    | inr new => exact List.mem_singleton.1 new ▸ spec.1
  rw [expand, ensures_bind, ensures_get, ensures_bind]
  apply followed.mono
  intro results b' holds
  obtain ⟨none, recomputed⟩ := holds
  have idle : results.flatMap (·.2) = [] := List.flatMap_eq_nil_iff.2 none
  simp only [idle]
  obtain ⟨d', rfl, ext, ready⟩ := recomputed
  split
  next =>
    obtain ⟨g', ok, marked⟩ := setBottom_spec here
    rw [ensures_bind]
    apply ensures_changeGraph (b := { b with diagram := d' }) ok
    exact ⟨rfl, rfl, rfl, ext, rfl, marked.alike here⟩
  next => exact ⟨rfl, rfl, rfl, ext, rfl, .refl _⟩

theorem visit_again (sound : b.engine.Sound b.diagram b.reached.graph root)
    (free : ∀ o ∈ b.engine.observers, o.automaton.isGuarded = false) (here : b.reached.graph.node? n = some w)
    (offers : ∀ e ∈ b.engine.program.leaving w.state.location,
      b.engine.Offers b.diagram b.reached.disabled b.reached.graph n w.state e NoTarget) :
    Ensures T (visit n) b fun out b' => out = [] ∧ Undisturbed b b' := by
  have proper := sound.proper n w here
  have still : Undisturbed b b := (Recomputed.refl sound.fit.ready).undisturbed
  rw [visit, ensures_bind, ensures_get, here]
  dsimp only
  split
  next => exact ⟨rfl, still⟩
  next =>
    rw [ensures_bind]
    apply ensures_onDiagram (isRelevant_yields sound.fit proper.presence)
    intro relevant d' ext ready _
    cases relevant with
    | true =>
      have offers' : ∀ e ∈ b.engine.program.leaving w.state.location,
          b.engine.Offers d' b.reached.disabled b.reached.graph n w.state e NoTarget := fun e mem =>
        (offers e mem).later sound proper.presence ext (.refl _)
      apply (expand_again (b := { b with diagram := d' }) (sound.extends ext ready) free here offers').mono
      intro out b' spec
      exact ⟨spec.1, spec.2.engine, spec.2.surroundings, ext.trans spec.2.diagram, spec.2.reached, spec.2.graph⟩
    | false => exact ⟨rfl, Recomputed.undisturbed ⟨d', rfl, ext, ready⟩⟩

end Explorer

end GoalCoverage
