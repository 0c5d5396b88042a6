import GoalCoverage.Proofs.Explorer.State

/-!
The successors of a state on an edge. Without guards there is one for every joint move of the observers, and
all of them have the region that is left on the edge (`successors_yields`).
-/

namespace GoalCoverage.Explorer

open Diagram

variable {x : Explorer} {d d' : Diagram} {s t : State} {e : EdgeId} {edge : Edge} {c : Configuration}
  {g : Nat} {presence : Option Region} {sets sets' : List IdSet} {disabled : IdSet} {o : Observer}

theorem guards_of_mem_moves (free : o.automaton.isGuarded = false) {q : StateId} {m : StateId × List Guard}
    (mem : m ∈ o.moves q e) : m.2 = [] := by
  rw [Observer.moves] at mem
  split at mem
  · rw [List.mem_singleton.1 mem]
  · obtain ⟨t, here, rfl⟩ := List.mem_map.1 mem
    have taken := (List.mem_filter.1 (List.mem_filter.1 here).1).1
    have plain := Automaton.not_guarded_of_mem free taken
    simpa [Label.isGuarded] using plain

/-- Without guards every move is made, for the whole region. -/
theorem filterMapM_discharge {β : Type} {moves : List (StateId × List Guard)} (plain : ∀ m ∈ moves, m.2 = [])
    (f : StateId → Option Region → β) :
    (moves.filterMapM fun (q, guards) => do
      return (← x.discharge presence guards).map fun narrowed => f q narrowed : StateM Diagram (List β)) =
      pure (moves.map fun m => f m.1 presence) := by
  induction moves with
  | nil => rfl
  | cons m moves ih =>
    obtain ⟨q, guards⟩ := m
    have none : guards = [] := plain (q, guards) (by simp)
    subst none
    simp only [List.filterMapM_cons, discharge, pure_bind, Option.map_some, ih fun m h => plain m (by simp [h]),
      List.map_cons]

theorem advance_eq (free : o.automaton.isGuarded = false) (states : IdSet) (partials : List Partial) :
    x.advance o states e partials =
      pure (partials.flatMap fun p => (o.after states e).map fun T => (p.1 ++ [T], p.2)) := by
  have plain : ∀ m ∈ states.toList.flatMap (o.moves · e), m.2 = [] := by
    intro m mem
    obtain ⟨q, _, here⟩ := List.mem_flatMap.1 mem
    exact guards_of_mem_moves free here
  have next : states.toList.flatMap (o.follow · e) = (states.toList.flatMap (o.moves · e)).map (·.1) := by
    rw [List.map_flatMap]
    rfl
  induction partials with
  | nil => rfl
  | cons p partials ih =>
    obtain ⟨sets, presence⟩ := p
    simp only [advance] at ih ⊢
    rw [List.flatMapM_cons, ih]
    simp only [List.flatMap_cons, Observer.after, next]
    cases kind : o.isPowerset with
    | true =>
      simp only [if_true, filterMapM_discharge plain fun q _ => q, pure_bind]
      cases (states.toList.flatMap (o.moves · e)).map (·.1) <;> simp
    | false =>
      simp only [Bool.false_eq_true, if_false, filterMapM_discharge plain fun q narrowed =>
        (sets ++ [IdSet.singleton q], narrowed), pure_bind]
      simp [Function.comp_def]

/-- All observers advance to the joint moves. -/
theorem advance_all_eq (pairs : List (Observer × IdSet)) (free : ∀ p ∈ pairs, p.1.automaton.isGuarded = false)
    (partials : List Partial) :
    ∃ out, pairs.foldlM (fun partials (o, states) => x.advance o states e partials) partials = pure out ∧
      ∀ sets presence, (sets, presence) ∈ out ↔ ∃ done rest, (done, presence) ∈ partials ∧ sets = done ++ rest ∧
        List.Forall₂ (fun p T => T ∈ p.1.after p.2 e) pairs rest := by
  induction pairs generalizing partials with
  | nil => exact ⟨partials, rfl, fun sets presence => by simp⟩
  | cons pair pairs ih =>
    obtain ⟨o, states⟩ := pair
    obtain ⟨out, folded, spec⟩ := ih (fun p hp => free p (by simp [hp]))
      (partials.flatMap fun p => (o.after states e).map fun T => (p.1 ++ [T], p.2))
    refine ⟨out, ?_, fun sets presence => ?_⟩
    · have here : o.automaton.isGuarded = false := free (o, states) (by simp)
      rw [List.foldlM_cons]
      simp only [advance_eq here, pure_bind]
      exact folded
    · rw [spec]
      constructor
      · intro h
        obtain ⟨done, rest, mem, rfl, moved⟩ := h
        simp only [List.mem_flatMap, List.mem_map, Prod.mk.injEq] at mem
        obtain ⟨⟨first, presence'⟩, known, T, step, rfl, rfl⟩ := mem
        exact ⟨first, T :: rest, known, by simp, .cons step moved⟩
      · intro h
        obtain ⟨done, rest, mem, rfl, moved⟩ := h
        cases moved with
        | @cons _ T _ rest step moved =>
          refine ⟨done ++ [T], rest, ?_, by simp, moved⟩
          simp only [List.mem_flatMap, List.mem_map, Prod.mk.injEq]
          exact ⟨(done, presence), mem, T, step, rfl, rfl⟩

theorem advance_joint (presence : Option Region) (free : ∀ o ∈ x.observers, o.automaton.isGuarded = false) :
    ∃ out, (x.observers.zip s.observers).foldlM (fun partials (o, states) => x.advance o states e partials)
        [([], presence)] = pure out ∧
      ∀ sets p, (sets, p) ∈ out ↔ p = presence ∧ sets ∈ Observer.joint x.observers s.observers e := by
  obtain ⟨out, folded, spec⟩ := advance_all_eq (x := x) (e := e) (x.observers.zip s.observers)
    (fun p hp => free p.1 (List.of_mem_zip hp).1) [([], presence)]
  refine ⟨out, folded, fun sets p => ?_⟩
  rw [spec, Observer.joint, List.mem_sections, List.forall₂_map_right_iff]
  constructor
  · intro h
    obtain ⟨done, rest, mem, rfl, moved⟩ := h
    cases List.mem_singleton.1 mem
    exact ⟨rfl, moved.flip⟩
  · intro h
    obtain ⟨rfl, moved⟩ := h
    exact ⟨[], sets, by simp, rfl, moved.flip⟩

/-- `t` follows `s` along the edge `e`. -/
structure Follows (x : Explorer) (d : Diagram) (s : State) (e : EdgeId) (t : State) : Prop where
  edge : ∃ edge, x.program.edges[e]? = some edge ∧ edge.source = s.location ∧ edge.target = t.location
  observers : Pointwise (fun o S T => ∀ q' ∈ T, ∃ q ∈ S, q' ∈ o.follow q e) x.observers s.observers t.observers
  presence : ∀ c, d.Within t.presence c → d.Within s.presence c ∧ x.Passes d c e
  possible : t.presence.any (·.isEmpty) = false

/-- A state that fits the explorer. -/
structure Proper (x : Explorer) (d : Diagram) (s : State) : Prop where
  length : x.observers.length = s.observers.length
  presence : x.Tracked d s.presence
  accepted : ∀ g ∈ s.accepted, Observer.Accepts x.observers s.observers g

/-- Every goal that is accepted in a state and can be credited to it is credited to it. -/
def Credits (x : Explorer) (d : Diagram) (disabled : IdSet) (s : State) : Prop :=
  ∀ g c, Observer.Accepts x.observers s.observers g → g ∉ disabled → d.Within s.presence c → x.Opens d g c →
    g ∈ s.accepted

/-- All goals that a state is credited with are enabled, and open somewhere in its region. -/
def Ripe (x : Explorer) (d : Diagram) (disabled : IdSet) (s : State) : Prop :=
  ∀ g ∈ s.accepted, g ∉ disabled ∧ x.OpensIn d g s.presence

theorem Proper.extends (proper : x.Proper d s) (ext : d.Extends d') : x.Proper d' s :=
  ⟨proper.length, proper.presence.extends ext, proper.accepted⟩

theorem Follows.extends (follows : x.Follows d s e t) (fit : x.Fit d) (ext : d.Extends d')
    (before : x.Tracked d s.presence) (after : x.Tracked d t.presence) : x.Follows d' s e t where
  edge := follows.edge
  observers := follows.observers
  presence c := by
    rw [after.within_iff fit.ready ext, before.within_iff fit.ready ext, fit.passes_iff ext]
    exact follows.presence c
  possible := follows.possible

theorem Credits.extends (credits : x.Credits d disabled s) (fit : x.Fit d) (ext : d.Extends d')
    (tracked : x.Tracked d s.presence) : x.Credits d' disabled s := by
  intro g c
  rw [tracked.within_iff fit.ready ext, fit.opens_iff ext]
  exact credits g c

theorem Ripe.extends (ripe : x.Ripe d disabled s) (fit : x.Fit d) (ext : d.Extends d')
    (tracked : x.Tracked d s.presence) : x.Ripe d' disabled s := by
  intro g mem
  rw [fit.opensIn_iff tracked ext]
  exact ripe g mem

/-- All that there is to know of a successor when it is placed. -/
structure Succeeds (x : Explorer) (d : Diagram) (disabled : IdSet) (s : State) (e : EdgeId) (t : State) : Prop where
  follows : x.Follows d s e t
  proper : x.Proper d t
  credits : x.Credits d disabled t
  ripe : x.Ripe d disabled t

theorem Succeeds.extends (succeeds : x.Succeeds d disabled s e t) (fit : x.Fit d) (ext : d.Extends d')
    (before : x.Tracked d s.presence) : x.Succeeds d' disabled s e t where
  follows := succeeds.follows.extends fit ext before succeeds.proper.presence
  proper := succeeds.proper.extends ext
  credits := succeeds.credits.extends fit ext succeeds.proper.presence
  ripe := succeeds.ripe.extends fit ext succeeds.proper.presence

theorem opensIn_of_opens (within : d.Within presence c) (opens : x.Opens d g c) : x.OpensIn d g presence := by
  intro tracks p r hp hr
  exact ⟨c, within p hp, opens tracks r hr⟩

theorem credits_credited (same : s.accepted = x.credited d s.observers s.presence disabled) :
    x.Credits d disabled s := by
  intro g c accepts enabled within opens
  rw [same, mem_credited]
  exact ⟨accepts, enabled, opensIn_of_opens within opens⟩

theorem ripe_credited (same : s.accepted = x.credited d s.observers s.presence disabled) :
    x.Ripe d disabled s := by
  intro g mem
  rw [same, mem_credited] at mem
  exact mem.2

theorem proper_credited (length : x.observers.length = s.observers.length) (tracked : x.Tracked d s.presence)
    (same : s.accepted = x.credited d s.observers s.presence disabled) : x.Proper d s := by
  refine ⟨length, tracked, fun g mem => ?_⟩
  rw [same, mem_credited] at mem
  exact mem.1

theorem passes_iff_within (there : x.program.edges[e]? = some edge) :
    (x.tracks = true → d.Within edge.presence c) ↔ x.Passes d c e := by
  simp only [Passes, Program.Allows, there, Option.some.injEq, forall_eq']

/-- The states that are made of what is known in the end, with the goals that they are credited with. -/
theorem credited_yields {partials : List Partial} (fit : x.Fit d) (location : Location)
    (tracked : ∀ p ∈ partials, x.Tracked d p.2) :
    Yields x.tracks (partials.mapM fun (observers, presence) => do
      let accepted ← x.accepted observers presence disabled
      return { location, observers, presence, accepted : State }) d fun found _ =>
      found = partials.map fun p =>
        { location, observers := p.1, presence := p.2, accepted := x.credited d p.1 p.2 disabled } := by
  refine Yields.mapM fit.ready fun p mem d' ext ready => ?_
  apply (accepted_yields (fit.extends ext ready) ((tracked p mem).extends ext)).bind
  intro accepted d'' _ ready' eq
  apply yields_pure ready'
  rw [eq, credited_extends fit (tracked p mem) ext]

theorem inhabited_of_within (within : d.Within presence c) : presence.any (·.isEmpty) = false := by
  rw [← Bool.not_eq_true, Option.any_eq_true]
  intro ⟨r, is, empty⟩
  rw [is, Region.isEmpty_iff.1 empty, within_some, holds_empty] at within
  cases within

/-- A configuration leaves a state on an edge. -/
structure Leaves (x : Explorer) (d : Diagram) (s : State) (e : EdgeId) (c : Configuration) : Prop where
  within : d.Within s.presence c
  passes : x.Passes d c e
  admits : x.Admits d c

theorem leaves_iff (there : x.program.edges[e]? = some edge) : x.Leaves d s e c ↔
    (d.Within s.presence c ∧ (x.tracks = true → d.Within edge.presence c)) ∧ x.Admits d c := by
  rw [passes_iff_within there]
  exact ⟨fun leaves => ⟨⟨leaves.within, leaves.passes⟩, leaves.admits⟩, fun h => ⟨h.1.1, h.1.2, h.2⟩⟩

theorem Leaves.extends (fit : x.Fit d) (tracked : x.Tracked d s.presence) (ext : d.Extends d') :
    x.Leaves d' s e c ↔ x.Leaves d s e c :=
  ⟨fun leaves => ⟨(tracked.within_iff fit.ready ext).1 leaves.within, (fit.passes_iff ext).1 leaves.passes,
    (fit.admits_iff ext).1 leaves.admits⟩, fun leaves => ⟨(tracked.within_iff fit.ready ext).2 leaves.within,
    (fit.passes_iff ext).2 leaves.passes, (fit.admits_iff ext).2 leaves.admits⟩⟩

/-- The successors on an edge: one for every joint move, with all configurations that leave on the edge. -/
theorem successors_exact (fit : x.Fit d) (free : ∀ o ∈ x.observers, o.automaton.isGuarded = false)
    (proper : x.Proper d s) (there : x.program.edges[e]? = some edge) :
    Yields x.tracks (x.successors s e edge disabled) d fun found d' => ∃ presence, x.Tracked d' presence ∧
      (∀ c, d'.Within presence c ↔ x.Leaves d s e c) ∧ ∀ t, t ∈ found ↔ presence.any (·.isEmpty) = false ∧
        ∃ sets ∈ Observer.joint x.observers s.observers e,
          t = { location := edge.target, observers := sets, presence,
                accepted := x.credited d' sets presence disabled } := by
  apply (crossing_yields fit proper.presence there).bind
  intro presence d₁ ext ready spec
  have fit₁ := fit.extends ext ready
  split
  next empty => exact yields_pure ready ⟨presence, spec.1, fun c => (spec.2 c).trans (leaves_iff there).symm, by simp [empty]⟩
  next inhabited =>
    obtain ⟨partials, folded, moved⟩ := advance_joint (e := e) (s := s) presence free
    rw [folded, pure_bind]
    have tracked : ∀ p ∈ partials, x.Tracked d₁ p.2 := by
      intro p mem
      rw [((moved p.1 p.2).1 mem).1]
      exact spec.1
    apply (credited_yields fit₁ edge.target tracked).bind
    intro found d₂ ext₂ ready₂ eq
    apply yields_pure ready₂
    refine ⟨presence, spec.1.extends ext₂, fun c => ?_, fun t => ?_⟩
    · rw [spec.1.within_iff ready ext₂, spec.2 c, leaves_iff there]
    · rw [Distinct.mem_ofList, eq, List.mem_map]
      constructor
      · intro h
        obtain ⟨p, mem, rfl⟩ := h
        obtain ⟨same, joint⟩ := (moved p.1 p.2).1 mem
        rw [same]
        exact ⟨Bool.not_eq_true _ ▸ inhabited, p.1, joint, by rw [credited_extends fit₁ spec.1 ext₂]⟩
      · intro h
        obtain ⟨_, sets, joint, rfl⟩ := h
        exact ⟨(sets, presence), (moved sets presence).2 ⟨rfl, joint⟩, by rw [credited_extends fit₁ spec.1 ext₂]⟩

/-- The successors on an edge for all configurations that may take it. -/
theorem successors_yields (fit : x.Fit d) (free : ∀ o ∈ x.observers, o.automaton.isGuarded = false)
    (proper : x.Proper d s) (there : x.program.edges[e]? = some edge) (leaving : edge.source = s.location) :
    Yields x.tracks (x.successors s e edge disabled) d fun found d' =>
      (∀ t ∈ found, x.Succeeds d' disabled s e t) ∧
      ∀ c, d.Within s.presence c → x.Admits d c → x.Passes d c e →
        ∀ sets ∈ Observer.joint x.observers s.observers e, ∃ t ∈ found,
          t.location = edge.target ∧ t.observers = sets ∧ d'.Within t.presence c := by
  apply (successors_exact fit free proper there).mono
  intro found d' ext ready spec
  obtain ⟨presence, tracked, leaves, listed⟩ := spec
  refine ⟨fun t mem => ?_, fun c within admits passes sets joint => ?_⟩
  · obtain ⟨inhabited, sets, joint, rfl⟩ := (listed t).1 mem
    have pointwise := (Observer.mem_joint_iff proper.length).1 joint
    refine ⟨⟨⟨edge, there, leaving, rfl⟩, ?_, fun c here => ?_, inhabited⟩, ?_, ?_, ?_⟩
    · exact pointwise.mono fun o S T step q' mem' => Observer.mem_of_mem_after step mem'
    · have leaves' := (leaves c).1 here
      rw [proper.presence.within_iff fit.ready ext, fit.passes_iff ext]
      exact ⟨leaves'.within, leaves'.passes⟩
    · exact proper_credited pointwise.length_right tracked rfl
    · exact credits_credited rfl
    · exact ripe_credited rfl
  · have here := (leaves c).2 ⟨within, passes, admits⟩
    exact ⟨_, (listed _).2 ⟨inhabited_of_within here, sets, joint, rfl⟩, rfl, rfl, here⟩

end GoalCoverage.Explorer
