import GoalCoverage.Explorer.Run
import GoalCoverage.Proofs.Explorer.Successors
import GoalCoverage.Proofs.StateGraph.Route

/-!
Covering. A state is only left out, as a duplicate or as covered, where another one at the same position
has all of its configurations.
-/

namespace GoalCoverage.Explorer

open Diagram StateGraph

variable {x : Explorer} {d d' : Diagram} {s t : State} {n m : NodeId} {e : EdgeId} {c : Configuration}
  {a b : Option Region} {g : StateGraph State} {root : NodeId}

/-- `t` is at the position of `s` for at least as many configurations. -/
structure Subsumes (d : Diagram) (t s : State) : Prop where
  location : t.location = s.location
  observers : t.observers = s.observers
  accepted : t.accepted = s.accepted
  presence : ∀ c, d.Within s.presence c → d.Within t.presence c

theorem samePosition_iff : t.samePosition s = true ↔
    t.location = s.location ∧ t.observers = s.observers ∧ t.accepted = s.accepted := by
  simp [State.samePosition, and_assoc]

theorem Subsumes.extends_iff (fit : x.Fit d) (ext : d.Extends d') (ht : x.Tracked d t.presence) (hs : x.Tracked d s.presence) :
    Subsumes d' t s ↔ Subsumes d t s := by
  have presence : (∀ c, d'.Within s.presence c → d'.Within t.presence c) ↔ ∀ c, d.Within s.presence c → d.Within t.presence c := by
    simp only [hs.within_iff fit.ready ext, ht.within_iff fit.ready ext]
  exact ⟨fun h => ⟨h.location, h.observers, h.accepted, presence.1 h.presence⟩,
    fun h => ⟨h.location, h.observers, h.accepted, presence.2 h.presence⟩⟩

theorem Subsumes.extends (subsumes : Subsumes d t s) (fit : x.Fit d) (ext : d.Extends d')
    (ht : x.Tracked d t.presence) (hs : x.Tracked d s.presence) : Subsumes d' t s := (extends_iff fit ext ht hs).2 subsumes

theorem subsumes_yields (fit : x.Fit d) (ha : x.Tracked d a) (hb : x.Tracked d b) :
    Yields x.tracks (x.subsumes a b) d fun r _ => r = true ↔ ∀ c, d.Within b c → d.Within a c := by
  obtain ⟨tracks, p, rfl, hp⟩ | ⟨tracks, rfl⟩ := ha.cases
  · obtain ⟨_, q, rfl, hq⟩ | ⟨untracked, _⟩ := hb.cases
    · have shape : x.subsumes (some p) (some q) = Diagram.implies q p := by simp only [subsumes, tracks]
      rw [shape]
      have ready := fit.ready
      rw [tracks] at ready ⊢
      apply (implies_yields (ready rfl) hq hp).mono
      intro r d' _ _ spec
      simp only [within_some]
      exact spec
    · rw [tracks] at untracked
      cases untracked
  · obtain ⟨tracks', _⟩ | ⟨_, rfl⟩ := hb.cases
    · rw [tracks] at tracks'
      cases tracks'
    · have shape : x.subsumes none none = pure true := by simp only [subsumes, tracks, decide_true]
      rw [shape]
      exact yields_pure fit.ready ⟨fun _ c within => within, fun _ => rfl⟩

/-- A duplicate is a child for the edge that has all of the successor. -/
theorem isDuplicate_yields (fit : x.Fit d) (proper : ∀ m v, g.node? m = some v → x.Proper d v.state)
    (hs : x.Tracked d s.presence) :
    Yields x.tracks (x.isDuplicate g n e s) d fun r _ => r = true ↔
      ∃ m v, g.Link n e m ∧ g.node? m = some v ∧ Subsumes d v.state s := by
  have search : Yields x.tracks (x.isDuplicate g n e s) d fun r _ => r = true ↔
      ∃ m ∈ g.childList n, ∃ v, g.edgeLabel n m = some e ∧ g.node? m = some v ∧ Subsumes d v.state s := by
    apply Yields.anyM fit.ready
    intro m mem d' ext ready
    cases here : g.node? m with
    | none => exact yields_pure ready (by simp)
    | some v =>
      dsimp only
      split
      next same =>
        rw [Bool.and_eq_true, samePosition_iff, beq_iff_eq] at same
        have tracked := (proper m v here).presence
        apply (subsumes_yields (fit.extends ext ready) (tracked.extends ext) (hs.extends ext)).mono
        intro r d'' _ _ spec
        rw [spec]
        simp only [hs.within_iff fit.ready ext, tracked.within_iff fit.ready ext]
        constructor
        · exact fun within => ⟨v, same.2, rfl, same.1.1, same.1.2.1, same.1.2.2, within⟩
        · intro child
          obtain ⟨w, _, is, subsumes⟩ := child
          cases is
          exact subsumes.presence
      next other =>
        refine yields_pure ready ⟨fun h => (nomatch h), fun child => absurd ?_ other⟩
        obtain ⟨w, label, is, subsumes⟩ := child
        cases is
        rw [Bool.and_eq_true, samePosition_iff, beq_iff_eq]
        exact ⟨⟨subsumes.location, subsumes.observers, subsumes.accepted⟩, label⟩
  apply search.mono
  intro r d' _ _ spec
  rw [spec]
  constructor
  · intro listed
    obtain ⟨m, _, v, label, here, subsumes⟩ := listed
    rw [edgeLabel, Option.bind_eq_some_iff] at label
    obtain ⟨w, known, child⟩ := label
    rw [Option.join_eq_some_iff] at child
    exact ⟨m, v, ⟨w, known, child⟩, here, subsumes⟩
  · intro linked
    obtain ⟨m, v, ⟨w, known, child⟩, here, subsumes⟩ := linked
    refine ⟨m, ?_, v, ?_, here, subsumes⟩
    · rw [childList, known, IdSet.mem_toList, IdMap.mem_keys]
      exact ⟨_, child⟩
    · rw [edgeLabel, known, Option.bind_some, child]
      rfl

theorem canCover_iff (tree : g.Tree root) : canCover g m = true ↔ g.Attached m ∧
    ∀ v, g.node? m = some v → v.coveredBy = none := by
  simp only [canCover, isCovered, tree.root_eq, Bool.and_eq_true, Bool.or_eq_true, decide_eq_true_eq,
    Bool.not_eq_true', Option.any_eq_true, Option.any_eq_false, IdSet.isEmpty_eq_false_iff]
  constructor
  · intro h
    obtain ⟨place, uncovered⟩ := h
    refine ⟨?_, fun v here => by simpa using uncovered v here⟩
    cases place with
    | inl same =>
      cases same
      exact tree.attached_root
    | inr hanging =>
      obtain ⟨v, here, parents⟩ := hanging
      exact ⟨v, here, .inr parents⟩
  · intro h
    obtain ⟨⟨v, here, place⟩, uncovered⟩ := h
    refine ⟨?_, fun v here => by simp [uncovered v here]⟩
    cases place with
    | inl same => exact .inl (tree.root_eq.symm.trans same)
    | inr hanging => exact .inr ⟨v, here, hanging⟩

/-- No node that may cover others has all of the state. -/
def Novel (d : Diagram) (g : StateGraph State) (s : State) : Prop :=
  ∀ m v, g.node? m = some v → g.Attached m → v.coveredBy = none → ¬Subsumes d v.state s

theorem findCover_yields (tree : g.Tree root) (fit : x.Fit d)
    (proper : ∀ m v, g.node? m = some v → x.Proper d v.state) (hs : x.Tracked d s.presence) :
    Yields x.tracks (x.findCover g s) d fun out _ => (∀ m, out = some m →
      ∃ v, g.node? m = some v ∧ g.Attached m ∧ v.coveredBy = none ∧ Subsumes d v.state s) ∧ (out = none → Novel d g s) := by
  let Able (m : NodeId) : Prop := ∃ v, g.node? m = some v ∧ g.Attached m ∧ v.coveredBy = none ∧ Subsumes d v.state s
  have search : Yields x.tracks (x.findCover g s) d fun out _ =>
      (∀ m, out = some m → m ∈ g.ids ∧ Able m) ∧ (out = none → ∀ m ∈ g.ids, ¬Able m) := by
    apply Yields.findM? fit.ready
    intro m mem d' ext ready
    dsimp only [Able]
    cases here : g.node? m with
    | none => exact yields_pure ready (by simp)
    | some v =>
      dsimp only
      split
      next same =>
        rw [Bool.and_eq_true, samePosition_iff, canCover_iff tree] at same
        have tracked := (proper m v here).presence
        apply (subsumes_yields (fit.extends ext ready) (tracked.extends ext) (hs.extends ext)).mono
        intro r d'' _ _ spec
        rw [spec]
        simp only [hs.within_iff fit.ready ext, tracked.within_iff fit.ready ext]
        constructor
        · exact fun within => ⟨v, rfl, same.2.1, same.2.2 v here, same.1.1, same.1.2.1, same.1.2.2, within⟩
        · intro coverer
          obtain ⟨w, is, _, _, subsumes⟩ := coverer
          cases is
          exact subsumes.presence
      next other =>
        refine yields_pure ready ⟨fun h => (nomatch h), fun coverer => absurd ?_ other⟩
        obtain ⟨w, is, attached, uncovered, subsumes⟩ := coverer
        cases is
        rw [Bool.and_eq_true, samePosition_iff, canCover_iff tree]
        refine ⟨⟨subsumes.location, subsumes.observers, subsumes.accepted⟩, attached, fun w there => ?_⟩
        cases here.symm.trans there
        exact uncovered
  apply search.mono
  intro out d' _ _ spec
  refine ⟨fun m found => (spec.1 m found).2, fun missed m v here attached uncovered subsumes => ?_⟩
  exact spec.2 missed m (mem_ids.2 ⟨v, here⟩) ⟨v, here, attached, uncovered, subsumes⟩

theorem isRelevant_yields (fit : x.Fit d) (hs : x.Tracked d s.presence) :
    Yields x.tracks (x.isRelevant s) d fun r _ => r = false →
      ∀ c, d.Within s.presence c → ¬x.Admits d c := by
  have shape : x.isRelevant s = pure true ∨ ∃ p r, x.tracks = true ∧ s.presence = some p ∧
      x.constraint = some r ∧ x.isRelevant s = do return !(← Diagram.disjoint p r) := by
    cases tracks : x.tracks <;> cases presence : s.presence <;> cases constraint : x.constraint <;>
      simp [isRelevant, tracks, presence, constraint]
  obtain shape | ⟨p, r, tracks, presence, constraint, shape⟩ := shape
  · rw [shape]
    exact yields_pure fit.ready fun h => nomatch h
  · rw [shape]
    have ready := fit.ready
    have hr := fit.constraint tracks r constraint
    have hp := hs.knows p presence
    simp only [Admits, presence, constraint, within_some]
    rw [tracks] at ready ⊢
    apply (disjoint_yields (ready rfl) hp hr).bind
    intro apart d' _ ready' spec
    refine yields_pure ready' fun h c within admits => ?_
    rw [Bool.not_eq_false'] at h
    exact spec.1 h c ⟨within, admits rfl⟩

end GoalCoverage.Explorer
