import GoalCoverage.Generation.Replay
import GoalCoverage.Proofs.Automaton.Resolution
import GoalCoverage.Proofs.Generation.Progress

/-!
Replay of test cases. A trace that the automaton of a goal accepts crosses its critical edge, so what the
replay records of the goal is feasible (`replay_ensures`).
-/

namespace GoalCoverage.Generator

open Procedure Diagram

variable {t : Task} {interest : Nat → Prop} {feasible : Nat → Configuration → Prop} {g g' : Explored}
  {T : Failure → Prop} {i k : Nat} {c : Configuration} {d : Diagram} {γ γ₀ : Goal} {tc : TestCase} {r : Region}

/-- A test case is in the regions that it had when it crossed the edge. -/
theorem mem_crossingRegions {edge : EdgeId} : r ∈ crossingRegions tc edge ↔
    ∃ k, (tc.trace)[k]? = some edge ∧ tc.presenceAfter (k + 1) = some r := by
  simp only [crossingRegions, List.mem_filterMap, Prod.exists, List.mk_mem_zipIdx_iff_getElem?]
  constructor
  · intro h
    obtain ⟨e, k, there, crossed⟩ := h
    split at crossed
    next same => exact ⟨k, same ▸ there, crossed⟩
    next => cases crossed
  · intro h
    obtain ⟨k, there, crossed⟩ := h
    exact ⟨edge, k, there, by rw [if_pos rfl, crossed]⟩

theorem joinCrossings_yields {every : Bool} {opened : Region} {regions : List Region} (wf : d.WellFormed)
    (has : d.Has opened) (all : ∀ r ∈ regions, d.Has r) :
    Yields true (joinCrossings every opened regions) d fun u d' => d'.Has u ∧
      ∀ c, d'.holds u c = true → ∃ r ∈ regions, d.holds r c = true := by
  suffices ∀ (rest : List Region) (d₁ : Diagram) (u : Region), d.Extends d₁ → d₁.WellFormed → (∀ r ∈ rest, r ∈ regions) →
      d₁.Has u → (∀ c, d₁.holds u c = true → ∃ r ∈ regions, d.holds r c = true) →
      Yields true (rest.foldlM (fun union r => do
        let skip ← if every then pure false else Diagram.disjoint opened r
        if skip then return union else Diagram.join union r) u) d₁ fun u d' => d'.Has u ∧
          ∀ c, d'.holds u c = true → ∃ r ∈ regions, d.holds r c = true by
    exact this regions d .empty (.refl d) wf (fun _ h => h) wf.has_empty (by simp)
  intro rest
  induction rest with
  | nil =>
    intro d₁ u _ wf₁ _ has_u sub
    exact yields_pure (fun _ => wf₁) ⟨has_u, sub⟩
  | cons r rest ih =>
    intro d₁ u ext wf₁ mem has_u sub
    have known := mem r List.mem_cons_self
    have has_r := ext.has (all r known)
    have mem' := fun r h => mem r (List.mem_cons_of_mem _ h)
    rw [List.foldlM_cons]
    have step : Yields true (do
        let skip ← if every then pure false else Diagram.disjoint opened r
        if skip then return u else Diagram.join u r) d₁ fun u d' => d'.Has u ∧
          ∀ c, d'.holds u c = true → ∃ r ∈ regions, d.holds r c = true := by
      have goes_on : ∀ (skip : Bool) d₂, d₁.Extends d₂ → d₂.Ready true →
          Yields true (if skip then return u else Diagram.join u r) d₂ fun u d' => d'.Has u ∧
            ∀ c, d'.holds u c = true → ∃ r ∈ regions, d.holds r c = true := by
        intro skip d₂ ext₂ ready₂
        split
        next =>
          refine yields_pure ready₂ ⟨ext₂.has has_u, fun c holds => sub c ?_⟩
          rwa [ext₂.holds_eq wf₁ has_u] at holds
        next =>
          apply (join_yields (ready₂ rfl) (ext₂.has has_u) (ext₂.has has_r)).mono
          intro v d₃ _ _ spec
          refine ⟨spec.1, fun c holds => ?_⟩
          rw [spec.2, Bool.or_eq_true, ext₂.holds_eq wf₁ has_u, ext₂.holds_eq wf₁ has_r,
            ext.holds_eq wf (all r known)] at holds
          cases holds with
          | inl old => exact sub c old
          | inr new => exact ⟨r, known, new⟩
      cases every with
      | true => exact goes_on false d₁ (.refl d₁) fun _ => wf₁
      | false =>
        apply (disjoint_yields wf₁ (ext.has has) has_r).bind
        intro skip d₂ ext₂ ready₂ _
        exact goes_on skip d₂ ext₂ ready₂
    apply step.bind
    intro v d₂ ext₂ ready₂ spec
    exact ih d₂ v (ext.trans ext₂) (ready₂ rfl) mem' spec.1 spec.2

/-- The regions after the crossings of an edge belong to the diagram. -/
theorem has_crossing (genuine : t.Genuine d tc) (tracks : t.factory.tracks = true) {edge : EdgeId} :
    ∀ r ∈ crossingRegions tc edge, d.Has r := by
  intro r crossing
  obtain ⟨k, _, after⟩ := mem_crossingRegions.1 crossing
  exact (genuine.regions tracks (k + 1) r after).1

/-- A test case that is recognized covers the goal for what it had in common with its regions at the crossings. -/
theorem credit_of_crossings {d' : Diagram} {u : Region} (genuine : t.Genuine d tc) (tracks : t.factory.tracks = true)
    (accepts : γ₀.automaton.Recognizes tc.trace) (critical : γ₀.criticalEdge ∈ tc.trace) (has : d'.Has u)
    (within : ∀ c, d'.holds u c = true → ∃ r ∈ crossingRegions tc γ₀.criticalEdge, d.holds r c = true) :
    t.Credit γ₀ tc.trace d' (some u) := by
  refine ⟨fun _ => knows_some.2 has, fun _ => accepts, critical, fun c inside => ?_⟩
  obtain ⟨r, crossing, holds⟩ := within c (within_some.1 (inside tracks))
  obtain ⟨k, there, after⟩ := mem_crossingRegions.1 crossing
  exact ⟨k, there, (genuine.regions tracks (k + 1) r after).2 c holds⟩

section Replay

variable (fair : t.Fair T) (judges : t.Judges interest feasible) (here : t.goals.get? i = some γ₀)
  (same : γ₀.SameAs γ) (index : γ.index = i)

include fair judges here same index

theorem replayOne_ensures (good : Good t interest feasible g) (mem : tc ∈ g.suite.testCases)
    (fresh : t.factory.tracks = true → g.suite.Lists i tc.id → γ.covering.contains tc.id = true) :
    Ensures T (replayOne γ tc) g fun _ g' =>
      Later t interest feasible g g' ∧ ∀ n, g'.suite.Lists i n → g.suite.Lists i n ∨ n = tc.id := by
  have idle : Later t interest feasible g g ∧ ∀ n, g.suite.Lists i n → g.suite.Lists i n ∨ n = tc.id :=
    ⟨.refl good, fun n => .inl⟩
  rw [replayOne]
  split
  next => exact idle
  next accepted =>
    have accepts : γ₀.automaton.Recognizes tc.trace := by
      rw [← Automaton.accepts_iff (fair.free i γ₀ here), ← same.automaton]
      simpa [Goal.accepts] using accepted
    have critical := fair.crosses i γ₀ tc.trace here accepts
    rw [ensures_bind, ensures_get, good.variability, index]
    cases tracks : t.factory.tracks with
    | false =>
      have passes : ∀ c e, t.Passes c e := fun c e tracked => absurd tracked (by simp [tracks])
      have credit : t.Credit γ₀ tc.trace g.diagram none :=
        ⟨fun _ => knows_none, fun _ => accepts, critical, fun c _ => by
          obtain ⟨k, there⟩ := List.mem_iff_getElem?.1 critical
          exact ⟨k, there, fun e _ => passes c e⟩⟩
      have untracked : t.factory.tracks = true → ¬g.suite.Lists i tc.id := by simp [tracks]
      simp only [Bool.not_false, if_true, ensures_bind, ensures_pure]
      apply (credit_ensures judges good here mem untracked credit).mono
      intro _ g' h
      exact ⟨h.1, fun n lists => ((h.2.1 i n).1 lists).imp_right And.right⟩
    | true =>
      have variability := good.variability.trans tracks
      have ready := good.ready tracks
      simp only [Bool.not_true, Bool.false_eq_true, if_false]
      split
      next => exact idle
      next unlisted =>
        obtain ⟨γ₁, now⟩ := good.known i γ₀ here
        obtain ⟨r₁, left, has⟩ := good.sane.remaining variability i γ₁ now
        have opened : g.diagram.Has γ₁.openRegion := by
          rw [Goal.openRegion, left]
          exact has
        have genuine := good.genuine tc mem
        rw [ensures_bind, ensures_goal now, ensures_bind]
        apply ensures_onRegions (joinCrossings_yields ready opened (has_crossing genuine tracks)).delivers
        intro u d' ext ready' spec
        have later := good.grown ext (tracks.symm ▸ ready')
        have credit : t.Credit γ₀ tc.trace d' (some u) :=
          credit_of_crossings genuine tracks accepts critical spec.1 (same.criticalEdge ▸ spec.2)
        have fresh' : t.factory.tracks = true → ¬g.suite.Lists i tc.id := fun _ lists => unlisted (fresh tracks lists)
        split
        next =>
          rw [ensures_bind]
          apply (credit_ensures judges later.good here mem fresh' credit).mono
          intro _ g' h
          exact ⟨later.trans h.1, fun n lists => ((h.2.1 i n).1 lists).imp_right And.right⟩
        next => exact ⟨later, fun n => .inl⟩

theorem replayAll_ensures {l : List TestCase} (good : Good t interest feasible g) (sub : ∀ tc ∈ l, tc ∈ g.suite.testCases)
    (distinct : (l.map (·.id)).Nodup)
    (fresh : t.factory.tracks = true → ∀ tc ∈ l, g.suite.Lists i tc.id → γ.covering.contains tc.id = true) :
    Ensures T (replayAll γ l) g fun _ g' => Later t interest feasible g g' := by
  induction l generalizing g with
  | nil => exact .refl good
  | cons tc rest ih =>
    rw [List.map_cons, List.nodup_cons] at distinct
    rw [replayAll, ensures_bind]
    apply (replayOne_ensures fair judges here same index good (sub tc List.mem_cons_self)
      fun tracks => fresh tracks tc List.mem_cons_self).mono
    intro covered g' h
    obtain ⟨later, lists⟩ := h
    rw [ensures_bind, ensures_get]
    split
    next => exact later
    next =>
      have sub' : ∀ tc ∈ rest, tc ∈ g'.suite.testCases := fun tc mem =>
        later.testCases.subset (sub tc (List.mem_cons_of_mem _ mem))
      have fresh' : t.factory.tracks = true → ∀ tc' ∈ rest, g'.suite.Lists i tc'.id →
          γ.covering.contains tc'.id = true := by
        intro tracks tc' mem listed
        cases lists tc'.id listed with
        | inl old => exact fresh tracks tc' (List.mem_cons_of_mem _ mem) old
        | inr last => exact absurd (List.mem_map.2 ⟨tc', mem, last⟩) distinct.1
      exact (ih later.good sub' distinct.2 fresh').mono fun _ g'' later' => later.trans later'

end Replay

theorem replay_ensures (fair : t.Fair T) (judges : t.Judges interest feasible) (good : Good t interest feasible g)
    (here : t.goals.get? i = some γ₀) : Ensures T (replay i) g fun _ g' => Later t interest feasible g g' := by
  obtain ⟨γ, now⟩ := good.known i γ₀ here
  obtain ⟨γ₁, first, same⟩ := good.kept i γ now
  rw [here] at first
  cases first
  rw [replay, ensures_bind, ensures_goal now, ensures_bind, ensures_get]
  refine replayAll_ensures fair judges here same (good.sane.index i γ now) good (fun _ mem => mem) good.distinct ?_
  intro tracks tc _ lists
  obtain ⟨o, entry⟩ := good.sane.listed (good.variability.trans tracks) i γ tc.id now lists
  rw [IdMap.contains, entry]
  rfl

end GoalCoverage.Generator
