import GoalCoverage.Generation.Search
import GoalCoverage.Proofs.Driver.Settlement
import GoalCoverage.Proofs.Exploration

/-!
How analyses handle regions. When configurations are tracked, an analysis gets its regions from the diagram that it
shares with the generator, and so the diagram only grows and all regions in use belong to it. Nothing else is asked of
an analysis. Then a session leaves its generator as a run of `Records` would, but for the work of the engine.
-/

namespace GoalCoverage

open Procedure Diagram

variable {F E S P α : Type}

/-- Do the regions held by the surroundings, the engines and the precisions of an analysis belong to a diagram? -/
structure Holdings (F E P : Type) where
  surroundings : Diagram → F → Prop
  engine : Diagram → E → Prop
  precision : Diagram → P → Prop

section Laws

variable [AbstractState S]

/-- All regions on a bench belong to its diagram. -/
structure Bench.Fits (b : Bench F E S) (h : Holdings F E P) : Prop where
  wellFormed : b.diagram.WellFormed
  surroundings : h.surroundings b.diagram b.surroundings
  engine : h.engine b.diagram b.engine
  shown : ∀ n v, b.reached.graph.node? n = some v → b.diagram.Knows (AbstractState.presence v.state)

/-- Work on a bench that leaves it fit, whether or not it succeeds. -/
def Bench.Leads (b b' : Bench F E S) (h : Holdings F E P) : Prop := b.diagram.Extends b'.diagram ∧ b'.Fits h

/-- An analysis that takes its regions from the diagram only. -/
structure Analysis.Lawful (a : Analysis F E S P) (h : Holdings F E P) : Prop where
  surroundings : ∀ d d' f, d.Extends d' → h.surroundings d f → h.surroundings d' f
  engine : ∀ d d' e, d.Extends d' → h.engine d e → h.engine d' e
  precision : ∀ d d' p, d.Extends d' → h.precision d p → h.precision d' p
  composes : ∀ d f observers region precision, d.WellFormed → h.surroundings d f → d.Knows region →
    (∀ p, precision = some p → h.precision d p) → Ensures anything (a.compose observers region precision) (d, f) fun e t =>
      d.Extends t.1 ∧ t.1.WellFormed ∧ h.surroundings t.1 t.2 ∧ h.engine t.1 e
  starts : ∀ d f e, d.WellFormed → h.surroundings d f → h.engine d e →
    Ensures anything (a.initialState e) (d, f) fun s t =>
      d.Extends t.1 ∧ t.1.WellFormed ∧ h.surroundings t.1 t.2 ∧ t.1.Knows (AbstractState.presence s)
  refines : ∀ d e, h.engine d e → h.precision d (a.precision e)
  runs : ∀ fuel limit (b : Bench F E S), b.Fits h → b.Leads (finish (a.run fuel limit) b) h
  disables : ∀ goals (b : Bench F E S), b.Fits h → Ensures anything (a.disable goals) b fun _ b' => b.Leads b' h
  restricts : ∀ region opened (b : Bench F E S), b.Fits h → b.diagram.Has region →
    (∀ i r, opened.get? i = some r → b.diagram.Has r) →
      Ensures anything (a.restrict region opened) b fun _ b' => b.Leads b' h

theorem Analysis.Lawful.runsBounded {a : Analysis F E S P} {h : Holdings F E P} (lawful : a.Lawful h) (fuel : Nat)
    (limit : Option Duration) {b : Bench F E S} (fits : b.Fits h) :
    Ensures anything (a.runBounded fuel limit) b fun _ b' => b.Leads b' h := by
  have leads := lawful.runs fuel limit b fits
  rw [finish] at leads
  rw [Ensures, Analysis.runBounded]
  cases out : a.run fuel limit b with
  | ok ending b' =>
    rw [out] at leads
    dsimp only
    cases limit.isSome && ending.expired with
    | true => exact leads
    | false => exact leads
  | error e b' =>
    rw [out] at leads
    cases e with
    | refused reason => exact leads
    | violated v =>
      dsimp only
      cases limit.isSome with
      | true => exact leads
      | false => trivial
    | exhausted => trivial

end Laws

/-- All regions that a generator holds, or shares with its engines, belong to the diagram. -/
structure Generator.Regular (g : Generator F P) (h : Holdings F E P) : Prop where
  tidy : g.Tidy
  surroundings : g.suite.variability = true → h.surroundings g.diagram g.surroundings
  precision : g.suite.variability = true → ∀ p, g.precision = some p → h.precision g.diagram p

/-- A generator that keeps records changes nothing that it shares with its engines. -/
theorem Generator.Regular.records [AbstractState S] {a : Analysis F E S P} {h : Holdings F E P} {g g' : Generator F P}
    {covers excludes : Nat → Prop} (regular : g.Regular h) (lawful : g.suite.variability = true → a.Lawful h)
    (records : g.Records covers excludes g') : g'.Regular h where
  tidy := records.tidy
  surroundings tracks := by
    have tracked := records.suite.variability.symm.trans tracks
    rw [records.surroundings]
    exact (lawful tracked).surroundings _ _ _ (records.suite.grows tracked) (regular.surroundings tracked)
  precision tracks p same := by
    have tracked := records.suite.variability.symm.trans tracks
    exact (lawful tracked).precision _ _ _ (records.suite.grows tracked)
      (regular.precision tracked p (records.precision ▸ same))

namespace Session

variable [AbstractState S] {a : Analysis F E S P} {h : Holdings F E P} {s s' s'' : Session F E S P}
  {covers covers' : Nat → Prop} {batch : List Nat} {fuel : Nat} {sound : Bool}

/-- All regions in a session belong to the diagram. -/
structure Regular (s : Session F E S P) (h : Holdings F E P) : Prop where
  generator : s.generator.Regular h
  engine : s.generator.suite.variability = true → h.engine s.generator.diagram s.engine
  owns : s.generator.Owns s.reached

theorem Regular.tidy (regular : s.Regular h) : s.generator.Tidy := regular.generator.tidy

theorem Regular.fits (regular : s.Regular h) (tracks : s.generator.suite.variability = true) : s.bench.Fits h where
  wellFormed := regular.tidy.drawn.ready tracks
  surroundings := regular.generator.surroundings tracks
  engine := regular.engine tracks
  shown := regular.owns tracks

/-- `s'` comes after `s`. Only goals in `covers` were covered since, and no goal was found infeasible. -/
structure Advances (h : Holdings F E P) (covers : Nat → Prop) (s s' : Session F E S P) : Prop where
  regular : s'.Regular h
  develops : s.generator.Develops covers (fun _ => False) s'.generator

namespace Advances

theorem refl (regular : s.Regular h) : s.Advances h covers s := ⟨regular, .refl regular.tidy⟩

theorem trans (first : s.Advances h covers s') (second : s'.Advances h covers s'') : s.Advances h covers s'' :=
  ⟨second.regular, first.develops.trans second.develops⟩

theorem mono (advances : s.Advances h covers s') (wider : ∀ i, covers i → covers' i) : s.Advances h covers' s' :=
  ⟨advances.regular, advances.develops.mono wider fun _ h => h⟩

theorem tracks (advances : s.Advances h covers s') (tracks : s'.generator.suite.variability = true) :
    s.generator.suite.variability = true := advances.develops.suite.variability.symm.trans tracks

/-- What is pending later was pending before. -/
theorem trans_pending (first : s.Advances h (s.generator.Pending batch) s') (regular : s.Regular h)
    (second : s'.Advances h (s'.generator.Pending batch) s'') : s.Advances h (s.generator.Pending batch) s'' :=
  first.trans (second.mono fun _ => first.develops.pending regular.tidy)

end Advances

section Steps

variable (regular : s.Regular h) (lawful : s.generator.suite.variability = true → a.Lawful h)

include regular lawful

/-- A generator that keeps records changes nothing that an engine holds. -/
theorem Regular.records {g : Generator F P} (records : s.generator.Records covers (fun _ => False) g) :
    s.Advances h covers { s with generator := g } := by
  refine ⟨⟨regular.generator.records lawful records, fun tracks => ?_, regular.owns.develops records.toDevelops⟩,
    records.toDevelops⟩
  have tracked := records.suite.variability.symm.trans tracks
  exact (lawful tracked).engine _ _ _ (records.suite.grows tracked) (regular.engine tracked)

theorem withGenerator_ensures {m : Procedure (Generator F P) α} {R : α → Generator F P → Prop}
    (records : Ensures anything m s.generator fun b g => s.generator.Records covers (fun _ => False) g ∧ R b g) :
    Ensures anything (withGenerator m) s fun b (s' : Session F E S P) =>
      s.Advances h covers s' ∧ R b s'.generator ∧ s'.engine = s.engine ∧ s'.reached = s.reached := by
  rw [withGenerator, ensures_within]
  apply records.mono
  intro b g holds
  exact ⟨regular.records lawful holds.1, holds.2, rfl, rfl⟩

/-- Work of the engine changes nothing that a generator records. -/
theorem withEngine_ensures {m : Procedure (Bench F E S) α}
    (leads : s.generator.suite.variability = true → Ensures anything m s.bench fun _ b => s.bench.Leads b h) :
    Ensures anything (withEngine m) s fun _ (s' : Session F E S P) =>
      s.Advances h covers s' ∧ s'.generator.suite = s.generator.suite := by
  rw [withEngine, ensures_within, ensures_anything_iff]
  intro b bench ok
  have leads' : s.generator.suite.variability = true → s.bench.Leads bench h := fun tracks => (leads tracks).of_eq_ok ok
  have grown : s.generator.Records covers (fun _ => False) { s.generator with diagram := bench.diagram } :=
    regular.tidy.grows (fun tracks => (leads' tracks).1) fun tracks => (leads' tracks).2.wellFormed
  have tidy : (setBench bench s).generator.Tidy := ⟨grown.tidy.drawn, grown.tidy.presence⟩
  refine ⟨⟨⟨⟨tidy, fun tracks => (leads' tracks).2.surroundings, fun tracks p same => ?_⟩,
    fun tracks => (leads' tracks).2.engine, fun tracks => (leads' tracks).2.shown⟩, ⟨tidy, grown.suite, rfl, rfl, rfl⟩⟩, rfl⟩
  exact (lawful tracks).precision _ _ _ (leads' tracks).1 (regular.generator.precision tracks p same)

theorem runEngine_ensures_of : Ensures anything (runEngine a fuel) s fun _ s' =>
    s.Advances h covers s' ∧ s'.generator.suite = s.generator.suite := by
  rw [runEngine, ensures_bind, ensures_get]
  exact withEngine_ensures regular lawful fun tracks => (lawful tracks).runsBounded fuel _ (regular.fits tracks)

theorem restrict_advances {region : Region} (tracks : s.generator.suite.variability = true)
    (has : s.generator.diagram.Has region) : Ensures anything (restrict a batch region) s fun _ s' =>
      s.Advances h covers s' ∧ s'.generator.suite = s.generator.suite := by
  rw [restrict, ensures_bind]
  have opened : Ensures anything (Generator.openRegions batch) s.generator fun opened g =>
      s.generator.Records covers (fun _ => False) g ∧ g.suite = s.generator.suite ∧ g.diagram.Has region ∧
        ∀ i r, opened.get? i = some r → g.diagram.Has r :=
    Generator.openRegions_ensures_of regular.tidy tracks fun opened known => ⟨.refl regular.tidy, rfl, has, known⟩
  apply (withGenerator_ensures regular lawful opened).mono
  intro opened s' holds
  obtain ⟨advances, ⟨suite, has', known⟩, _⟩ := holds
  have lawful' : s'.generator.suite.variability = true → a.Lawful h := fun tracks => lawful (advances.tracks tracks)
  apply (withEngine_ensures advances.regular lawful' fun tracks' =>
    (lawful tracks).restricts region opened _ (advances.regular.fits tracks') has' known).mono
  intro _ s'' more
  exact ⟨advances.trans more.1, more.2.trans suite⟩

theorem renew_advances : Ensures anything (renew a) s fun _ s' =>
    s.Advances h covers s' ∧ s'.generator.suite = s.generator.suite := by
  rw [renew, ensures_bind, ensures_get]
  split
  next =>
    rw [ensures_bind, withGenerator, ensures_within, Generator.onShared, ensures_within, ensures_anything_iff]
    intro initial t ok
    rw [ensures_modify]
    have fresh : s.generator.suite.variability = true → s.generator.diagram.Extends t.1 ∧ t.1.WellFormed ∧
        h.surroundings t.1 t.2 ∧ t.1.Knows (AbstractState.presence initial) := by
      intro tracks
      have fits := regular.fits tracks
      exact ((lawful tracks).starts _ _ _ fits.wellFormed fits.surroundings fits.engine).of_eq_ok ok
    have grown : s.generator.Records covers (fun _ => False) { s.generator with diagram := t.1 } :=
      regular.tidy.grows (fun tracks => (fresh tracks).1) fun tracks => (fresh tracks).2.1
    refine ⟨⟨⟨⟨⟨grown.tidy.drawn, grown.tidy.presence⟩, fun tracks => (fresh tracks).2.2.1, fun tracks p same => ?_⟩,
      fun tracks => ?_, fun tracks n v here => ?_⟩, ⟨⟨grown.tidy.drawn, grown.tidy.presence⟩, grown.suite, rfl, rfl, rfl⟩⟩, rfl⟩
    · exact (lawful tracks).precision _ _ _ (fresh tracks).1 (regular.generator.precision tracks p same)
    · exact (lawful tracks).engine _ _ _ (fresh tracks).1 (regular.engine tracks)
    · rw [(Exploration.node?_start.1 here).2]
      exact (fresh tracks).2.2.2
  next => exact ⟨.refl regular, rfl⟩

theorem narrow_advances : Ensures anything (narrow a batch) s fun _ s' =>
    s.Advances h covers s' ∧ s'.generator.suite = s.generator.suite := by
  -- the last part of narrowing, when goals are muted already
  have sharpened : ∀ s₁ : Session F E S P, s.Advances h covers s₁ → s₁.generator.suite = s.generator.suite →
      Ensures anything (do
        if (← get).generator.suite.variability then
          let region ← withGenerator (Generator.remainingRegion batch)
          restrict a batch region) s₁ fun _ s' => s.Advances h covers s' ∧ s'.generator.suite = s.generator.suite := by
    intro s₁ advances suite
    have lawful₁ : s₁.generator.suite.variability = true → a.Lawful h := fun tracks => lawful (advances.tracks tracks)
    rw [ensures_bind, ensures_get]
    split
    next tracks =>
      rw [ensures_bind]
      apply (withGenerator_ensures advances.regular lawful₁
        (Generator.remainingRegion_develops advances.regular.tidy tracks)).mono
      intro region s₂ holds
      obtain ⟨advances₂, ⟨has, suite₂⟩, _⟩ := holds
      have whole := advances.trans advances₂
      have lawful₂ : s₂.generator.suite.variability = true → a.Lawful h := fun tracks => lawful (whole.tracks tracks)
      apply (restrict_advances advances₂.regular lawful₂ (suite₂ ▸ tracks) has).mono
      intro _ s₃ more
      exact ⟨whole.trans more.1, (more.2.trans suite₂).trans suite⟩
    next => exact ⟨advances, suite⟩
  have lookup : Ensures anything (batch.filterM Generator.isResolved) s.generator fun out g =>
      s.generator.Records covers (fun _ => False) g ∧ g.suite = s.generator.suite := by
    have same : Ensures anything (batch.filterM Generator.isResolved) s.generator fun out g => g = s.generator ∧
        out = batch.filter s.generator.suite.resolved :=
      Ensures.filterM fun i _ => Generator.ensures_isResolved_of ⟨rfl, rfl⟩
    apply same.mono
    intro out g h
    obtain ⟨rfl, _⟩ := h
    exact ⟨.refl regular.tidy, rfl⟩
  rw [narrow, ensures_bind]
  apply (withGenerator_ensures regular lawful lookup).mono
  intro resolved s₁ holds
  obtain ⟨advances, suite, _⟩ := holds
  split
  next =>
    have lawful₁ : s₁.generator.suite.variability = true → a.Lawful h := fun tracks => lawful (advances.tracks tracks)
    rw [ensures_bind]
    apply (withEngine_ensures advances.regular lawful₁ fun tracks =>
      (lawful₁ tracks).disables _ _ (advances.regular.fits tracks)).mono
    intro _ s₂ more
    exact sharpened s₂ (advances.trans more.1) (more.2.trans suite)
  next => exact sharpened s₁ advances suite

end Steps

end Session

end GoalCoverage
