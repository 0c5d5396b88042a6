import GoalCoverage.Proofs.Driver.Soundness
import GoalCoverage.Proofs.Observer

/-!
The course of a generation, whatever the engines do. An exploration only covers goals of its batch that were open. A search
that does not time out resolves its batch, and otherwise the goals that are left are queued as timed out; so a batch needs
one search at most.
-/

namespace GoalCoverage

open Procedure Diagram

variable {F E S P : Type} [AbstractState S] {a : Analysis F E S P} {h : Holdings F E P} {fuel : Nat} {batch : List Nat}
  {sound : Bool}

namespace Session

variable {s t : Session F E S P} {finding : Finding}

section Exploration

variable (regular : s.Regular h) (lawful : s.generator.suite.variability = true → a.Lawful h)

include regular lawful

theorem harvest_advances {counterexamples : IdMap Counterexample} :
    Ensures anything (withGenerator (Generator.harvest batch counterexamples s.reached)) s fun found s' =>
      s.Advances h (s.generator.Pending batch) { s' with reached := found.reached } ∧
        s.generator.Gathers batch s.reached found s'.generator ∧ s'.engine = s.engine := by
  have gathered : Ensures anything (Generator.harvest batch counterexamples s.reached) s.generator fun found g =>
      s.generator.Records (s.generator.Pending batch) (fun _ => False) g ∧ s.generator.Gathers batch s.reached found g :=
    (Generator.harvest_develops regular.tidy regular.owns).mono fun _ _ gathers => ⟨gathers.toRecords, gathers⟩
  apply (withGenerator_ensures regular lawful gathered).mono
  intro found s' holds
  obtain ⟨advances, gathers, engine, _⟩ := holds
  exact ⟨⟨⟨advances.regular.generator, advances.regular.engine, gathers.owns⟩, advances.develops⟩, gathers, engine⟩

/-- A turn covers goals of the batch that were pending, and does not exclude any. -/
theorem turn_advances : Ensures anything (turn a fuel batch sound) s fun _ s' =>
    s.Advances h (s.generator.Pending batch) s' := by
  rw [turn, ensures_bind, ensures_get, ensures_bind]
  apply (runEngine_ensures_of regular lawful).mono
  intro outcome s₁ ran
  obtain ⟨advances₁, _⟩ := ran
  split
  next => exact advances₁
  next =>
    have lawful₁ : s₁.generator.suite.variability = true → a.Lawful h := fun tracks => lawful (advances₁.tracks tracks)
    rw [ensures_bind, ensures_get, ensures_bind]
    apply (harvest_advances advances₁.regular lawful₁).mono
    intro found s₂ harvested
    have advances₂ := advances₁.trans_pending regular harvested.1
    have lawful₂ : s₂.generator.suite.variability = true → a.Lawful h := fun tracks => lawful (advances₂.tracks tracks)
    rw [ensures_bind, ensures_modify]
    split
    next => exact advances₂
    next =>
      rw [ensures_bind, withGenerator, ensures_within]
      apply Generator.ensures_isDone_of
      split
      next => exact advances₂
      next =>
        rw [ensures_bind, ensures_get]
        split
        next => exact advances₂
        next =>
          rw [ensures_bind]
          apply (renew_advances advances₂.regular lawful₂).mono
          intro _ s₃ renewed
          have advances₃ := advances₂.trans renewed.1
          have lawful₃ : s₃.generator.suite.variability = true → a.Lawful h := fun tracks => lawful (advances₃.tracks tracks)
          rw [ensures_bind]
          apply (narrow_advances advances₃.regular lawful₃).mono
          intro _ s₄ narrowed
          exact advances₃.trans narrowed.1

theorem explore_advances : Ensures anything (explore a fuel batch) s fun _ s' =>
    s.Advances h (s.generator.Pending batch) s' := by
  apply Ensures.repeatUntil (I := fun _ s' => s.Advances h (s.generator.Pending batch) s') trivial _ fuel (.refl regular)
  intro sound s' advances
  apply (turn_advances advances.regular fun tracks => lawful (advances.tracks tracks)).mono
  intro r s'' turned
  cases r with
  | inl sound => exact advances.trans_pending regular turned
  | inr finding => exact advances.trans_pending regular turned

end Exploration

end Session

namespace Generator

variable {g g' g'' g₁ : Generator F P} {i : Nat} {left goals : List Nat} {covers covers' excludes excludes' : Nat → Prop}

/-- `g'` comes after `g`, by the work of generators and engines. -/
structure Proceeds (h : Holdings F E P) (covers excludes : Nat → Prop) (g g' : Generator F P) : Prop where
  regular : g'.Regular h
  develops : g.Develops covers excludes g'
  exclusive : g.suite.variability = false → g.suite.Exclusive → g'.suite.Exclusive

namespace Proceeds

theorem refl (regular : g.Regular h) : g.Proceeds h covers excludes g := ⟨regular, .refl regular.tidy, fun _ h => h⟩

theorem trans (first : g.Proceeds h covers excludes g') (second : g'.Proceeds h covers excludes g'') :
    g.Proceeds h covers excludes g'' where
  regular := second.regular
  develops := first.develops.trans second.develops
  exclusive plain h := second.exclusive (first.develops.suite.variability.trans plain) (first.exclusive plain h)

theorem mono (proceeds : g.Proceeds h covers excludes g') (wider : ∀ i, covers i → covers' i)
    (wider' : ∀ i, excludes i → excludes' i) : g.Proceeds h covers' excludes' g' :=
  { proceeds with develops := proceeds.develops.mono wider wider' }

/-- Goals are covered while they are pending, and none is excluded. -/
theorem of_covering (regular : g'.Regular h) (develops : g.Develops (g.Pending batch) (fun _ => False) g') :
    g.Proceeds h (g.Pending batch) (fun _ => False) g' where
  regular := regular
  develops := develops
  exclusive plain exclusive := develops.suite.exclusive plain exclusive (fun _ pending => pending.2)
    (fun _ none => none.elim) (.inr fun _ none => none)

/-- Goals are excluded while they are open, and none is covered. -/
theorem of_excluding (regular : g'.Regular h) (develops : g.Develops (fun _ => False) excludes g')
    (open' : ∀ i, excludes i → g.suite.resolved i = false) : g.Proceeds h (fun _ => False) excludes g' where
  regular := regular
  develops := develops
  exclusive plain exclusive := develops.suite.exclusive plain exclusive (fun _ none => none.elim) open'
    (.inl fun _ none => none)

theorem tracks (proceeds : g.Proceeds h covers excludes g') (tracks : g'.suite.variability = true) :
    g.suite.variability = true := proceeds.develops.suite.variability.symm.trans tracks

end Proceeds

omit [AbstractState S] in
theorem observers_watch : Ensures anything (observers goals) g fun observers g' => g' = g ∧ ∃ components,
    Watches components observers ∧ ∀ c ∈ components, ∃ γ, g.suite.goals.get? c.goal = some γ ∧ γ.automaton = c.automaton := by
  rw [observers, ensures_bind, ensures_get, ensures_bind]
  have named : Ensures anything (goals.mapM fun index => return (⟨index, (← goal index).automaton⟩ : Component)) g
      fun components g' => g' = g ∧ List.Forall₂
        (fun _ c => ∃ γ, g.suite.goals.get? c.goal = some γ ∧ γ.automaton = c.automaton) goals components := by
    apply Ensures.lookups
    intro i _
    rw [ensures_bind]
    exact ensures_goal_of fun γ here => ⟨rfl, γ, here, rfl⟩
  apply named.mono
  intro components g' kept
  obtain ⟨rfl, lookup⟩ := kept
  have members : ∀ c ∈ components, ∃ γ, g'.suite.goals.get? c.goal = some γ ∧ γ.automaton = c.automaton := by
    intro c mem
    obtain ⟨_, _, known⟩ := exists_of_forall₂_right lookup mem
    exact known
  split
  next =>
    split
    next p made => exact ⟨rfl, components, .jointly made, members⟩
    next => trivial
  next =>
    refine ⟨rfl, components, .each ?_, members⟩
    rw [List.forall₂_map_right_iff, List.forall₂_same]
    intro c _
    split
    next => exact .inr rfl
    next => exact .inl rfl

omit [AbstractState S] in
/-- An engine is asked for with observers of goals and regions of the diagram. -/
theorem commission_records (tidy : g.Tidy) : Ensures anything (commission batch) g fun c g' => g.Records covers excludes g' ∧
    g'.suite = g.suite ∧ (∀ r, c.region = some r → g.suite.variability = true ∧ g'.diagram.Has r) ∧
      (∀ p, c.precision = some p → g'.precision = some p) ∧ ∃ components, Watches components c.observers ∧
        ∀ c ∈ components, ∃ γ, g.suite.goals.get? c.goal = some γ ∧ γ.automaton = c.automaton := by
  rw [commission, ensures_bind]
  apply ensures_unresolved_of
  rw [ensures_bind]
  apply observers_watch.mono
  intro observers g₁ h
  obtain ⟨rfl, watch⟩ := h
  have asked : ∀ (region : Option Region) (g' : Generator F P), g₁.Records covers excludes g' → g'.suite = g₁.suite →
      (∀ r, region = some r → g₁.suite.variability = true ∧ g'.diagram.Has r) → Ensures anything (do
        let g ← get
        return (⟨observers, region, if g.settings.reusePrecision then g.precision else none, g.settings.reusePrecision⟩ :
          Commission P)) g' fun c g' => g₁.Records covers excludes g' ∧ g'.suite = g₁.suite ∧
            (∀ r, c.region = some r → g₁.suite.variability = true ∧ g'.diagram.Has r) ∧
              (∀ p, c.precision = some p → g'.precision = some p) ∧ ∃ components, Watches components c.observers ∧
                ∀ c ∈ components, ∃ γ, g₁.suite.goals.get? c.goal = some γ ∧ γ.automaton = c.automaton := by
    intro region g' records suite known
    rw [ensures_bind, ensures_get]
    refine ⟨records, suite, known, fun p same => ?_, watch⟩
    simp only at same
    split at same
    next => exact same
    next => cases same
  rw [ensures_bind]
  apply drawAutomata_keeps.mono
  intro _ g₂ drawn
  obtain ⟨folder, rfl⟩ := drawn
  have records : g₁.Records covers excludes { g₁ with folder } := (Records.refl tidy).aside rfl rfl rfl rfl rfl rfl rfl
  rw [ensures_bind, ensures_get]
  dsimp only
  split
  next tracks =>
    rw [ensures_bind, ensures_map]
    apply (remainingRegion_develops records.tidy tracks).mono
    intro r g₃ remains
    obtain ⟨more, has, suite'⟩ := remains
    refine asked (some r) g₃ (records.trans more) suite' fun r' same => ?_
    cases same
    exact ⟨tracks, has⟩
  next => exact asked none _ records rfl (by simp)

section Search

variable (regular : g.Regular h) (lawful : g.suite.variability = true → a.Lawful h)

include regular lawful

theorem Regular.covering (records : g.Records (g.Pending batch) (fun _ => False) g') :
    g.Proceeds h (g.Pending batch) (fun _ => False) g' :=
  .of_covering (regular.records lawful records) records.toDevelops

theorem Regular.excluding (records : g.Records (fun _ => False) excludes g')
    (open' : ∀ i, excludes i → g.suite.resolved i = false) : g.Proceeds h (fun _ => False) excludes g' :=
  .of_excluding (regular.records lawful records) records.toDevelops open'

/-- The session in which an engine explores is regular. -/
theorem opening_regular {c : Commission P} (region : ∀ r, c.region = some r → g.suite.variability = true ∧ g.diagram.Has r)
    (precision : ∀ p, c.precision = some p → g.precision = some p) : Ensures anything (opening a batch c) g fun s g' =>
      s.Regular h ∧ g.Develops covers excludes g' ∧ g'.suite = g.suite ∧ s.generator = g' := by
  have whole : Ensures anything (opening a batch c) g fun (s : Session F E S P) g' => s.generator = g' :=
    opening_ensures_generator
  suffices Ensures anything (opening a batch c) g fun s g' => s.Regular h ∧ g.Develops covers excludes g' ∧ g'.suite = g.suite by
    exact (this.and whole).mono fun s g' both => ⟨both.1.1, both.1.2.1, both.1.2.2, both.2⟩
  rw [opening, ensures_bind, onShared, ensures_within, ensures_anything_iff]
  intro engine t composed
  have fresh : g.suite.variability = true → g.diagram.Extends t.1 ∧ t.1.WellFormed ∧ h.surroundings t.1 t.2 ∧
      h.engine t.1 engine := by
    intro tracks
    have knows : g.diagram.Knows c.region := fun r same => (region r same).2
    have knows' : ∀ p, c.precision = some p → h.precision g.diagram p := fun p same =>
      regular.precision tracks p (precision p same)
    exact ((lawful tracks).composes _ _ _ _ _ (regular.tidy.drawn.ready tracks) (regular.surroundings tracks) knows
      knows').of_eq_ok composed
  rw [ensures_bind, onShared, ensures_within, ensures_anything_iff]
  intro initial t' started
  have fresh' : g.suite.variability = true → t.1.Extends t'.1 ∧ t'.1.WellFormed ∧ h.surroundings t'.1 t'.2 ∧
      t'.1.Knows (AbstractState.presence initial) := by
    intro tracks
    obtain ⟨_, wf, surroundings, fits⟩ := fresh tracks
    exact ((lawful tracks).starts _ _ _ wf surroundings fits).of_eq_ok started
  have extends' : g.suite.variability = true → g.diagram.Extends t'.1 := fun tracks =>
    (fresh tracks).1.trans (fresh' tracks).1
  have grown : g.Records covers excludes { g with diagram := t'.1 } :=
    regular.tidy.grows extends' fun tracks => (fresh' tracks).2.1
  let s : Session F E S P := { generator := { g with diagram := t'.1, surroundings := t'.2 }, engine, reached := .start initial }
  have begun : s.Regular h := by
    refine ⟨⟨⟨grown.tidy.drawn, grown.tidy.presence⟩, fun tracks => (fresh' tracks).2.2.1, fun tracks p same => ?_⟩,
      fun tracks => ?_, fun tracks n v here => ?_⟩
    · exact (lawful tracks).precision _ _ _ (extends' tracks) (regular.precision tracks p same)
    · exact (lawful tracks).engine _ _ _ (fresh' tracks).1 (fresh tracks).2.2.2
    · rw [(Exploration.node?_start.1 here).2]
      exact (fresh' tracks).2.2.2
  have since : g.Develops covers excludes s.generator :=
    ⟨⟨grown.tidy.drawn, grown.tidy.presence⟩, grown.suite, rfl, rfl, rfl⟩
  have aimed : Ensures anything (aim a batch c.region) s fun _ s' => s.Advances h (fun _ => False) s' ∧
      s'.generator.suite = s.generator.suite := by
    cases at_region : c.region with
    | some r =>
      obtain ⟨tracks, has⟩ := region r at_region
      exact Session.restrict_advances begun lawful tracks ((extends' tracks).has has)
    | none => exact ⟨.refl begun, rfl⟩
  rw [ensures_bind, ensures_anything_iff]
  intro x g₃ prepared
  simp only [inSession, SeqRight.seqRight, EStateM.seqRight] at prepared
  cases out : aim a batch c.region { generator := { g with diagram := t'.1, surroundings := t'.2 }, engine, reached := .start initial } with
  | ok _ s' =>
    rw [out] at prepared
    cases prepared
    obtain ⟨advances, suite⟩ := aimed.of_eq_ok out
    exact ⟨advances.regular, since.trans (advances.develops.mono (fun _ none => none.elim) fun _ none => none.elim), suite⟩
  | error e s' =>
    rw [out] at prepared
    cases prepared

end Search

/-- `g'` is `g` after some goals timed out. -/
structure Defers (left : List Nat) (g g' : Generator F P) : Prop where
  suite : g'.suite = g.suite.addTimedOut (left.map fun i => (g.order.getD i 0, i))
  diagram : g'.diagram = g.diagram
  surroundings : g'.surroundings = g.surroundings
  settings : g'.settings = g.settings
  order : g'.order = g.order
  precision : g'.precision = g.precision
  timeouts : g'.timeouts = g.timeouts ++ left

namespace Defers

omit [AbstractState S]

theorem refl (g : Generator F P) : g.Defers [] g := ⟨rfl, rfl, rfl, rfl, rfl, rfl, (List.append_nil _).symm⟩

theorem regular (defers : g.Defers left g') (regular : g.Regular h) : g'.Regular h := by
  have drawn : g'.suite.Drawn g'.diagram := by
    rw [defers.suite, defers.diagram]
    exact ⟨regular.tidy.drawn.index, regular.tidy.drawn.opened, regular.tidy.drawn.excluded, regular.tidy.drawn.ready⟩
  have variability : g'.suite.variability = g.suite.variability := by
    rw [defers.suite]
    rfl
  have testCases : g'.suite.testCases = g.suite.testCases := by
    rw [defers.suite]
    rfl
  refine ⟨⟨drawn, ?_⟩, ?_, ?_⟩
  · rw [variability, testCases, defers.diagram]
    exact regular.tidy.presence
  · rw [variability, defers.diagram, defers.surroundings]
    exact regular.surroundings
  · rw [variability, defers.diagram, defers.precision]
    exact regular.precision

theorem resolved (defers : g.Defers left g') : g'.suite.resolved i = g.suite.resolved i := by
  rw [defers.suite]
  rfl

/-- Nothing happens if no goal is left. -/
theorem proceeds (defers : g.Defers [] g') (regular : g.Regular h) : g.Proceeds h covers excludes g' := by
  refine ⟨defers.regular regular, ⟨(defers.regular regular).tidy, ?_, defers.settings, defers.order, ?_⟩, fun _ exclusive => ?_⟩
  · rw [defers.suite, defers.diagram]
    exact .refl regular.tidy.drawn
  · rw [defers.timeouts, List.append_nil]
  · rw [defers.suite]
    exact exclusive

end Defers

omit [AbstractState S] in
theorem postponeAll_defers : Ensures anything (left.forM postpone) g fun _ g' => g.Defers left g' := by
  apply Ensures.forM (I := fun done g' => g.Defers done g') _ (.refl g)
  intro i done rest g' _ defers
  rw [postpone, ensures_modify]
  refine ⟨?_, defers.diagram, defers.surroundings, defers.settings, defers.order, defers.precision, ?_⟩
  · rw [defers.suite, defers.order]
    simp [Suite.addTimedOut]
  · rw [defers.timeouts, List.append_assoc]

/-- The goals of a batch that are not resolved. -/
def leftOf (g : Generator F P) (batch : List Nat) : List Nat := batch.filter fun i => !g.suite.resolved i

omit [AbstractState S] in
theorem mem_leftOf : i ∈ g.leftOf batch ↔ g.Pending batch i := by simp [leftOf, Pending]

omit [AbstractState S] in
theorem leftOf_eq_nil (resolved : ∀ i ∈ batch, g.suite.resolved i = true) : g.leftOf batch = [] := by
  rw [leftOf, List.filter_eq_nil_iff]
  intro i mem
  simp [resolved i mem]

/-- How a batch is left: some more goals are resolved, and the rest is queued as timed out. -/
def Settles (h : Holdings F E P) (batch : List Nat) (covers excludes : Nat → Prop) (resolves : Prop)
    (g g' : Generator F P) : Prop :=
  ∃ g₁, g.Proceeds h covers excludes g₁ ∧ g₁.Defers (g₁.leftOf batch) g' ∧
    (resolves → ∀ i ∈ batch, g₁.suite.resolved i = true)

section Closing

omit [AbstractState S] in
/-- Unless the time was over, all goals of the batch are decided on. -/
theorem conclude_resolves {outcome : Outcome} (tidy : g.Tidy) (timely : outcome ≠ .timedOut) :
    Ensures anything (conclude batch outcome) g fun _ g' => g.Records (fun _ => False) (g.Pending batch) g' ∧
      ∀ i ∈ batch, g'.suite.resolved i = true := by
  rw [conclude, ensures_bind]
  apply ensures_unresolved_of
  have given : Ensures anything ((g.leftOf batch).forM giveUp) g fun _ g' =>
      g.Records (fun _ => False) (g.Pending batch) g' ∧ ∀ i ∈ batch, g'.suite.resolved i = true := by
    apply (giveUpAll_develops tidy).mono
    intro _ g' given
    obtain ⟨records, closed⟩ := given
    refine ⟨records.mono (fun _ h => h) fun i mem => mem_leftOf.1 mem, fun i mem => ?_⟩
    cases before : g.suite.resolved i with
    | true => exact records.suite.resolved tidy.drawn before
    | false => exact closed i (List.mem_filter.2 ⟨mem, by simp [before]⟩)
  cases outcome with
  | timedOut => exact absurd rfl timely
  | sound => exact given
  | unsound => exact given

variable (regular : g.Regular h) (lawful : g.suite.variability = true → a.Lawful h)

include regular lawful

theorem conclude_settles {outcome : Outcome} : Ensures anything (conclude batch outcome) g fun _ g' =>
    g.Settles h batch (fun _ => False) (fun i => outcome ≠ .timedOut ∧ g.Pending batch i) (outcome ≠ .timedOut) g' := by
  by_cases late : outcome = .timedOut
  · rw [late, conclude, ensures_bind]
    apply ensures_unresolved_of
    apply postponeAll_defers.mono
    intro _ g' defers
    exact ⟨g, .refl regular, defers, fun timely => absurd rfl timely⟩
  · apply (conclude_resolves regular.tidy late).mono
    intro _ g' given
    obtain ⟨records, all⟩ := given
    refine ⟨g', regular.excluding lawful (records.mono (fun _ h => h) fun i pending => ⟨late, pending⟩)
      fun i pending => pending.2.2, ?_, fun _ => all⟩
    rw [leftOf_eq_nil all]
    exact .refl g'

theorem closing_settles {keeps : Bool} {finding : Session.Finding} {engine : E} {reached : Exploration S}
    (held : g.suite.variability = true → h.engine g.diagram engine) :
    Ensures anything (closing a batch keeps finding engine reached) g fun _ g' =>
      g.Settles h batch (fun _ => False) (fun i => finding.outcome ≠ .timedOut ∧ g.Pending batch i)
        (finding.outcome ≠ .timedOut) g' := by
  have rest : ∀ g₀ : Generator F P, g.Proceeds h (fun _ => False) (fun _ => False) g₀ → g₀.suite = g.suite →
      Ensures anything (do
        conclude batch finding.outcome
        drawGraphs batch reached.graph
        return finding) g₀ fun _ g' => g.Settles h batch (fun _ => False)
          (fun i => finding.outcome ≠ .timedOut ∧ g.Pending batch i) (finding.outcome ≠ .timedOut) g' := by
    intro g₀ proceeds suite
    rw [ensures_bind]
    apply (conclude_settles proceeds.regular fun tracks => lawful (proceeds.tracks tracks)).mono
    intro _ g₂ settles
    obtain ⟨g₁, more, defers, resolves⟩ := settles
    rw [ensures_bind]
    apply drawGraphs_keeps.mono
    intro _ g₃ drawn
    obtain ⟨folder, rfl⟩ := drawn
    refine ⟨g₁, (proceeds.mono (fun _ h => h) fun _ none => none.elim).trans (more.mono (fun _ h => h) fun i pending => ?_), ?_, resolves⟩
    · exact ⟨pending.1, pending.2.1, suite ▸ pending.2.2⟩
    · exact ⟨defers.suite, defers.diagram, defers.surroundings, defers.settings, defers.order, defers.precision, defers.timeouts⟩
  rw [closing]
  split
  next =>
    rw [ensures_bind, ensures_modify]
    refine rest _ ⟨⟨⟨regular.tidy.drawn, regular.tidy.presence⟩, regular.surroundings, fun tracks p same => ?_⟩, ?_, fun _ h => h⟩ rfl
    · cases same
      exact (lawful tracks).refines _ _ (held tracks)
    · exact ⟨⟨regular.tidy.drawn, regular.tidy.presence⟩, .refl regular.tidy.drawn, rfl, rfl, rfl⟩
  next => exact rest g (.refl regular) rfl

end Closing

/-- The exploration ends, but not for lack of time, and leaves a goal of the batch open. -/
def LeavesOpen (a : Analysis F E S P) (fuel : Nat) (batch : List Nat) (s : Session F E S P) (i : Nat) : Prop :=
  ∃ finding t, Session.explore a fuel batch s = .ok finding t ∧ finding.outcome ≠ .timedOut ∧ t.generator.Pending batch i

section Processing

variable (regular : g.Regular h) (lawful : g.suite.variability = true → a.Lawful h)

include regular lawful

/-- What a search finds infeasible was left open by its exploration. -/
theorem search_settles : Ensures anything (search a fuel batch) g fun finding g' =>
    g.Settles h batch (g.Pending batch) (fun i => ∃ s, result? (commission batch >>= opening a batch) g = some s ∧
      LeavesOpen a fuel batch s i) (finding.outcome ≠ .timedOut) g' := by
  rw [search_eq, ensures_bind, ensures_anything_iff]
  intro c g₁ asked
  obtain ⟨records, suite, region, precision, _⟩ := (commission_records regular.tidy).of_eq_ok asked
  have proceeds₁ : g.Proceeds h (g.Pending batch) (fun _ => False) g₁ := regular.covering lawful records
  have lawful₁ : g₁.suite.variability = true → a.Lawful h := fun tracks => lawful (proceeds₁.tracks tracks)
  rw [ensures_bind, ensures_anything_iff]
  intro s g₂ opened
  obtain ⟨begun, since, suite', same⟩ := (opening_regular
    proceeds₁.regular lawful₁ (fun r at_r => ⟨suite ▸ (region r at_r).1, (region r at_r).2⟩) precision).of_eq_ok opened
  have found : result? (commission batch >>= opening a batch) g = some s := by
    simp only [result?, bind, EStateM.bind, asked, opened]
  subst same
  have proceeds₂ := proceeds₁.trans ⟨begun.generator, since, fun _ exclusive => suite'.symm ▸ exclusive⟩
  have lawful₂ : s.generator.suite.variability = true → a.Lawful h := fun tracks => lawful (proceeds₂.tracks tracks)
  rw [ensures_bind, ensures_anything_iff]
  intro x g₃ explored
  rw [inSession] at explored
  cases out : Session.explore a fuel batch s with
  | ok finding t =>
    rw [out] at explored
    cases explored
    have advances := (Session.explore_advances begun lawful₂).of_eq_ok out
    have proceeds₃ : g.Proceeds h (g.Pending batch) (fun _ => False) t.generator :=
      proceeds₂.trans ((Proceeds.of_covering advances.regular.generator advances.develops).mono
        (fun i => proceeds₂.develops.pending regular.tidy) fun _ h => h)
    have lawful₃ : t.generator.suite.variability = true → a.Lawful h := fun tracks => lawful (proceeds₃.tracks tracks)
    have returned : Ensures anything (closing a batch c.keeps finding t.engine t.reached) t.generator fun f _ => f = finding :=
      closing_ensures_finding
    apply (returned.and (closing_settles advances.regular.generator lawful₃ advances.regular.engine)).mono
    intro f g₄ both
    obtain ⟨rfl, g₅, more, defers, resolves⟩ := both
    refine ⟨g₅, (proceeds₃.mono (fun _ h => h) fun _ none => none.elim).trans (more.mono (fun _ none => none.elim) fun i open' => ?_),
      defers, resolves⟩
    exact ⟨s, found, f, t, out, open'.1, open'.2⟩
  | error e t =>
    rw [out] at explored
    cases explored

omit [AbstractState S] regular lawful in
/-- Nothing is lacking once the batch is resolved. -/
theorem lacking_records (tidy : g.Tidy) : Ensures anything (lacking batch) g fun lacks g' =>
    g.Records (g.Pending batch) (fun _ => False) g' ∧ (lacks = false → ∀ i ∈ batch, g'.suite.resolved i = true) ∧
      ((∀ i ∈ batch, g.suite.resolved i = true) → lacks = false) := by
  rw [lacking, ensures_bind]
  apply ensures_isDone_of
  split
  next done =>
    have all : ∀ i ∈ batch, g.suite.resolved i = true := List.all_eq_true.1 done
    exact ⟨.refl tidy, fun _ => all, fun _ => rfl⟩
  next open' =>
    have some_open : (∀ i ∈ batch, g.suite.resolved i = true) → ∀ b, b = false := fun all =>
      absurd (List.all_eq_true.2 all) open'
    rw [ensures_bind, ensures_get]
    split
    next =>
      rw [ensures_bind]
      apply (replayBatch_develops tidy).mono
      intro _ g₁ records
      rw [ensures_bind]
      apply ensures_isDone_of
      split
      next done => exact ⟨records, fun _ => List.all_eq_true.1 done, fun _ => rfl⟩
      next => exact ⟨records, by simp, fun all => some_open all _⟩
    next => exact ⟨.refl tidy, by simp, fun all => some_open all _⟩

/-- Only an attempt that searches goes on, and then the batch is resolved. -/
theorem attemptBatch_settles : Ensures anything (attemptBatch a fuel batch sound) g fun r g' =>
    g.Settles h batch (g.Pending batch)
      (fun i => ∃ s, sessionOf a batch g = some s ∧ LeavesOpen a fuel batch s i) (∃ b, r = .inl b) g' ∧
    ((∀ i ∈ batch, g.suite.resolved i = true) → after? (lacking batch) g = none ∧ ∃ b, r = .inr b) := by
  rw [attemptBatch_eq, ensures_bind, ensures_anything_iff]
  intro lacks g₁ asked
  obtain ⟨records, enough, idle⟩ := (lacking_records regular.tidy).of_eq_ok asked
  have proceeds := regular.covering lawful records
  cases lacks with
  | true =>
    have follows : sessionOf a batch g = result? (commission batch >>= opening a batch) g₁ := by
      rw [sessionOf, after?, asked]
      rfl
    have busy : (∀ i ∈ batch, g.suite.resolved i = true) → ∀ p : Prop, p := fun all => by cases idle all
    rw [if_pos rfl, ensures_bind]
    apply (search_settles proceeds.regular fun tracks => lawful (proceeds.tracks tracks)).mono
    intro finding g₂ settles
    obtain ⟨g₃, more, defers, resolves⟩ := settles
    have settled : ∀ r : Bool ⊕ Bool, ((∃ b, r = .inl b) → finding.outcome ≠ .timedOut) → g.Settles h batch (g.Pending batch)
        (fun i => ∃ s, sessionOf a batch g = some s ∧ LeavesOpen a fuel batch s i) (∃ b, r = .inl b) g₂ := by
      intro r timely
      refine ⟨g₃, (proceeds.mono (fun _ h => h) fun _ none => none.elim).trans
        (more.mono (fun i => proceeds.develops.pending regular.tidy) fun i found => ?_), defers, fun goes => resolves (timely goes)⟩
      rw [follows]
      exact found
    split
    next => exact ⟨settled _ fun goes => by simp at goes, fun all => busy all _⟩
    next timely => exact ⟨settled _ fun _ => timely, fun all => busy all _⟩
  | false =>
    have done := enough rfl
    refine ⟨⟨g₁, proceeds.mono (fun _ h => h) fun _ none => none.elim, ?_, fun _ => done⟩, fun _ => ⟨?_, sound, rfl⟩⟩
    · rw [leftOf_eq_nil done]
      exact .refl g₁
    · rw [after?, asked]

end Processing

/-- What was found infeasible in the processing of a batch: goals without hope, and goals left open by an exploration. -/
def Found (a : Analysis F E S P) (fuel : Nat) (batch : List Nat) (g : Generator F P) (i : Nat) : Prop :=
  g.Hopeless batch i ∨ ∃ s ∈ sessions a fuel batch g, LeavesOpen a fuel batch s i

section Batches

variable (regular : g.Regular h) (lawful : g.suite.variability = true → a.Lawful h)

include regular lawful

/-- The attempts at a batch search once at most. -/
theorem attempts_settle {b : Bool} (ok : repeatUntil (attemptBatch a fuel batch) fuel sound g = .ok b g') :
    g.Settles h batch (g.Pending batch) (fun i => ∃ e ∈ turns (attemptBatch a fuel batch) fuel sound g, ∃ s,
      sessionOf a batch e.2 = some s ∧ LeavesOpen a fuel batch s i) False g' ∧
    ((turns (attemptBatch a fuel batch) fuel sound g).filterMap fun e => after? (lacking batch) e.2).length ≤ 1 := by
  suffices g.Regular h → (g.suite.variability = true → a.Lawful h) →
      g.Settles h batch (g.Pending batch) (fun i => ∃ e ∈ turns (attemptBatch a fuel batch) fuel sound g, ∃ s,
        sessionOf a batch e.2 = some s ∧ LeavesOpen a fuel batch s i) False g' ∧
      ((turns (attemptBatch a fuel batch) fuel sound g).filterMap fun e => after? (lacking batch) e.2).length ≤ 1 ∧
      ((∀ i ∈ batch, g.suite.resolved i = true) →
        (turns (attemptBatch a fuel batch) fuel sound g).filterMap (fun e => after? (lacking batch) e.2) = []) by
    obtain ⟨settles, once, _⟩ := this regular lawful
    exact ⟨settles, once⟩
  clear regular lawful
  apply repeatUntil_induction (M := fun l _ g _ g' => g.Regular h →
    (g.suite.variability = true → a.Lawful h) → g.Settles h batch (g.Pending batch) (fun i => ∃ e ∈ l, ∃ s,
      sessionOf a batch e.2 = some s ∧ LeavesOpen a fuel batch s i) False g' ∧
    (l.filterMap fun e => after? (lacking batch) e.2).length ≤ 1 ∧
    ((∀ i ∈ batch, g.suite.resolved i = true) → l.filterMap (fun e => after? (lacking batch) e.2) = [])) _ _ ok
  · intro sound g b g' attempted regular lawful
    obtain ⟨⟨g₁, proceeds, defers, _⟩, idle⟩ := (attemptBatch_settles regular lawful).of_eq_ok attempted
    refine ⟨⟨g₁, proceeds.mono (fun _ h => h) fun i found => ?_, defers, False.elim⟩, List.length_filterMap_le _ _, fun all => ?_⟩
    · exact ⟨(sound, g), List.mem_singleton_self _, found⟩
    · rw [List.filterMap_cons, (idle all).1]
      rfl
  · intro sound g sound₁ g₁ l b g' attempted ih regular lawful
    obtain ⟨⟨g₂, proceeds, defers, resolves⟩, idle⟩ := (attemptBatch_settles regular lawful).of_eq_ok attempted
    have all := resolves ⟨sound₁, rfl⟩
    rw [leftOf_eq_nil all] at defers
    have proceeds₁ : g.Proceeds h (g.Pending batch)
        (fun i => ∃ s, sessionOf a batch g = some s ∧ LeavesOpen a fuel batch s i) g₁ :=
      proceeds.trans (defers.proceeds proceeds.regular)
    obtain ⟨⟨g₃, more, defers', _⟩, _, none⟩ := ih proceeds₁.regular fun tracks => lawful (proceeds₁.tracks tracks)
    have quiet := none fun i mem => defers.resolved.trans (all i mem)
    refine ⟨⟨g₃, (proceeds₁.mono (fun _ h => h) fun i found => ?_).trans
      (more.mono (fun i => proceeds₁.develops.pending regular.tidy) fun i found => ?_), defers', False.elim⟩, ?_, fun before => ?_⟩
    · exact ⟨(sound, g), List.mem_cons_self, found⟩
    · obtain ⟨e, mem, found⟩ := found
      exact ⟨e, List.mem_cons_of_mem _ mem, found⟩
    · rw [← List.singleton_append, List.filterMap_append, quiet, List.append_nil]
      exact List.length_filterMap_le _ _
    · obtain ⟨b, same⟩ := (idle before).2
      cases same

omit [AbstractState S] regular lawful in
/-- Before the first attempt only goals without hope are given up. -/
theorem openBatch_records (tidy : g.Tidy) : Ensures anything (openBatch batch) g fun _ g' =>
    Records (fun _ => False) (g.Hopeless batch) { g with processed := g.processed + batch.length } g' := by
  have counted : Tidy { g with processed := g.processed + batch.length } := ⟨tidy.drawn, tidy.presence⟩
  rw [openBatch, ensures_bind, ensures_modify, ensures_bind, ensures_get]
  split
  next tracks =>
    rw [ensures_bind]
    apply (remainingRegion_develops counted tracks).mono
    intro _ g₁ remains
    obtain ⟨records, _, suite⟩ := remains
    apply (giveUpDegenerate_develops records.tidy).mono
    intro _ g₂ more
    refine records.trans (more.mono (fun _ h => h) fun i hopeless => ?_)
    obtain ⟨pending, γ, here, degenerate⟩ := hopeless
    exact ⟨⟨pending.1, suite ▸ pending.2⟩, γ, suite ▸ here, degenerate⟩
  next => exact giveUpDegenerate_develops counted

/-- In the processing of a batch one engine is composed at most, and every goal of it is resolved or timed out. -/
theorem processBatch_settles : Ensures anything (processBatch a fuel batch) g fun _ g' =>
    g.Settles h batch (g.Pending batch) (Found a fuel batch g) False g' ∧ (compositions a fuel batch g).length ≤ 1 := by
  have opened : Ensures anything (openBatch batch) g fun _ g' => g.Proceeds h (g.Pending batch) (Found a fuel batch g) g' := by
    have counted : g.Proceeds h (g.Pending batch) (Found a fuel batch g) { g with processed := g.processed + batch.length } :=
      ⟨⟨⟨regular.tidy.drawn, regular.tidy.presence⟩, regular.surroundings, regular.precision⟩,
        ⟨⟨regular.tidy.drawn, regular.tidy.presence⟩, .refl regular.tidy.drawn, rfl, rfl, rfl⟩, fun _ h => h⟩
    apply (openBatch_records regular.tidy).mono
    intro _ g₁ records
    exact counted.trans ((counted.regular.excluding (fun tracks => lawful tracks) records fun i found => found.1.2).mono
      (fun _ none => none.elim) fun i found => .inl found)
  rw [processBatch_eq, ensures_bind, ensures_anything_iff]
  intro _ g₁ begun
  have proceeds := opened.of_eq_ok begun
  have started : attempts a fuel batch g = turns (attemptBatch a fuel batch) fuel true g₁ := by rw [attempts, begun]
  rw [ensures_anything_iff]
  intro b g' ok
  obtain ⟨⟨g₂, more, defers, _⟩, once⟩ :=
    attempts_settle proceeds.regular (fun tracks => lawful (proceeds.tracks tracks)) ok
  refine ⟨⟨g₂, proceeds.trans (more.mono (fun i => proceeds.develops.pending regular.tidy) fun i found => ?_), defers, False.elim⟩, ?_⟩
  · obtain ⟨e, mem, s, opens, leaves⟩ := found
    exact .inr ⟨s, mem_sessions.2 ⟨e, started ▸ mem, opens⟩, leaves⟩
  · rw [compositions, searches, started]
    exact (List.length_filterMap_le _ _).trans once

end Batches

end Generator

end GoalCoverage
