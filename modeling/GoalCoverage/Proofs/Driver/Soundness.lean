import GoalCoverage.Proofs.Driver.Chronicle

/-!
What reports call sound. The flag is handed through turns, explorations, attempts, batches and rounds; at the end it tells
whether all runs of the chronicle were faultless (`generate_sound_iff`). Nothing is asked of the analysis.
-/

namespace GoalCoverage

open Procedure

variable {F E S P : Type} [AbstractState S] {a : Analysis F E S P} {fuel : Nat} {batch : List Nat} {sound : Bool}

namespace Session

variable {s t : Session F E S P} {finding : Finding}

/-- What a turn says of the runs so far. -/
def flag : Bool ⊕ Finding → Bool := Sum.elim id Finding.sound

/-- How an exploration ends that was sound throughout: with an empty frontier, or with all goals of the batch resolved. -/
def Exhaustive (batch : List Nat) (finding : Finding) (t : Session F E S P) : Prop :=
  finding.outcome ≠ .timedOut → finding.sound = true →
    t.reached.waiting = [] ∨ batch.all t.generator.suite.resolved = true

/-- A turn notes whether its run was faultless. -/
theorem turn_flag : Ensures anything (turn a fuel batch sound) s fun r t =>
    (flag r = true ↔ sound = true ∧ Faultless a fuel batch s) ∧ ∀ finding, r = .inr finding → Exhaustive batch finding t := by
  rw [turn, ensures_bind, ensures_get, ensures_bind, ensures_anything_iff]
  intro outcome s₁ ran
  have ends : outcome? a fuel s = some outcome := result?_eq ran
  split
  next late =>
    subst late
    have faultless : Faultless a fuel batch s := by
      refine ⟨by simp [ends], fun found harvested => ?_⟩
      rw [harvest?, ran] at harvested
      cases harvested
    refine ⟨⟨fun h => ⟨h, faultless⟩, And.left⟩, fun finding same => ?_⟩
    cases same
    exact fun late => absurd rfl late
  next timely =>
    rw [ensures_bind, ensures_get, ensures_bind, ensures_anything_iff]
    intro found s₂ gathered
    have harvested : harvest? a fuel batch s = some found := by
      have gather : gather a batch s₁ = .ok found s₂ := gathered
      rw [harvest?, ran]
      cases outcome with
      | sound => exact result?_eq gather
      | unsound => exact result?_eq gather
      | timedOut => exact absurd rfl timely
    have faultless : Faultless a fuel batch s ↔ outcome ≠ .unsound ∧ (0 < found.targets → 0 < found.created) := by
      simp [Faultless, ends, harvested]
    have heard : (sound && outcome == .sound) = true ↔ sound = true ∧ outcome ≠ .unsound := by
      cases outcome with
      | sound => simp
      | unsound => simp
      | timedOut => exact absurd rfl timely
    rw [ensures_bind, ensures_modify]
    split
    next fruitless =>
      simp only [Bool.and_eq_true, decide_eq_true_eq, beq_iff_eq] at fruitless
      refine ⟨⟨fun h => (Bool.false_ne_true h).elim, fun h => ?_⟩, fun finding same => ?_⟩
      · have created := (faultless.1 h.2).2 fruitless.1
        omega
      · cases same
        exact fun _ h => (Bool.false_ne_true h).elim
    next fruitful =>
      have flagged : (sound && outcome == .sound) = true ↔ sound = true ∧ Faultless a fuel batch s := by
        have derived : 0 < found.targets → 0 < found.created := by
          simp only [Bool.and_eq_true, decide_eq_true_eq, beq_iff_eq] at fruitful
          omega
        rw [heard, faultless]
        exact ⟨fun h => ⟨h.1, h.2, derived⟩, fun h => ⟨h.1, h.2.1⟩⟩
      rw [ensures_bind, withGenerator, ensures_within]
      apply Generator.ensures_isDone_of
      split
      next ended =>
        refine ⟨flagged, fun finding same => ?_⟩
        cases same
        intro _ _
        simp only [Bool.or_eq_true, List.isEmpty_iff] at ended
        exact ended
      next =>
        rw [ensures_bind, ensures_get]
        split
        next stalled =>
          refine ⟨flagged, fun finding same => ?_⟩
          cases same
          intro _ sound'
          simp only [Bool.and_eq_true, beq_iff_eq] at stalled
          exact absurd stalled.1.1 (heard.1 sound').2
        next =>
          rw [ensures_bind, ensures_anything_iff]
          intro _ s₄ _
          rw [ensures_bind, ensures_anything_iff]
          intro _ s₅ _
          exact ⟨flagged, by simp⟩

/-- All runs of an exploration are faultless. -/
def Flawless (a : Analysis F E S P) (fuel : Nat) (batch : List Nat) (s : Session F E S P) : Prop :=
  ∀ e ∈ turns (turn a fuel batch) fuel true s, Faultless a fuel batch e.2

/-- An exploration is sound if all its runs are faultless. -/
theorem explore_flag (ok : explore a fuel batch s = .ok finding t) :
    (finding.sound = true ↔ Flawless a fuel batch s) ∧ Exhaustive batch finding t := by
  have flagged : (finding.sound = true ↔ true = true ∧ Flawless a fuel batch s) ∧ Exhaustive batch finding t := by
    apply repeatUntil_induction (M := fun l sound _ finding t =>
      (finding.sound = true ↔ sound = true ∧ ∀ e ∈ l, Faultless a fuel batch e.2) ∧ Exhaustive batch finding t) _ _ ok
    · intro sound s finding t turned
      obtain ⟨flagged, exhaustive⟩ := turn_flag.of_eq_ok turned
      exact ⟨by simpa [flag] using flagged, exhaustive finding rfl⟩
    · intro sound s sound' s' l finding t turned ih
      obtain ⟨flagged, _⟩ := turn_flag.of_eq_ok turned
      have flagged' : sound' = true ↔ sound = true ∧ Faultless a fuel batch s := flagged
      refine ⟨?_, ih.2⟩
      rw [ih.1, flagged', and_assoc, List.forall_mem_cons]
  simpa using flagged

end Session

namespace Generator

open Session

variable {g g' : Generator F P} {finding : Finding}

omit [AbstractState S] in
theorem opening_ensures_generator {c : Commission P} :
    Ensures anything (opening a batch c) g fun (s : Session F E S P) g' => s.generator = g' := by
  rw [opening, ensures_bind, ensures_anything_iff]
  intro engine g₁ _
  rw [ensures_bind, ensures_anything_iff]
  intro initial g₂ _
  rw [ensures_bind, ensures_anything_iff]
  intro x g₃ prepared
  simp only [inSession, SeqRight.seqRight, EStateM.seqRight] at prepared
  cases aimed : aim a batch c.region { generator := g₂, engine, reached := .start initial } with
  | ok _ s =>
    rw [aimed] at prepared
    cases prepared
    exact rfl
  | error e s =>
    rw [aimed] at prepared
    cases prepared

theorem closing_ensures_finding {keeps : Bool} {engine : E} {reached : Exploration S} :
    Ensures anything (closing a batch keeps finding engine reached) g fun f _ => f = finding := by
  have rest : ∀ g : Generator F P, Ensures anything (do
      conclude batch finding.outcome
      drawGraphs batch reached.graph
      return finding) g fun f _ => f = finding := by
    intro g
    rw [ensures_bind, ensures_anything_iff]
    intro _ g₁ _
    rw [ensures_bind, ensures_anything_iff]
    exact fun _ _ _ => rfl
  rw [closing]
  split
  next =>
    rw [ensures_bind, ensures_modify]
    exact rest _
  next => exact rest g

/-- A search that succeeds opens a session and explores. -/
theorem search_explores : Ensures anything (search a fuel batch) g fun finding _ => ∃ s t,
    result? (commission batch >>= opening a batch) g = some s ∧ explore a fuel batch s = .ok finding t := by
  rw [search_eq, ensures_bind, ensures_anything_iff]
  intro c g₁ asked
  rw [ensures_bind, ensures_anything_iff]
  intro s g₂ opened
  have same := opening_ensures_generator.of_eq_ok opened
  have found : result? (commission batch >>= opening a batch) g = some s := by
    simp only [result?, bind, EStateM.bind, asked, opened]
  rw [ensures_bind, ensures_anything_iff]
  intro x g₃ explored
  rw [← same, inSession] at explored
  cases out : explore a fuel batch s with
  | ok finding t =>
    rw [out] at explored
    cases explored
    apply closing_ensures_finding.mono
    intro f _ is
    exact is ▸ ⟨s, t, found, out⟩
  | error e t =>
    rw [out] at explored
    cases explored

/-- The session in which an attempt searches. -/
def sessionOf (a : Analysis F E S P) (batch : List Nat) (g : Generator F P) : Option (Session F E S P) :=
  (after? (lacking batch) g).bind (result? (commission batch >>= opening a batch))

theorem mem_sessions {s : Session F E S P} :
    s ∈ sessions a fuel batch g ↔ ∃ e ∈ attempts a fuel batch g, sessionOf a batch e.2 = some s := by
  simp only [sessions, searches, List.mem_filterMap, sessionOf, Option.bind_eq_some_iff]
  constructor
  · intro h
    obtain ⟨g₁, ⟨e, mem, lacks⟩, opened⟩ := h
    exact ⟨e, mem, g₁, lacks, opened⟩
  · intro h
    obtain ⟨e, mem, g₁, lacks, opened⟩ := h
    exact ⟨g₁, ⟨e, mem, lacks⟩, opened⟩

theorem attemptBatch_flag : Ensures anything (attemptBatch a fuel batch sound) g fun r _ =>
    Sum.elim id id r = true ↔ sound = true ∧ ∀ s, sessionOf a batch g = some s → Flawless a fuel batch s := by
  rw [attemptBatch_eq, ensures_bind, ensures_anything_iff]
  intro lacks g₁ asked
  cases lacks with
  | true =>
    have follows : sessionOf a batch g = result? (commission batch >>= opening a batch) g₁ := by
      rw [sessionOf, after?, asked]
      rfl
    rw [if_pos rfl, ensures_bind]
    apply search_explores.mono
    intro finding g₂ h
    obtain ⟨s, t, opened, explored⟩ := h
    have flagged := (explore_flag explored).1
    have answer : (sound && finding.sound) = true ↔
        sound = true ∧ ∀ s, sessionOf a batch g = some s → Flawless a fuel batch s := by
      rw [Bool.and_eq_true, flagged, follows, opened]
      simp
    split
    next => exact answer
    next => exact answer
  | false =>
    have none : sessionOf a batch g = none := by
      rw [sessionOf, after?, asked]
      rfl
    simp [none]

theorem processBatch_flag : Ensures anything (processBatch a fuel batch) g fun sound _ =>
    sound = true ↔ ∀ s ∈ sessions a fuel batch g, Flawless a fuel batch s := by
  rw [processBatch_eq, ensures_bind, ensures_anything_iff]
  intro _ g₁ opened
  rw [ensures_anything_iff]
  intro sound g' ok
  have begun : attempts a fuel batch g = turns (attemptBatch a fuel batch) fuel true g₁ := by
    rw [attempts, opened]
  have flagged : sound = true ↔ true = true ∧ ∀ e ∈ turns (attemptBatch a fuel batch) fuel true g₁,
      ∀ s, sessionOf a batch e.2 = some s → Flawless a fuel batch s := by
    apply repeatUntil_induction (M := fun l sound _ sound' _ =>
      sound' = true ↔ sound = true ∧ ∀ e ∈ l, ∀ s, sessionOf a batch e.2 = some s → Flawless a fuel batch s) _ _ ok
    · intro sound g sound' g' attempted
      have flagged := attemptBatch_flag.of_eq_ok attempted
      simpa using flagged
    · intro sound g sound₁ g₁ l sound' g' attempted ih
      have flagged : sound₁ = true ↔ _ := attemptBatch_flag.of_eq_ok attempted
      rw [ih, flagged, and_assoc, List.forall_mem_cons]
  rw [flagged, ← begun]
  simp only [true_and, mem_sessions]
  constructor
  · intro all s h
    obtain ⟨e, mem, opened⟩ := h
    exact all e mem s opened
  · intro all e mem s opened
    exact all s ⟨e, mem, opened⟩

theorem processQueue_flag {p : Progress} : Ensures anything (processQueue a fuel p.queue) g fun sound _ =>
    sound = true ↔ ∀ e ∈ batchesOf a fuel p g, ∀ s ∈ sessions a fuel e.1 e.2, Flawless a fuel e.1 s := by
  rw [processQueue, ensures_bind, ensures_get, ensures_bind, ensures_anything_iff]
  intro sound g' ok
  rw [ensures_pure]
  exact mapM_induction (M := fun cs _ _ sound _ =>
    sound.all id = true ↔ ∀ e ∈ cs, ∀ s ∈ sessions a fuel e.1 e.2, Flawless a fuel e.1 s) (by simp)
    (by
      intro batch l g sound g₁ cs rest g' processed ih
      have flagged := processBatch_flag.of_eq_ok processed
      rw [List.all_cons, Bool.and_eq_true, ih, id, flagged, List.forall_mem_cons]) ok

theorem round_flag {p : Progress} : Ensures anything (round a fuel p) g fun r _ =>
    (Sum.elim Progress.sound Progress.sound r = true ↔ p.sound = true ∧
      ∀ e ∈ batchesOf a fuel p g, ∀ s ∈ sessions a fuel e.1 e.2, Flawless a fuel e.1 s) := by
  rw [round, ensures_bind]
  apply processQueue_flag.mono
  intro sound g₁ flagged
  have answer : (p.sound && sound) = true ↔ p.sound = true ∧
      ∀ e ∈ batchesOf a fuel p g, ∀ s ∈ sessions a fuel e.1 e.2, Flawless a fuel e.1 s := by
    rw [Bool.and_eq_true, flagged]
  rw [ensures_bind, ensures_get]
  split
  next =>
    rw [ensures_bind, ensures_anything_iff]
    exact fun _ _ _ => answer
  next => exact answer

/-- A report says that generation was sound if no run was classified as unsound and none found targets in vain. -/
theorem generate_sound_iff {report : Report} (ok : generate a fuel g = .ok report g') :
    report.sound = true ↔ ∀ run ∈ runs a fuel g, Faultless a fuel run.1 run.2 := by
  have flagged : Ensures anything (generate a fuel) g fun report _ => report.sound = true ↔
      ∀ e ∈ rounds a fuel g, ∀ e' ∈ batchesOf a fuel e.1 e.2, ∀ s ∈ sessions a fuel e'.1 e'.2, Flawless a fuel e'.1 s := by
    rw [generate, ensures_bind, ensures_get, ensures_bind, ensures_anything_iff]
    intro p g₁ done
    have flagged : p.sound = true ↔ true = true ∧ ∀ e ∈ rounds a fuel g, ∀ e' ∈ batchesOf a fuel e.1 e.2,
        ∀ s ∈ sessions a fuel e'.1 e'.2, Flawless a fuel e'.1 s := by
      apply repeatUntil_induction (M := fun l p _ p' _ => p'.sound = true ↔ p.sound = true ∧
        ∀ e ∈ l, ∀ e' ∈ batchesOf a fuel e.1 e.2, ∀ s ∈ sessions a fuel e'.1 e'.2, Flawless a fuel e'.1 s) _ _ done
      · intro p g p' g' went
        have flagged := round_flag.of_eq_ok went
        simpa using flagged
      · intro p g p₁ g₁ l p' g' went ih
        have flagged : p₁.sound = true ↔ _ := round_flag.of_eq_ok went
        rw [ih, flagged, and_assoc, List.forall_mem_cons]
    rw [eq_self, true_and] at flagged
    rw [ensures_bind, ensures_get]
    split
    next =>
      rw [ensures_bind, ensures_anything_iff]
      intro _ g₂ _
      rw [ensures_bind, ensures_get, ensures_bind, ensures_anything_iff]
      exact fun _ _ _ => flagged
    next =>
      rw [ensures_bind, ensures_get, ensures_bind, ensures_anything_iff]
      exact fun _ _ _ => flagged
  rw [flagged.of_eq_ok ok]
  simp only [runs, explorations, batchCalls, Flawless, List.mem_flatMap, List.mem_map]
  constructor
  · intro all run h
    obtain ⟨e₁, ⟨e', ⟨e, round, batch⟩, s, session, rfl⟩, turn, began, rfl⟩ := h
    exact all e round e' batch s session turn began
  · intro all e round e' batch s session turn began
    exact all (e'.1, turn.2) ⟨(e'.1, s), ⟨e', ⟨e, round, batch⟩, s, session, rfl⟩, turn, began, rfl⟩

end Generator

end GoalCoverage
