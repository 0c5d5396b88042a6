import GoalCoverage.Proofs.Driver.Lasting
import GoalCoverage.Proofs.Driver.Rounds

/-!
Timeouts. A goal times out if it is open at the end of a run for its batch whose time is over. Whatever the engines do, the
goals of a batch that is processed are counted, those of them that time out are logged and filed under their places, and the
schedule is not changed otherwise (`processBatch_advances`).
-/

namespace GoalCoverage

open Procedure Diagram

namespace Generator

variable {F P α : Type} {g g' g'' : Generator F P} {count count' : Nat} {left left' : List Nat}

/-- So many goals are processed, those in `left` time out one after the other, and the schedule is not changed otherwise. -/
structure Advances (count : Nat) (left : List Nat) (g g' : Generator F P) : Prop where
  settings : g'.settings = g.settings
  order : g'.order = g.order
  timeLimit : g'.timeLimit = g.timeLimit
  processed : g'.processed = g.processed + count
  timeouts : g'.timeouts = g.timeouts ++ left
  timedOut : g'.suite.timedOut = (g.suite.addTimedOut (left.map fun i => (g.order.getD i 0, i))).timedOut

theorem Advances.trans (first : Advances count left g g') (second : Advances count' left' g' g'') :
    Advances (count + count') (left ++ left') g g'' where
  settings := second.settings.trans first.settings
  order := second.order.trans first.order
  timeLimit := second.timeLimit.trans first.timeLimit
  processed := by rw [second.processed, first.processed, Nat.add_assoc]
  timeouts := by rw [second.timeouts, first.timeouts, List.append_assoc]
  timedOut := by
    rw [second.timedOut, first.order, Suite.addTimedOut, first.timedOut]
    simp only [Suite.addTimedOut, List.map_append, List.foldl_append]

instance : IsPreorder (Generator F P) (Advances 0 []) where
  refl _ := ⟨rfl, rfl, rfl, rfl, (List.append_nil _).symm, rfl⟩
  trans _ _ _ first second := first.trans second

theorem Advances.after (pause : Advances 0 [] g g') (next : Advances count left g' g'') : Advances count left g g'' := by
  have whole := pause.trans next
  rwa [Nat.zero_add, List.nil_append] at whole

theorem Advances.before (first : Advances count left g g') (pause : Advances 0 [] g' g'') : Advances count left g g'' := by
  have whole := first.trans pause
  rwa [Nat.add_zero, List.append_nil] at whole

instance : Lenient (Advances 0 [] : Generator F P → Generator F P → Prop) where
  diagram _ _ _ := ⟨rfl, rfl, rfl, rfl, (List.append_nil _).symm, rfl⟩
  suite _ _ _ _ timedOut := ⟨rfl, rfl, rfl, rfl, (List.append_nil _).symm, timedOut⟩
  nextTestCase _ _ := ⟨rfl, rfl, rfl, rfl, (List.append_nil _).symm, rfl⟩
  precision _ _ := ⟨rfl, rfl, rfl, rfl, (List.append_nil _).symm, rfl⟩
  folder _ _ := ⟨rfl, rfl, rfl, rfl, (List.append_nil _).symm, rfl⟩

/-- Nothing that engines share is part of the schedule. -/
theorem pauses_onShared {m : Procedure (Diagram × F) α} : Moves anything (Advances 0 []) (onShared m) g :=
  moves_within fun _ => ⟨rfl, rfl, rfl, rfl, (List.append_nil _).symm, rfl⟩

theorem postponeAll_advances : Ensures anything (left.forM postpone) g fun _ g' => Advances 0 left g g' := by
  apply Ensures.forM (I := fun done g' => Advances 0 done g g') _ (refl g)
  intro i done rest g' _ advances
  rw [postpone, ensures_modify]
  have step : Advances 0 [i] g' { g' with
      timeouts := g'.timeouts ++ [i]
      suite := g'.suite.addTimedOut [(g'.order.getD i 0, i)] } := ⟨rfl, rfl, rfl, rfl, rfl, rfl⟩
  exact advances.trans step

end Generator

variable {F E S P α : Type} {a : Analysis F E S P} {fuel : Nat} {batch : List Nat} {sound : Bool}

namespace Session

variable {s t : Session F E S P}

/-- The schedule is not touched in a session. -/
def Pauses (s t : Session F E S P) : Prop := Generator.Advances 0 [] s.generator t.generator

instance : IsPreorder (Session F E S P) Pauses where
  refl s := refl s.generator
  trans _ _ _ first second := IsTrans.trans (r := Generator.Advances 0 []) _ _ _ first second

theorem pauses_withEngine {m : Procedure (Bench F E S) α} : Moves anything Pauses (withEngine m) s :=
  moves_within fun _ => ⟨rfl, rfl, rfl, rfl, (List.append_nil _).symm, rfl⟩

theorem pauses_withGenerator {m : Procedure (Generator F P) α} (h : Moves anything (Generator.Advances 0 []) m s.generator) :
    Moves anything Pauses (withGenerator m) s := h.within fun _ moved => moved

theorem pauses_runEngine : Moves anything Pauses (runEngine a fuel) s := moves_get_bind.2 pauses_withEngine

theorem pauses_restrict {region : Region} : Moves anything Pauses (restrict a batch region) s :=
  (pauses_withGenerator Generator.lasts_openRegions.anyway).bind fun _ _ _ _ => pauses_withEngine

theorem pauses_narrow : Moves anything Pauses (narrow a batch) s := by
  have sharpened : ∀ s : Session F E S P, Moves anything Pauses (do
      if (← get).generator.suite.variability then
        let region ← withGenerator (Generator.remainingRegion batch)
        restrict a batch region) s := by
    intro s
    rw [moves_get_bind]
    split
    next => exact (pauses_withGenerator Generator.lasts_remainingRegion.anyway).bind fun _ _ _ _ => pauses_restrict
    next => exact moves_pure
  rw [narrow]
  apply (pauses_withGenerator (Moves.filterM fun _ _ _ _ => Generator.lasts_isResolved.anyway)).bind
  intro resolved s₁ _ _
  split
  next => exact pauses_withEngine.bind fun _ s₂ _ _ => sharpened s₂
  next => exact sharpened s₁

theorem pauses_renew : Moves anything Pauses (renew a) s := by
  rw [renew, moves_get_bind]
  split
  next =>
    apply (pauses_withGenerator Generator.pauses_onShared).bind
    exact fun _ s₁ _ _ => moves_modify (refl s₁.generator)
  next => exact moves_pure

variable [AbstractState S]

/-- The goals of the batch that are open when the time of a run is over. -/
def overdue (a : Analysis F E S P) (fuel : Nat) (batch : List Nat) (s : Session F E S P) : List Nat :=
  match runEngine a fuel s with
  | .ok .timedOut t => t.generator.leftOf batch
  | .ok .sound _ => []
  | .ok .unsound _ => []
  | .error _ _ => []

/-- The goals that time out in an exploration. -/
def late (a : Analysis F E S P) (fuel : Nat) (batch : List Nat) (s : Session F E S P) : List Nat :=
  (turns (turn a fuel batch) fuel true s).flatMap fun e => overdue a fuel batch e.2

theorem pauses_turn : Moves anything Pauses (turn a fuel batch sound) s := by
  rw [turn, moves_get_bind]
  apply pauses_runEngine.bind
  intro outcome s₁ _ _
  split
  next => exact moves_pure
  next =>
    rw [moves_get_bind]
    apply (pauses_withGenerator Generator.lasts_harvest.anyway).bind
    intro found s₂ _ _
    apply (moves_modify (refl s₂.generator)).bind
    intro _ s₃ _ _
    split
    next => exact moves_pure
    next =>
      apply (pauses_withGenerator Generator.lasts_isDone.anyway).bind
      intro done s₄ _ _
      split
      next => exact moves_pure
      next =>
        rw [moves_get_bind]
        split
        next => exact moves_pure
        next => exact pauses_renew.bind fun _ _ _ _ => pauses_narrow.bind fun _ _ _ _ => moves_pure

theorem pauses_explore : Moves anything Pauses (explore a fuel batch) s :=
  Moves.repeatUntil trivial (fun _ _ _ => pauses_turn) fuel true

/-- A run that times out is the last one of its exploration. -/
theorem turn_overdue : Ensures anything (turn a fuel batch sound) s fun r t => overdue a fuel batch s =
    match r with
    | .inl _ => []
    | .inr finding => if finding.outcome = .timedOut then t.generator.leftOf batch else [] := by
  rw [turn, ensures_bind, ensures_get, ensures_bind, ensures_anything_iff]
  intro outcome s₁ ran
  split
  next late =>
    subst late
    rw [ensures_pure, overdue, ran]
    exact (if_pos rfl).symm
  next timely =>
    have none : overdue a fuel batch s = [] := by
      rw [overdue, ran]
      cases outcome with
      | timedOut => exact absurd rfl timely
      | sound => rfl
      | unsound => rfl
    rw [none, ensures_bind, ensures_get, ensures_bind, ensures_anything_iff]
    intro found s₂ _
    rw [ensures_bind, ensures_modify]
    split
    next => simp
    next =>
      rw [ensures_bind, ensures_anything_iff]
      intro done s₃ _
      split
      next => simp [timely]
      next =>
        rw [ensures_bind, ensures_get]
        split
        next => simp [timely]
        next =>
          rw [ensures_bind, ensures_anything_iff]
          intro _ s₄ _
          rw [ensures_bind, ensures_anything_iff]
          exact fun _ _ _ => rfl

theorem explore_late {finding : Finding} (ok : explore a fuel batch s = .ok finding t) : late a fuel batch s =
    if finding.outcome = .timedOut then t.generator.leftOf batch else [] := by
  apply repeatUntil_induction (M := fun l _ _ finding t => (l.flatMap fun e => overdue a fuel batch e.2) =
    if finding.outcome = .timedOut then t.generator.leftOf batch else []) _ _ ok
  · intro sound s finding t turned
    rw [List.flatMap_cons, List.flatMap_nil, List.append_nil]
    exact turn_overdue.of_eq_ok turned
  · intro sound s sound' s' l finding t turned ih
    have none : overdue a fuel batch s = [] := turn_overdue.of_eq_ok turned
    rw [List.flatMap_cons, none, List.nil_append, ih]

end Session

namespace Generator

variable [AbstractState S] {g g' : Generator F P} {queue : List Nat} {p : Progress}

/-- The goals that time out in an attempt. -/
def lateAt (a : Analysis F E S P) (fuel : Nat) (batch : List Nat) (g : Generator F P) : List Nat :=
  (sessionOf a batch g).toList.flatMap (Session.late a fuel batch)

/-- The goals that time out when a batch is processed. -/
def timeoutsOf (a : Analysis F E S P) (fuel : Nat) (batch : List Nat) (g : Generator F P) : List Nat :=
  (sessions a fuel batch g).flatMap (Session.late a fuel batch)

/-- The goals that time out in a round, in this order. -/
def roundTimeouts (a : Analysis F E S P) (fuel : Nat) (p : Progress) (g : Generator F P) : List Nat :=
  (batchesOf a fuel p g).flatMap fun e => timeoutsOf a fuel e.1 e.2

omit [AbstractState S] in
theorem pauses_opening {c : Commission P} : Ensures anything (opening a batch c) g fun (s : Session F E S P) g' =>
    s.generator = g' ∧ Advances 0 [] g g' := by
  apply opening_ensures_generator.and
  rw [opening, ensures_bind]
  apply pauses_onShared.ensures.mono
  intro engine g₁ composed
  rw [ensures_bind]
  apply pauses_onShared.ensures.mono
  intro initial g₂ started
  have aimed : Moves anything Session.Pauses (aim a batch c.region)
      ({ generator := g₂, engine, reached := .start initial } : Session F E S P) := by
    cases c.region with
    | some r => exact Session.pauses_restrict
    | none => exact moves_pure
  rw [ensures_bind, ensures_anything_iff]
  intro x g₃ prepared
  simp only [inSession, SeqRight.seqRight, EStateM.seqRight] at prepared
  cases out : aim a batch c.region { generator := g₂, engine, reached := .start initial } with
  | ok _ s =>
    rw [out] at prepared
    cases prepared
    exact composed.after (started.after ((moves_iff.1 aimed).1 _ _ out))
  | error e s =>
    rw [out] at prepared
    cases prepared

theorem closing_advances {keeps : Bool} {finding : Session.Finding} {engine : E} {reached : Exploration S} :
    Ensures anything (closing a batch keeps finding engine reached) g fun f g' => f = finding ∧
      Advances 0 (if finding.outcome = .timedOut then g.leftOf batch else []) g g' := by
  apply closing_ensures_finding.and
  split
  next late =>
    have rest : ∀ g₁ : Generator F P, Advances 0 [] g g₁ → g₁.suite = g.suite → Ensures anything (do
        conclude batch finding.outcome
        drawGraphs batch reached.graph
        return finding) g₁ fun _ g' => Advances 0 (g.leftOf batch) g g' := by
      intro g₁ pause suite
      rw [late, ensures_bind, conclude, ensures_bind]
      apply ensures_unresolved_of
      rw [suite]
      apply postponeAll_advances.mono
      intro _ g₂ postponed
      rw [ensures_bind]
      apply (lasts_drawGraphs (R := Advances 0 [])).anyway.ensures.mono
      exact fun _ g₃ drawn => (pause.after postponed).before drawn
    rw [closing]
    split
    next => exact rest _ (Lenient.precision g _) rfl
    next => exact rest g (refl g) rfl
  next timely => exact (lasts_closing timely).anyway.ensures

/-- What times out in a search is what its exploration leaves open if its last run times out. -/
theorem search_advances : Ensures anything (search a fuel batch) g fun finding g' => ∃ s,
    result? (commission batch >>= opening a batch) g = some s ∧ Advances 0 (Session.late a fuel batch s) g g' ∧
      (Session.late a fuel batch s).Sublist batch ∧ (finding.outcome ≠ .timedOut → Session.late a fuel batch s = []) := by
  rw [search_eq, ensures_bind, ensures_anything_iff]
  intro c g₁ asked
  have asking : Advances 0 [] g g₁ := lasts_commission.anyway.ensures.of_eq_ok asked
  rw [ensures_bind, ensures_anything_iff]
  intro s g₂ opened
  obtain ⟨same, opening'⟩ := pauses_opening.of_eq_ok opened
  have found : result? (commission batch >>= opening a batch) g = some s := by
    simp only [result?, bind, EStateM.bind, asked, opened]
  rw [ensures_bind, ensures_anything_iff]
  intro x g₃ explored
  rw [← same, inSession] at explored
  cases out : Session.explore a fuel batch s with
  | ok finding t =>
    rw [out] at explored
    cases explored
    have exploring : Session.Pauses s t := Session.pauses_explore.ensures.of_eq_ok out
    have open' := Session.explore_late out
    apply closing_advances.mono
    intro f g₄ h
    obtain ⟨rfl, closed⟩ := h
    rw [← open'] at closed
    refine ⟨s, found, asking.after (opening'.after (same ▸ exploring.after closed)), ?_, fun timely => ?_⟩
    · rw [open']
      split
      next => exact List.filter_sublist
      next => exact List.nil_sublist batch
    · rw [open', if_neg timely]
  | error e t =>
    rw [out] at explored
    cases explored

/-- No attempt is made after one that timed out. -/
theorem attemptBatch_advances : Ensures anything (attemptBatch a fuel batch sound) g fun r g' =>
    Advances 0 (lateAt a fuel batch g) g g' ∧ (lateAt a fuel batch g).Sublist batch ∧
      ∀ b, r = .inl b → lateAt a fuel batch g = [] := by
  rw [attemptBatch_eq, lateAt, ensures_bind, ensures_anything_iff]
  intro lacks g₁ asked
  have asking : Advances 0 [] g g₁ := lasts_lacking.anyway.ensures.of_eq_ok asked
  cases lacks with
  | true =>
    have follows : sessionOf a batch g = result? (commission batch >>= opening a batch) g₁ := by
      rw [sessionOf, after?, asked]
      rfl
    rw [if_pos rfl, ensures_bind]
    apply search_advances.mono
    intro finding g₂ h
    obtain ⟨s, opened, searched, part, timely⟩ := h
    rw [follows, opened, Option.toList_some, List.flatMap_singleton]
    split
    next => exact ⟨asking.after searched, part, by simp⟩
    next other => exact ⟨asking.after searched, part, fun _ _ => timely other⟩
  | false =>
    have none : sessionOf a batch g = none := by
      rw [sessionOf, after?, asked]
      rfl
    rw [none]
    exact ⟨asking, List.nil_sublist batch, fun _ _ => rfl⟩

theorem timeoutsOf_eq : timeoutsOf a fuel batch g = (attempts a fuel batch g).flatMap fun e => lateAt a fuel batch e.2 := by
  rw [timeoutsOf, sessions, searches, List.filterMap_filterMap]
  induction attempts a fuel batch g with
  | nil => rfl
  | cons e rest ih =>
    rw [List.flatMap_cons, ← ih, lateAt, sessionOf, List.filterMap_cons]
    cases (after? (lacking batch) e.2).bind (result? (commission batch >>= opening a batch)) with
    | none => rfl
    | some s => rw [Option.toList_some, List.flatMap_singleton, List.flatMap_cons]

theorem openBatch_advances : Ensures anything (openBatch batch) g fun _ g' => Advances batch.length [] g g' := by
  have counted : Advances batch.length [] g { g with processed := g.processed + batch.length } :=
    ⟨rfl, rfl, rfl, rfl, (List.append_nil _).symm, rfl⟩
  rw [openBatch, ensures_bind, ensures_modify]
  exact lasts_survey.anyway.ensures.mono fun _ g' surveyed => counted.before surveyed

/-- All goals of a batch are processed, and some of them time out, each of them once. -/
theorem processBatch_advances : Ensures anything (processBatch a fuel batch) g fun _ g' =>
    Advances batch.length (timeoutsOf a fuel batch g) g g' ∧ (timeoutsOf a fuel batch g).Sublist batch := by
  rw [processBatch_eq, ensures_bind, ensures_anything_iff]
  intro _ g₁ opened
  rw [ensures_anything_iff]
  intro sound g' ok
  have begun : attempts a fuel batch g = turns (attemptBatch a fuel batch) fuel true g₁ := by
    rw [attempts, opened]
  have attempted : Advances 0 (timeoutsOf a fuel batch g) g₁ g' ∧ (timeoutsOf a fuel batch g).Sublist batch := by
    rw [timeoutsOf_eq, begun]
    apply repeatUntil_induction (M := fun l _ g₁ _ g' => Advances 0 (l.flatMap fun e => lateAt a fuel batch e.2) g₁ g' ∧
      (l.flatMap fun e => lateAt a fuel batch e.2).Sublist batch) _ _ ok
    · intro sound g sound' g' attempted
      obtain ⟨advances, part, _⟩ := attemptBatch_advances.of_eq_ok attempted
      rw [List.flatMap_cons, List.flatMap_nil, List.append_nil]
      exact ⟨advances, part⟩
    · intro sound g sound₁ g₁ l sound' g' attempted ih
      obtain ⟨advances, _, none⟩ := attemptBatch_advances.of_eq_ok attempted
      rw [none sound₁ rfl] at advances
      rw [List.flatMap_cons, none sound₁ rfl, List.nil_append]
      exact ⟨advances.after ih.1, ih.2⟩
  exact ⟨(openBatch_advances.of_eq_ok opened).trans attempted.1, attempted.2⟩

end Generator

end GoalCoverage
