import GoalCoverage.Proofs.Driver.Exclusion
import GoalCoverage.Proofs.Driver.Timeouts

/-!
The timetable of a generation. The queue of a round is cut into batches, and every goal has a place of its own in the table of
those that timed out, so that no timeout is lost or met twice: the first round processes all goals, and every other round those
that timed out in the round before. The limit grows and the count of processed goals comes out right (`generate_keeps_timetable`).
-/

namespace GoalCoverage

open Procedure

namespace Generator

section Filing

variable {order : IdMap Nat} {left : List Nat} {i k : Nat}

/-- The goals have places, and no place is that of two goals. -/
structure Places (order : IdMap Nat) (goals : List Nat) : Prop where
  placed : ∀ i ∈ goals, ∃ k, order.get? i = some k
  apart : ∀ i j k, order.get? i = some k → order.get? j = some k → i = j

theorem Places.getD {goals : List Nat} (places : Places order goals) (mem : i ∈ goals) :
    order.get? i = some (order.getD i 0) := by
  obtain ⟨k, here⟩ := places.placed i mem
  rw [IdMap.getD, here]
  rfl

theorem Places.subset {goals goals' : List Nat} (places : Places order goals) (part : goals' ⊆ goals) : Places order goals' :=
  ⟨fun i mem => places.placed i (part mem), places.apart⟩

/-- The table of goals that timed out, by their places. -/
def filed (order : IdMap Nat) (left : List Nat) : IdMap Nat := .ofList (left.map fun i => (order.getD i 0, i))

variable (places : Places order left)

include places

theorem get?_filed : (filed order left).get? k = some i ↔ i ∈ left ∧ order.get? i = some k := by
  constructor
  · intro here
    obtain ⟨j, mem, same⟩ := List.mem_map.1 (IdMap.mem_of_get?_ofList here)
    cases same
    exact ⟨mem, places.getD mem⟩
  · intro h
    obtain ⟨mem, here⟩ := h
    have place : order.getD i 0 = k := Option.some.inj ((places.getD mem).symm.trans here)
    refine IdMap.get?_foldl_insert (.inl (List.mem_map.2 ⟨i, mem, by rw [place]⟩)) fun j entered => ?_
    obtain ⟨j', mem', same⟩ := List.mem_map.1 entered
    cases same
    exact places.apart _ i _ (places.getD mem') here

theorem mem_values_filed : i ∈ (filed order left).values ↔ i ∈ left := by
  simp only [IdMap.mem_values, get?_filed places]
  exact ⟨fun h => h.elim fun _ h => h.1, fun mem => ⟨_, mem, places.getD mem⟩⟩

theorem nodup_values_filed : (filed order left).values.Nodup := by
  apply IdMap.nodup_values
  intro j k i here there
  have place := ((get?_filed places).1 here).2
  exact Option.some.inj (place.symm.trans ((get?_filed places).1 there).2)

theorem unordered_queue_filed : RetryOrder.unordered.queue (filed order left) left = left := by
  rw [RetryOrder.queue, List.filter_eq_self]
  intro i mem
  rw [List.contains_iff_mem]
  exact (mem_values_filed places).2 mem

/-- Whatever their order, the goals that timed out are queued, each of them once. -/
theorem queue_filed_perm (once : left.Nodup) (r : RetryOrder) : (r.queue (filed order left) left).Perm left := by
  have values : (filed order left).values.Perm left := by
    rw [List.perm_ext_iff_of_nodup (nodup_values_filed places) once]
    exact fun i => mem_values_filed places
  cases r with
  | forward => exact values
  | inverted => exact (List.reverse_perm _).trans values
  | unordered => rw [unordered_queue_filed places]

end Filing

variable {F E S P : Type} [AbstractState S] {a : Analysis F E S P} {fuel : Nat} {g₀ g g' : Generator F P} {p p' : Progress}

/-- The goals of a queue are processed batch by batch. -/
theorem processQueue_advances : Ensures anything (processQueue a fuel p.queue) g fun _ g' =>
    Advances p.queue.length (roundTimeouts a fuel p g) g g' ∧ (roundTimeouts a fuel p g).Sublist p.queue ∧
      (batchesOf a fuel p g).map Prod.fst = g.settings.batches p.queue := by
  rw [processQueue, ensures_bind, ensures_get, ensures_bind, ensures_anything_iff]
  intro flags g' ok
  rw [ensures_pure]
  have whole : (g.settings.batches p.queue).flatten = p.queue := Settings.flatten_batches
  have processed : Advances (g.settings.batches p.queue).flatten.length (roundTimeouts a fuel p g) g g' ∧
      (roundTimeouts a fuel p g).Sublist (g.settings.batches p.queue).flatten ∧
        (batchesOf a fuel p g).map Prod.fst = g.settings.batches p.queue := by
    apply mapM_induction (f := processBatch a fuel) (M := fun cs cut g _ g' =>
      Advances cut.flatten.length (cs.flatMap fun e => timeoutsOf a fuel e.1 e.2) g g' ∧
        (cs.flatMap fun e => timeoutsOf a fuel e.1 e.2).Sublist cut.flatten ∧ cs.map Prod.fst = cut) _ _ ok
    · exact fun g => ⟨(refl g : Advances 0 [] g g), List.nil_sublist _, rfl⟩
    · intro batch rest g flag g₁ cs flags g' processed ih
      obtain ⟨advances, part⟩ := processBatch_advances.of_eq_ok processed
      obtain ⟨advances', part', heads⟩ := ih
      rw [List.flatten_cons, List.length_append, List.flatMap_cons, List.map_cons, heads]
      exact ⟨advances.trans advances', part.append part', rfl⟩
  rwa [whole] at processed

omit [AbstractState S] in
theorem beginRetry_takes : Ensures anything beginRetry g fun queue g' =>
    queue = g.settings.retryOrder.queue g.suite.timedOut g.timeouts ∧ g' = { g with
      suite := { g.suite with timedOut := ∅ }
      timeouts := []
      timeLimit := g.timeLimit.map (· + g.settings.timeLimitIncrement)
      processed := g.processed - queue.length } := by
  rw [beginRetry, ensures_bind, ensures_get]
  dsimp only
  rw [ensures_bind, ensures_set]
  split
  next =>
    rw [ensures_bind]
    exact trivial
  next =>
    rw [ensures_bind, ensures_modify]
    exact ⟨rfl, rfl⟩

/-- The goals in `left` are queued again, as the settings order it. -/
structure TakesUp (g₀ : Generator F P) (left queue : List Nat) : Prop where
  places : Places g₀.order left
  goals : left ⊆ g₀.suite.goalIds
  once : left.Nodup
  queue : queue = g₀.settings.retryOrder.queue (filed g₀.order left) left

omit [AbstractState S] in
theorem TakesUp.perm {left queue : List Nat} (takes : g₀.TakesUp left queue) : queue.Perm left :=
  takes.queue ▸ queue_filed_perm takes.places takes.once _

/-- How a generation that began with `g₀` stands when a round begins. -/
structure Scheduled (g₀ : Generator F P) (p : Progress) (g : Generator F P) : Prop where
  settings : g.settings = g₀.settings
  order : g.order = g₀.order
  timeLimit : g.timeLimit = g₀.timeLimit.map (· + p.rounds.length * g₀.settings.timeLimitIncrement)
  processed : g.processed + p.queue.length = g₀.suite.goalIds.length
  once : p.queue.Nodup
  goals : p.queue ⊆ g₀.suite.goalIds
  timeouts : g.timeouts = []
  timedOut : g.suite.timedOut = ∅
  bounded : ∀ n, g₀.settings.maxRetryRounds = some n → p.rounds.length ≤ n

/-- What is left of a round when its batches are processed. -/
theorem Scheduled.processes (scheduled : Scheduled g₀ p g) (places : Places g₀.order g₀.suite.goalIds) :
    Ensures anything (processQueue a fuel p.queue) g fun _ g' => g'.settings = g₀.settings ∧ g'.order = g₀.order ∧
      g'.timeLimit = g.timeLimit ∧ g'.processed = g₀.suite.goalIds.length ∧ (roundTimeouts a fuel p g).length ≤ g'.processed ∧
      g₀.TakesUp (roundTimeouts a fuel p g) (g'.settings.retryOrder.queue g'.suite.timedOut g'.timeouts) := by
  apply processQueue_advances.mono
  intro _ g' h
  obtain ⟨advances, part, _⟩ := h
  have settings := advances.settings.trans scheduled.settings
  have within := List.Subset.trans part.subset scheduled.goals
  have processed := advances.processed.trans scheduled.processed
  have timeouts : g'.timeouts = roundTimeouts a fuel p g := by
    rw [advances.timeouts, scheduled.timeouts, List.nil_append]
  have timedOut : g'.suite.timedOut = filed g₀.order (roundTimeouts a fuel p g) := by
    rw [advances.timedOut, Suite.addTimedOut, scheduled.timedOut, scheduled.order]
    exact rfl
  refine ⟨settings, advances.order.trans scheduled.order, advances.timeLimit, processed, ?_, places.subset within, within,
    part.nodup scheduled.once, ?_⟩
  · rw [processed, ← scheduled.processed]
    exact Nat.le_trans part.length_le (Nat.le_add_left _ _)
  · rw [settings, timeouts, timedOut]

/-- The goals that time out in a round make the queue of the next one. -/
theorem round_schedules (scheduled : Scheduled g₀ p g) (places : Places g₀.order g₀.suite.goalIds) :
    Ensures anything (round a fuel p) g fun r g' =>
      match r with
      | .inl p' => Scheduled g₀ p' g' ∧ p'.rounds = p.rounds ++ [p.queue] ∧ g₀.TakesUp (roundTimeouts a fuel p g) p'.queue
      | .inr p' => p'.rounds = p.rounds ++ [p.queue] ∧ g'.processed = g₀.suite.goalIds.length ∧ g'.timeLimit = g.timeLimit := by
  rw [round, ensures_bind]
  apply (scheduled.processes places).mono
  intro sound g₁ h
  obtain ⟨settings, order, timeLimit, processed, fewer, takes⟩ := h
  rw [ensures_bind, ensures_get]
  dsimp only
  split
  next again =>
    rw [ensures_bind]
    apply beginRetry_takes.mono
    intro queue g₂ h
    obtain ⟨rfl, rfl⟩ := h
    refine ⟨⟨settings, order, ?_, ?_, takes.perm.nodup_iff.2 takes.once, List.Subset.trans takes.perm.subset takes.goals, rfl, rfl,
      fun n most => ?_⟩, rfl, takes⟩
    · rw [List.length_append, List.length_singleton]
      dsimp only
      rw [timeLimit, scheduled.timeLimit, settings, Option.map_map]
      simp only [Function.comp_def, Nat.add_mul, Nat.one_mul, Nat.add_assoc]
    · rw [← processed]
      exact Nat.sub_add_cancel (takes.perm.length_eq.trans_le fewer)
    · rw [retries, settings, most, List.length_append, List.length_singleton] at again
      simp only [Nat.add_sub_cancel, Option.any_some, Bool.and_eq_true, Bool.not_eq_true', decide_eq_false_iff_not] at again
      rw [List.length_append, List.length_singleton]
      omega
  next => exact ⟨rfl, processed, timeLimit⟩

/-- No more goals are processed again than were processed. -/
theorem Scheduled.queue_le (scheduled : Scheduled g₀ p g) (places : Places g₀.order g₀.suite.goalIds) :
    Ensures anything (processQueue a fuel p.queue) g fun _ g' =>
      (g'.settings.retryOrder.queue g'.suite.timedOut g'.timeouts).length ≤ g'.processed := by
  apply (scheduled.processes places).mono
  intro _ g' h
  obtain ⟨_, _, _, _, fewer, takes⟩ := h
  exact takes.perm.length_eq.trans_le fewer

section Rounds

variable (places : Places g₀.order g₀.suite.goalIds) (scheduled : Scheduled g₀ p g) {n k : Nat} {e e' : Progress × Generator F P}

include places scheduled

theorem rounds_scheduled (here : (turns (round a fuel) n p g)[k]? = some e) : Scheduled g₀ e.1 e.2 := by
  obtain ⟨q, g'⟩ := e
  apply turns_keep (I := Scheduled g₀) _ scheduled here
  intro p g p' g' scheduled went
  exact ((round_schedules scheduled places).of_eq_ok went).1

/-- The rounds before are on record. -/
theorem rounds_recorded (here : (turns (round a fuel) n p g)[k]? = some e) : e.1.rounds.length = p.rounds.length + k := by
  induction k generalizing n p g with
  | zero =>
    obtain ⟨_, rfl⟩ := turns_getElem?_zero.1 here
    rfl
  | succ k ih =>
    obtain ⟨m, p₁, g₁, rfl, went, rest⟩ := turns_getElem?_succ.1 here
    obtain ⟨scheduled₁, recorded, _⟩ := (round_schedules scheduled places).of_eq_ok went
    rw [ih scheduled₁ rest, recorded, List.length_append, List.length_singleton, Nat.add_right_comm, Nat.add_assoc]

theorem rounds_linked (here : (turns (round a fuel) n p g)[k]? = some e) (next : (turns (round a fuel) n p g)[k + 1]? = some e') :
    g₀.TakesUp (roundTimeouts a fuel e.1 e.2) e'.1.queue :=
  ((round_schedules (rounds_scheduled places scheduled here) places).of_eq_ok (turns_step here next)).2.2

theorem rounds_end_scheduled (ok : repeatUntil (round a fuel) n p g = .ok p' g') :
    p'.rounds = p.rounds ++ (turns (round a fuel) n p g).map (·.1.queue) ∧ g'.processed = g₀.suite.goalIds.length ∧
      g'.timeLimit = g₀.timeLimit.map (· + (p'.rounds.length - 1) * g₀.settings.timeLimitIncrement) ∧
      ∀ most, g₀.settings.maxRetryRounds = some most → p'.rounds.length - 1 ≤ most := by
  revert scheduled
  apply repeatUntil_induction (M := fun l p g p' g' => Scheduled g₀ p g → p'.rounds = p.rounds ++ l.map (·.1.queue) ∧
    g'.processed = g₀.suite.goalIds.length ∧
      g'.timeLimit = g₀.timeLimit.map (· + (p'.rounds.length - 1) * g₀.settings.timeLimitIncrement) ∧
      ∀ most, g₀.settings.maxRetryRounds = some most → p'.rounds.length - 1 ≤ most) _ _ ok
  · intro p g p' g' went scheduled
    obtain ⟨recorded, processed, timeLimit⟩ := (round_schedules scheduled places).of_eq_ok went
    have count : p'.rounds.length - 1 = p.rounds.length := by rw [recorded, List.length_append, List.length_singleton, Nat.add_sub_cancel]
    rw [count]
    exact ⟨recorded, processed, timeLimit.trans scheduled.timeLimit, scheduled.bounded⟩
  · intro p g p₁ g₁ l p' g' went ih scheduled
    obtain ⟨scheduled₁, recorded, _⟩ := (round_schedules scheduled places).of_eq_ok went
    obtain ⟨whole, rest⟩ := ih scheduled₁
    refine ⟨?_, rest⟩
    rw [whole, recorded, List.map_cons, List.append_assoc, List.singleton_append]

end Rounds

theorem reporting_reports {all : List Nat} : Ensures anything (reporting all p) g fun report g' =>
    report.rounds = p.rounds ∧ report.processed = g.processed ∧ g'.timeLimit = g.timeLimit := by
  have counted : ∀ g₁ : Generator F P, Advances 0 [] g g₁ → Ensures anything (do
      let g ← get
      let statistics ← onRegions g.suite.statistics
      return ({ sound := p.sound, processed := g.processed, rounds := p.rounds, statistics } : Report)) g₁ fun report g' =>
        report.rounds = p.rounds ∧ report.processed = g.processed ∧ g'.timeLimit = g.timeLimit := by
    intro g₁ pause
    rw [ensures_bind, ensures_get, ensures_bind, ensures_onRegions_iff]
    exact fun statistics d _ => ⟨rfl, pause.processed, pause.timeLimit⟩
  rw [reporting, ensures_bind, ensures_get]
  split
  next =>
    rw [ensures_bind]
    apply (Moves.forM (R := Advances 0 []) fun _ _ _ _ => lasts_replay.anyway).ensures.mono
    exact fun _ g₁ pause => counted g₁ pause
  next => exact counted g (refl g)

section Start

variable {settings : Settings} {program : Program} {goals : List Goal} {managed : Bool} {diagram : Diagram}
  {surroundings : F} {clock : Nat → Duration} (made : ofGoals settings program goals managed diagram surroundings clock = .ok g)

include made

omit [AbstractState S] in
theorem mem_goalIds_ofGoals {i : Nat} : i ∈ g.suite.goalIds ↔ ∃ γ ∈ goals, γ.index = i := by
  rw [ofGoals_eq_ok made, Suite.goalIds, IdSet.mem_toList, IdMap.mem_keys]
  constructor
  · intro h
    obtain ⟨γ, here⟩ := h
    obtain ⟨γ₀, mem, index, _⟩ := Suite.of_get?_addGoals here
    exact ⟨γ₀, mem, index⟩
  · intro h
    obtain ⟨γ, mem, rfl⟩ := h
    exact Suite.exists_get?_addGoals _ mem

omit [AbstractState S] in
theorem places_ofGoals : Places g.order g.suite.goalIds := by
  obtain ⟨placed, places⟩ := placed_ofGoals made
  refine ⟨fun i mem => ?_, fun i j k first second => ?_⟩
  · obtain ⟨γ, listed, rfl⟩ := (mem_goalIds_ofGoals made).1 mem
    exact places γ listed
  · obtain ⟨γ, there, index⟩ := placed i k first
    obtain ⟨γ', there', index'⟩ := placed j k second
    cases there.symm.trans there'
    exact index.symm.trans index'

omit [AbstractState S] in
theorem scheduled_ofGoals : Scheduled g { rounds := [], sound := true, queue := g.suite.goalIds } g := by
  have parts := ofGoals_eq_ok made
  obtain ⟨predictions, suite⟩ := Suite.addGoals_eq { variability := settings.presenceConditions } goals
  refine ⟨rfl, rfl, ?_, ?_, IdSet.nodup_toList _, List.Subset.refl _, ?_, ?_, fun _ _ => Nat.zero_le _⟩
  · simp
  · rw [parts]
    exact Nat.zero_add _
  · rw [parts]
  · rw [parts, suite]

/-- The schedule of a generation that ended, by the chronicle of its rounds and batches. -/
structure Timetable (a : Analysis F E S P) (fuel : Nat) (settings : Settings) (goals : List Goal) (g : Generator F P)
    (report : Report) (g' : Generator F P) : Prop where
  recorded : report.rounds = (rounds a fuel g).map (·.1.queue)
  batches : ∀ e ∈ rounds a fuel g, Settings.Tiles settings.goalsPerRun e.1.queue ((batchesOf a fuel e.1 e.2).map Prod.fst)
  /-- The first round has all goals in increasing order, and each of them in one batch. -/
  initial : ∃ e, (rounds a fuel g)[0]? = some e ∧ e.1.queue.Pairwise (· < ·) ∧
    (∀ i, i ∈ e.1.queue ↔ ∃ γ ∈ goals, γ.index = i) ∧
    ∀ γ ∈ goals, ((batchesOf a fuel e.1 e.2).map Prod.fst).flatten.count γ.index = 1
  /-- Every other round has the goals that timed out in the round before, each of them once. -/
  retried : ∀ k e e', (rounds a fuel g)[k]? = some e → (rounds a fuel g)[k + 1]? = some e' →
    e'.1.queue.Perm (roundTimeouts a fuel e.1 e.2) ∧ e'.1.queue.Nodup
  timeLimit : ∀ k e, (rounds a fuel g)[k]? = some e →
    e.2.timeLimit = settings.timeLimit.map (· + k * settings.timeLimitIncrement)
  lastLimit : g'.timeLimit = settings.timeLimit.map (· + report.retryRounds * settings.timeLimitIncrement)
  bounded : ∀ most, settings.maxRetryRounds = some most → report.retryRounds ≤ most
  /-- The goals to process again are never more than the goals processed. -/
  counted : ∀ e ∈ rounds a fuel g, ∀ sound g₁, processQueue a fuel e.1.queue e.2 = .ok sound g₁ →
    (g₁.settings.retryOrder.queue g₁.suite.timedOut g₁.timeouts).length ≤ g₁.processed
  processed : report.processed = (IdSet.ofList (goals.map (·.index))).size

/--
Whatever the engines do, whichever of their runs time out and whatever the settings are: a generation that ends has kept its
timetable.
-/
theorem generate_keeps_timetable {report : Report} (ok : generate a fuel g = .ok report g') :
    Timetable a fuel settings goals g report g' := by
  have parts := ofGoals_eq_ok made
  have places := places_ofGoals made
  have scheduled := scheduled_ofGoals made
  have setting : g.settings = settings := by rw [parts]
  have limit : g.timeLimit = settings.timeLimit := by rw [parts]
  obtain ⟨p, g₁, done, reported⟩ := exists_of_bind_eq_ok (f := reporting g.suite.goalIds)
    (m := repeatUntil (round a fuel) fuel { rounds := [], sound := true, queue := g.suite.goalIds }) ok
  obtain ⟨recorded, processed, timeLimit, bounded⟩ := rounds_end_scheduled places scheduled done
  obtain ⟨same, count, lastLimit⟩ := reporting_reports.of_eq_ok reported
  have whole : report.rounds = (rounds a fuel g).map (·.1.queue) := by
    rw [same, recorded]
    exact List.nil_append _
  rw [setting, limit, ← same] at timeLimit
  rw [setting, ← same] at bounded
  have now : ∀ e ∈ rounds a fuel g, Scheduled g e.1 e.2 := by
    intro e mem
    obtain ⟨k, here⟩ := List.mem_iff_getElem?.1 mem
    exact rounds_scheduled places scheduled here
  have tiles : ∀ e ∈ rounds a fuel g,
      Settings.Tiles settings.goalsPerRun e.1.queue ((batchesOf a fuel e.1 e.2).map Prod.fst) := by
    intro e mem
    obtain ⟨r, g₂, went⟩ := turns_succeed done mem
    obtain ⟨sound, g₃, queued, _⟩ := exists_of_bind_eq_ok went
    rw [(processQueue_advances.of_eq_ok queued).2.2, (now e mem).settings, setting]
    exact Settings.tiles_batches
  refine ⟨whole, tiles, ?_, fun k e e' here next => ?_, fun k e here => ?_, lastLimit.trans timeLimit, bounded,
    fun e mem sound g₂ queued => ((now e mem).queue_le places).of_eq_ok queued, ?_⟩
  · have first : (rounds a fuel g)[0]? = some ({ rounds := [], sound := true, queue := g.suite.goalIds }, g) := by
      refine turns_getElem?_zero.2 ⟨?_, rfl⟩
      rintro rfl
      cases done
    refine ⟨_, first, g.suite.goals.keys.increasing, fun i => mem_goalIds_ofGoals made, fun γ mem => ?_⟩
    rw [(tiles _ (List.mem_of_getElem? first)).flatten]
    exact List.count_eq_one_of_mem (IdSet.nodup_toList _) ((mem_goalIds_ofGoals made).2 ⟨γ, mem, rfl⟩)
  · have takes := rounds_linked places scheduled here next
    exact ⟨takes.perm, takes.perm.nodup_iff.2 takes.once⟩
  · rw [(rounds_scheduled places scheduled here).timeLimit, rounds_recorded places scheduled here, setting, limit]
    simp
  · have members : g.suite.goals.keys = IdSet.ofList (goals.map (·.index)) := by
      apply IdSet.ext_mem
      intro i
      rw [← IdSet.mem_toList, ← Suite.goalIds, mem_goalIds_ofGoals made, IdSet.mem_ofList, List.mem_map]
    rw [count, processed, Suite.goalIds, members, IdSet.size]

end Start

section Tardy

/-- The first three engines run out of time, and all others find nothing. -/
def tardyStage : Script.Stage := { program := corridor, scripts := List.replicate 3 { runs := [⟨[], .expire⟩] } }

def tardySettings : Settings :=
  { timeLimit := some (.ofMillis 200), timeLimitIncrement := .ofMillis 100, timeoutStrategy := .retry, maxRetryRounds := some 4 }

def tardyGenerator : Generator Script.Stage Nat :=
  { settings := tardySettings
    program := corridor
    diagram := .fresh
    surroundings := tardyStage
    suite := Suite.addGoals { variability := false } (corridor.goals .edges true)
    order := .ofList ((corridor.goals .edges true).mapIdx fun i γ => (γ.index, i))
    clock := fun _ => 0
    timeLimit := some (.ofMillis 200) }

/-- One goal times out once and the other one twice. -/
theorem generate_keeps_timetable_tardy : ∃ report g', generate Script.analysis 5 tardyGenerator = .ok report g' ∧
    report.rounds = [[1, 2], [2, 1], [2]] ∧ g'.timeLimit = some (.ofMillis 400) ∧
    Timetable Script.analysis 5 tardySettings (corridor.goals .edges true) tardyGenerator report g' := by
  obtain ⟨report, done⟩ := exists_eq_ok (m := generate Script.analysis 5) (s := tardyGenerator) (by decide +kernel)
  have late : result? (generate Script.analysis 5) tardyGenerator |>.any fun report =>
      report.rounds == [[1, 2], [2, 1], [2]] := by decide +kernel
  rw [result?_eq done] at late
  have made : ofGoals tardySettings corridor (corridor.goals .edges true) false .fresh tardyStage (fun _ => 0) =
    .ok tardyGenerator := rfl
  exact ⟨report, _, done, by simpa using late, by decide +kernel, generate_keeps_timetable made done⟩

end Tardy

end Generator

end GoalCoverage
