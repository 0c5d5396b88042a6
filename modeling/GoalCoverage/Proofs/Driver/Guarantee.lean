import GoalCoverage.Proofs.Diagram.Built
import GoalCoverage.Proofs.Driver.Rounds
import GoalCoverage.Script

/-!
What a generation guarantees for every analysis: goals get a verdict, batches need one engine at most, the report tells of
unsound runs, and goals are not called infeasible for lack of time (`generate_accounts`).
-/

namespace GoalCoverage

open Procedure Diagram

namespace Script

/-- Nothing is held but the region that an engine is composed for, when there are no scripts. -/
def unscripted : Holdings Stage Engine Nat where
  surroundings _ stage := stage.scripts = []
  engine d x := x.script.initial = none ∧ x.script.runs = [] ∧ d.Knows x.constraint
  precision _ _ := True

/-- Engines without scripts are lawful. -/
theorem lawful_unscripted : analysis.Lawful unscripted where
  surroundings _ _ _ _ h := h
  engine _ _ _ ext h := ⟨h.1, h.2.1, ext.knows h.2.2⟩
  precision _ _ _ _ h := h
  composes d stage observers region precision wf none known _ := by
    have none : stage.scripts = [] := none
    simp only [analysis, compose]
    rw [ensures_bind, ensures_get]
    simp only [none, List.getD_nil]
    rw [ensures_bind, ensures_set]
    exact ⟨.refl d, wf, none, rfl, rfl, known⟩
  starts d stage x wf none fits := by
    simp only [analysis, initialState]
    rw [ensures_bind, ensures_get]
    simp only [fits.1]
    cases stage.program.entry with
    | ok location => exact ⟨.refl d, wf, none, fits.2.2⟩
    | error v => exact trivial
  refines _ _ _ := trivial
  runs fuel limit b fits := by
    have idle : b.engine.script.runs[b.engine.runs]? = none := by
      rw [fits.engine.2.1]
      rfl
    have next : (b.engine.script.runs[b.engine.runs]?).getD .idle = .idle := by rw [idle, Option.getD_none]
    have begun : analysis.run fuel limit b = (do
        set { b with engine := { b.engine with runs := b.engine.runs + 1, counterexamples := ∅ } }
        note (.started b.engine.number ((b.engine.script.runs[b.engine.runs]?).getD .idle).ending)
        ((b.engine.script.runs[b.engine.runs]?).getD .idle).steps.forM play
        conclude limit ((b.engine.script.runs[b.engine.runs]?).getD .idle).ending : Procedure Desk RunEnd) b := rfl
    have ended : finish (analysis.run fuel limit) b =
        { b with
          engine := { b.engine with runs := b.engine.runs + 1, counterexamples := ∅ }
          surroundings := (b.surroundings.note (.started b.engine.number .sound)).note
            (.performed "pop_all" (.popped b.reached.waiting.length))
          reached := { b.reached with waiting := [] } } := by
      rw [finish, begun, next]
      rfl
    rw [ended]
    exact ⟨.refl _, fits.wellFormed, fits.surroundings, fits.engine, fits.shown⟩
  disables goals b fits := ⟨.refl _, fits.wellFormed, fits.surroundings, fits.engine, fits.shown⟩
  restricts region opened b fits _ _ := ⟨.refl _, fits.wellFormed, fits.surroundings, fits.engine, fits.shown⟩

end Script

namespace Generator

variable {F E S P : Type} [AbstractState S] {a : Analysis F E S P} {h : Holdings F E P} {g g' : Generator F P} {fuel i : Nat}
  {settings : Settings} {program : Program} {goals : List Goal} {managed : Bool} {diagram : Diagram} {surroundings : F}
  {clock : Nat → Duration}

/-- The analysis, its surroundings and the goals get their regions from the diagram. -/
structure Provided (a : Analysis F E S P) (h : Holdings F E P) (diagram : Diagram) (surroundings : F) (goals : List Goal) :
    Prop where
  wellFormed : diagram.WellFormed
  lawful : a.Lawful h
  surroundings : h.surroundings diagram surroundings
  goals : ∀ γ ∈ goals, diagram.Knows γ.remaining ∧ diagram.Knows γ.infeasible

/-- The regions of a new generator are those of its goals. -/
theorem tidy_ofGoals (made : ofGoals settings program goals managed diagram surroundings clock = .ok g)
    (wf : settings.presenceConditions = true → diagram.WellFormed)
    (known : settings.presenceConditions = true → ∀ γ ∈ goals, diagram.Knows γ.remaining ∧ diagram.Knows γ.infeasible) :
    g.Tidy := by
  have parts := ofGoals_eq_ok made
  obtain ⟨predictions, suite⟩ := Suite.addGoals_eq { variability := settings.presenceConditions } goals
  have variability : g.suite.variability = settings.presenceConditions := by rw [parts, suite]
  have taken : ∀ i γ, g.suite.goals.get? i = some γ →
      ∃ γ₀ ∈ goals, γ₀.index = i ∧ γ = γ₀.enlisted settings.presenceConditions := by
    intro i γ here
    rw [parts] at here
    exact Suite.of_get?_addGoals here
  refine ⟨⟨fun i γ here => ?_, fun tracks i γ here => ?_, fun tracks i γ here => ?_, fun tracks => ?_⟩, fun tracks t mem => ?_⟩
  · obtain ⟨γ₀, _, index, rfl⟩ := taken i γ here
    exact (γ₀.sameAs_enlisted _).index.trans index
  · have on : settings.presenceConditions = true := variability ▸ tracks
    obtain ⟨γ₀, mem, _, rfl⟩ := taken i γ here
    rw [on, parts]
    cases remaining : γ₀.remaining with
    | none => exact ⟨.all, by simp [Goal.enlisted, remaining], (wf on).has_all⟩
    | some r => exact ⟨r, by simp [Goal.enlisted, remaining], (known on γ₀ mem).1 r remaining⟩
  · have on : settings.presenceConditions = true := variability ▸ tracks
    obtain ⟨γ₀, mem, _, rfl⟩ := taken i γ here
    rw [parts, Goal.enlisted]
    split
    next => exact (known on γ₀ mem).2
    next => exact (known on γ₀ mem).2
  · rw [parts]
    exact wf (variability ▸ tracks)
  · rw [parts, suite] at mem
    cases mem

omit [AbstractState S] in
/-- Places are those in the list of goals. -/
theorem placed_ofGoals (made : ofGoals settings program goals managed diagram surroundings clock = .ok g) :
    (∀ i k, g.order.get? i = some k → ∃ γ, goals[k]? = some γ ∧ γ.index = i) ∧
      ∀ γ ∈ goals, ∃ k, g.order.get? γ.index = some k := by
  rw [ofGoals_eq_ok made]
  refine ⟨fun i k here => ?_, fun γ mem => ?_⟩
  · have mem := IdMap.mem_of_get?_ofList here
    rw [List.mem_mapIdx] at mem
    obtain ⟨k', bound, same⟩ := mem
    cases same
    exact ⟨_, List.getElem?_eq_getElem bound, rfl⟩
  · obtain ⟨k, bound, rfl⟩ := List.mem_iff_getElem.1 mem
    exact IdMap.exists_get?_ofList (e := (goals[k].index, k)) (List.mem_mapIdx.2 ⟨k, bound, rfl⟩)

/-- A new generator has all its goals in the queue, each at a place of its own. -/
theorem ready_ofGoals (made : ofGoals settings program goals managed diagram surroundings clock = .ok g)
    (provided : settings.presenceConditions = true → Provided a h diagram surroundings goals) : g.Ready h g.suite.goalIds := by
  have parts := ofGoals_eq_ok made
  obtain ⟨predictions, suite⟩ := Suite.addGoals_eq { variability := settings.presenceConditions } goals
  have variability : g.suite.variability = settings.presenceConditions := by rw [parts, suite]
  obtain ⟨placed, places⟩ := placed_ofGoals made
  have tidy : g.Tidy := tidy_ofGoals made (fun on => (provided on).wellFormed) fun on => (provided on).goals
  refine ⟨⟨tidy, fun tracks => ?_, fun _ p same => ?_⟩, ⟨fun i has => ?_, fun i j k first second => ?_, fun k i here => ?_,
    fun k i here => ?_⟩, fun i mem => ?_, fun i has => ?_⟩
  · rw [parts]
    exact (provided (variability ▸ tracks)).surroundings
  · rw [parts] at same
    cases same
  · obtain ⟨γ, here⟩ := has
    rw [parts] at here
    obtain ⟨γ₀, mem, index, _⟩ := Suite.of_get?_addGoals here
    exact index ▸ places γ₀ mem
  · obtain ⟨γ, there, index⟩ := placed i k first
    obtain ⟨γ', there', index'⟩ := placed j k second
    cases there.symm.trans there'
    exact index.symm.trans index'
  · rw [parts, suite] at here
    cases here
  · rw [parts, suite] at here
    cases here
  · exact IdMap.mem_keys.1 (IdSet.mem_toList.1 mem)
  · exact .inl (IdSet.mem_toList.2 (IdMap.mem_keys.2 has))

/--
Whatever the engines do: when a generation ends, every goal is resolved or listed as timed out. No batch had more than one
engine composed. The report is sound just if no run was classified as unsound and none found targets in vain. And a goal
marked as infeasible has an automaton that accepts nothing, or it was left open by an exploration that did not time out,
and that had emptied its frontier if the report is sound.
-/
theorem generate_accounts (made : ofGoals settings program goals managed diagram surroundings clock = .ok g)
    (provided : settings.presenceConditions = true → Provided a h diagram surroundings goals) {report : Report}
    (ok : generate a fuel g = .ok report g') :
    (∀ γ ∈ goals, g'.suite.isResolved γ.index = .ok true ∨ g'.suite.isTimedOut γ.index = true) ∧
    (∀ call ∈ batchCalls a fuel g, (compositions a fuel call.1 call.2).length ≤ 1) ∧
    (report.sound = true ↔ ∀ run ∈ runs a fuel g, Session.Faultless a fuel run.1 run.2) ∧
    ∀ i, g'.suite.isInfeasible i = true →
      (∃ γ ∈ goals, γ.index = i ∧ γ.automaton.isDegenerate = true) ∨
      ∃ e ∈ explorations a fuel g, ∃ finding t, Session.explore a fuel e.1 e.2 = .ok finding t ∧
        i ∈ e.1 ∧ t.generator.suite.isResolved i ≠ .ok true ∧ finding.outcome ≠ .timedOut ∧
        (report.sound = true → t.reached.waiting = []) := by
  have ready := ready_ofGoals made provided
  have parts := ofGoals_eq_ok made
  obtain ⟨predictions, suite⟩ := Suite.addGoals_eq { variability := settings.presenceConditions } goals
  have lawful : g.suite.variability = true → a.Lawful h := by
    rw [parts, suite]
    exact fun tracks => (provided tracks).lawful
  have flagged := generate_sound_iff ok
  obtain ⟨g₁, d, continues, decided, rfl⟩ := (generate_continues ready lawful).of_eq_ok ok
  refine ⟨fun γ mem => ?_, continues.once, flagged, fun i marked => ?_⟩
  · have has : g.Has γ.index := by
      rw [Has, parts]
      exact Suite.exists_get?_addGoals _ mem
    obtain ⟨γ', here⟩ := (continues.has_iff γ.index).2 has
    apply (decided γ.index ⟨γ', here⟩).imp _ id
    intro resolved
    rw [Suite.isResolved_eq here]
    exact congrArg _ resolved
  · have none : i ∉ g.suite.infeasible := by
      rw [parts, suite]
      exact IdSet.not_mem_empty i
    rcases continues.found i (IdSet.contains_iff.1 marked) with old | ⟨γ, here, degenerate⟩ | ⟨e, there, s, opened, leaves⟩
    · exact absurd old none
    · rw [parts] at here
      obtain ⟨γ₀, mem, index, rfl⟩ := Suite.of_get?_addGoals here
      exact .inl ⟨γ₀, mem, index, (γ₀.sameAs_enlisted _).automaton ▸ degenerate⟩
    · obtain ⟨finding, t, explored, timely, member, open'⟩ := leaves
      obtain ⟨sound_iff, exhaustive⟩ := Session.explore_flag explored
      have began : (e.1, s) ∈ explorations a fuel g :=
        List.mem_flatMap.2 ⟨e, there, List.mem_map.2 ⟨s, opened, rfl⟩⟩
      refine .inr ⟨(e.1, s), began, finding, t, explored, member, fun resolved => ?_, timely, fun sound => ?_⟩
      · rw [Suite.resolved_of_eq_ok resolved] at open'
        cases open'
      · have flawless : Session.Flawless a fuel e.1 s := fun turn begun =>
          flagged.1 sound _ (List.mem_flatMap.2 ⟨(e.1, s), began, List.mem_map.2 ⟨turn, begun, rfl⟩⟩)
        apply (exhaustive timely (sound_iff.2 flawless)).resolve_right
        intro all
        rw [List.all_eq_true.1 all i member] at open'
        cases open'

section Idle

/-- One edge after the other. -/
def corridor : Program := .ofArrows 2 [(0, 1), (1, 2)]

def idleSettings : Settings := { goalsPerRun := 0, presenceConditions := true }

def idleStage : Script.Stage := { program := corridor, scripts := [] }

/-- A generator with engines that find nothing. -/
def idleGenerator : Generator Script.Stage Nat :=
  { settings := idleSettings
    program := corridor
    diagram := .fresh
    surroundings := idleStage
    suite := Suite.addGoals { variability := true } (corridor.goals .edges true)
    order := .ofList ((corridor.goals .edges true).mapIdx fun i γ => (γ.index, i))
    clock := fun _ => 0
    timeLimit := none }

theorem generate_accounts_idle : ∃ e ∈ explorations Script.analysis 5 idleGenerator, ∃ finding t,
    Session.explore Script.analysis 5 e.1 e.2 = .ok finding t ∧ 2 ∈ e.1 ∧ t.reached.waiting = [] := by
  have made : ofGoals idleSettings corridor (corridor.goals .edges true) true .fresh idleStage (fun _ => 0) =
      .ok idleGenerator := rfl
  have provided : Provided Script.analysis Script.unscripted .fresh idleStage (corridor.goals .edges true) := by
    refine ⟨wellFormed_fresh, Script.lawful_unscripted, rfl, fun γ mem => ?_⟩
    have new := Program.fresh_of_mem_goals mem
    rw [new.remaining, new.infeasible]
    exact ⟨knows_none, knows_none⟩
  obtain ⟨report, done⟩ := exists_eq_ok (m := generate Script.analysis 5) (s := idleGenerator) (by decide +kernel)
  have marked : (finish (generate Script.analysis 5) idleGenerator).suite.isInfeasible 2 = true := by decide +kernel
  have sound : result? (generate Script.analysis 5) idleGenerator |>.any (·.sound) := by decide +kernel
  rw [result?_eq done] at sound
  rcases (generate_accounts made (fun _ => provided) done).2.2.2 2 marked with ⟨γ, mem, _, degenerate⟩ | found
  · have useful : ∀ γ ∈ corridor.goals .edges true, γ.automaton.isDegenerate = false := by decide +kernel
    rw [useful γ mem] at degenerate
    cases degenerate
  · obtain ⟨e, there, finding, t, explored, member, _, _, emptied⟩ := found
    exact ⟨e, there, finding, t, explored, member, emptied sound⟩

end Idle

end Generator


end GoalCoverage
