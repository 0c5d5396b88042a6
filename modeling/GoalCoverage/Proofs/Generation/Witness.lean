import GoalCoverage.Proofs.Driver.Guarantee
import GoalCoverage.Proofs.Generation.Inquiry

/-!
Witnesses of coverings. Searches, batches and rounds uphold the warrants of a generator however they end, so after any
generation every recorded covering has a test case that shows it (`generate_witnesses`).
-/

namespace GoalCoverage

open Procedure Diagram StateGraph Explorer

/-- The regions of the guards belong to the diagram, if configurations are tracked. -/
def Task.Guarded (t : Task) : Prop := t.factory.tracks = true →
  ∀ i γ, t.goals.get? i = some γ → ∀ move ∈ γ.automaton.transitions, t.diagram.HasAll move.label.guards

namespace Generator

section Inquire

variable {F E S P : Type} [AbstractState S] (a : Analysis F E S P) (fuel : Nat)

/-- The part of a search from the composition of its engine on. -/
def inquire (batch : List Nat) (c : Commission P) : Procedure (Generator F P) (Session.Finding × E × Exploration S) := do
  let engine ← onShared (a.compose c.observers c.region c.precision)
  let initial ← onShared (a.initialState engine)
  inSession engine (.start initial) (aim a batch c.region *> Session.explore a fuel batch)

theorem search_eq_inquire (batch : List Nat) : search a fuel batch = (do
    let c ← commission batch
    let (finding, engine, reached) ← inquire a fuel batch c
    closing a batch c.keeps finding engine reached : Procedure (Generator F P) Session.Finding) := by
  rw [search_eq]
  simp only [opening, inquire, bind_assoc, pure_bind]
  congr 1
  funext c
  congr 1
  funext engine
  congr 1
  funext initial
  rw [inSession_aim a batch c.region engine _ (Session.explore a fuel batch), bind_assoc]

end Inquire

variable {t : Task} {g g' : Explored} {i fuel : Nat} {batch goals queue : List Nat} {x : Explorer} {y : Exploration State}
  {c : Commission IdSet} {sound : Bool}

section Parts

theorem upholds_observers : Moves anything (Upholds t) (observers goals) g := by
  rw [observers, moves_get_bind]
  apply Moves.bind
  · exact Moves.mapM fun _ _ _ _ => upholds_goal.bind fun _ _ _ _ => moves_pure
  intro components g₁ _ _
  split
  next =>
    split
    next => exact moves_pure
    next => exact moves_refuse trivial
  next => exact moves_pure

theorem upholds_commission : Moves anything (Upholds t) (commission batch) g := by
  rw [commission]
  apply upholds_unresolved.bind
  intro left g₁ _ _
  apply upholds_observers.bind
  intro observers g₂ _ _
  apply upholds_drawAutomata.bind
  intro _ g₃ _ _
  have rest : ∀ (region : Option Region) (g : Explored), Moves anything (Upholds t) (do
      let g ← get
      return (⟨observers, region, if g.settings.reusePrecision then g.precision else none, g.settings.reusePrecision⟩ :
        Commission IdSet)) g := fun region g => moves_get_bind.2 moves_pure
  rw [moves_get_bind]
  dsimp only
  split
  next variability => exact (upholds_remainingRegion variability).map.bind fun region g₄ _ _ => rest region g₄
  next => exact rest none g₃

theorem compose_grows {tracks : Bool} {d : Diagram} {factory : ExplorerFactory} (ready : d.Ready tracks) :
    Moves anything (Grows tracks) (analysis.compose c.observers c.region c.precision) (d, factory) := by
  rw [analysis, moves_get_bind]
  dsimp only
  split
  next => exact ⟨⟨.refl d, ready, rfl⟩, trivial⟩
  next => exact ⟨⟨.refl d, ready, rfl⟩, trivial⟩

theorem composes : Ensures anything (onShared (analysis.compose c.observers c.region c.precision)) g fun x g' =>
    g' = g ∧ compose g.surroundings c.observers c.region c.precision = .ok x := by
  rw [onShared, ensures_within, analysis, ensures_bind, ensures_get]
  dsimp only
  split
  next composed => exact ⟨rfl, composed⟩
  next => trivial

theorem upholds_inSession {α : Type} {m : Procedure Session.Explored α}
    (warranted : Session.Warranted t { generator := g, engine := x, reached := y })
    (h : Moves anything (Session.Upholds t) m { generator := g, engine := x, reached := y }) :
    Moves anything (Upholds t) (inSession x y m) g := by
  rw [moves_iff] at h ⊢
  simp only [inSession]
  cases out : m { generator := g, engine := x, reached := y } with
  | ok a s =>
    have upheld : Upholds t g s.generator := fun _ => (h.1 a s out warranted).generator
    simpa using upheld
  | error e s =>
    have upheld : Upholds t g s.generator := fun _ => ((h.2 e s out).2 warranted).generator
    simpa [anything] using upheld

end Parts

section Process

variable (manager : t.Managed) (guarded : t.Guarded) (crosses : t.Crosses)

include manager guarded crosses

/-- An engine that was composed for some goals of a generator. -/
structure Engaged (t : Task) (components : List Component) (d : Diagram) (x : Explorer) : Prop where
  serves : Serves t components x
  fit : x.Fit d
  known : x.tracks = true → ∀ o ∈ x.observers, o.Over d
  explains : x.explains = t.factory.explains
  maxNodes : x.maxNodes = t.factory.maxNodes

omit crosses in
theorem Warranted.engages {components : List Component} (warranted : g.Warranted t) (watches : Watches components c.observers)
    (members : ∀ comp ∈ components, ∃ γ, t.goals.get? comp.goal = some γ ∧ γ.automaton = comp.automaton)
    (region : ∀ r, c.region = some r → g.suite.variability = true ∧ g.diagram.Has r)
    (composed : onShared (analysis.compose c.observers c.region c.precision) g = .ok x g') :
    g' = g ∧ Engaged t components g.diagram x := by
  obtain ⟨rfl, composed⟩ := composes.of_eq_ok composed
  have shape := compose_eq_ok composed
  rw [warranted.surroundings] at shape
  have serves : Serves t components x := by
    rw [shape]
    exact ⟨rfl, rfl, watches, members⟩
  refine ⟨rfl, serves, ?_, fun tracks o mem => ?_, by rw [shape], by rw [shape]⟩
  · rw [shape]
    exact ⟨warranted.ready, fun tracks => (manager tracks).2.extends warranted.diagram,
      fun tracks r same => (region r same).2, fun _ g => by simp⟩
  · have tracked : t.factory.tracks = true := serves.tracks ▸ tracks
    apply serves.watches.over _ mem
    intro comp here move there
    obtain ⟨γ, goal, automaton⟩ := members comp here
    exact (guarded tracked comp.goal γ goal move (automaton ▸ there)).extends warranted.diagram

omit manager guarded in
/-- The session in which the engine explores. -/
theorem Warranted.begins {components : List Component} {initial : State} (warranted : g.Warranted t)
    (engaged : Engaged t components g.diagram x) (started : onShared (analysis.initialState x) g = .ok initial g') :
    Upheld t g g' ∧ Session.Warranted t { generator := g', engine := x, reached := .start initial } := by
  have starts := starts_initialState.of_eq_ok started
  obtain ⟨ext, ready, starts⟩ := initial_of_eq_ok engaged.fit starts
  have grows : Moves anything (Upholds t) (onShared (analysis.initialState x)) g :=
    upholds_onShared (engaged.serves.tracks ▸ initialState_grows engaged.fit)
  have upheld := (moves_iff.1 grows).1 initial g' started warranted
  exact ⟨upheld, Session.warranted_fresh crosses upheld.warranted engaged.serves engaged.explains
    (fun tracks o mem => (engaged.known tracks o mem).extends ext) (engaged.fit.extends ext ready) starts⟩

omit manager guarded crosses in
theorem upholds_aim {s : Session.Explored}
    (region : ∀ r, c.region = some r → s.generator.suite.variability = true ∧ s.generator.diagram.Has r) :
    Moves anything (Session.Upholds t) (aim analysis batch c.region) s := by
  cases at_region : c.region with
  | some r => exact Session.upholds_restrict fun _ => region r at_region
  | none => exact moves_pure

theorem upholds_inquire {components : List Component} (watches : Watches components c.observers)
    (members : ∀ comp ∈ components, ∃ γ, t.goals.get? comp.goal = some γ ∧ γ.automaton = comp.automaton)
    (region : ∀ r, c.region = some r → g.suite.variability = true ∧ g.diagram.Has r) :
    Moves anything (Upholds t) (inquire analysis fuel batch c) g := by
  apply upholds_of
  intro warranted
  rw [inquire]
  apply (upholds_onShared (compose_grows warranted.ready)).bind
  intro x g₁ ok _
  obtain ⟨rfl, engaged⟩ := warranted.engages manager guarded watches members region ok
  apply (upholds_onShared (engaged.serves.tracks ▸ initialState_grows engaged.fit)).bind
  intro initial g₂ ok _
  obtain ⟨upheld, begun⟩ := warranted.begins crosses engaged ok
  apply upholds_inSession begun
  rw [seqRight_eq_bind]
  apply (upholds_aim fun r same => ?_).bind
  · exact fun _ _ _ _ => Session.upholds_explore manager crosses
  · exact ⟨upheld.variability.trans (region r same).1, upheld.diagram.has (region r same).2⟩

omit manager guarded crosses in
theorem upholds_closing {keeps : Bool} {finding : Session.Finding} :
    Moves anything (Upholds t) (closing analysis batch keeps finding x y) g := by
  have rest : ∀ g : Explored, Moves anything (Upholds t) (do
      conclude batch finding.outcome
      drawGraphs batch y.graph
      return finding) g := fun g => upholds_conclude.bind fun _ _ _ _ => upholds_drawGraphs.bind fun _ _ _ _ => moves_pure
  rw [closing]
  split
  next => exact (moves_modify fun warranted => warranted.altered ⟨rfl, rfl, rfl, rfl, rfl, rfl, rfl, rfl⟩).bind fun _ g₁ _ _ => rest g₁
  next => exact rest g

omit manager guarded crosses in
/-- What is asked of an engine for a batch concerns goals and regions of the generator. -/
theorem Warranted.commissioned (warranted : g.Warranted t) (asked : commission batch g = .ok c g') :
    (∀ r, c.region = some r → g'.suite.variability = true ∧ g'.diagram.Has r) ∧ ∃ components, Watches components c.observers ∧
      ∀ comp ∈ components, ∃ γ, t.goals.get? comp.goal = some γ ∧ γ.automaton = comp.automaton := by
  have records : g.Records (fun _ => False) (fun _ => False) g' ∧ _ := (commission_records warranted.tidy).of_eq_ok asked
  obtain ⟨_, suite, region, _, components, watches, members⟩ := records
  refine ⟨fun r same => suite ▸ region r same, components, watches, fun comp mem => ?_⟩
  obtain ⟨γ, now, automaton⟩ := members comp mem
  obtain ⟨γ₀, first, same⟩ := warranted.kept comp.goal γ now
  exact ⟨γ₀, first, same.automaton.symm.trans automaton⟩

theorem upholds_search : Moves anything (Upholds t) (search analysis fuel batch) g := by
  apply upholds_of
  intro warranted
  rw [search_eq_inquire]
  apply upholds_commission.bind
  intro c g₁ asked _
  obtain ⟨region, components, watches, members⟩ := warranted.commissioned asked
  apply (upholds_inquire manager guarded crosses watches members region).bind
  exact fun _ _ _ _ => upholds_closing

omit manager guarded in
theorem upholds_lacking : Moves anything (Upholds t) (lacking batch) g := by
  rw [lacking]
  apply upholds_isDone.bind
  intro done g₁ _ _
  split
  next => exact moves_pure
  next =>
    rw [moves_get_bind]
    split
    next =>
      apply (upholds_replayBatch crosses).bind
      intro _ g₂ _ _
      apply upholds_isDone.bind
      intro done g₃ _ _
      split
      next => exact moves_pure
      next => exact moves_pure
    next => exact moves_pure

theorem upholds_attemptBatch : Moves anything (Upholds t) (attemptBatch analysis fuel batch sound) g := by
  rw [attemptBatch_eq]
  apply (upholds_lacking crosses).bind
  intro lacks g₁ _ _
  split
  next => exact (upholds_search manager guarded crosses).bind fun _ _ _ _ => moves_pure
  next => exact moves_pure

omit manager guarded crosses in
theorem upholds_openBatch : Moves anything (Upholds t) (openBatch batch) g := by
  rw [openBatch]
  apply (moves_modify fun warranted => warranted.altered ⟨rfl, rfl, rfl, rfl, rfl, rfl, rfl, rfl⟩).bind
  intro _ g₁ _ _
  rw [moves_get_bind]
  split
  next variability => exact (upholds_remainingRegion variability).bind fun _ _ _ _ => upholds_giveUpDegenerate
  next => exact upholds_giveUpDegenerate

theorem upholds_processBatch : Moves anything (Upholds t) (processBatch analysis fuel batch) g := by
  rw [processBatch_eq]
  apply upholds_openBatch.bind
  exact fun _ g₁ _ _ => Moves.repeatUntil trivial (fun _ _ _ => upholds_attemptBatch manager guarded crosses) fuel true

theorem upholds_round {p : Progress} : Moves anything (Upholds t) (round analysis fuel p) g := by
  have queue : Moves anything (Upholds t) (processQueue analysis fuel p.queue) g := by
    rw [processQueue, moves_get_bind]
    exact (Moves.mapM fun _ _ _ _ => upholds_processBatch manager guarded crosses).bind fun _ _ _ _ => moves_pure
  have retried : ∀ g : Explored, Moves anything (Upholds t) beginRetry g := by
    intro g
    rw [beginRetry, moves_get_bind]
    apply (moves_set fun warranted => warranted.altered ⟨rfl, rfl, rfl, rfl, rfl, rfl, rfl, rfl⟩).bind
    intro _ g₁ _ _
    split
    next => exact moves_violate trivial
    next => exact (moves_modify fun warranted => warranted.altered ⟨rfl, rfl, rfl, rfl, rfl, rfl, rfl, rfl⟩).bind fun _ _ _ _ => moves_pure
  rw [round]
  apply queue.bind
  intro sound g₁ _ _
  dsimp only
  rw [moves_get_bind]
  split
  next => exact (retried g₁).bind fun _ _ _ _ => moves_pure
  next => exact moves_pure

omit manager guarded crosses in
/-- Statistics look at the regions of the coverings. -/
theorem upholds_statistics : Moves anything (Upholds t) (onRegions g.suite.statistics) g := by
  apply upholds_of
  intro warranted
  have charted : g.suite.Charted g.diagram := by
    intro tracks i γ n o here entry
    obtain ⟨tc, _, _, γ₀, _, _, shown⟩ := warranted.covered i γ n o here entry
    obtain ⟨region, credit, rfl⟩ := shown tracks
    exact (credit.recorded warranted.ready (warranted.tracks tracks)).1
  obtain ⟨a, d, ok, ext, ready, _⟩ := Suite.statistics_delivers warranted.tracks charted warranted.ready
  rw [moves_iff, onRegions, ok]
  have upheld : Upholds t g { g with diagram := d } := fun _ => warranted.grown ext ready
  simpa using upheld

omit manager guarded in
theorem upholds_reporting {all : List Nat} {p : Progress} : Moves anything (Upholds t) (reporting all p) g := by
  have counted : ∀ g : Explored, Moves anything (Upholds t) (do
      let g ← get
      let statistics ← onRegions g.suite.statistics
      return ({ sound := p.sound, processed := g.processed, rounds := p.rounds, statistics } : Report)) g := by
    intro g
    rw [moves_get_bind]
    exact upholds_statistics.bind fun _ _ _ _ => moves_pure
  rw [reporting, moves_get_bind]
  split
  next => exact (Moves.forM fun _ _ _ _ => upholds_replay crosses).bind fun _ g₁ _ _ => counted g₁
  next => exact counted g

theorem upholds_generate : Moves anything (Upholds t) (generate analysis fuel) g := by
  rw [generate, moves_get_bind]
  apply (Moves.repeatUntil trivial (fun _ _ _ => upholds_round manager guarded crosses) fuel _).bind
  exact fun p g₁ _ _ => upholds_reporting crosses

end Process

section Start

variable {settings : Settings} {managed : Bool} {diagram : Diagram} {factory : ExplorerFactory} {clock : Nat → Duration}
  {goals : List Goal}

/-- All regions that a generator starts with were made in one diagram. -/
structure Supplied (factory : ExplorerFactory) (goals : List Goal) (diagram : Diagram) : Prop where
  built : diagram.Built
  program : factory.program.Over diagram
  regions : ∀ γ ∈ goals, diagram.Knows γ.remaining ∧ diagram.Knows γ.infeasible
  guards : ∀ γ ∈ goals, ∀ move ∈ γ.automaton.transitions, diagram.HasAll move.label.guards

theorem warranted_ofGoals (made : ofGoals settings factory.program goals managed diagram factory clock = .ok g)
    (uncovered : ∀ γ ∈ goals, γ.covering = ∅) (tracks : settings.presenceConditions = true → factory.tracks = true)
    (supplied : factory.tracks = true → Supplied factory goals diagram) : g.Warranted g.task := by
  have parts := ofGoals_eq_ok made
  obtain ⟨predictions, suite⟩ := Suite.addGoals_eq { variability := settings.presenceConditions } goals
  have tidy := tidy_ofGoals made (fun on => (supplied (tracks on)).built.wellFormed) fun on => (supplied (tracks on)).regions
  have shared : g.task.factory.tracks = factory.tracks := by rw [task, parts]
  have untested : g.suite.testCases = [] := by rw [parts, suite]
  refine ⟨rfl, fun variability => ?_, .refl _, fun on => ?_, tidy.drawn, fun i γ here => ⟨γ, here, .refl γ⟩, ?_, ?_, ?_,
    fun i γ n o here entry => ?_⟩
  · rw [parts, suite] at variability
    rw [shared]
    exact tracks variability
  · rw [parts]
    exact (supplied (shared ▸ on)).built.wellFormed
  · simp [untested]
  · simp [untested]
  · simp [untested]
  · rw [parts] at here
    obtain ⟨γ₀, mem, _, rfl⟩ := Suite.of_get?_addGoals here
    have bare : (γ₀.enlisted settings.presenceConditions).covering = ∅ := by
      rw [Goal.enlisted]
      split
      next => exact uncovered γ₀ mem
      next => exact uncovered γ₀ mem
    rw [bare, IdMap.get?_empty] at entry
    cases entry

/-- What is assumed of the goals and the explorers of a generation. -/
structure Setting (t : Task) : Prop where
  managed : t.Managed
  guarded : t.Guarded
  crosses : t.Crosses

theorem setting_ofGoals (made : ofGoals settings factory.program goals managed diagram factory clock = .ok g)
    (crosses : ∀ γ ∈ goals, ∀ trace, γ.automaton.Recognizes trace → γ.criticalEdge ∈ trace)
    (supplied : factory.tracks = true → Supplied factory goals diagram) : Setting g.task := by
  have parts := ofGoals_eq_ok made
  have shared : g.task.factory = factory ∧ g.task.diagram = diagram := by
    rw [task, parts]
    exact ⟨rfl, rfl⟩
  have taken : ∀ i γ, g.task.goals.get? i = some γ → ∃ γ₀ ∈ goals, γ₀.SameAs γ := by
    intro i γ here
    rw [task, parts] at here
    obtain ⟨γ₀, mem, _, rfl⟩ := Suite.of_get?_addGoals here
    exact ⟨γ₀, mem, γ₀.sameAs_enlisted _⟩
  refine ⟨?_, ?_, fun i γ trace here recognizes => ?_⟩
  · rw [Task.Managed, shared.1, shared.2]
    exact fun on => ⟨(supplied on).built.wellFormed, (supplied on).program⟩
  · rw [Task.Guarded, shared.1, shared.2]
    intro on i γ here move mem
    obtain ⟨γ₀, known, same⟩ := taken i γ here
    exact (supplied on).guards γ₀ known move (same.automaton ▸ mem)
  · obtain ⟨γ₀, known, same⟩ := taken i γ here
    rw [same.criticalEdge]
    exact crosses γ₀ known trace (same.automaton ▸ recognizes)

/--
A test case that shows what is recorded of a goal: a path over the critical edge. The configurations of the region may take
it up to some crossing of that edge, if configurations are tracked.
-/
structure Witnesses (p : Program) (d : Diagram) (tracks : Bool) (γ : Goal) (region : Option Region) (tc : TestCase) : Prop where
  path : p.IsPath tc.trace
  critical : γ.criticalEdge ∈ tc.trace
  crossed : tracks = true → ∃ r, region = some r ∧ d.Has r ∧ ∀ c, d.holds r c = true →
    ∃ k, tc.trace[k]? = some γ.criticalEdge ∧ ∀ e ∈ tc.trace.take (k + 1), p.Allows d c e

/-- However a generation goes and ends, every recorded covering has a test case that shows it. -/
theorem generate_witnesses (made : ofGoals settings factory.program goals managed diagram factory clock = .ok g)
    (uncovered : ∀ γ ∈ goals, γ.covering = ∅)
    (crosses : ∀ γ ∈ goals, ∀ trace, γ.automaton.Recognizes trace → γ.criticalEdge ∈ trace)
    (tracks : settings.presenceConditions = true → factory.tracks = true)
    (supplied : factory.tracks = true → Supplied factory goals diagram) (ends : finish (generate analysis fuel) g = g') :
    ∀ i γ n region, g'.suite.goals.get? i = some γ → γ.covering.get? n = some region → ∃ tc, g'.suite.testCase? n = some tc ∧
      Witnesses factory.program g'.diagram settings.presenceConditions γ region tc := by
  have parts := ofGoals_eq_ok made
  have shared : g.task.factory = factory ∧ g.task.diagram = diagram := by
    rw [task, parts]
    exact ⟨rfl, rfl⟩
  have variability : g.suite.variability = settings.presenceConditions := by
    obtain ⟨predictions, suite⟩ := Suite.addGoals_eq { variability := settings.presenceConditions } goals
    rw [parts, suite]
  have setting := setting_ofGoals made crosses supplied
  have upheld : Upheld g.task g g' :=
    ends ▸ (upholds_generate setting.managed setting.guarded setting.crosses).1
      (warranted_ofGoals made uncovered tracks supplied)
  have later := upheld.warranted
  intro i γ n region here entry
  obtain ⟨tc, mem, rfl, γ₀, first, critical, shown⟩ := later.covered i γ n region here entry
  obtain ⟨γ₁, first', same⟩ := later.kept i γ here
  cases first.symm.trans first'
  refine ⟨tc, Suite.testCase?_eq_of_mem later.distinct mem, ?_, same.criticalEdge ▸ critical, fun on => ?_⟩
  · rw [← shared.1]
    exact (later.genuine tc mem).path
  · have supply := supplied (tracks on)
    obtain ⟨r, credit, rfl⟩ := shown (upheld.variability.trans (variability.trans on))
    obtain ⟨has, within⟩ := credit.recorded later.ready (shared.1 ▸ tracks on)
    refine ⟨_, rfl, has, fun c holds => ?_⟩
    obtain ⟨k, there, passes⟩ := credit.crossed c fun _ => within c holds
    refine ⟨k, same.criticalEdge ▸ there, fun e mem => ?_⟩
    have allows := passes e mem
    rw [Task.Passes, shared.1, shared.2] at allows
    exact (supply.program.allows_iff supply.built.wellFormed (shared.2 ▸ later.diagram)).2 (allows (tracks on))

end Start

section Gate

/-- The gated edge is a goal twice, first for an automaton that waits for the edge after it and asks for the feature. -/
def gateGoals : List Goal :=
  [{ index := 1, criticalEdge := 2, cluster := 0, entry := 0, automaton := gated "G1" 2 }, .forEdge 2 0 0 0]

/-- The first run of an engine is cancelled before it starts. -/
def hurriedFactory : ExplorerFactory :=
  { gateFactory with
    maxNodes := some 9
    deadlines := fun n => if n = 0 then some 0 else none }

def hurriedSettings : Settings :=
  { presenceConditions := true, timeLimit := some 1, timeoutStrategy := .retry, maxRetryRounds := some 1 }

def gateGenerator : Explored :=
  { settings := hurriedSettings
    program := gate
    diagram := gateDiagram
    surroundings := hurriedFactory
    suite := Suite.addGoals { variability := true } gateGoals
    order := .ofList (gateGoals.mapIdx fun i γ => (γ.index, i))
    clock := fun _ => 0
    timeLimit := some 1 }

/-- Guards apart, a gated automaton waits for its edge. -/
theorem recognizes_gated {name : String} {edge : EdgeId} {trace : List EdgeId} :
    (gated name edge).Recognizes trace ↔ edge ∈ trace := by
  have follow : (gated name edge).follow = (Automaton.reaching name edge).follow := by
    funext q e
    have final : (gated name edge).isFinal q = (Automaton.reaching name edge).isFinal q := rfl
    rw [Automaton.follow, Automaton.follow, final]
    congr 1
    simp only [Automaton.outgoing, gated, gatedTransitions, Automaton.reaching, List.filter_filter]
    simp only [List.filter_cons, List.filter_nil, Label.contains, Label.single]
    split <;> split <;> rfl
  rw [← Automaton.recognizes_reaching name edge]
  simp only [Automaton.Recognizes, Automaton.Run, follow]
  exact Iff.rfl

theorem supplied_gate : Supplied hurriedFactory gateGoals gateDiagram where
  built := .call .fresh (.declare .fresh "A")
  program := over_gate
  regions γ mem := by
    have fresh : γ.remaining = none ∧ γ.infeasible = none := by
      obtain rfl | mem := List.mem_cons.1 mem
      · exact ⟨rfl, rfl⟩
      · rw [List.mem_singleton.1 mem]
        exact ⟨rfl, rfl⟩
    rw [fresh.1, fresh.2]
    exact ⟨knows_none, knows_none⟩
  guards γ mem := by
    obtain rfl | mem := List.mem_cons.1 mem
    · exact over_gated
    · rw [List.mem_singleton.1 mem]
      intro move mem r guard
      have free : move.label.guards = [] := by
        simp only [Goal.forEdge, Automaton.reaching, List.mem_cons, List.not_mem_nil, or_false] at mem
        obtain rfl | rfl := mem <;> rfl
      rw [free] at guard
      cases guard

theorem generate_witnesses_gate : ∃ γ tc, (finish (generate analysis 20) gateGenerator).suite.testCase? 2 = some tc ∧
    γ.criticalEdge = 2 ∧ Witnesses gate (finish (generate analysis 20) gateGenerator).diagram true γ (some ⟨2⟩) tc := by
  have made : ofGoals hurriedSettings gate gateGoals true gateDiagram hurriedFactory (fun _ => 0) = .ok gateGenerator := rfl
  have crosses : ∀ γ ∈ gateGoals, ∀ trace, γ.automaton.Recognizes trace → γ.criticalEdge ∈ trace := by
    intro γ mem trace recognizes
    obtain rfl | mem := List.mem_cons.1 mem
    · exact recognizes_gated.1 recognizes
    · rw [List.mem_singleton.1 mem] at recognizes ⊢
      exact (Automaton.recognizes_reaching _ 0).1 recognizes
  have recorded : ((finish (generate analysis 20) gateGenerator).suite.goals.get? 1).any
      (fun γ => γ.criticalEdge = 2 ∧ γ.covering.get? 2 = some (some ⟨2⟩)) = true := by decide +kernel
  obtain ⟨γ, here, both⟩ := (Option.any_eq_true _ _).1 recorded
  obtain ⟨critical, entry⟩ := of_decide_eq_true both
  obtain ⟨tc, test, witnesses⟩ := generate_witnesses made (by decide +kernel) crosses (fun _ => rfl) (fun _ => supplied_gate)
    rfl 1 γ 2 (some ⟨2⟩) here entry
  exact ⟨γ, tc, test, critical, witnesses⟩

end Gate

end Generator

end GoalCoverage
