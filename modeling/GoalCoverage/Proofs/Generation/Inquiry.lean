import GoalCoverage.Proofs.Explorer.Actions
import GoalCoverage.Proofs.Generation.Session
import GoalCoverage.Proofs.Generation.Testimony

/-!
Inquiries: sessions that keep their warrants. An engine that is run, restricted, disabled or started again leaves the
exploration in order however the call ends (`Tended`), so all that is harvested from it is warranted (`upholds_explore`).
-/

namespace GoalCoverage

open Procedure Diagram StateGraph

namespace Explorer

variable {first : State} {root : NodeId} {b b' : Desk} {fuel : Nat} {limit : Option Duration} {constraint : Region}
  {opened : IdMap Region} {x : Explorer} {d : Diagram}

/-- A desk at which so many runs had a limit. -/
def Desk.counted (b : Desk) (n : Nat) : Desk := { b with surroundings := { b.surroundings with limitedRuns := n } }

/-- What becomes of an ordered desk when its engine is called. -/
structure Tended (root : NodeId) (b b' : Desk) : Prop where
  ordered : ∃ first, Ordered first root b'
  task : SameTask b.engine b'.engine
  explains : b'.engine.explains = b.engine.explains
  diagram : b.diagram.Extends b'.diagram
  surroundings : ∃ n, b'.surroundings = (b.counted n).surroundings

/-- A run within a limit goes on at a desk where it is counted. -/
theorem runBounded_works (ordered : Ordered first root b) : Moves (· = .exhausted)
    (fun b b' => ∃ n, Worked first root (b.counted n) b') (analysis.runBounded fuel limit) b := by
  have begins : ∃ n token, analysis.run fuel limit b = run fuel token (b.counted n) := by
    cases limit with
    | none => exact ⟨b.surroundings.limitedRuns, none, rfl⟩
    | some _ => exact ⟨_, _, rfl⟩
  obtain ⟨n, token, same⟩ := begins
  have counted : Ordered first root (b.counted n) := ⟨ordered.graph, ordered.queue⟩
  have works := moves_iff.1 (run_works counted fuel token)
  rw [moves_iff]
  cases out : run fuel token (b.counted n) with
  | ok ending b' =>
    have ends : ∃ outcome, analysis.runBounded fuel limit b = .ok outcome b' := by
      simp only [Analysis.runBounded, same, out]
      split <;> exact ⟨_, rfl⟩
    obtain ⟨outcome, ends⟩ := ends
    simpa [ends] using ⟨n, works.1 ending b' out⟩
  | error e b' =>
    obtain ⟨rfl, worked⟩ := works.2 e b' out
    have fails : analysis.runBounded fuel limit b = .error .exhausted b' := by
      simp only [Analysis.runBounded, same, out]
    simpa [fails] using ⟨n, worked⟩

theorem Worked.tended {n : Nat} (worked : Worked first root (b.counted n) b') : Tended root b b' where
  ordered := ⟨first, worked.ordered⟩
  task := worked.sameTask
  explains := by
    rw [worked.engine]
    rfl
  diagram := worked.diagram
  surroundings := ⟨n, worked.surroundings⟩

theorem disable_tends (ordered : Ordered first root b) (goals : IdSet) :
    Moves anything (Tended root) (analysis.disable goals) b :=
  moves_modify ⟨⟨first, ordered.disable goals.toList⟩, .refl _, rfl, .refl _, _, rfl⟩

theorem restrict_tends (ordered : Ordered first root b) (known : b.engine.Known b.diagram constraint opened) :
    Moves anything (Tended root) (analysis.restrict constraint opened) b := by
  apply (restrict_orders (T := fun _ => False) ordered known).moves
  intro _ b' h
  obtain ⟨ordered', engine, surroundings, ext, _⟩ := h
  refine ⟨⟨first, ordered'⟩, ?_, ?_, ext, b.surroundings.limitedRuns, surroundings⟩
  · rw [engine]
    exact ⟨rfl, rfl, rfl, rfl, rfl⟩
  · rw [engine]

/-- Where there is no program to start from, the diagram has grown all the same. -/
theorem initialState_grows {factory : ExplorerFactory} (fit : x.Fit d) :
    Moves anything (Generator.Grows x.tracks) (analysis.initialState x) (d, factory) := by
  obtain ⟨tracked, _⟩ := tracked_start fit
  have found : Yields x.tracks (x.accepted (Observer.starts x.observers) _ ∅) d fun out _ => out = _ :=
    accepted_yields fit tracked
  obtain ⟨ext, ready, _⟩ := found
  have grown : Moves anything (fun d d' => d.Extends d' ∧ d'.Ready x.tracks) x.initialState d := by
    refine ⟨?_, ensures_anything_iff.2 fun _ _ _ => trivial⟩
    simp only [finish, initialState]
    cases x.program.entry with
    | ok entry => exact ⟨ext, ready⟩
    | error v => exact ⟨ext, ready⟩
  exact grown.within fun _ grown => ⟨grown.1, grown.2, rfl⟩

end Explorer

theorem Generator.starts_initialState {x : Explorer} {g : Generator.Explored} :
    Ensures anything (onShared (Explorer.analysis.initialState x)) g fun initial g' =>
      x.initialState g.diagram = .ok initial g'.diagram := by
  rw [onShared, ensures_within, Explorer.analysis, ensures_within, ensures_anything_iff]
  exact fun _ _ ok => ok

namespace Session

open Explorer Generator

variable {α : Type} {t : Task} {s s' : Explored} {batch : List Nat} {fuel : Nat} {sound : Bool} {region : Region}
  {opened : IdMap Region}

/-- A session whose coverings are warranted and whose exploration is in order. -/
structure Warranted (t : Task) (s : Explored) : Prop where
  generator : Generator.Warranted t s.generator
  serves : ∃ components, Serves t components s.engine
  explains : s.engine.explains = t.factory.explains
  ordered : ∃ first, Ordered first 0 s.bench

/-- What becomes of a session whose coverings are warranted. -/
structure Upheld (t : Task) (s s' : Explored) : Prop where
  warranted : s'.Warranted t
  generator : Generator.Upheld t s.generator s'.generator

def Upholds (t : Task) (s s' : Explored) : Prop := s.Warranted t → Upheld t s s'

instance : IsPreorder Explored (Upholds t) where
  refl s warranted := ⟨warranted, (refl s.generator : Generator.Upholds t _ _) warranted.generator⟩
  trans _ _ _ first second warranted := by
    have one := first warranted
    have two := second one.warranted
    exact ⟨two.warranted, one.generator.trans two.generator⟩

theorem upholds_of {m : Procedure Explored α} (h : s.Warranted t → Moves anything (Upholds t) m s) :
    Moves anything (Upholds t) m s := by
  rw [moves_iff]
  refine ⟨fun a s' out warranted => ?_, fun e s' out => ⟨trivial, fun warranted => ?_⟩⟩
  · exact (moves_iff.1 (h warranted)).1 a s' out warranted
  · exact ((moves_iff.1 (h warranted)).2 e s' out).2 warranted

theorem upholds_withGenerator {m : Procedure Generator.Explored α}
    (h : s.Warranted t → Moves anything (Generator.Upholds t) m s.generator) :
    Moves anything (Upholds t) (withGenerator m) s := by
  apply upholds_of
  intro warranted
  apply (h warranted).within
  intro g' upheld _
  have later := upheld warranted.generator
  obtain ⟨components, serves⟩ := warranted.serves
  obtain ⟨first, ordered⟩ := warranted.ordered
  have ready : g'.diagram.Ready s.engine.tracks := serves.tracks ▸ later.warranted.ready
  have ordered' := ordered.extends later.diagram ready
  exact ⟨⟨later.warranted, ⟨components, serves⟩, warranted.explains, first, ordered'.graph, ordered'.queue⟩, later⟩

/-- A call of the engine. -/
theorem Warranted.tended {b : Desk} (warranted : s.Warranted t) (tended : Tended 0 s.bench b) : Upheld t s (setBench b s) := by
  obtain ⟨components, serves⟩ := warranted.serves
  obtain ⟨first, ordered⟩ := tended.ordered
  obtain ⟨n, surroundings⟩ := tended.surroundings
  have tracks : b.engine.tracks = t.factory.tracks := tended.task.tracks.trans serves.tracks
  have ready : b.diagram.Ready t.factory.tracks := tracks ▸ ordered.graph.sound.fit.ready
  have later := warranted.generator.grown tended.diagram ready
  have generator : (setBench b s).generator =
      { s.generator with
        diagram := b.diagram
        surroundings := { s.generator.surroundings with limitedRuns := n } } := by
    rw [setBench, surroundings]
    rfl
  have upheld : Generator.Upheld t s.generator (setBench b s).generator := by
    rw [generator]
    exact ⟨later.warranted.recounted n, later.diagram, later.testCases, later.variability, later.leaves, later.resolved⟩
  refine ⟨⟨upheld.warranted, ⟨components, ?_⟩, tended.explains.trans warranted.explains, first, ordered⟩, upheld⟩
  exact ⟨tended.task.program.trans serves.program, tracks, tended.task.observers ▸ serves.watches, serves.goals⟩

theorem upholds_withEngine {m : Procedure Desk α}
    (h : s.Warranted t → ∀ first, Ordered first 0 s.bench → Moves anything (Tended 0) m s.bench) :
    Moves anything (Upholds t) (withEngine m) s := by
  apply upholds_of
  intro warranted
  obtain ⟨first, ordered⟩ := warranted.ordered
  exact (h warranted first ordered).within fun b tended _ => warranted.tended tended

theorem upholds_runEngine : Moves anything (Upholds t) (runEngine analysis fuel) s := by
  rw [runEngine, moves_get_bind]
  apply upholds_withEngine
  intro _ first ordered
  apply (runBounded_works ordered).mono (fun _ _ => trivial)
  intro b worked
  obtain ⟨n, worked⟩ := worked
  exact worked.tended

/-- After a run the engine has no counterexamples but those of that run. -/
theorem runEngine_explains (warranted : s.Warranted t) : Ensures anything (runEngine analysis fuel) s fun _ s' =>
    ∀ n ce, s'.engine.counterexamples.get? n = some ce → Explained s'.bench 0 n ce := by
  obtain ⟨first, ordered⟩ := warranted.ordered
  rw [runEngine, ensures_bind, ensures_get, withEngine, ensures_within]
  have works : Moves anything (fun b b' => ∃ n, Worked first 0 (b.counted n) b')
      (analysis.runBounded fuel s.generator.timeLimit) s.bench :=
    (runBounded_works ordered).mono (fun _ _ => trivial) fun _ worked => worked
  apply works.ensures.mono
  intro _ b worked
  obtain ⟨n, worked⟩ := worked
  exact worked.explained

/-- A harvest leaves the exploration as it is or consumes its targets. -/
theorem harvest_consumes {y : Exploration State} {counterexamples : IdMap Counterexample} {g : Generator.Explored} :
    Ensures anything (harvest batch counterexamples y) g fun found _ =>
      found.reached = y ∨ y.consume y.targets = .ok found.reached := by
  have rest : ∀ g₁ : Generator.Explored, Ensures anything (do
      let created := (← get).suite.testCases.length - g.suite.testCases.length
      let reached ← attempt fun g : Generator.Explored => return (← y.consume y.targets, g)
      return (⟨y.targets.length, created, reached⟩ : Harvest State)) g₁ fun found _ =>
        found.reached = y ∨ y.consume y.targets = .ok found.reached := by
    intro g₁
    rw [ensures_bind, ensures_get, ensures_bind, ensures_attempt_iff]
    intro z g₂ ok
    obtain ⟨z', consumed, same⟩ := Except.bind_eq_ok.1 ok
    cases same
    exact .inr consumed
  rw [harvest]
  dsimp only
  split
  next => exact .inl rfl
  next =>
    rw [ensures_bind, ensures_get]
    split
    next =>
      rw [ensures_bind, ensures_anything_iff]
      exact fun _ g₁ _ => rest g₁
    next =>
      rw [ensures_bind, ensures_anything_iff]
      exact fun _ g₁ _ => rest g₁

/-- After a harvest the exploration that it leaves is in order. -/
theorem Warranted.harvested {found : Harvest State} (harvested : withGenerator
    (harvest batch (analysis.counterexamples s.engine) s.reached) s = .ok found s') (warranted : s'.Warranted t) :
    Upholds t s' { s' with reached := found.reached } := by
  have consumes : Ensures anything (withGenerator (harvest batch (analysis.counterexamples s.engine) s.reached)) s
      fun found s' => s'.reached = s.reached ∧
        (found.reached = s.reached ∨ s.reached.consume s.reached.targets = .ok found.reached) := by
    rw [withGenerator, ensures_within]
    exact harvest_consumes.mono fun _ _ h => ⟨rfl, h⟩
  obtain ⟨same, consumed⟩ := consumes.of_eq_ok harvested
  rw [← same] at consumed
  obtain ⟨first, ordered⟩ := warranted.ordered
  have ordered' : Ordered first 0 { s'.bench with reached := found.reached } := by
    cases consumed with
    | inl still =>
      rw [still]
      exact ordered
    | inr consumed =>
      obtain ⟨z, ok, ordered'⟩ := ordered.consume
      cases ok.symm.trans consumed
      exact ordered'
  exact fun _ => ⟨⟨warranted.generator, warranted.serves, warranted.explains, first, ordered'.graph, ordered'.queue⟩,
    (refl s'.generator : Generator.Upholds t _ _) warranted.generator⟩

theorem upholds_restrict (known : s.Warranted t → s.generator.suite.variability = true ∧ s.generator.diagram.Has region) :
    Moves anything (Upholds t) (restrict analysis batch region) s := by
  apply upholds_of
  intro warranted
  obtain ⟨variability, has⟩ := known warranted
  have knows : Ensures anything (openRegions batch) s.generator fun opened g' =>
      g' = s.generator ∧ ∀ i r, opened.get? i = some r → s.generator.diagram.Has r :=
    openRegions_ensures_of warranted.generator.tidy variability fun opened holds => ⟨rfl, holds⟩
  have looked : Ensures anything (withGenerator (openRegions batch)) s fun opened s' =>
      s' = s ∧ ∀ i r, opened.get? i = some r → s.generator.diagram.Has r := by
    rw [withGenerator, ensures_within]
    apply knows.mono
    intro opened g' h
    obtain ⟨rfl, holds⟩ := h
    exact ⟨rfl, holds⟩
  rw [restrict]
  apply (upholds_withGenerator fun _ => upholds_openRegions).bind
  intro opened s₁ ok _
  obtain ⟨rfl, holds⟩ := looked.of_eq_ok ok
  apply upholds_withEngine
  intro _ first ordered
  exact restrict_tends ordered ⟨fun _ => has, fun _ i r here => holds i r here⟩

theorem upholds_narrow : Moves anything (Upholds t) (narrow analysis batch) s := by
  have sharpened : ∀ s : Explored, Moves anything (Upholds t) (do
      if (← get).generator.suite.variability then
        let region ← withGenerator (remainingRegion batch)
        restrict analysis batch region) s := by
    intro s
    apply upholds_of
    intro warranted
    rw [moves_get_bind]
    split
    next variability =>
      have remains : Ensures anything (withGenerator (remainingRegion batch)) s fun r s' =>
          s'.generator.diagram.Has r ∧ s'.generator.suite = s.generator.suite := by
        have develops : Ensures anything (remainingRegion batch) s.generator fun r g' =>
            s.generator.Records (fun _ => False) (fun _ => False) g' ∧ g'.diagram.Has r ∧ g'.suite = s.generator.suite :=
          remainingRegion_develops warranted.generator.tidy variability
        rw [withGenerator, ensures_within]
        exact develops.mono fun _ _ h => h.2
      apply (upholds_withGenerator fun _ => upholds_remainingRegion variability).bind
      intro region s₁ ok _
      obtain ⟨has, suite⟩ := remains.of_eq_ok ok
      exact upholds_restrict fun _ => ⟨suite ▸ variability, has⟩
    next => exact moves_pure
  rw [narrow]
  apply (upholds_withGenerator fun _ => Moves.filterM fun _ _ _ _ => upholds_isResolved).bind
  intro resolved s₁ _ _
  split
  next =>
    apply Moves.bind _ fun _ s₂ _ _ => sharpened s₂
    exact upholds_withEngine fun _ first ordered => disable_tends ordered _
  next => exact sharpened s₁

section Turns

variable (manager : t.Managed) (crosses : t.Crosses)

include crosses

/-- A fresh exploration is in order. -/
theorem warranted_fresh {components : List Component} {g : Generator.Explored} {x : Explorer} {initial : State}
    (warranted : g.Warranted t) (serves : Serves t components x) (explains : x.explains = t.factory.explains)
    (known : x.tracks = true → ∀ o ∈ x.observers, o.Over g.diagram) (fit : x.Fit g.diagram)
    (starts : x.Initial g.diagram initial) :
    Warranted t { generator := g, engine := x, reached := .start initial } where
  generator := warranted
  serves := ⟨components, serves⟩
  explains := explains
  ordered := by
    have plain := starts.plain (not_accepts_starts serves.watches (serves.unfinished crosses))
    let b : Desk := { diagram := g.diagram, surroundings := g.surroundings, engine := x, reached := .start initial }
    exact ⟨initial, Ordered.fresh (b := b) known fit starts plain⟩

theorem upholds_renew : Moves anything (Upholds t) (renew analysis) s := by
  apply upholds_of
  intro warranted
  rw [renew, moves_get_bind]
  split
  next =>
    obtain ⟨components, serves⟩ := warranted.serves
    obtain ⟨first, ordered⟩ := warranted.ordered
    have fit : s.engine.Fit s.generator.diagram := ordered.graph.sound.fit
    have started : Ensures anything (withGenerator (onShared (analysis.initialState s.engine))) s fun initial s' =>
        s.engine.initialState s.generator.diagram = .ok initial s'.generator.diagram ∧ s'.engine = s.engine := by
      rw [withGenerator, ensures_within]
      exact starts_initialState.mono fun _ _ ok => ⟨ok, rfl⟩
    apply (upholds_withGenerator fun _ => upholds_onShared (serves.tracks ▸ initialState_grows fit)).bind
    intro initial s₁ ok upheld
    obtain ⟨started, same⟩ := started.of_eq_ok ok
    obtain ⟨ext, ready, starts⟩ := initial_of_eq_ok fit started
    have warranted₁ := (upheld warranted).warranted
    have fresh := warranted_fresh crosses warranted₁.generator serves warranted.explains
      (fun tracks o mem => (ordered.graph.known tracks o mem).extends ext) (fit.extends ext ready) starts
    rw [← same] at fresh
    exact moves_modify fun _ => ⟨fresh, (refl s₁.generator : Generator.Upholds t _ _) warranted₁.generator⟩
  next => exact moves_pure

include manager

/-- A harvest after a run, which has counterexamples of that run only. -/
theorem upholds_gather (explained : ∀ n ce, s.engine.counterexamples.get? n = some ce → Explained s.bench 0 n ce) :
    Moves anything (Upholds t)
      (withGenerator (harvest batch (analysis.counterexamples s.engine) s.reached)) s := by
  apply upholds_of
  intro warranted
  obtain ⟨components, serves⟩ := warranted.serves
  obtain ⟨first, ordered⟩ := warranted.ordered
  exact upholds_withGenerator fun _ =>
    upholds_harvest manager serves crosses (b := s.bench) ordered.graph.sound warranted.explains explained

theorem upholds_turn : Moves anything (Upholds t) (turn analysis fuel batch sound) s := by
  apply upholds_of
  intro warranted
  rw [turn, moves_get_bind]
  apply upholds_runEngine.bind
  intro outcome s₁ ran upheld
  have warranted₁ := (upheld warranted).warranted
  have explained := (runEngine_explains warranted).of_eq_ok ran
  split
  next => exact moves_pure
  next =>
    rw [moves_get_bind]
    apply (upholds_gather manager crosses explained).bind
    intro found s₂ harvested upheld₂
    apply (moves_modify (Warranted.harvested harvested (upheld₂ warranted₁).warranted)).bind
    intro _ s₃ _ _
    split
    next => exact moves_pure
    next =>
      apply (upholds_withGenerator fun _ => upholds_isDone).bind
      intro done s₄ _ _
      split
      next => exact moves_pure
      next =>
        rw [moves_get_bind]
        split
        next => exact moves_pure
        next =>
          apply (upholds_renew crosses).bind
          intro _ s₅ _ _
          exact upholds_narrow.bind fun _ _ _ _ => moves_pure

theorem upholds_explore : Moves anything (Upholds t) (explore analysis fuel batch) s :=
  Moves.repeatUntil trivial (fun _ _ _ => upholds_turn manager crosses) fuel true

end Turns

end Session

end GoalCoverage
