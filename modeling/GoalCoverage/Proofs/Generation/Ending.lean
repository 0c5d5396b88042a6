import GoalCoverage.Proofs.Driver.Guarantee
import GoalCoverage.Proofs.Explorer.Bound
import GoalCoverage.Proofs.Generation.Witness
import GoalCoverage.Proofs.Suite.Openings
import Mathlib

/-!
Generation ends if the explorer has a bound on its nodes, there is no limit, and the graph is kept from run to run
(`generate_ends`). A turn of a search makes a test case, and then less is open; or it leaves less to explore. Without the
graph of the run before, the second of these is no progress, and a generation may go on for ever (`exhausted_line`).
-/

namespace GoalCoverage

open Procedure Diagram

namespace Explorer

variable {b b' : Desk} {k : Nat}

theorem changeReached_spends {f : Exploration State → Exploration State} (graph : (f b.reached).graph = b.reached.graph)
    (waiting : (f b.reached).waiting.length ≤ b.reached.waiting.length) : Moves violation (Spends k) (changeReached f) b := by
  refine moves_modify ⟨⟨rfl, rfl, rfl, ?_⟩, fun more => ?_, fun _ => waiting⟩
  · simp only [graph, Nat.le_refl]
  · simp only [graph] at more
    exact absurd more (Nat.lt_irrefl _)

theorem disable_spends (goals : IdSet) : Moves violation (Spends k) (analysis.disable goals) b :=
  changeReached_spends (f := fun x => x.disable goals.toList) rfl (Nat.le_refl _)

/-- Only nodes that are relevant go on waiting. -/
theorem restrict_spends (constraint : Region) (opened : IdMap Region) :
    Moves violation (Spends k) (restrict constraint opened) b := by
  rw [restrict]
  apply (moves_modify ⟨⟨rfl, rfl, rfl, Nat.le_refl _⟩, fun more => absurd more (Nat.lt_irrefl _), fun _ => Nat.le_refl _⟩).bind
  intro _ b₁ _ _
  rw [moves_get_bind]
  split
  next =>
    have kept : ∀ n b₂, Moves violation (Spends k) (do
        let s ← onReached fun x => return (← x.graph.state n, x)
        return if ← onDiagram (b₁.engine.isRelevant s) then some n else none) b₂ := by
      intro n b₂
      have looked : Moves violation (Spends k) (onReached fun x => return (← x.graph.state n, x)) b₂ := by
        apply moves_onReached (refl b₂)
        intro s y ok
        obtain ⟨_, _, same⟩ := Except.bind_eq_ok.1 ok
        cases same
        exact refl b₂
      apply looked.bind
      intro s b₃ _ _
      have tested : Moves violation (Spends k) (onDiagram (b₁.engine.isRelevant s)) b₃ :=
        ⟨⟨⟨rfl, rfl, isRelevant_stable b₃.diagram, Nat.le_refl _⟩, fun more => absurd more (Nat.lt_irrefl _), fun _ => Nat.le_refl _⟩,
          trivial⟩
      exact tested.bind fun _ _ _ _ => moves_pure
    have filtered : Moves violation (Spends k) (b₁.reached.waiting.filterMapM fun n => do
        let s ← onReached fun x => return (← x.graph.state n, x)
        return if ← onDiagram (b₁.engine.isRelevant s) then some n else none) b₁ := Moves.filterMapM fun n _ b₂ _ => kept n b₂
    have fewer : Ensures anything (b₁.reached.waiting.filterMapM fun n => do
        let s ← onReached fun x => return (← x.graph.state n, x)
        return if ← onDiagram (b₁.engine.isRelevant s) then some n else none) b₁ fun l _ =>
          l.length ≤ b₁.reached.waiting.length := by
      apply Ensures.filterMapM (I := fun done out _ => out.length ≤ done.length) _ (Nat.le_refl 0)
      intro n done out b₂ _ shorter
      rw [ensures_anything_iff]
      intro o b₃ _
      rw [List.length_append, List.length_append]
      have one : o.toList.length ≤ 1 := by cases o <;> simp
      exact Nat.add_le_add shorter one
    apply filtered.bind_of
    intro l b₂ out moved
    refine moves_modify ⟨⟨moved.maxNodes, moved.surroundings, moved.features, moved.live⟩, moved.room, fun _ => ?_⟩
    exact fewer.of_eq_ok out
  next => exact moves_pure

/-- A run without limit under a bound does not time out, and if it is sound it has emptied the queue or got on. -/
theorem runBounded_ends (bound : b.engine.maxNodes = some k) :
    Ends lasting (fun fuel => analysis.runBounded fuel none) b fun outcome b' => Spends k b b' ∧ outcome ≠ .timedOut ∧
      (outcome = .sound → b'.reached.waiting = [] ∨ effort k b'.reached < effort k b.reached) := by
  obtain ⟨n, r, stable, holds⟩ := run_ends bound
  have runs : ∀ fuel, n ≤ fuel → analysis.run fuel none b = r := stable
  rcases r with ⟨ending, b'⟩ | ⟨e, b'⟩
  · refine ⟨n, .ok (.ofVerdict ending.verdict) b', fun fuel enough => ?_, ?_⟩
    · simp [Analysis.runBounded, runs fuel enough]
    · obtain ⟨spends, stops⟩ := holds
      cases verdict : ending.verdict with
      | sound => exact ⟨spends, by simp [Outcome.ofVerdict], fun _ => stops.sound verdict⟩
      | unsound => exact ⟨spends, by simp [Outcome.ofVerdict], by simp [Outcome.ofVerdict]⟩
  · obtain ⟨v, rfl⟩ := holds
    refine ⟨n, .error (.violated v) b', fun fuel enough => ?_, ?_⟩
    · simp [Analysis.runBounded, runs fuel enough]
    · simp [Ensures, lasting]

/-- An exploration that is in order at `b` still is at `b'`, and the diagram has only grown. -/
def Orders (b b' : Desk) : Prop := ∀ first, InOrder first b →
  InOrder first b' ∧ b'.engine.tracks = b.engine.tracks ∧ b.diagram.Extends b'.diagram

theorem runBounded_orders (fuel : Nat) : Ensures anything (analysis.runBounded fuel none) b fun _ b' => Orders b b' := by
  rw [ensures_anything_iff]
  intro outcome b' ok first order
  have ran := order.ran fuel none
  have same : analysis.run fuel none b = run fuel none b := rfl
  simp only [Analysis.runBounded, same] at ok
  rw [Ensures] at ran
  rcases out : run fuel none b with ⟨ending, b''⟩ | ⟨e, b''⟩
  · rw [out] at ran ok
    obtain ⟨_, rfl⟩ : _ ∧ b'' = b' := by simpa using ok
    exact ⟨ran.1, ran.2.1.tracks, ran.2.2⟩
  · rw [out] at ran ok
    cases (ran : e = .exhausted)
    cases ok

theorem disable_orders (goals : IdSet) : Ensures anything (analysis.disable goals) b fun _ b' => Orders b b' :=
  fun _ order => ⟨order.disabled goals.toList, rfl, .refl _⟩

theorem restrict_orders_of {constraint : Region} {opened : IdMap Region} (has : b.diagram.Has constraint)
    (known : ∀ i r, opened.get? i = some r → b.diagram.Has r) :
    Ensures anything (analysis.restrict constraint opened) b fun _ b' => Orders b b' := by
  rw [ensures_anything_iff]
  intro _ b' ok first order
  obtain ⟨order', engine, ext⟩ := (order.restricted ⟨fun _ => has, fun _ => known⟩).of_eq_ok ok
  refine ⟨order', ?_, ext⟩
  rw [engine]

variable {observers : List Observer} {region : Option Region} {precision : Option IdSet} {p : Diagram × ExplorerFactory}

theorem compose_lasts : Moves lasting (fun p q => q.1.features = p.1.features ∧ q.2 = p.2)
    (analysis.compose observers region precision) p := by
  rw [analysis, moves_get_bind]
  dsimp only
  split
  next => exact ⟨⟨rfl, rfl⟩, trivial⟩
  next => exact ⟨⟨rfl, rfl⟩, by simp [lasting]⟩

theorem initialState_lasts {x : Explorer} : Moves lasting (fun p q => q.1.features = p.1.features ∧ q.2 = p.2)
    (analysis.initialState x) p := by
  have features : (x.accepted (Observer.starts x.observers) (if x.tracks then some (x.constraint.getD .all) else none) ∅
      p.1).2.features = p.1.features := accepted_stable _ p.1
  have started : Moves lasting (fun d d' => d'.features = d.features) x.initialState p.1 := by
    rw [Moves, Ensures]
    simp only [finish, initialState]
    cases x.program.entry with
    | ok entry => exact ⟨features, trivial⟩
    | error v =>
      have broken : lasting (.violated v) := by simp [lasting]
      exact ⟨features, broken⟩
  exact started.within fun _ same => ⟨same, rfl⟩

end Explorer

namespace Generator

variable {F P : Type} {g g' g'' : Generator F P} {covers excludes : Nat → Prop}

/-- `g'` comes after `g`, whatever was settled in between. -/
def Furthers (g g' : Generator F P) : Prop := g.Develops (fun _ => True) (fun _ => True) g'

theorem Develops.furthers (develops : g.Develops covers excludes g') : g.Furthers g' :=
  develops.mono (fun _ _ => trivial) fun _ _ => trivial

theorem Furthers.trans (first : g.Furthers g') (second : g'.Furthers g'') : g.Furthers g'' := Develops.trans first second

end Generator

namespace Session

open Explorer

variable {k : Nat} {s s' s'' s₁ s₂ s₃ : Explored} {batch : List Nat} {sound : Bool} {α : Type} {region : Region}
  {covers excludes : Nat → Prop}

section Regions

/-- A session in which all regions belong to the diagram, if configurations are tracked. -/
structure Equipped (s : Explored) : Prop where
  tidy : s.generator.Tidy
  order : s.generator.suite.variability = true → s.engine.tracks = true ∧ ∃ first, InOrder first s.bench

/-- `s'` comes after `s`, and is equipped for what is next. -/
structure Furthers (s s' : Explored) : Prop where
  equipped : s'.Equipped
  generator : s.generator.Furthers s'.generator

theorem Furthers.trans (first : s.Furthers s') (second : s'.Furthers s'') : s.Furthers s'' :=
  ⟨second.equipped, first.generator.trans second.generator⟩

namespace Equipped

variable (equipped : s.Equipped)

include equipped

theorem furthers : s.Furthers s := ⟨equipped, (Generator.Develops.refl equipped.tidy : s.generator.Develops _ _ _)⟩

theorem owns : s.generator.Owns s.reached := by
  intro tracks n v here
  obtain ⟨_, first, order⟩ := equipped.order tracks
  exact order.knows here

/-- The generator keeps records. -/
theorem recorded {g : Generator.Explored} (develops : s.generator.Develops covers excludes g) :
    s.Furthers { s with generator := g } := by
  refine ⟨⟨develops.tidy, fun tracks => ?_⟩, develops.furthers⟩
  have tracked := develops.suite.variability.symm.trans tracks
  obtain ⟨tracks', first, order⟩ := equipped.order tracked
  exact ⟨tracks', first, order.extends (develops.suite.grows tracked) fun _ => develops.tidy.drawn.ready tracks⟩

/-- The engine works. -/
theorem worked {b : Desk} (orders : s.generator.suite.variability = true → Orders s.bench b) : s.Furthers (setBench b s) := by
  have later : s.generator.suite.variability = true → ∃ first, InOrder first b ∧ b.engine.tracks = true ∧
      s.generator.diagram.Extends b.diagram := by
    intro tracks
    obtain ⟨tracks', first, order⟩ := equipped.order tracks
    obtain ⟨order', same, ext⟩ := orders tracks first order
    exact ⟨first, order', same.trans tracks', ext⟩
  have grown : s.generator.Records (fun _ => True) (fun _ => True) { s.generator with diagram := b.diagram } := by
    apply equipped.tidy.grows
    · intro tracks
      obtain ⟨_, _, _, ext⟩ := later tracks
      exact ext
    · intro tracks
      obtain ⟨_, order', tracks', _⟩ := later tracks
      exact order'.fit.ready tracks'
  have tidy : (setBench b s).generator.Tidy := ⟨grown.tidy.drawn, grown.tidy.presence⟩
  refine ⟨⟨tidy, fun tracks => ?_⟩, tidy, grown.suite, rfl, rfl, rfl⟩
  obtain ⟨first, order', tracks', _⟩ := later tracks
  exact ⟨tracks', first, order'⟩

theorem ensures_withGenerator {m : Procedure Generator.Explored α} {R : α → Generator.Explored → Prop}
    (h : Ensures anything m s.generator fun a g => s.generator.Develops covers excludes g ∧ R a g) :
    Ensures anything (withGenerator m) s fun a (s' : Explored) => s.Furthers s' ∧ R a s'.generator := by
  rw [withGenerator, ensures_within]
  exact h.mono fun a g h => ⟨equipped.recorded h.1, h.2⟩

theorem ensures_withEngine {m : Procedure Desk α}
    (h : s.generator.suite.variability = true → Ensures anything m s.bench fun _ b => Orders s.bench b) :
    Ensures anything (withEngine m) s fun _ (s' : Explored) => s.Furthers s' ∧ s'.generator.suite = s.generator.suite := by
  rw [withEngine, ensures_within, ensures_anything_iff]
  exact fun _ b ok => ⟨equipped.worked fun tracks => (h tracks).of_eq_ok ok, rfl⟩

theorem restrict (tracks : s.generator.suite.variability = true) (has : s.generator.diagram.Has region) :
    Ensures anything (restrict analysis batch region) s fun _ s' => s.Furthers s' := by
  have opened : Ensures anything (Generator.openRegions batch) s.generator fun opened g =>
      s.generator.Develops (fun _ => True) (fun _ => True) g ∧ g = s.generator ∧
        ∀ i r, opened.get? i = some r → g.diagram.Has r :=
    Generator.openRegions_ensures_of equipped.tidy tracks fun _ known => ⟨.refl equipped.tidy, rfl, known⟩
  rw [Session.restrict, ensures_bind]
  apply (equipped.ensures_withGenerator opened).mono
  intro opened s₁ h
  obtain ⟨furthers, same, known⟩ := h
  have has₁ : s₁.bench.diagram.Has region := by
    rw [bench, same]
    exact has
  apply (furthers.equipped.ensures_withEngine fun _ => restrict_orders_of has₁ known).mono
  exact fun _ s₂ h => furthers.trans h.1

theorem narrow : Ensures anything (narrow analysis batch) s fun _ s' => s.Furthers s' := by
  -- the last part of narrowing, when goals are muted already
  have sharpened : ∀ s₁ : Explored, s.Furthers s₁ → Ensures anything (do
      if (← get).generator.suite.variability then
        let region ← withGenerator (Generator.remainingRegion batch)
        Session.restrict analysis batch region) s₁ fun _ s' => s.Furthers s' := by
    intro s₁ furthers
    rw [ensures_bind, ensures_get]
    split
    next tracks =>
      have remains : Ensures anything (Generator.remainingRegion batch) s₁.generator fun r g =>
          s₁.generator.Develops (fun _ => True) (fun _ => True) g ∧ g.diagram.Has r ∧ g.suite = s₁.generator.suite :=
        (Generator.remainingRegion_develops furthers.equipped.tidy tracks).mono fun _ _ h => ⟨h.1.toDevelops, h.2⟩
      rw [ensures_bind]
      apply (furthers.equipped.ensures_withGenerator remains).mono
      intro region s₂ h
      obtain ⟨more, has, suite⟩ := h
      apply (more.equipped.restrict (suite ▸ tracks) has).mono
      exact fun _ s₃ last => furthers.trans (more.trans last)
    next => exact furthers
  have looked : Ensures anything (batch.filterM Generator.isResolved) s.generator fun out g =>
      s.generator.Develops (fun _ => True) (fun _ => True) g ∧ out = batch.filter s.generator.suite.resolved := by
    have same : Ensures anything (batch.filterM Generator.isResolved) s.generator fun out g => g = s.generator ∧
        out = batch.filter s.generator.suite.resolved :=
      Ensures.filterM fun i _ => Generator.ensures_isResolved_of ⟨rfl, rfl⟩
    apply same.mono
    intro out g h
    obtain ⟨rfl, known⟩ := h
    exact ⟨.refl equipped.tidy, known⟩
  rw [Session.narrow, ensures_bind]
  apply (equipped.ensures_withGenerator looked).mono
  intro resolved s₁ h
  obtain ⟨furthers, _⟩ := h
  split
  next =>
    rw [ensures_bind]
    apply (furthers.equipped.ensures_withEngine fun _ => disable_orders _).mono
    exact fun _ s₂ h => sharpened s₂ (furthers.trans h.1)
  next => exact sharpened s₁ furthers

end Equipped

end Regions

/-- `s'` comes after `s` without new nodes and without more to explore. -/
structure Stays (k : Nat) (s s' : Explored) : Prop where
  keeps : s.generator.Keeps s'.generator
  maxNodes : s'.engine.maxNodes = s.engine.maxNodes
  effort : Explorer.effort k s'.reached ≤ Explorer.effort k s.reached

instance : IsPreorder Explored (Stays k) where
  refl s := ⟨refl s.generator, rfl, le_refl _⟩
  trans _ _ _ first second := ⟨IsTrans.trans _ _ _ first.keeps second.keeps, second.maxNodes.trans first.maxNodes,
    second.effort.trans first.effort⟩

theorem lasts_withGenerator {m : Procedure Generator.Explored α} (h : Moves lasting Generator.Keeps m s.generator) :
    Moves lasting (Stays k) (withGenerator m) s := h.within fun _ moved => ⟨moved, rfl, le_refl _⟩

theorem lasts_withEngine {m : Procedure Desk α} (h : Moves violation (Spends k) m s.bench) :
    Moves lasting (Stays k) (withEngine m) s := by
  have wider : Moves lasting (Spends k) m s.bench := by
    apply h.mono _ fun _ moved => moved
    intro e broken
    obtain ⟨v, rfl⟩ := broken
    simp [lasting]
  apply wider.within
  intro b moved
  exact ⟨⟨rfl, rfl, moved.surroundings, moved.features, rfl⟩, moved.maxNodes, moved.effort_le⟩

theorem lasts_restrict (region : Region) : Moves lasting (Stays k) (restrict analysis batch region) s :=
  (lasts_withGenerator Generator.lasts_openRegions).bind fun _ _ _ _ => lasts_withEngine (restrict_spends _ _)

theorem lasts_narrow : Moves lasting (Stays k) (narrow analysis batch) s := by
  have sharpened : ∀ s : Explored, Moves lasting (Stays k) (do
      if (← get).generator.suite.variability then
        let region ← withGenerator (Generator.remainingRegion batch)
        restrict analysis batch region) s := by
    intro s
    rw [moves_get_bind]
    split
    next => exact (lasts_withGenerator Generator.lasts_remainingRegion).bind fun region _ _ _ => lasts_restrict region
    next => exact moves_pure
  rw [narrow]
  apply (lasts_withGenerator (Moves.filterM fun _ _ _ _ => Generator.lasts_isResolved)).bind
  intro resolved s₁ _ _
  split
  next => exact (lasts_withEngine (disable_spends _)).bind fun _ s₂ _ _ => sharpened s₂
  next => exact sharpened s₁

/-- A session that has to end. -/
structure Bounded (k : Nat) (s : Explored) : Prop where
  maxNodes : s.engine.maxNodes = some k
  unlimited : s.generator.timeLimit = none
  reuses : s.generator.settings.reuseGraph = true

theorem Bounded.stays (bounded : s.Bounded k) (stays : Stays k s s') : s'.Bounded k where
  maxNodes := stays.maxNodes.trans bounded.maxNodes
  unlimited := stays.keeps.timeLimit.trans bounded.unlimited
  reuses := by
    rw [stays.keeps.settings]
    exact bounded.reuses

/-- How much is open of a batch. -/
noncomputable def openCount (batch : List Nat) (s : Explored) : Nat :=
  (s.generator.suite.openings s.generator.diagram batch).card

/-- What is open of a batch, and then what is left to explore. -/
noncomputable def todo (k : Nat) (batch : List Nat) (s : Explored) : Nat ×ₗ (Nat ×ₗ Nat) :=
  toLex (s.openCount batch, effort k s.reached)

theorem openCount_le (keeps : s.generator.Keeps s'.generator) (furthers : s.Furthers s') :
    s'.openCount batch ≤ s.openCount batch :=
  Finset.card_le_card (Suite.openings_subset keeps.features furthers.generator.suite.leaves)

theorem openCount_lt {found : Harvest State} (keeps : s.generator.Keeps s'.generator) (tidy : s.generator.Tidy)
    (gathers : s.generator.Gathers batch s.reached found s'.generator) (created : 0 < found.created) :
    s'.openCount batch < s.openCount batch := by
  obtain ⟨i, mem, c, open', closed⟩ := gathers.closes created
  exact Suite.card_openings_lt keeps.features gathers.suite.leaves tidy.drawn gathers.tidy.drawn mem open' closed

/-- There is less to do if less is open, or if no more is open and less is left to explore. -/
theorem todo_lt (less : s'.openCount batch < s.openCount batch ∨
    s'.openCount batch ≤ s.openCount batch ∧ effort k s'.reached < effort k s.reached) : s'.todo k batch < s.todo k batch := by
  rw [todo, todo, Prod.Lex.toLex_lt_toLex]
  rcases less with fewer | ⟨fewer, explored⟩
  · exact .inl fewer
  · exact (Nat.lt_or_eq_of_le fewer).imp_right fun same => ⟨same, explored⟩

/-- A run without limit. It leaves less to explore if it is sound and nodes still wait, or if the extent has changed. -/
structure Ran (k : Nat) (s : Explored) (outcome : Outcome) (s' : Explored) : Prop where
  stays : Stays k s s'
  timely : outcome ≠ .timedOut
  sound : outcome = .sound → s'.reached.waiting = [] ∨ effort k s'.reached < effort k s.reached
  moves : s'.extent ≠ s.extent → effort k s'.reached < effort k s.reached

theorem Ran.effort_lt {outcome : Outcome} (ran : Ran k s outcome s') (waits : s'.reached.waiting ≠ [])
    (goes : outcome = .unsound → s'.extent ≠ s.extent) : effort k s'.reached < effort k s.reached := by
  cases outcome with
  | sound => exact (ran.sound rfl).resolve_left waits
  | unsound => exact ran.moves (goes rfl)
  | timedOut => exact absurd rfl ran.timely

theorem runEngine_ends (bounded : s.Bounded k) :
    Ends lasting (runEngine analysis) s fun outcome s' => Ran k s outcome s' := by
  apply Ends.after (m := get) (P := fun a s' => a = s ∧ s' = s) ⟨rfl, rfl⟩
  intro a s' same
  obtain ⟨rfl, rfl⟩ := same
  rw [bounded.unlimited]
  apply Ends.within
  apply (runBounded_ends (b := s'.bench) bounded.maxNodes).mono
  intro outcome b' ran
  obtain ⟨spends, timely, goes⟩ := ran
  refine ⟨⟨⟨rfl, rfl, spends.surroundings, spends.features, rfl⟩, spends.maxNodes, spends.effort_le⟩, timely, goes,
    fun changed => ?_⟩
  apply spends.effort_lt
  by_contra same
  rw [not_or, not_not, not_not] at same
  exact changed (Prod.ext same.1 same.2)

theorem isDone_keeps {P : Bool → Explored → Prop} (holds : ∀ done, P done s) :
    Ensures lasting (withGenerator (Generator.isDone batch)) s P := by
  rw [withGenerator, ensures_within, Generator.isDone, Ensures, Generator.ask]
  cases s.generator.suite.areResolved batch with
  | ok done => exact holds done
  | error v => simp [lasting]

/-- A harvest leaves the part of the exploration that has no targets. -/
structure Harvested (batch : List Nat) (s : Explored) (found : Harvest State) (s' : Explored) : Prop where
  keeps : s.generator.Keeps s'.generator
  engine : s'.engine = s.engine
  reached : s'.reached = found.reached
  furthers : s.Furthers s'
  gathers : s.generator.Gathers batch s.reached found s'.generator

theorem Harvested.bounded {found : Harvest State} (harvested : Harvested batch s found s') (bounded : s.Bounded k) :
    s'.Bounded k where
  maxNodes := by
    rw [harvested.engine]
    exact bounded.maxNodes
  unlimited := harvested.keeps.timeLimit.trans bounded.unlimited
  reuses := by
    rw [harvested.keeps.settings]
    exact bounded.reuses

/-- If the harvest was not in vain and the search goes on, a test case was made, or less is left to explore. -/
theorem todo_lt_of_ran {outcome : Outcome} {found : Harvest State} (ran : Ran k s outcome s₁) (furthers₁ : s.Furthers s₁)
    (harvested : Harvested batch s₁ found s₂) (stays : Stays k s₂ s₃) (furthers₃ : s₂.Furthers s₃)
    (fruitful : 0 < found.targets → 0 < found.created) (waits : found.reached.waiting ≠ [])
    (moves : outcome = .unsound → found.targets = 0 → s₂.extent ≠ s.extent) : s₃.todo k batch < s.todo k batch := by
  have fewer₁ : s₁.openCount batch ≤ s.openCount batch := openCount_le ran.stays.keeps furthers₁
  have fewer₂ : s₂.openCount batch ≤ s₁.openCount batch := openCount_le harvested.keeps harvested.furthers
  have fewer₃ : s₃.openCount batch ≤ s₂.openCount batch := openCount_le stays.keeps furthers₃
  apply todo_lt
  by_cases idle : found.targets = 0
  · have same : s₂.reached = s₁.reached := harvested.reached.trans (harvested.gathers.idle idle)
    have less : effort k s₁.reached < effort k s.reached := by
      apply ran.effort_lt
      · rw [← same, harvested.reached]
        exact waits
      · intro unsound
        have changed := moves unsound idle
        rw [extent, same] at changed
        exact changed
    have later : effort k s₃.reached ≤ effort k s₂.reached := stays.effort
    rw [same] at later
    exact .inr ⟨by omega, lt_of_le_of_lt later less⟩
  · have less : s₂.openCount batch < s₁.openCount batch :=
      openCount_lt harvested.keeps furthers₁.equipped.tidy harvested.gathers (fruitful (by omega))
    exact .inl (by omega)

section Turns

variable (equipped : s.Equipped)

include equipped

/-- The harvest after a run. -/
theorem harvest_ends {counterexamples : IdMap Counterexample} :
    Ensures lasting (withGenerator (Generator.harvest batch counterexamples s.reached)) s fun found s' =>
      Harvested batch s found { s' with reached := found.reached } := by
  rw [withGenerator, ensures_within]
  apply ((Generator.lasts_harvest (R := Generator.Keeps)).ensures_and
    ((Generator.harvest_develops equipped.tidy equipped.owns).and harvest_consumes)).mono
  intro found g h
  obtain ⟨keeps, gathers, consumed⟩ := h
  have recorded := equipped.recorded gathers.toDevelops
  refine ⟨keeps, rfl, rfl, ⟨⟨recorded.equipped.tidy, fun tracks => ?_⟩, recorded.generator⟩, gathers⟩
  obtain ⟨tracks', first, order⟩ := recorded.equipped.order tracks
  refine ⟨tracks', first, ?_⟩
  cases consumed with
  | inl still =>
    rw [still]
    exact order
  | inr consumed =>
    obtain ⟨z, ok, order'⟩ := order.consumed
    cases ok.symm.trans consumed
    exact order'

variable (bounded : s.Bounded k)

include bounded

/-- The run at the beginning of a turn. -/
theorem running_ends : Ends lasting (runEngine analysis) s fun outcome s' => Ran k s outcome s' ∧ s.Furthers s' := by
  apply (runEngine_ends bounded).and
  intro fuel
  rw [runEngine, ensures_bind, ensures_get, bounded.unlimited]
  apply (equipped.ensures_withEngine fun _ => runBounded_orders fuel).mono
  exact fun _ s' h => h.1

/-- A turn that is not the last one leaves less to do. -/
theorem turn_ends : Ends lasting (fun fuel => turn analysis fuel batch sound) s fun out s' =>
    s.generator.Keeps s'.generator ∧ s'.Bounded k ∧ s.Furthers s' ∧
      (∀ sound', out = .inl sound' → s'.todo k batch < s.todo k batch) ∧
      ∀ finding, out = .inr finding → finding.outcome ≠ .timedOut := by
  unfold turn
  apply Ends.after (m := get) (P := fun a s' => a = s ∧ s' = s) ⟨rfl, rfl⟩
  intro a s₀ same
  obtain ⟨rfl, rfl⟩ := same
  apply (running_ends equipped bounded).bind
  intro outcome s₁ h
  obtain ⟨ran, furthers₁⟩ := h
  apply Ends.of_ensures
  rw [if_neg ran.timely, ensures_bind, ensures_get, ensures_bind]
  apply (harvest_ends furthers₁.equipped).mono
  intro found s₂ harvested
  rw [ensures_bind, ensures_modify]
  let s₃ : Explored := { s₂ with reached := found.reached }
  have keeps₃ : s₀.generator.Keeps s₃.generator := IsTrans.trans _ _ _ ran.stays.keeps harvested.keeps
  have bounded₃ : s₃.Bounded k := harvested.bounded (bounded.stays ran.stays)
  have furthers₃ : s₀.Furthers s₃ := furthers₁.trans harvested.furthers
  have last : ∀ finding : Finding, finding.outcome ≠ .timedOut → s₀.generator.Keeps s₃.generator ∧ s₃.Bounded k ∧
      s₀.Furthers s₃ ∧ (∀ sound', (Sum.inr finding : Bool ⊕ Finding) = .inl sound' → s₃.todo k batch < s₀.todo k batch) ∧
      ∀ finding', (Sum.inr finding : Bool ⊕ Finding) = .inr finding' → finding'.outcome ≠ .timedOut := by
    intro finding late
    refine ⟨keeps₃, bounded₃, furthers₃, by simp, fun finding' same => ?_⟩
    cases same
    exact late
  split
  next => exact last _ (by simp)
  next fruitful =>
    rw [ensures_bind]
    apply isDone_keeps
    intro done
    split
    next => exact last _ ran.timely
    next busy =>
      rw [ensures_bind, ensures_get]
      split
      next => exact last _ ran.timely
      next moving =>
        have reuses : ¬(!s₃.generator.settings.reuseGraph) = true := by
          rw [bounded₃.reuses]
          exact Bool.false_ne_true
        rw [ensures_bind, renew, ensures_bind, ensures_get, if_neg reuses, ensures_pure, ensures_bind]
        apply ((lasts_narrow (k := k)).ensures_and furthers₃.equipped.narrow).mono
        intro _ s₄ h
        obtain ⟨stays, furthers₄⟩ : Stays k s₃ s₄ ∧ s₃.Furthers s₄ := h
        refine ⟨IsTrans.trans _ _ _ keeps₃ stays.keeps, bounded₃.stays stays, furthers₃.trans furthers₄, fun sound' _ => ?_,
          fun finding same => by cases same⟩
        apply todo_lt_of_ran ran furthers₁ harvested stays furthers₄
        · simp only [Bool.and_eq_true, decide_eq_true_eq, beq_iff_eq] at fruitful
          omega
        · simp only [Bool.or_eq_true, List.isEmpty_iff, not_or] at busy
          exact busy.1
        · intro unsound idle still
          refine moving ?_
          simp [unsound, idle, ← still]

theorem explore_ends : Ends lasting (fun fuel => explore analysis fuel batch) s fun finding s' =>
    finding.outcome ≠ .timedOut ∧ s.generator.Keeps s'.generator ∧ s.Furthers s' := by
  have wf : WellFounded fun p q : Bool × Explored => p.2.todo k batch < q.2.todo k batch :=
    InvImage.wf (fun p : Bool × Explored => p.2.todo k batch) wellFounded_lt
  apply Ends.repeatUntil (I := fun _ s' => s.Furthers s' ∧ s.generator.Keeps s'.generator ∧ s'.Bounded k) wf _
    ⟨equipped.furthers, refl s.generator, bounded⟩
  intro sound s₁ holds
  obtain ⟨furthers₁, keeps₁, bounded₁⟩ := holds
  apply (turn_ends furthers₁.equipped bounded₁).mono
  intro out s₂ h
  obtain ⟨keeps₂, bounded₂, furthers₂, less, timely⟩ := h
  have furthers := furthers₁.trans furthers₂
  have keeps : s.generator.Keeps s₂.generator := IsTrans.trans _ _ _ keeps₁ keeps₂
  cases out with
  | inl sound' => exact ⟨⟨furthers, keeps, bounded₂⟩, less sound' rfl⟩
  | inr finding => exact ⟨timely finding rfl, keeps, furthers⟩

end Turns

end Session

/-- What is resolved is found to be resolved. -/
theorem Suite.isResolved_of_resolved {s : Suite} {i : Nat} (done : s.resolved i = true) : s.isResolved i = .ok true := by
  cases here : s.goals.get? i with
  | some γ => rw [isResolved_eq here, done]
  | none =>
    rw [resolved, here] at done
    rw [isResolved]
    split at done
    next => cases done
    next plain => rw [if_neg plain, done]

namespace Generator

open Explorer

variable {g g' g'' : Explored} {x : Explorer} {y : Exploration State} {c : Commission IdSet} {k : Nat}
  {batch queue : List Nat} {sound : Bool}

/-- A generator whose searches have to end. -/
structure Confined (k : Nat) (g : Explored) : Prop where
  maxNodes : g.surroundings.maxNodes = some k
  unlimited : g.timeLimit = none
  reuses : g.settings.reuseGraph = true

/-- A generator whose regions, and those of its goals and its program, belong to the diagram, if configurations are tracked. -/
structure Equipped (g : Explored) : Prop where
  tidy : g.Tidy
  program : g.suite.variability = true → g.surroundings.program.Over g.diagram
  guards : g.suite.variability = true → ∀ i γ, g.suite.goals.get? i = some γ →
    ∀ move ∈ γ.automaton.transitions, g.diagram.HasAll move.label.guards

/-- `g'` comes after `g`, and no goal timed out in between. -/
structure Nears (g g' : Explored) : Prop where
  keeps : g.Keeps g'
  furthers : g.Furthers g'

theorem Nears.trans (first : g.Nears g') (second : g'.Nears g'') : g.Nears g'' :=
  ⟨IsTrans.trans _ _ _ first.keeps second.keeps, first.furthers.trans second.furthers⟩

theorem Nears.resolved {i : Nat} (nears : g.Nears g') (equipped : g.Equipped) (done : g.suite.resolved i = true) :
    g'.suite.resolved i = true := nears.furthers.suite.resolved equipped.tidy.drawn done

theorem Equipped.still (equipped : g.Equipped) : g.Nears g := ⟨refl g, (Develops.refl equipped.tidy : g.Develops _ _ _)⟩

theorem Confined.nears (confined : g.Confined k) (nears : g.Nears g') : g'.Confined k where
  maxNodes := by
    rw [nears.keeps.surroundings]
    exact confined.maxNodes
  unlimited := nears.keeps.timeLimit.trans confined.unlimited
  reuses := by
    rw [nears.keeps.settings]
    exact confined.reuses

theorem Equipped.nears (equipped : g.Equipped) (nears : g.Nears g') : g'.Equipped where
  tidy := nears.furthers.tidy
  program tracks := by
    have tracked := nears.furthers.suite.variability.symm.trans tracks
    rw [nears.keeps.surroundings]
    exact (equipped.program tracked).extends (nears.furthers.suite.grows tracked)
  guards tracks i γ here move mem := by
    have tracked := nears.furthers.suite.variability.symm.trans tracks
    obtain ⟨γ₀, before, narrows⟩ := nears.furthers.suite.kept i γ here
    exact (equipped.guards tracked i γ₀ before move (narrows.same.automaton ▸ mem)).extends
      (nears.furthers.suite.grows tracked)

theorem nears_of {α : Type} {m : Procedure Explored α} {R : α → Explored → Prop} (lasts : Moves lasting Keeps m g)
    (furthers : Ensures anything m g fun a g' => g.Furthers g' ∧ R a g') :
    Ensures lasting m g fun a g' => g.Nears g' ∧ R a g' :=
  (lasts.ensures_and furthers).mono fun _ _ h => ⟨⟨h.1, h.2.1⟩, h.2.2⟩

theorem inSession_ends {α : Type} {m : Nat → Procedure Session.Explored α} {P : α × Explorer × Exploration State → Explored → Prop}
    (h : Ends lasting m { generator := g, engine := x, reached := y } fun a s => P (a, s.engine, s.reached) s.generator) :
    Ends lasting (fun fuel => inSession x y (m fuel)) g P := by
  obtain ⟨n, r, stable, holds⟩ := h
  cases r with
  | ok a s => exact ⟨n, .ok (a, s.engine, s.reached) s.generator, fun fuel enough => by simp only [inSession, stable fuel enough], holds⟩
  | error e s => exact ⟨n, .error e s.generator, fun fuel enough => by simp only [inSession, stable fuel enough], holds⟩

theorem inSession_of_error {α : Type} {m : Procedure Session.Explored α} {s s' : Session.Explored} {e : Failure}
    (failed : m s = .error e s') : inSession s.engine s.reached m s.generator = .error e s'.generator := by
  cases s
  simp only [inSession, failed]

theorem lasts_aim {s : Session.Explored} {region : Option Region} :
    Moves lasting (Session.Stays k) (aim analysis batch region) s := by
  cases region with
  | some r => exact Session.lasts_restrict r
  | none => exact moves_pure

/-- A search is for a region if configurations are tracked. -/
theorem commission_region : Ensures anything (commission batch) g fun c _ =>
    g.suite.variability = true → c.region.isSome = true := by
  rw [commission, ensures_bind]
  apply ensures_unresolved_of
  rw [ensures_bind]
  apply observers_watch.mono
  intro observers g₁ h
  obtain ⟨rfl, _⟩ := h
  rw [ensures_bind]
  apply drawAutomata_keeps.mono
  intro _ g₂ drawn
  obtain ⟨folder, rfl⟩ := drawn
  rw [ensures_bind, ensures_get]
  dsimp only
  split
  next =>
    rw [ensures_bind, ensures_map, ensures_anything_iff]
    exact fun _ _ _ _ => rfl
  next plain => exact fun tracks => absurd tracks plain

theorem closing_resolves {keeps : Bool} {finding : Session.Finding} (tidy : g.Tidy) (timely : finding.outcome ≠ .timedOut) :
    Ensures anything (closing analysis batch keeps finding x y) g fun f g' =>
      g.Furthers g' ∧ f = finding ∧ ∀ i ∈ batch, g'.suite.resolved i = true := by
  have rest : ∀ g₁ : Explored, g.Furthers g₁ → Ensures anything (do
      conclude batch finding.outcome
      drawGraphs batch y.graph
      return finding) g₁ fun f g' => g.Furthers g' ∧ f = finding ∧ ∀ i ∈ batch, g'.suite.resolved i = true := by
    intro g₁ furthers
    rw [ensures_bind]
    apply (conclude_resolves furthers.tidy timely).mono
    intro _ g₂ concluded
    obtain ⟨records, resolved⟩ := concluded
    rw [ensures_bind]
    apply drawGraphs_keeps.mono
    intro _ g₃ drawn
    obtain ⟨folder, rfl⟩ := drawn
    have whole := furthers.trans records.furthers
    exact ⟨⟨⟨whole.tidy.drawn, whole.tidy.presence⟩, whole.suite, whole.settings, whole.order, whole.timeouts⟩, rfl, resolved⟩
  rw [closing]
  split
  next =>
    rw [ensures_bind, ensures_modify]
    exact rest _ ⟨⟨tidy.drawn, tidy.presence⟩, .refl tidy.drawn, rfl, rfl, rfl⟩
  next => exact rest g (Develops.refl tidy)

/-- What is counted at the end does not matter to what is resolved. -/
theorem reporting_resolves {all : List Nat} {p : Progress} (tidy : g.Tidy) :
    Ensures anything (reporting all p) g fun _ g' => ∀ i, g.suite.resolved i = true → g'.suite.resolved i = true := by
  have counted : ∀ g₁ : Explored, (∀ i, g.suite.resolved i = true → g₁.suite.resolved i = true) → Ensures anything (do
      let g ← get
      let statistics ← onRegions g.suite.statistics
      return ({ sound := p.sound, processed := g.processed, rounds := p.rounds, statistics } : Report)) g₁
        fun _ g' => ∀ i, g.suite.resolved i = true → g'.suite.resolved i = true := by
    intro g₁ resolved
    rw [ensures_bind, ensures_get, ensures_bind, ensures_onRegions_iff]
    exact fun _ _ _ => resolved
  rw [reporting, ensures_bind, ensures_get]
  split
  next =>
    rw [ensures_bind]
    apply (replayQueue_develops tidy).mono
    exact fun _ g₁ records => counted g₁ fun i done => records.suite.resolved tidy.drawn done
  next => exact counted g fun _ done => done

section Process

variable (equipped : g.Equipped) (confined : g.Confined k)

include equipped

/-- An exploration that an engine of the generator starts is in order. -/
theorem Equipped.begins {components : List Component} {initial : State} {d : Diagram} (tracks : g.suite.variability = true)
    (restricted : c.region.isSome = true) (region : ∀ r, c.region = some r → g.diagram.Has r)
    (watches : Watches components c.observers)
    (members : ∀ comp ∈ components, ∃ γ, g.suite.goals.get? comp.goal = some γ ∧ γ.automaton = comp.automaton)
    (composed : compose g.surroundings c.observers c.region c.precision = .ok x)
    (started : x.initialState g.diagram = .ok initial d) : x.tracks = true ∧ g.diagram.Extends d ∧ d.WellFormed ∧
      InOrder initial { diagram := d, surroundings := g.surroundings, engine := x, reached := .start initial } := by
  have shape := compose_eq_ok composed
  have tracked : x.tracks = true := by
    rw [shape]
    exact tracks_of_compose composed restricted
  have fit : x.Fit g.diagram := by
    rw [shape]
    exact ⟨fun _ => equipped.tidy.drawn.ready tracks, fun _ => equipped.program tracks, fun _ => region, fun _ i => by simp⟩
  have known : x.tracks = true → ∀ o ∈ x.observers, o.Over g.diagram := by
    rw [shape]
    intro _ o mem
    apply watches.over _ mem
    intro comp here move there
    obtain ⟨γ, goal, automaton⟩ := members comp here
    exact equipped.guards tracks comp.goal γ goal move (automaton ▸ there)
  obtain ⟨_, ext, ready, order⟩ := inOrder_of_fresh fit known started
  exact ⟨tracked, ext, ready tracked, order⟩

include confined

theorem inquire_ends {components : List Component} (watches : Watches components c.observers)
    (members : ∀ comp ∈ components, ∃ γ, g.suite.goals.get? comp.goal = some γ ∧ γ.automaton = comp.automaton)
    (restricted : g.suite.variability = true → c.region.isSome = true)
    (region : ∀ r, c.region = some r → g.suite.variability = true ∧ g.diagram.Has r) :
    Ends lasting (fun fuel => inquire analysis fuel batch c) g fun r g' => r.1.outcome ≠ .timedOut ∧ g.Nears g' := by
  unfold inquire
  apply Ends.after ((lasts_onShared compose_lasts).ensures_and composes)
  intro x g₁ h
  obtain ⟨_, rfl, composed⟩ := h
  have started : Ensures anything (onShared (analysis.initialState x)) g₁ fun initial g' =>
      ∃ d, g' = { g₁ with diagram := d } ∧ x.initialState g₁.diagram = .ok initial d := by
    rw [onShared, ensures_within, analysis, ensures_within, ensures_anything_iff]
    exact fun _ d ok => ⟨d, rfl, ok⟩
  apply Ends.after ((lasts_onShared initialState_lasts).ensures_and started)
  intro initial g₂ h
  obtain ⟨keeps, d, rfl, started⟩ := h
  have begun : g₁.suite.variability = true → _ := fun tracks =>
    equipped.begins tracks (restricted tracks) (fun r same => (region r same).2) watches members composed started
  have grown : g₁.Records (fun _ => True) (fun _ => True) { g₁ with diagram := d } :=
    equipped.tidy.grows (fun tracks => (begun tracks).2.1) fun tracks => (begun tracks).2.2.1
  have nears : g₁.Nears { g₁ with diagram := d } := ⟨keeps, grown.toDevelops⟩
  let s : Session.Explored := { generator := { g₁ with diagram := d }, engine := x, reached := .start initial }
  have ready : s.Equipped := ⟨grown.tidy, fun tracks => ⟨(begun tracks).1, initial, (begun tracks).2.2.2⟩⟩
  have limit : x.maxNodes = some k := by
    rw [compose_eq_ok composed]
    exact confined.maxNodes
  have bounded : s.Bounded k := ⟨limit, (confined.nears nears).unlimited, (confined.nears nears).reuses⟩
  have aimed : Ensures anything (aim analysis batch c.region) s fun _ s' => s.Furthers s' := by
    cases same : c.region with
    | some r =>
      obtain ⟨tracks, has⟩ := region r same
      exact ready.restrict tracks ((begun tracks).2.1.has has)
    | none => exact ready.furthers
  apply inSession_ends
  simp only [seqRight_eq_bind]
  apply Ends.after ((lasts_aim (k := k)).ensures_and aimed)
  intro _ s₁ h
  obtain ⟨stays, furthers⟩ := h
  apply (Session.explore_ends furthers.equipped (bounded.stays stays)).mono
  intro finding s₂ h
  obtain ⟨timely, keeps', furthers'⟩ := h
  exact ⟨timely, nears.trans (Nears.trans ⟨stays.keeps, furthers.generator⟩ ⟨keeps', furthers'.generator⟩)⟩

theorem search_ends : Ends lasting (fun fuel => search analysis fuel batch) g fun finding g' =>
    g.Nears g' ∧ finding.outcome ≠ .timedOut ∧ ∀ i ∈ batch, g'.suite.resolved i = true := by
  simp only [search_eq_inquire]
  apply Ends.after ((lasts_commission (R := Keeps)).ensures_and ((commission_records equipped.tidy).and commission_region))
  intro c g₁ h
  obtain ⟨keeps₁, ⟨records, suite, region, _, components, watches, members⟩, restricted⟩ := h
  have nears₁ : g.Nears g₁ := ⟨keeps₁, records.toDevelops⟩
  rw [← suite] at region members restricted
  apply (inquire_ends (equipped.nears nears₁) (confined.nears nears₁) watches members restricted region).bind
  intro r g₂ h
  obtain ⟨finding, x, y⟩ := r
  obtain ⟨timely, nears₂⟩ := h
  apply Ends.of_ensures
  apply (nears_of (lasts_closing timely) (closing_resolves (equipped.nears (nears₁.trans nears₂)).tidy timely)).mono
  intro f g₃ h
  obtain ⟨nears₃, rfl, resolved⟩ := h
  exact ⟨nears₁.trans (nears₂.trans nears₃), timely, resolved⟩

/-- An attempt resolves the batch, and there is another one only if it was not resolved before. -/
theorem attemptBatch_ends : Ends lasting (fun fuel => attemptBatch analysis fuel batch sound) g fun r g' => g.Nears g' ∧
    (∀ i ∈ batch, g'.suite.resolved i = true) ∧ ((∀ i ∈ batch, g.suite.resolved i = true) → ∃ b, r = .inr b) := by
  simp only [attemptBatch_eq]
  have lacks : Ensures anything (lacking batch) g fun lacks g' => g.Furthers g' ∧
      (lacks = false → ∀ i ∈ batch, g'.suite.resolved i = true) ∧ ((∀ i ∈ batch, g.suite.resolved i = true) → lacks = false) :=
    (lacking_records equipped.tidy).mono fun _ _ h => ⟨h.1.furthers, h.2⟩
  apply Ends.after (nears_of lasts_lacking lacks)
  intro lacks g₁ h
  obtain ⟨nears₁, enough, idle⟩ := h
  cases lacks with
  | false => exact .of_ensures ⟨nears₁, enough rfl, fun _ => ⟨sound, rfl⟩⟩
  | true =>
    simp only [if_true]
    apply (search_ends (equipped.nears nears₁) (confined.nears nears₁)).bind
    intro finding g₂ h
    obtain ⟨nears₂, timely, resolved⟩ := h
    exact .of_ensures ⟨nears₁.trans nears₂, resolved, fun all => by cases idle all⟩

theorem processBatch_ends : Ends lasting (fun fuel => processBatch analysis fuel batch) g fun _ g' =>
    g.Nears g' ∧ ∀ i ∈ batch, g'.suite.resolved i = true := by
  simp only [processBatch_eq]
  have opened : Ensures anything (openBatch batch) g fun _ g' => g.Furthers g' := by
    apply (openBatch_records equipped.tidy).mono
    intro _ g' records
    exact ⟨records.tidy, records.furthers.suite, records.settings, records.order, records.timeouts⟩
  apply Ends.after (lasts_openBatch.ensures_and opened)
  intro _ g₁ h
  have nears₁ : g.Nears g₁ := ⟨h.1, h.2⟩
  -- There is a second attempt only if goals are left, and then none is left.
  have wf : WellFounded fun p q : Bool × Explored => (p.2.leftOf batch).length < (q.2.leftOf batch).length :=
    InvImage.wf (fun p : Bool × Explored => (p.2.leftOf batch).length) wellFounded_lt
  apply Ends.repeatUntil (I := fun _ g' => g.Nears g') wf _ nears₁
  intro sound g₂ nears₂
  apply (attemptBatch_ends (equipped.nears nears₂) (confined.nears nears₂)).mono
  intro r g₃ h
  obtain ⟨nears₃, resolved, last⟩ := h
  cases r with
  | inr b => exact ⟨nears₂.trans nears₃, resolved⟩
  | inl b =>
    refine ⟨nears₂.trans nears₃, ?_⟩
    dsimp only
    rw [leftOf_eq_nil resolved, List.length_nil, List.length_pos_iff]
    intro none
    have before : ∀ i ∈ batch, g₂.suite.resolved i = true := by
      intro i mem
      by_contra open'
      have left : i ∈ g₂.leftOf batch := List.mem_filter.2 ⟨mem, by simpa using open'⟩
      rw [none] at left
      cases left
    obtain ⟨b', same⟩ := last before
    cases same

theorem processQueue_ends : Ends lasting (fun fuel => processQueue analysis fuel queue) g fun _ g' =>
    g.Nears g' ∧ ∀ i ∈ queue, g'.suite.resolved i = true := by
  unfold processQueue
  apply Ends.after (m := get) (P := fun a g' => a = g ∧ g' = g) ⟨rfl, rfl⟩
  intro a g₁ same
  obtain ⟨rfl, rfl⟩ := same
  apply Ends.bind (P := fun _ g' => g₁.Nears g' ∧
    ∀ batch ∈ g₁.settings.batches queue, batch ∈ ([] : List (List Nat)) ∨ ∀ i ∈ batch, g'.suite.resolved i = true)
  · apply Ends.mapM (I := fun rest g' => g₁.Nears g' ∧
      ∀ batch ∈ g₁.settings.batches queue, batch ∈ rest ∨ ∀ i ∈ batch, g'.suite.resolved i = true)
    · intro batch rest g₂ h
      obtain ⟨nears₂, done⟩ := h
      have equipped₂ := equipped.nears nears₂
      apply (processBatch_ends equipped₂ (confined.nears nears₂)).mono
      intro _ g₃ h
      obtain ⟨nears₃, resolved⟩ := h
      refine ⟨nears₂.trans nears₃, fun other mem => ?_⟩
      cases done other mem with
      | inl waits =>
        cases waits with
        | head => exact .inr resolved
        | tail _ later => exact .inl later
      | inr before => exact .inr fun i here => nears₃.resolved equipped₂ (before i here)
    · exact ⟨equipped.still, fun batch mem => .inl mem⟩
  intro flags g₂ h
  obtain ⟨nears, done⟩ := h
  refine .of_ensures ⟨nears, fun i mem => ?_⟩
  obtain ⟨batch, there, here⟩ := Settings.exists_mem_batches (s := g₁.settings) mem
  exact (done batch there).resolve_left List.not_mem_nil i here

/-- The first round is the last one. -/
theorem round_ends {p : Progress} (timely : g.suite.timedOut = ∅) : Ends lasting (fun fuel => round analysis fuel p) g fun r g' =>
    g.Nears g' ∧ (∃ p', r = .inr p') ∧ ∀ i ∈ p.queue, g'.suite.resolved i = true := by
  unfold round
  apply (processQueue_ends equipped confined).bind
  intro sound g₁ h
  obtain ⟨nears, resolved⟩ := h
  apply Ends.of_ensures
  have once : ∀ rounds, g₁.retries rounds = false := by
    intro rounds
    rw [retries, nears.keeps.timedOut, timely]
    rfl
  rw [ensures_bind, ensures_get]
  simp only [once, Bool.false_eq_true, if_false]
  exact ⟨nears, ⟨_, rfl⟩, resolved⟩

theorem rounds_end (timely : g.suite.timedOut = ∅) : Ends lasting (fun fuel => generate analysis fuel) g fun _ g' =>
    (∀ i ∈ g.suite.goalIds, g'.suite.resolved i = true) ∧ g'.suite.timedOut = ∅ := by
  unfold generate
  apply Ends.after (m := get) (P := fun a g' => a = g ∧ g' = g) ⟨rfl, rfl⟩
  intro a g₁ same
  obtain ⟨rfl, rfl⟩ := same
  have processed : Ends lasting (fun fuel => repeatUntil (round analysis fuel) fuel
      { rounds := [], sound := true, queue := g₁.suite.goalIds }) g₁ fun _ g' =>
        g₁.Nears g' ∧ ∀ i ∈ g₁.suite.goalIds, g'.suite.resolved i = true := by
    apply Ends.repeatUntil (I := fun p g' => p.queue = g₁.suite.goalIds ∧ g' = g₁) emptyWf.wf _ ⟨rfl, rfl⟩
    intro p g₂ h
    obtain ⟨queue, rfl⟩ := h
    apply (round_ends equipped confined timely).mono
    intro r g₃ h
    obtain ⟨nears, ⟨p', rfl⟩, resolved⟩ := h
    exact ⟨nears, queue ▸ resolved⟩
  apply processed.bind
  intro p g₂ h
  obtain ⟨nears, resolved⟩ := h
  apply Ends.of_ensures
  apply ((lasts_reporting (R := Keeps)).ensures_and (reporting_resolves (equipped.nears nears).tidy)).mono
  intro report g₃ h
  obtain ⟨keeps, later⟩ := h
  exact ⟨fun i mem => later i (resolved i mem), keeps.timedOut.trans (nears.keeps.timedOut.trans timely)⟩

end Process

section Start

variable {settings : Settings} {managed : Bool} {diagram : Diagram} {factory : ExplorerFactory} {clock : Nat → Duration}
  {goals : List Goal}

theorem equipped_ofGoals (made : ofGoals settings factory.program goals managed diagram factory clock = .ok g)
    (supplied : settings.presenceConditions = true → Supplied factory goals diagram) : g.Equipped := by
  have parts := ofGoals_eq_ok made
  have variability : g.suite.variability = settings.presenceConditions := by
    obtain ⟨predictions, suite⟩ := Suite.addGoals_eq { variability := settings.presenceConditions } goals
    rw [parts, suite]
  refine ⟨tidy_ofGoals made (fun on => (supplied on).built.wellFormed) fun on => (supplied on).regions, fun tracks => ?_,
    fun tracks i γ here move mem => ?_⟩
  · rw [parts]
    exact (supplied (variability ▸ tracks)).program
  · rw [parts] at here ⊢
    obtain ⟨γ₀, known, _, rfl⟩ := Suite.of_get?_addGoals here
    exact (supplied (variability ▸ tracks)).guards γ₀ known move ((γ₀.sameAs_enlisted _).automaton ▸ mem)

end Start

section Gate

/-- With room for two nodes, runs are unsound. -/
def narrowFactory : ExplorerFactory := { gateFactory with maxNodes := some 2 }

def patientSettings : Settings := { presenceConditions := true }

def patientGenerator : Explored :=
  { gateGenerator with settings := patientSettings, surroundings := narrowFactory, timeLimit := none }

end Gate

section Line

/-- Two edges, one after the other. -/
def line : Program := .ofArrows 2 [(0, 1), (1, 2)]

def lineFactory : ExplorerFactory := { program := line, tracks := false, maxNodes := some 2, explains := true }

def lineSettings (reuses : Bool) : Settings := { reuseGraph := reuses }

def lineGenerator (reuses : Bool) : Explored :=
  { settings := lineSettings reuses
    program := line
    diagram := .fresh
    surroundings := lineFactory
    suite := Suite.addGoals { variability := false } [.forEdge 1 1 0 0]
    order := .ofList ([Goal.forEdge 1 1 0 0].mapIdx fun i γ => (γ.index, i))
    clock := fun _ => 0
    timeLimit := none }

/-- The session in which the goal is searched for. -/
def lineSession : Session.Explored :=
  { generator := { lineGenerator false with processed := 1 }
    engine :=
      { program := line
        tracks := false
        observers := [.powerset 1 (.reaching "G1" 1)]
        covering := line.joins
        constraint := none
        opened := ∅
        maxNodes := some 2
        explains := true
        counterexamples := ∅ }
    reached := .start { location := 0, observers := [.singleton 0], presence := none, accepted := ∅ } }

/-- Where every turn starts again, one leads to where it began. -/
theorem turn_lineSession (fuel : Nat) (sound : Bool) :
    Session.turn analysis (fuel + 3) [1] sound lineSession = .ok (.inl false) lineSession := by
  cases sound <;> cbv

theorem explore_lineSession (fuel : Nat) :
    Session.explore analysis (fuel + 3) [1] lineSession = .error .exhausted lineSession := by
  have turns : ∀ left sound, repeatUntil (Session.turn analysis (fuel + 3) [1]) left sound lineSession =
      .error .exhausted lineSession := by
    intro left
    induction left with
    | zero => exact fun _ => rfl
    | succ left ih =>
      intro sound
      rw [repeatUntil_of_inl (turn_lineSession fuel sound)]
      exact ih false
  exact turns _ true

theorem search_lineSession (fuel : Nat) :
    search analysis (fuel + 3) [1] lineSession.generator = .error .exhausted lineSession.generator := by
  have asked : commission [1] lineSession.generator = .ok ⟨lineSession.engine.observers, none, none, true⟩ lineSession.generator := by
    cbv
  have composed : onShared (analysis.compose lineSession.engine.observers none none) lineSession.generator =
      .ok lineSession.engine lineSession.generator := by
    cbv
  have started : onShared (analysis.initialState lineSession.engine) lineSession.generator =
      .ok { location := 0, observers := [.singleton 0], presence := none, accepted := ∅ } lineSession.generator := by
    cbv
  have stuck : (aim analysis [1] none *> Session.explore analysis (fuel + 3) [1]) lineSession = .error .exhausted lineSession := by
    rw [seqRight_eq_bind, aim, pure_bind]
    exact explore_lineSession fuel
  rw [search_eq_inquire, bind_eq_of_ok asked]
  apply bind_eq_of_error
  rw [inquire, bind_eq_of_ok composed, bind_eq_of_ok started]
  exact inSession_of_error stuck

theorem processBatch_line (fuel : Nat) :
    processBatch analysis (fuel + 3) [1] (lineGenerator false) = .error .exhausted lineSession.generator := by
  have opened : openBatch [1] (lineGenerator false) = .ok ⟨⟩ lineSession.generator := by cbv
  have lacks : lacking [1] lineSession.generator = .ok true lineSession.generator := by cbv
  rw [processBatch_eq, bind_eq_of_ok opened]
  apply repeatUntil_of_error
  rw [attemptBatch_eq, bind_eq_of_ok lacks, if_pos rfl]
  exact bind_eq_of_error (search_lineSession fuel)

/-- With the graph of the run before, the same generation ends. -/
example : succeeds (generate analysis 9) (lineGenerator true) = true := by decide +kernel

end Line

end Generator

end GoalCoverage
