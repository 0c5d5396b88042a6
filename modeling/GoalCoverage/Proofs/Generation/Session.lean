import GoalCoverage.Generation.Search
import GoalCoverage.Proofs.Generation.Harvest

/-!
Sessions: a generator at work with an engine. Between runs the engine is restricted to what is open, so every
target shows an open goal, and when nothing waits the goals that are left are infeasible (`explore_ensures`).
-/

namespace GoalCoverage

open Procedure Diagram StateGraph Explorer

namespace Generator

variable {t : Task} {interest : Nat → Prop} {feasible : Nat → Configuration → Prop} {g g' : Explored}
  {T : Failure → Prop} {i : Nat} {c : Configuration} {γ : Goal} {x : Explorer} {batch : List Nat}

/-- A region of what is open in a batch. -/
structure Remains (g : Explored) (batch : List Nat) (r : Region) : Prop where
  known : g.diagram.Has r
  holds : ∀ c, g.diagram.holds r c = true ↔ ∃ i ∈ batch, g.suite.Leaves g.diagram i c

/-- For each goal of a batch the region for which it is open. -/
structure Opened (g : Explored) (batch : List Nat) (opened : IdMap Region) : Prop where
  known : ∀ i r, opened.get? i = some r → i ∈ batch ∧ g.diagram.Has r ∧
    ∀ c, g.diagram.holds r c = true ↔ g.suite.Leaves g.diagram i c
  total : ∀ i ∈ batch, ∃ r, opened.get? i = some r

theorem leaves_of_tracks (tracks : g.suite.variability = true) (now : g.suite.goals.get? i = some γ) :
    g.suite.Leaves g.diagram i c ↔ g.diagram.holds γ.openRegion c = true := by
  simp [Suite.Leaves, tracks, now]

theorem remainingRegion_ensures (good : Good t interest feasible g) (tracks : g.suite.variability = true)
    (known : ∀ i ∈ batch, ∃ γ, g.suite.goals.get? i = some γ) :
    Ensures T (remainingRegion batch) g fun r g' => Later t interest feasible g g' ∧ g'.suite = g.suite ∧
      Remains g' batch r := by
  rw [remainingRegion, ensures_bind]
  have found : Ensures T (batch.mapM goal) g fun goals g' => g' = g ∧
      List.Forall₂ (fun i γ => g.suite.goals.get? i = some γ) batch goals := by
    apply Ensures.lookups
    intro i mem
    obtain ⟨γ, now⟩ := known i mem
    rw [ensures_goal now]
    exact ⟨rfl, now⟩
  apply found.mono
  intro goals g' h
  obtain ⟨same, lookup⟩ := h
  rw [same]
  have wf := good.ready (good.variability.symm.trans tracks)
  have regions : ∀ r, r ∈ goals.filterMap (·.remaining) ↔ ∃ i ∈ batch, ∃ γ, g.suite.goals.get? i = some γ ∧
      γ.remaining = some r := by
    intro r
    rw [List.mem_filterMap]
    constructor
    · intro h
      obtain ⟨γ, mem, left⟩ := h
      obtain ⟨i, here, now⟩ := exists_of_forall₂_right lookup mem
      exact ⟨i, here, γ, now, left⟩
    · intro h
      obtain ⟨i, mem, γ, now, left⟩ := h
      obtain ⟨γ', here, now'⟩ := exists_of_forall₂_right lookup.flip mem
      rw [now] at now'
      cases now'
      exact ⟨γ, here, left⟩
  have has : ∀ r ∈ goals.filterMap (·.remaining), g.diagram.Has r := by
    intro r mem
    obtain ⟨i, _, γ, now, left⟩ := (regions r).1 mem
    obtain ⟨r', left', has⟩ := good.sane.remaining tracks i γ now
    rw [left] at left'
    cases left'
    exact has
  apply ensures_onRegions (joinAll_yields wf has).delivers
  intro r d' ext ready spec
  refine ⟨good.grown ext fun _ => ready rfl, rfl, spec.1, fun c => ?_⟩
  rw [spec.2]
  constructor
  · intro h
    obtain ⟨f, mem, holds⟩ := h
    obtain ⟨i, here, γ, now, left⟩ := (regions f).1 mem
    refine ⟨i, here, (good.sane.leaves_iff good.ready' ext).2 ((leaves_of_tracks tracks now).2 ?_)⟩
    rwa [Goal.openRegion, left]
  · intro h
    obtain ⟨i, mem, leaves⟩ := h
    obtain ⟨γ, now⟩ := known i mem
    obtain ⟨r', left, _⟩ := good.sane.remaining tracks i γ now
    have holds := (leaves_of_tracks tracks now).1 ((good.sane.leaves_iff good.ready' ext).1 leaves)
    rw [Goal.openRegion, left] at holds
    exact ⟨r', (regions r').2 ⟨i, mem, γ, now, left⟩, holds⟩

theorem openRegions_ensures (good : Good t interest feasible g) (tracks : g.suite.variability = true)
    (known : ∀ i ∈ batch, ∃ γ, g.suite.goals.get? i = some γ) :
    Ensures T (openRegions batch) g fun opened g' => g' = g ∧ Opened g batch opened := by
  rw [openRegions, ensures_bind]
  have wf := good.ready (good.variability.symm.trans tracks)
  have entries : Ensures T (batch.mapM fun i => do
      let known ← goal i
      return (i, if ← isResolved i then .empty else known.openRegion)) g fun entries g' => g' = g ∧
        List.Forall₂ (fun i entry => entry.1 = i ∧ g.diagram.Has entry.2 ∧
          ∀ c, g.diagram.holds entry.2 c = true ↔ g.suite.Leaves g.diagram i c) batch entries := by
    apply Ensures.lookups
    intro i mem
    obtain ⟨γ, now⟩ := known i mem
    obtain ⟨r, left, has⟩ := good.sane.remaining tracks i γ now
    rw [ensures_bind, ensures_goal now, ensures_bind, ensures_isResolved now]
    refine ⟨rfl, rfl, ?_⟩
    split
    next resolved =>
      have none := (good.sane.resolved_iff good.ready' now).1 resolved
      exact ⟨wf.has_empty, fun c => by simp [none c]⟩
    next =>
      have region : γ.openRegion = r := by rw [Goal.openRegion, left, Option.getD_some]
      refine ⟨region ▸ has, fun c => ?_⟩
      rw [leaves_of_tracks tracks now]
  apply entries.mono
  intro entries g' h
  obtain ⟨same, lookup⟩ := h
  rw [same]
  refine ⟨rfl, fun i r found => ?_, fun i mem => ?_⟩
  · obtain ⟨j, mem, is_j, spec⟩ := exists_of_forall₂_right lookup (IdMap.mem_of_get?_ofList found)
    have is_j : i = j := is_j
    exact ⟨is_j ▸ mem, is_j ▸ spec⟩
  · obtain ⟨entry, here, is_i, _⟩ := exists_of_forall₂_right lookup.flip mem
    exact is_i ▸ IdMap.exists_get?_ofList here

/-- An engine looks wherever a goal of the batch is open. -/
structure Aimed (batch : List Nat) (g : Explored) (x : Explorer) : Prop where
  admits : ∀ i ∈ batch, ∀ c, g.suite.Leaves g.diagram i c → x.Admits g.diagram c
  opens : ∀ i ∈ batch, ∀ c, g.suite.Leaves g.diagram i c → x.Opens g.diagram i c
  rest : ∀ i r, x.opened.get? i = some r → i ∈ batch

theorem Aimed.later (aimed : Aimed batch g x) (fit : x.Fit g.diagram) (later : Later t interest feasible g g') :
    Aimed batch g' x where
  admits i mem c leaves := (fit.admits_iff later.diagram).2 (aimed.admits i mem c (later.leaves i c leaves))
  opens i mem c leaves := (fit.opens_iff later.diagram).2 (aimed.opens i mem c (later.leaves i c leaves))
  rest := aimed.rest

/-- The engine's components stand for the goals of a batch that are open. -/
structure Enlists (t : Task) (batch : List Nat) (g : Explored) (components : List Component) : Prop where
  members : ∀ comp ∈ components, comp.goal ∈ batch ∧
    ∃ γ, t.goals.get? comp.goal = some γ ∧ γ.automaton = comp.automaton
  all : ∀ i ∈ batch, g.suite.resolved i = false → ∃ comp ∈ components, comp.goal = i

end Generator

namespace Session

open Generator

abbrev Explored := Session ExplorerFactory Explorer State IdSet

variable {t : Task} {interest : Nat → Prop} {feasible : Nat → Configuration → Prop} {g g₀ : Generator.Explored}
  {T : Failure → Prop} {i : Nat} {c : Configuration} {γ : Goal} {batch : List Nat} {components : List Component}
  {s s' : Explored} {fuel : Nat} {b : Desk}

/-- A session whose exploration is in order and without targets. -/
structure Working (t : Task) (interest : Nat → Prop) (feasible : Nat → Configuration → Prop) (batch : List Nat)
    (components : List Component) (g₀ : Generator.Explored) (s : Explored) : Prop where
  later : Later t interest feasible g₀ s.generator
  serves : Serves t components s.engine
  unlimited : s.engine.maxNodes = none
  explains : s.engine.explains = t.factory.explains
  steady : Steady 0 none s.bench
  spent : s.reached.targets = []
  disabled : ∀ i ∈ s.reached.disabled, i ∈ batch ∧ s.generator.suite.resolved i = true
  aimed : Aimed batch s.generator s.engine

/-- A session that looks for nothing but what is open. -/
structure Focused (t : Task) (interest : Nat → Prop) (feasible : Nat → Configuration → Prop) (batch : List Nat)
    (components : List Component) (g₀ : Generator.Explored) (s : Explored) : Prop where
  working : Working t interest feasible batch components g₀ s
  muted : ∀ comp ∈ components, s.generator.suite.resolved comp.goal = true → comp.goal ∈ s.reached.disabled
  sharp : t.factory.tracks = true → Opened s.generator batch s.engine.opened

/-- What a run adds to a session. -/
structure Found (batch : List Nat) (s s' : Explored) : Prop where
  ran : Ran 0 s.bench s'.bench
  generator : s'.generator = { s.generator with diagram := s'.generator.diagram }
  ended : s'.reached.waiting = [] ∨ s'.reached.targets ≠ []
  shows : ∀ n ∈ s'.reached.targets, ∀ v, s'.reached.graph.node? n = some v → Shows s'.generator batch v.state

theorem ripeTargets_of_spent (spent : b.reached.targets = []) : RipeTargets b := by
  intro n v here attached target
  have live : n ∈ b.reached.targets := Exploration.mem_targets.2 ⟨v, here, attached, target⟩
  rw [spent] at live
  cases live

theorem setBench_generator (same : b.surroundings = s.generator.surroundings) :
    (setBench b s).generator = { s.generator with diagram := b.diagram } := by
  rw [setBench, same]

theorem runBounded_ensures {root : NodeId} (exhausted : T .exhausted) (steady : Steady root none b)
    (unlimited : b.engine.maxNodes = none) :
    Ensures T (analysis.runBounded fuel none) b fun outcome b' => outcome = .sound ∧ Ran root b b' ∧
      (b'.reached.waiting = [] ∨ b'.reached.targets ≠ []) := by
  have ran := run_ensures (T := (· = .exhausted)) rfl steady fuel none
  have unbounded : analysis.run fuel none b = Explorer.run fuel none b := rfl
  simp only [Ensures, Analysis.runBounded, unbounded] at ran ⊢
  cases out : Explorer.run fuel none b with
  | ok ending b' =>
    rw [out] at ran
    obtain ⟨ran, ended⟩ := ran
    refine ⟨?_, ran, ended.idle unlimited rfl⟩
    rw [ended.verdict unlimited]
    rfl
  | error e b' =>
    rw [out] at ran
    cases (ran : e = .exhausted)
    exact exhausted

section Run

variable (enlists : Enlists t batch g₀ components) (focused : Focused t interest feasible batch components g₀ s)

include enlists focused

/-- Targets are in states that show what is open. -/
theorem Focused.shows {n : NodeId} {v : GraphNode State} (ran : Ran 0 s.bench b) (live : n ∈ b.reached.targets)
    (here : b.reached.graph.node? n = some v) : Shows { s.generator with diagram := b.diagram } batch v.state := by
  have working := focused.working
  have good := working.later.good
  have engine := ran.engine
  obtain ⟨w, there, attached, target⟩ := Exploration.mem_targets.1 live
  rw [here] at there
  cases there
  have ripe := ran.ripe (ripeTargets_of_spent working.spent) n v here attached target
  have inhabited : v.state.accepted.isEmpty = false := Bool.not_eq_true' _ ▸ target
  obtain ⟨i, accepted⟩ := IdSet.isEmpty_eq_false_iff.1 inhabited
  obtain ⟨enabled, opens⟩ := ripe i accepted
  have proper := ran.steady.sound.proper n v here
  obtain ⟨nodes, edges, branch⟩ := ran.steady.sound.tree.exists_branch attached
  have observers : b.engine.observers = s.engine.observers := by rw [engine]; rfl
  have watches := working.serves.watches
  rw [← observers] at watches
  obtain ⟨comp, mem, same, _⟩ :=
    watches.sound_of_follow (ran.steady.sound.journey branch here).follow (proper.accepted i accepted)
  obtain ⟨member, γ, goal, _⟩ := enlists.members comp mem
  rw [same] at member goal
  obtain ⟨γ', now⟩ := good.known i γ goal
  have left : s.generator.suite.resolved i = false := by
    rw [← Bool.not_eq_true]
    intro resolved
    apply enabled
    rw [ran.disabled]
    exact same ▸ focused.muted comp mem (same.symm ▸ resolved)
  refine ⟨i, member, accepted, ?_⟩
  have tracking : b.engine.tracks = t.factory.tracks := by rw [engine]; exact working.serves.tracks
  have ready := ran.steady.sound.fit.ready
  have leaves := fun c => good.sane.leaves_iff (c := c) (i := i) good.ready' ran.diagram
  have openIn : ∃ c, s.generator.suite.Leaves s.generator.diagram i c ∧ b.diagram.Within v.state.presence c := by
    have presence := proper.presence.cases
    rw [tracking] at presence
    obtain ⟨tracks, p, region, has⟩ | ⟨_, region⟩ := presence
    · have sharp := focused.sharp tracks
      obtain ⟨r, opened⟩ := sharp.total i member
      obtain ⟨_, known, holds⟩ := sharp.known i r opened
      have opened' : b.engine.opened.get? i = some r := by rw [engine]; exact opened
      obtain ⟨c, holds_p, holds_r⟩ := opens (tracking.trans tracks) p r region opened'
      have before := ran.diagram.holds_eq (good.ready tracks) known (c := c)
      rw [region]
      exact ⟨c, (holds c).1 (before.symm.trans holds_r), within_some.2 holds_p⟩
    · rw [region]
      have some_left := (not_congr (good.sane.resolved_iff good.ready' now)).1 (by simp [left])
      rw [not_forall] at some_left
      obtain ⟨c, open'⟩ := some_left
      exact ⟨c, not_not.1 open', within_none⟩
  obtain ⟨c, open', within⟩ := openIn
  exact ⟨c, (leaves c).2 open', within⟩

/-- A run without a limit is sound and ends with targets or with nothing to do. -/
theorem runEngine_ensures (exhausted : T .exhausted) :
    Ensures T (runEngine analysis fuel) s fun outcome s' => outcome = .sound ∧ Found batch s s' := by
  have working := focused.working
  rw [runEngine, ensures_bind, ensures_get, withEngine, ensures_within, working.later.good.unlimited]
  apply (runBounded_ensures exhausted working.steady working.unlimited).mono
  intro outcome b h
  obtain ⟨sound, ran, ended⟩ := h
  have generator := setBench_generator (s := s) ran.surroundings
  refine ⟨sound, ran, ?_, ended, fun n live v here => ?_⟩
  · rw [generator]
  · rw [generator]
    exact focused.shows enlists ran live here

end Run

section Turn

variable (fair : t.Fair T) (judges : t.Judges interest feasible) (known : ∀ i ∈ batch, ∃ γ, t.goals.get? i = some γ)
  (distinct : batch.Nodup) (enlists : Enlists t batch g₀ components)

include known in
theorem Working.goals (working : Working t interest feasible batch components g₀ s) :
    ∀ i ∈ batch, ∃ γ, s.generator.suite.goals.get? i = some γ :=
  known_of_good known working.later.good

include fair judges known enlists in
/-- When nothing waits, what is left of a goal is infeasible. -/
theorem Working.refutes (working : Working t interest feasible batch components g₀ s) (good₀ : Good t interest feasible g₀)
    (idle : s.reached.waiting = []) (mem : i ∈ batch) (wanted : interest i)
    (leaves : s.generator.suite.Leaves s.generator.diagram i c) : ¬feasible i c := by
  intro can
  have good := working.later.good
  obtain ⟨γ, here⟩ := known i mem
  have left := good.unresolved_of_openIn here ⟨c, leaves, within_none⟩
  have left₀ : g₀.suite.resolved i = false := by
    rw [← Bool.not_eq_true]
    intro resolved
    rw [working.later.resolved good₀ here resolved] at left
    cases left
  obtain ⟨comp, member, same⟩ := enlists.all i mem left₀
  obtain ⟨path, isPath, recognizes, passes, together⟩ := judges.found i γ c wanted here can
  have watched : ∀ c ∈ components, c.goal = i → c.automaton = γ.automaton := by
    intro c mem is_i
    obtain ⟨_, γ', here', automaton⟩ := enlists.members c mem
    rw [is_i, here] at here'
    cases here'
    exact automaton.symm
  have runs : ∀ c ∈ components, ∃ q, c.automaton.Run path q := by
    intro c mem
    obtain ⟨_, γ', here', automaton⟩ := enlists.members c mem
    rw [← automaton]
    exact together c.goal γ' here'
  have ext := good.diagram
  have may_pass : ∀ e ∈ path, s.engine.Passes s.generator.diagram c e := by
    intro e mem tracks
    have tracked := working.serves.tracks.symm.trans tracks
    obtain ⟨wf, presences⟩ := fair.manager tracked
    have allows := (presences.allows_iff wf ext).2 (passes e mem tracked)
    exact working.serves.program ▸ allows
  have enabled : comp.goal ∉ s.reached.disabled := by
    intro muted
    have resolved := (working.disabled comp.goal muted).2
    rw [same, left] at resolved
    cases resolved
  refine working.steady.refutes working.serves.watches runs idle working.spent (working.serves.program ▸ isPath) member
    enabled (working.aimed.admits i mem c leaves) (same ▸ working.aimed.opens i mem c leaves) may_pass ?_
  rw [watched comp member same]
  exact recognizes

theorem targets_start {state : State} (plain : AbstractState.isTarget state = false) :
    (Exploration.start state).targets = [] := by
  rw [List.eq_nil_iff_forall_not_mem]
  intro n live
  obtain ⟨v, here, _, target⟩ := Exploration.mem_targets.1 live
  rw [(Exploration.node?_start.1 here).2, plain] at target
  cases target

include known in
/-- The generator may go on by itself. -/
theorem Working.after (working : Working t interest feasible batch components g₀ s)
    (later : Later t interest feasible s.generator g) :
    Working t interest feasible batch components g₀ { s with generator := g } where
  later := working.later.trans later
  serves := working.serves
  unlimited := working.unlimited
  explains := working.explains
  steady := later.steady working.serves.tracks working.steady
  spent := working.spent
  disabled i mem := by
    obtain ⟨member, resolved⟩ := working.disabled i mem
    obtain ⟨γ, here⟩ := known i member
    exact ⟨member, later.resolved working.later.good here resolved⟩
  aimed := working.aimed.later working.steady.sound.fit later

/-- What a run leaves as it is. -/
theorem Working.ran (working : Working t interest feasible batch components g₀ s) (ran : Ran 0 s.bench s'.bench)
    (generator : s'.generator = { s.generator with diagram := s'.generator.diagram }) :
    Later t interest feasible s.generator s'.generator ∧ Serves t components s'.engine ∧ s'.engine.maxNodes = none ∧
      s'.engine.explains = t.factory.explains ∧ Aimed batch s'.generator s'.engine := by
  have engine : s'.engine = { s.engine with counterexamples := s'.engine.counterexamples } := ran.engine
  have ready : s'.generator.diagram.Ready s'.engine.tracks := ran.steady.sound.fit.ready
  have tracks : s'.engine.tracks = t.factory.tracks := by
    rw [engine]
    exact working.serves.tracks
  have later : Later t interest feasible s.generator s'.generator := by
    rw [generator]
    exact working.later.good.grown ran.diagram (tracks ▸ ready)
  have aimed := working.aimed.later working.steady.sound.fit later
  rw [engine]
  exact ⟨later, ⟨working.serves.program, working.serves.tracks, working.serves.watches, working.serves.goals⟩,
    working.unlimited, working.explains, ⟨aimed.admits, aimed.opens, aimed.rest⟩⟩

include fair in
theorem renew_ensures (working : Working t interest feasible batch components g₀ s) :
    Ensures T (renew analysis) s fun _ s' => Working t interest feasible batch components g₀ s' := by
  rw [renew, ensures_bind, ensures_get]
  split
  next =>
    have sound := working.steady.sound
    have fit : s.engine.Fit s.generator.diagram := sound.fit
    have located : ∃ entry, s.engine.program.entry = .ok entry := by
      obtain ⟨v, here⟩ := sound.tree.root_mem
      exact ⟨_, (sound.start v here).1⟩
    obtain ⟨entry, located⟩ := located
    rw [ensures_bind, withGenerator, ensures_within, onShared, ensures_within, analysis, ensures_within]
    apply (ensures_initialState fit located).mono
    intro state d' h
    obtain ⟨ext, ready, initial⟩ := h
    have good := working.later.good
    have later : Later t interest feasible s.generator { s.generator with diagram := d' } :=
      good.grown ext (working.serves.tracks ▸ ready)
    have plain := initial.plain (not_accepts_starts working.serves.watches (working.serves.unfinished fair.crosses))
    have fresh : Steady 0 none { diagram := d', surroundings := s.generator.surroundings, engine := s.engine
                                 reached := .start state : Desk } :=
      Steady.fresh (b := { s.bench with diagram := d' }) working.steady.free (fit.extends ext ready) initial plain
    exact
      { later := working.later.trans later
        serves := working.serves
        unlimited := working.unlimited
        explains := working.explains
        steady := fresh
        spent := targets_start plain
        disabled := fun i mem => absurd mem (IdSet.not_mem_empty i)
        aimed := working.aimed.later fit later }
  next => exact working

theorem Working.narrows (working : Working t interest feasible batch components g₀ s) {region : Region}
    {opened : IdMap Region} (remains : Remains s.generator batch region) (regions : Opened s.generator batch opened) :
    s.engine.Narrows s.generator.diagram region opened where
  constraint_known _ := remains.known
  opened_known _ i r here := (regions.known i r here).2.1
  constraint_sub tracks c holds := by
    obtain ⟨i, mem, leaves⟩ := (remains.holds c).1 holds
    exact working.aimed.admits i mem c leaves tracks
  opened_sub tracks i c within := by
    by_cases mem : i ∈ batch
    · obtain ⟨r, here⟩ := regions.total i mem
      exact working.aimed.opens i mem c (((regions.known i r here).2.2 c).1 (within r here)) tracks
    · intro r here
      exact absurd (working.aimed.rest i r here) mem

include known in
theorem restrict_ensures {region : Region} (working : Working t interest feasible batch components g₀ s)
    (tracks : s.generator.suite.variability = true) (remains : Remains s.generator batch region) :
    Ensures T (restrict analysis batch region) s fun _ s' => Working t interest feasible batch components g₀ s' ∧
      s'.generator.suite = s.generator.suite ∧ s'.reached.disabled = s.reached.disabled ∧
      Opened s'.generator batch s'.engine.opened := by
  have good := working.later.good
  rw [restrict, ensures_bind, withGenerator, ensures_within]
  apply (openRegions_ensures good tracks (working.goals known)).mono
  intro opened g' h
  obtain ⟨same, regions⟩ := h
  rw [same, withEngine, ensures_within]
  apply (Explorer.restrict_ensures working.steady (working.narrows remains regions)).mono
  intro _ b h
  obtain ⟨steady, engine, surroundings, ext, graph, disabled⟩ := h
  have generator := setBench_generator (s := s) surroundings
  have same_engine : (setBench b s).engine = { s.engine with constraint := some region, opened } := engine
  have later : Later t interest feasible s.generator (setBench b s).generator := by
    rw [generator]
    have ready := steady.sound.fit.ready
    rw [engine] at ready
    exact good.grown ext (working.serves.tracks ▸ ready)
  have leaves : ∀ i c, (setBench b s).generator.suite.Leaves (setBench b s).generator.diagram i c ↔
      s.generator.suite.Leaves s.generator.diagram i c := by
    rw [generator]
    exact fun i c => good.sane.leaves_iff good.ready' ext
  have wf := good.ready (good.variability.symm.trans tracks)
  have diagram : (setBench b s).generator.diagram = b.diagram := rfl
  have aimed : Aimed batch (setBench b s).generator (setBench b s).engine := by
    rw [same_engine]
    refine ⟨fun i mem c open' _ => within_some.2 ?_, fun i mem c open' _ r here => ?_, fun i r here => (regions.known i r here).1⟩
    · rw [diagram, ext.holds_eq wf remains.known]
      exact (remains.holds c).2 ⟨i, mem, (leaves i c).1 open'⟩
    · obtain ⟨_, has, holds⟩ := regions.known i r here
      rw [diagram, ext.holds_eq wf has]
      exact (holds c).2 ((leaves i c).1 open')
  have targets : (setBench b s).reached.targets = s.reached.targets := by
    have graphs : b.reached.graph = s.reached.graph := graph
    have live : b.reached.isLiveTarget = s.reached.isLiveTarget := by
      funext n
      simp only [Exploration.isLiveTarget, graphs]
    simp only [Exploration.targets, setBench, graphs, live]
  refine ⟨⟨working.later.trans later, ?_, ?_, ?_, steady, targets.trans working.spent, fun i mem => ?_, aimed⟩, ?_, disabled, ?_⟩
  · rw [same_engine]
    exact ⟨working.serves.program, working.serves.tracks, working.serves.watches, working.serves.goals⟩
  · rw [same_engine]
    exact working.unlimited
  · rw [same_engine]
    exact working.explains
  · have before : i ∈ s.reached.disabled := by
      have same : b.reached.disabled = s.reached.disabled := disabled
      exact same ▸ mem
    rw [generator]
    exact working.disabled i before
  · rw [generator]
  · rw [same_engine]
    refine ⟨fun i r here => ?_, regions.total⟩
    obtain ⟨mem, has, holds⟩ := regions.known i r here
    refine ⟨mem, ext.has has, fun c => ?_⟩
    rw [leaves, diagram, ext.holds_eq wf has]
    exact holds c

include known enlists in
/-- The second half of narrowing, once the resolved goals are disabled. -/
theorem sharpen_ensures (working : Working t interest feasible batch components g₀ s)
    (muted : ∀ i ∈ batch.filter s.generator.suite.resolved, i ∈ s.reached.disabled) :
    Ensures T (do
      if (← get).generator.suite.variability then
        let region ← withGenerator (remainingRegion batch)
        Session.restrict analysis batch region) s
      fun _ s' => Focused t interest feasible batch components g₀ s' := by
  have silent : ∀ comp ∈ components, s.generator.suite.resolved comp.goal = true → comp.goal ∈ s.reached.disabled :=
    fun comp mem resolved => muted comp.goal (List.mem_filter.2 ⟨(enlists.members comp mem).1, resolved⟩)
  rw [ensures_bind, ensures_get]
  split
  next tracks =>
    rw [ensures_bind, withGenerator, ensures_within]
    apply (remainingRegion_ensures working.later.good tracks (working.goals known)).mono
    intro region g h
    obtain ⟨later, suite, remains⟩ := h
    have tracks' : g.suite.variability = true := suite ▸ tracks
    apply (restrict_ensures known (working.after known later) tracks' remains).mono
    intro _ s' h
    obtain ⟨restricted, suite', disabled, opened⟩ := h
    refine ⟨restricted, fun comp mem resolved => ?_, fun _ => opened⟩
    have same : s'.generator.suite = s.generator.suite := suite'.trans suite
    rw [disabled]
    exact silent comp mem (same ▸ resolved)
  next plain =>
    exact ⟨working, silent, fun tracks => absurd (working.later.good.variability.trans tracks) plain⟩

include known enlists in
theorem narrow_ensures (working : Working t interest feasible batch components g₀ s) :
    Ensures T (narrow analysis batch) s fun _ s' => Focused t interest feasible batch components g₀ s' := by
  have goals := working.goals known
  have lookup : Ensures T (batch.filterM isResolved) s.generator fun out g' => g' = s.generator ∧
      out = batch.filter s.generator.suite.resolved := by
    apply Ensures.filterM
    intro i mem
    obtain ⟨γ, now⟩ := goals i mem
    rw [ensures_isResolved now]
    exact ⟨rfl, rfl⟩
  rw [narrow, ensures_bind, withGenerator, ensures_within]
  apply lookup.mono
  intro resolved g' h
  obtain ⟨same, rfl⟩ := h
  rw [same]
  let goals' := (IdSet.ofList (batch.filter s.generator.suite.resolved)).toList
  have mem_goals' : ∀ i, i ∈ goals' ↔ i ∈ batch.filter s.generator.suite.resolved := fun i => by
    rw [IdSet.mem_toList, IdSet.mem_ofList]
  split
  next =>
    rw [ensures_bind, withEngine, ensures_within]
    apply sharpen_ensures known enlists (s := { s with reached := s.reached.disable goals' })
    · exact
        { working with
          steady := working.steady.disable goals'
          disabled := fun i mem => by
            cases IdSet.mem_insertAll.1 mem with
            | inl new => exact List.mem_filter.1 ((mem_goals' i).1 new)
            | inr old => exact working.disabled i old }
    · intro i mem
      exact IdSet.mem_insertAll.2 (.inl ((mem_goals' i).2 mem))
  next none_resolved =>
    apply sharpen_ensures known enlists working
    have none : batch.filter s.generator.suite.resolved = [] := by simpa using none_resolved
    simp [none]

/-- How a search leaves a session. -/
structure Concluded (t : Task) (interest : Nat → Prop) (feasible : Nat → Configuration → Prop) (batch : List Nat)
    (g₀ : Generator.Explored) (finding : Finding) (s : Explored) : Prop where
  later : Later t interest feasible g₀ s.generator
  finding : finding = ⟨.sound, true⟩
  program : s.engine.program = t.factory.program
  sound : s.engine.Sound s.generator.diagram s.reached.graph 0
  refuted : ∀ i ∈ batch, interest i → ∀ c, s.generator.suite.Leaves s.generator.diagram i c → ¬feasible i c

include fair judges known distinct enlists in
theorem turn_ensures (good₀ : Good t interest feasible g₀) (focused : Focused t interest feasible batch components g₀ s) :
    Ensures T (turn analysis fuel batch true) s fun r s' =>
      match r with
      | .inl sound => Focused t interest feasible batch components g₀ s' ∧ sound = true
      | .inr finding => Concluded t interest feasible batch g₀ finding s' := by
  have working := focused.working
  rw [turn, ensures_bind, ensures_get, ensures_bind]
  apply (runEngine_ensures enlists focused fair.exhausted).mono
  intro outcome s₁ h
  obtain ⟨rfl, found⟩ := h
  have running := working.ran found.ran found.generator
  obtain ⟨later, serves, unlimited, explains, aimed⟩ := running
  rw [if_neg (by decide), ensures_bind, ensures_get, ensures_bind, withGenerator, ensures_within]
  have harvested := harvest_ensures (T := T) fair judges serves known distinct later.good found.ran.steady explains
    s₁.engine.counterexamples found.ran.explained
  apply harvested.mono
  intro harvest g' harvested
  rw [ensures_bind, ensures_modify]
  let s₂ : Explored := { generator := g', engine := s₁.engine, reached := harvest.reached }
  have later₂ := later.trans harvested.later
  have working₂ : Working t interest feasible batch components g₀ s₂ :=
    { later := working.later.trans later₂
      serves := serves
      unlimited := unlimited
      explains := explains
      steady := harvested.steady
      spent := harvested.spent
      disabled := fun i mem => by
        have before : i ∈ s.reached.disabled := by
          have same : s₁.reached.disabled = s.reached.disabled := found.ran.disabled
          rw [← same, ← harvested.disabled]
          exact mem
        obtain ⟨member, resolved⟩ := working.disabled i before
        obtain ⟨γ, here⟩ := known i member
        exact ⟨member, later₂.resolved working.later.good here resolved⟩
      aimed := aimed.later found.ran.steady.sound.fit harvested.later }
  have fruitful : (0 < harvest.targets && harvest.created == 0) = false := by
    rw [← Bool.not_eq_true]
    intro fruitless
    simp only [Bool.and_eq_true, decide_eq_true_eq, beq_iff_eq] at fruitless
    have created := harvested.created found.shows fruitless.1
    omega
  rw [if_neg (by simp [fruitful]), ensures_bind, withGenerator, ensures_within,
    ensures_isDone (known_of_good known harvested.later.good)]
  split
  next ended =>
    refine ⟨working₂.later, rfl, serves.program, working₂.steady.sound, fun i mem wanted c leaves => ?_⟩
    rw [Bool.or_eq_true, List.isEmpty_iff] at ended
    cases ended with
    | inl idle => exact working₂.refutes fair judges known enlists good₀ idle mem wanted leaves
    | inr done =>
      obtain ⟨γ, now⟩ := working₂.goals known i mem
      have good₂ := harvested.later.good
      have resolved := List.all_eq_true.1 done i mem
      exact absurd leaves ((good₂.sane.resolved_iff good₂.ready' now).1 resolved c)
  next =>
    rw [ensures_bind, ensures_get]
    split
    next stuck => exact absurd stuck (by simp)
    next =>
      rw [ensures_bind]
      apply (renew_ensures fair working₂).mono
      intro _ s₃ working₃
      rw [ensures_bind]
      apply (narrow_ensures known enlists working₃).mono
      intro _ s₄ focused₄
      exact ⟨focused₄, rfl⟩

include fair judges known distinct enlists in
theorem explore_ensures (good₀ : Good t interest feasible g₀)
    (focused : Focused t interest feasible batch components g₀ s) :
    Ensures T (explore analysis fuel batch) s fun finding s' => Concluded t interest feasible batch g₀ finding s' := by
  apply Ensures.repeatUntil (I := fun sound s => Focused t interest feasible batch components g₀ s ∧ sound = true)
    fair.exhausted _ fuel ⟨focused, rfl⟩
  intro sound s' holds
  rw [holds.2]
  apply (turn_ensures fair judges known distinct enlists good₀ holds.1).mono
  intro r s'' spec
  cases r with
  | inl sound => exact spec
  | inr finding => exact spec

end Turn

end Session

end GoalCoverage
