import GoalCoverage.Proofs.Explorer.Composition
import GoalCoverage.Proofs.Generation.Session

/-!
Searches. An engine is composed for what is open in a batch, the exploration decides it, and afterwards every goal
of the batch is resolved (`search_ensures`).
-/

namespace GoalCoverage

open Procedure Diagram StateGraph Explorer

namespace Drawing

theorem exists_mapM_eq_ok {α β : Type} {f : α → Except Violation β} {l : List α} (each : ∀ x ∈ l, ∃ y, f x = .ok y) :
    ∃ ys, l.mapM f = .ok ys := by
  induction l with
  | nil => exact ⟨[], rfl⟩
  | cons x rest ih =>
    obtain ⟨y, here⟩ := each x List.mem_cons_self
    obtain ⟨ys, more⟩ := ih fun x mem => each x (List.mem_cons_of_mem _ mem)
    refine ⟨y :: ys, ?_⟩
    rw [List.mapM_cons, here, more]
    rfl

/-- Every exploration can be drawn. -/
theorem exists_graph_eq_ok {x : Explorer} {d : Diagram} {g : StateGraph State} {root : NodeId} (style : DrawingStyle)
    (sound : x.Sound d g root) : ∃ drawing, graph style x.program g = .ok drawing := by
  have arrows : ∃ rows, (g.ids.filterMap fun n => (g.node? n).map fun v => (n, v)).mapM
      (fun entry => links style x.program entry.1 entry.2) = .ok rows := by
    apply exists_mapM_eq_ok
    intro entry mem
    obtain ⟨n, _, shown⟩ := List.mem_filterMap.1 mem
    obtain ⟨v, here, rfl⟩ := Option.map_eq_some_iff.1 shown
    have children : ∃ rows, v.children.entries.mapM (fun child => link style x.program n child.1 child.2) = .ok rows := by
      apply exists_mapM_eq_ok
      intro child mem
      have hangs := IdMap.get?_eq_some_iff.2 mem
      obtain ⟨w, there, _⟩ := sound.tree.child n v child.1 child.2 here hangs
      cases label : child.2 with
      | none => exact ⟨_, by simp only [link]; rfl⟩
      | some e =>
        rw [label] at hangs
        obtain ⟨edge, known, _⟩ := (sound.follows n v child.1 e w here hangs there).edge
        have found : x.program.edge e = .ok edge := by rw [Program.edge, known]
        simp only [link, found, Except.map]
        split <;> exact ⟨_, rfl⟩
    obtain ⟨rows, ok⟩ := children
    simp only [links, ok]
    exact ⟨_, rfl⟩
  obtain ⟨rows, ok⟩ := arrows
  simp only [graph, ok]
  exact ⟨_, rfl⟩

end Drawing

namespace Generator

variable {t : Task} {interest : Nat → Prop} {feasible : Nat → Configuration → Prop} {g g' : Explored}
  {T : Failure → Prop} {i : Nat} {c : Configuration} {γ : Goal} {x : Explorer} {batch goals : List Nat} {fuel : Nat}

/-- Observers for goals. -/
structure Observes (t : Task) (goals : List Nat) (observers : List Observer) (components : List Component) : Prop where
  watches : Watches components observers
  inhabited : observers ≠ []
  members : ∀ comp ∈ components, comp.goal ∈ goals ∧ ∃ γ, t.goals.get? comp.goal = some γ ∧ γ.automaton = comp.automaton
  all : ∀ i ∈ goals, ∃ comp ∈ components, comp.goal = i

theorem ofComponents_eq_ok (name : String) {components : List Component} (inhabited : components ≠ []) :
    ∃ p, Product.ofComponents name components = .ok p := by
  rw [Product.ofComponents, if_neg (by simpa using inhabited)]
  exact ⟨_, rfl⟩

theorem observers_ensures (good : Good t interest feasible g) (known : ∀ i ∈ goals, ∃ γ, t.goals.get? i = some γ)
    (some_goal : goals ≠ []) : Ensures T (observers goals) g fun observers g' => g' = g ∧
      ∃ components, Observes t goals observers components := by
  rw [observers, ensures_bind, ensures_get, ensures_bind]
  have lookup : Ensures T (goals.mapM fun index => return (⟨index, (← goal index).automaton⟩ : Component)) g
      fun components g' => g' = g ∧ List.Forall₂ (fun i comp => comp.goal = i ∧
        ∃ γ, t.goals.get? comp.goal = some γ ∧ γ.automaton = comp.automaton) goals components := by
    apply Ensures.lookups
    intro i mem
    obtain ⟨γ₀, here⟩ := known i mem
    obtain ⟨γ, now⟩ := good.known i γ₀ here
    obtain ⟨γ₁, first, same⟩ := good.kept i γ now
    rw [here] at first
    cases first
    rw [ensures_bind, ensures_goal now]
    exact ⟨rfl, rfl, γ₀, here, same.automaton.symm⟩
  apply lookup.mono
  intro components g' h
  obtain ⟨same, lookup⟩ := h
  rw [same]
  have members : ∀ comp ∈ components, comp.goal ∈ goals ∧
      ∃ γ, t.goals.get? comp.goal = some γ ∧ γ.automaton = comp.automaton := by
    intro comp mem
    obtain ⟨i, here, is_i, spec⟩ := exists_of_forall₂_right lookup mem
    exact ⟨is_i ▸ here, spec⟩
  have all : ∀ i ∈ goals, ∃ comp ∈ components, comp.goal = i := by
    intro i mem
    obtain ⟨comp, here, is_i, _⟩ := exists_of_forall₂_right lookup.flip mem
    exact ⟨comp, here, is_i⟩
  have inhabited : components ≠ [] := by
    intro none
    rw [none] at lookup
    cases lookup
    exact some_goal rfl
  split
  next =>
    obtain ⟨p, made⟩ := ofComponents_eq_ok ("x".intercalate (goals.map Goal.nameOf)) inhabited
    rw [made]
    exact ⟨rfl, components, .jointly made, by simp, members, all⟩
  next =>
    refine ⟨rfl, components, .each ?_, by simpa using inhabited, members, all⟩
    rw [List.forall₂_map_right_iff, List.forall₂_same]
    intro comp _
    split
    next => exact .inr rfl
    next => exact .inl rfl

theorem drawAutomata_ensures (good : Good t interest feasible g) (observers : List Observer) :
    Ensures T (drawAutomata observers) g fun _ g' => Later t interest feasible g g' ∧ g'.suite = g.suite := by
  rw [drawAutomata, ensures_bind, ensures_get]
  split
  next => exact ⟨.refl good, rfl⟩
  next =>
    apply Ensures.forM (I := fun _ g' => Later t interest feasible g g' ∧ g'.suite = g.suite) _ ⟨.refl good, rfl⟩
    intro o done rest g' _ holds
    obtain ⟨later, suite⟩ := holds
    exact ⟨later.trans ⟨{ later.good with }, rfl, .refl _, fun _ _ h => h, List.prefix_refl _⟩, suite⟩

/-- Guesses do no harm. -/
theorem Good.guessed (good : Good t interest feasible g) (m : IdMap Prediction) :
    Later t interest feasible g { g with suite := { g.suite with predictions := m } } :=
  have sane := good.sane
  ⟨{ good with sane := ⟨sane.index, sane.remaining, sane.infeasible, sane.covering, sane.listed, sane.balance⟩ }, rfl,
    .refl _, fun _ _ h => h, List.prefix_refl _⟩

theorem guess_ensures {p : Program} (fair : t.Fair T) (good : Good t interest feasible g)
    (here : t.goals.get? i = some γ) (program : p = t.factory.program) :
    Ensures T (changeSuite fun s => return (← s.propagateInfeasible p i).2) g fun _ g' =>
      Later t interest feasible g g' ∧ ∃ m, g' = { g with suite := { g.suite with predictions := m } } := by
  subst program
  rw [changeSuite, ensures_bind, ensures_get, ensures_bind]
  cases out : g.suite.propagateInfeasible t.factory.program i with
  | ok r =>
    obtain ⟨m, same⟩ := Suite.propagateInfeasible_spec out
    have delivered : Delivers t.factory.tracks (do
        return (← g.suite.propagateInfeasible t.factory.program i).2 : Regional Suite) g.diagram fun s' d' =>
          s' = { g.suite with predictions := m } ∧ d' = g.diagram := by
      rw [out]
      exact ⟨_, _, rfl, .refl _, good.ready, same, rfl⟩
    rw [out] at delivered
    apply ensures_onRegions delivered
    intro s' d' _ _ h
    obtain ⟨rfl, rfl⟩ := h
    exact ⟨good.guessed m, m, rfl⟩
  | error v =>
    cases fair.known with
    | inl any => exact any _
    | inr known =>
      obtain ⟨γ', now⟩ := good.known i γ here
      obtain ⟨γ₀, first, same⟩ := good.kept i γ' now
      have entry := (known i γ₀ first).2.1
      rw [← same.entry] at entry
      obtain ⟨r, ok⟩ := Suite.propagateInfeasible_isOk now entry
      rw [ok] at out
      cases out

theorem giveUp_ensures (fair : t.Fair T) (good : Good t interest feasible g) (here : t.goals.get? i = some γ)
    (left : g.suite.resolved i = false)
    (infeasible : interest i → ∀ c, g.suite.Leaves g.diagram i c → ¬feasible i c) :
    Ensures T (giveUp i) g fun _ g' => Later t interest feasible g g' ∧ g'.suite.resolved i = true ∧
      ∀ j ≠ i, ∀ c, g'.suite.Leaves g'.diagram j c ↔ g.suite.Leaves g.diagram j c := by
  obtain ⟨γ', now⟩ := good.known i γ here
  have variability := good.variability
  have region : g.suite.variability = true → ∃ r, (if t.factory.tracks then γ'.remaining else none) = some r ∧
      g.diagram.Has r ∧ r.isEmpty = false := by
    intro tracks
    obtain ⟨r, remaining, has⟩ := good.sane.remaining tracks i γ' now
    rw [if_pos (variability.symm.trans tracks)]
    refine ⟨r, remaining, has, ?_⟩
    simpa [Suite.resolved, tracks, now, remaining] using left
  have within : ∀ c, (t.factory.tracks = true → g.diagram.Within (if t.factory.tracks then γ'.remaining else none) c) ↔
      g.suite.Leaves g.diagram i c := by
    intro c
    cases tracks : t.factory.tracks with
    | true =>
      obtain ⟨r, remaining, _⟩ := good.sane.remaining (variability.trans tracks) i γ' now
      rw [leaves_of_tracks (variability.trans tracks) now, if_pos rfl, Goal.openRegion, remaining]
      simp
    | false => simp [Suite.Leaves, variability.trans tracks, left]
  rw [giveUp, ensures_bind, ensures_get, ensures_bind, ensures_goal now, ensures_bind, variability]
  apply ensures_changeSuite (Suite.addInfeasible_delivers good.sane good.ready' now region)
  intro s' d' ext ready booked
  rw [variability] at ready booked
  have later := good.booked booked ext ready here (fun n none => absurd none (Option.some_ne_none n).symm) fun wanted =>
    ⟨fun c none => none.elim, fun c excluded => infeasible wanted c ((within c).1 excluded)⟩
  have leaves : ∀ j ≠ i, ∀ c, s'.Leaves d' j c ↔ g.suite.Leaves g.diagram j c := by
    intro j other c
    rw [booked.leaves]
    simp [other]
  have resolved : s'.resolved i = true := by
    obtain ⟨γ₁, now₁⟩ := later.good.known i γ here
    rw [later.good.sane.resolved_iff later.good.ready' now₁]
    intro c open'
    obtain ⟨before, out⟩ := (booked.leaves i c).1 open'
    exact out ⟨rfl, .inr ((within c).2 before)⟩
  split
  next =>
    apply (guess_ensures fair later.good here good.program).mono
    intro _ g' h
    obtain ⟨later', m, rfl⟩ := h
    exact ⟨later.trans later', resolved, leaves⟩
  next => exact ⟨later, resolved, leaves⟩

theorem conclude_ensures (fair : t.Fair T) (good : Good t interest feasible g)
    (known : ∀ i ∈ batch, ∃ γ, t.goals.get? i = some γ) (distinct : batch.Nodup)
    (infeasible : ∀ i ∈ batch, interest i → ∀ c, g.suite.Leaves g.diagram i c → ¬feasible i c) :
    Ensures T (conclude batch .sound) g fun _ g' => Later t interest feasible g g' ∧
      ∀ i ∈ batch, g'.suite.resolved i = true := by
  rw [conclude, ensures_bind, ensures_unresolved (known_of_good known good)]
  let left := batch.filter fun i => !g.suite.resolved i
  let Done (done : List Nat) (g' : Explored) : Prop := Later t interest feasible g g' ∧
    (∀ i ∈ done, g'.suite.resolved i = true) ∧
    ∀ j ∉ done, ∀ c, g'.suite.Leaves g'.diagram j c ↔ g.suite.Leaves g.diagram j c
  have all : Ensures T (left.forM giveUp) g fun _ g' => Done left g' := by
    apply Ensures.forM _ ⟨.refl good, by simp, fun _ _ _ => Iff.rfl⟩
    intro i done rest g' whole holds
    obtain ⟨later, resolved, leaves⟩ := holds
    have mem : i ∈ left := by simp [whole]
    obtain ⟨member, unresolved⟩ := List.mem_filter.1 mem
    obtain ⟨γ, here⟩ := known i member
    have new : i ∉ done := by
      have nodup : left.Nodup := distinct.filter _
      rw [whole, List.nodup_append] at nodup
      exact fun old => nodup.2.2 i old i List.mem_cons_self rfl
    have open' : g'.suite.resolved i = false := by
      obtain ⟨γ₁, now⟩ := good.known i γ here
      obtain ⟨γ₂, now'⟩ := later.good.known i γ here
      rw [Bool.not_eq_true', ← Bool.not_eq_true, good.sane.resolved_iff good.ready' now] at unresolved
      rw [← Bool.not_eq_true, later.good.sane.resolved_iff later.good.ready' now']
      simpa only [leaves i new] using unresolved
    have right : interest i → ∀ c, g'.suite.Leaves g'.diagram i c → ¬feasible i c := fun wanted c h =>
      infeasible i member wanted c ((leaves i new c).1 h)
    apply (giveUp_ensures fair later.good here open' right).mono
    intro _ g'' h
    obtain ⟨later', closed, others⟩ := h
    refine ⟨later.trans later', fun j mem => ?_, fun j out c => ?_⟩
    · cases List.mem_append.1 mem with
      | inl old =>
        have in_left : j ∈ left := by simp [whole, old]
        obtain ⟨γ', here'⟩ := known j (List.mem_filter.1 in_left).1
        exact later'.resolved later.good here' (resolved j old)
      | inr last => exact List.mem_singleton.1 last ▸ closed
    · rw [List.mem_append, List.mem_singleton, not_or] at out
      rw [others j out.2, leaves j out.1]
  apply all.mono
  intro _ g' h
  obtain ⟨later, resolved, _⟩ := h
  refine ⟨later, fun i mem => ?_⟩
  cases before : g.suite.resolved i with
  | true =>
    obtain ⟨γ, here⟩ := known i mem
    exact later.resolved good here before
  | false => exact resolved i (List.mem_filter.2 ⟨mem, by simp [before]⟩)

theorem ensures_inSession {α : Type} {y : Exploration State} {m : Procedure Session.Explored α}
    {P : α × Explorer × Exploration State → Explored → Prop} :
    Ensures T (inSession x y m) g P ↔ Ensures T m { generator := g, engine := x, reached := y } fun a s =>
      P (a, s.engine, s.reached) s.generator := by
  simp only [Ensures, inSession]
  cases m { generator := g, engine := x, reached := y } <;> exact Iff.rfl

theorem drawGraphs_ensures {d : Diagram} {y : Exploration State} {root : NodeId} (good : Good t interest feasible g)
    (program : x.program = t.factory.program) (sound : x.Sound d y.graph root) :
    Ensures T (drawGraphs batch y.graph) g fun _ g' => Later t interest feasible g g' ∧ g'.suite = g.suite := by
  rw [drawGraphs, ensures_bind, ensures_get]
  split
  next =>
    apply Ensures.forM (I := fun _ g' => Later t interest feasible g g' ∧ g'.suite = g.suite) _ ⟨.refl good, rfl⟩
    intro i done rest g' _ holds
    obtain ⟨later, suite⟩ := holds
    obtain ⟨drawing, ok⟩ := Drawing.exists_graph_eq_ok {} sound
    rw [program, ← good.program] at ok
    rw [ensures_bind, ensures_ask ok]
    exact ⟨later.trans ⟨{ later.good with }, rfl, .refl _, fun _ _ h => h, List.prefix_refl _⟩, suite⟩
  next => exact ⟨.refl good, rfl⟩

/-- The region that an engine is composed for. -/
structure Restricts (t : Task) (g : Explored) (batch : List Nat) (region : Option Region) : Prop where
  isSome : region.isSome = t.factory.tracks
  remains : ∀ r, region = some r → Remains g batch r

theorem Restricts.grown {region : Option Region} (restricts : Restricts t g batch region)
    (good : Good t interest feasible g) (later : Later t interest feasible g g') (suite : g'.suite = g.suite) :
    Restricts t g' batch region where
  isSome := restricts.isSome
  remains r same := by
    obtain ⟨has, holds⟩ := restricts.remains r same
    have tracks : t.factory.tracks = true := by rw [← restricts.isSome, same, Option.isSome_some]
    refine ⟨later.diagram.has has, fun c => ?_⟩
    rw [later.diagram.holds_eq (good.ready tracks) has, holds, suite]
    exact exists_congr fun i => and_congr_right fun _ => (good.sane.leaves_iff good.ready' later.diagram).symm

theorem region_ensures (good : Good t interest feasible g) (known : ∀ i ∈ batch, ∃ γ, t.goals.get? i = some γ) :
    Ensures T (if g.suite.variability then some <$> remainingRegion batch else pure none) g fun region g' =>
      Later t interest feasible g g' ∧ g'.suite = g.suite ∧ Restricts t g' batch region := by
  have variability := good.variability
  split
  next tracks =>
    rw [ensures_map]
    apply (remainingRegion_ensures good tracks (known_of_good known good)).mono
    intro r g' h
    obtain ⟨later, suite, remains⟩ := h
    refine ⟨later, suite, (variability.symm.trans tracks).symm, fun r' same => ?_⟩
    cases same
    exact remains
  next plain =>
    rw [variability, Bool.not_eq_true] at plain
    exact ⟨.refl good, rfl, plain.symm, fun r none => nomatch none⟩

/-- An engine that was just composed. -/
def composed (factory : ExplorerFactory) (observers : List Observer) (region : Option Region) (covering : Option IdSet) :
    Explorer :=
  { program := factory.program
    tracks := factory.tracks
    observers
    covering := covering.getD factory.program.joins
    constraint := region
    opened := ∅
    maxNodes := factory.maxNodes
    explains := factory.explains
    counterexamples := ∅ }

section Search

variable (fair : t.Fair T) (judges : t.Judges interest feasible) (known : ∀ i ∈ batch, ∃ γ, t.goals.get? i = some γ)
  (distinct : batch.Nodup) {observers : List Observer} {components : List Component} {region : Option Region}
  {covering : Option IdSet} {g₀ : Explored}

include fair in
theorem fit_composed (observers : List Observer) (covering : Option IdSet) (good : Good t interest feasible g)
    (restricts : Restricts t g batch region) :
    (composed t.factory observers region covering).Fit g.diagram where
  ready := good.ready
  program tracks := (fair.manager tracks).2.extends good.diagram
  constraint _ r same := (restricts.remains r same).known
  opened _ _ _ here := nomatch here

include fair in
/-- A session with an engine that was just composed. -/
theorem working_composed {state : State} {d : Diagram} (observes : Observes t goals observers components)
    (later : Later t interest feasible g₀ g) (restricts : Restricts t g batch region)
    (ext : g.diagram.Extends d) (ready : d.Ready t.factory.tracks)
    (initial : (composed t.factory observers region covering).Initial d state) :
    Session.Working t interest feasible batch components g₀
      { generator := { g with diagram := d }, engine := composed t.factory observers region covering
        reached := .start state } := by
  have good := later.good
  have fit := fit_composed fair observers covering good restricts
  have serves : Serves t components (composed t.factory observers region covering) :=
    ⟨rfl, rfl, observes.watches, fun comp mem => (observes.members comp mem).2⟩
  have aimed : Aimed batch g (composed t.factory observers region covering) := by
    refine ⟨fun i mem c leaves tracks r same => ?_, fun i mem c leaves tracks r here => ?_, fun i r here => ?_⟩
    · exact ((restricts.remains r same).holds c).2 ⟨i, mem, leaves⟩
    · cases here
    · cases here
  have plain := initial.plain (not_accepts_starts observes.watches (serves.unfinished fair.crosses))
  have grown := good.grown ext ready
  exact
    { later := later.trans grown
      serves := serves
      unlimited := fair.unlimited
      explains := rfl
      steady := Steady.fresh (b := { diagram := d, surroundings := g.surroundings
                                     engine := composed t.factory observers region covering
                                     reached := .start state }) (serves.unguarded fair) (fit.extends ext ready) initial plain
      spent := Session.targets_start plain
      disabled := fun i mem => absurd mem (IdSet.not_mem_empty i)
      aimed := aimed.later fit grown }

include fair in
theorem composed_ensures (good : Good t interest feasible g) (observes : Observes t goals observers components)
    (restricts : Restricts t g batch region) :
    Ensures T (onShared (analysis.compose observers region covering)) g fun x g' => g' = g ∧
      x = composed t.factory observers region covering := by
  rw [onShared, ensures_within, good.surroundings]
  have edges : (∀ failure, T failure) ∨ ∀ o ∈ observers, unknownEdge? t.factory.program o.automaton = none := by
    apply fair.known.imp_right
    intro known o mem
    have named := observes.watches.label (P := fun l => ∀ e ∈ l.edges.named, e < t.factory.program.edges.size)
      (fun e none => absurd none (IdSet.not_mem_empty e))
      (fun a b l ha hb common e here => (Label.mem_named_inter common here).elim (ha e) (hb e))
      (fun comp here => by
        obtain ⟨_, γ, goal, automaton⟩ := observes.members comp here
        exact automaton ▸ unknownEdge?_eq_none.1 (known comp.goal γ goal).2.2) mem
    exact unknownEdge?_eq_none.2 named
  have managed : region.isSome = true → t.factory.tracks = true := fun h => restricts.isSome.symm.trans h
  apply (compose_ensures observes.inhabited managed edges).mono
  intro x s h
  obtain ⟨rfl, rfl⟩ := h
  refine ⟨?_, rfl⟩
  rw [← good.surroundings]

include fair in
theorem initial_ensures (observes : Observes t goals observers components)
    (here : ∃ γ, t.goals.get? i = some γ) (later : Later t interest feasible g₀ g) (restricts : Restricts t g batch region) :
    Ensures T (onShared (analysis.initialState (composed t.factory observers region covering))) g fun state g' =>
      g'.suite = g.suite ∧ Later t interest feasible g g' ∧ Session.Working t interest feasible batch components g₀
        { generator := g', engine := composed t.factory observers region covering, reached := .start state } := by
  have fit := fit_composed fair observers covering later.good restricts
  rw [onShared, ensures_within, analysis, ensures_within]
  cases located : t.factory.program.entry with
  | ok entry =>
    apply (ensures_initialState fit located).mono
    intro state d h
    obtain ⟨ext, ready, initial⟩ := h
    exact ⟨rfl, later.good.grown ext ready, working_composed fair observes later restricts ext ready initial⟩
  | error v =>
    have any : T (.violated v) := by
      cases fair.known with
      | inl any => exact any _
      | inr known =>
        obtain ⟨γ, goal⟩ := here
        obtain ⟨entry, ok⟩ := (known i γ goal).1
        rw [ok] at located
        cases located
    simp only [Ensures, initialState, composed, located]
    exact any

include fair judges known distinct in
/-- The exploration of a search, narrowed to its region. -/
theorem explored_ensures {s : Session.Explored} (good₀ : Good t interest feasible g₀)
    (enlists : Enlists t batch g₀ components)
    (working : Session.Working t interest feasible batch components g₀ s)
    (fresh : ∀ comp ∈ components, s.generator.suite.resolved comp.goal = false)
    (restricts : Restricts t s.generator batch region) :
    Ensures T (do
      match region with
      | some r => Session.restrict analysis batch r
      | none => pure ()
      Session.explore analysis fuel batch) s fun finding s' =>
        Session.Concluded t interest feasible batch g₀ finding s' := by
  have some_region := restricts.isSome
  cases region with
  | some r =>
    have tracks : s.generator.suite.variability = true := working.later.good.variability.trans some_region.symm
    rw [ensures_bind]
    apply (Session.restrict_ensures known working tracks (restricts.remains r rfl)).mono
    intro _ s' h
    obtain ⟨working', suite, _, opened⟩ := h
    apply Session.explore_ensures fair judges known distinct enlists good₀
    refine ⟨working', fun comp mem resolved => ?_, fun _ => opened⟩
    rw [suite, fresh comp mem] at resolved
    cases resolved
  | none =>
    apply Session.explore_ensures fair judges known distinct enlists good₀
    refine ⟨working, fun comp mem resolved => ?_, fun tracks => ?_⟩
    · rw [fresh comp mem] at resolved
      cases resolved
    · rw [tracks] at some_region
      cases some_region

include fair known distinct in
/-- What follows an exploration. -/
theorem settled_ensures {s : Session.Explored} {finding : Session.Finding} {precise : Bool} {precision : IdSet}
    (concluded : Session.Concluded t interest feasible batch g finding s) :
    Ensures T (do
      if precise then
        modify fun g : Explored => { g with precision := some precision }
      conclude batch finding.outcome
      drawGraphs batch s.reached.graph
      return finding) s.generator fun finding g' => finding = ⟨.sound, true⟩ ∧ Later t interest feasible g g' ∧
        ∀ i ∈ batch, g'.suite.resolved i = true := by
  have rest : ∀ g₁ : Explored, g₁.suite = s.generator.suite → g₁.diagram = s.generator.diagram →
      Later t interest feasible g g₁ → Ensures T (do
        conclude batch finding.outcome
        drawGraphs batch s.reached.graph
        return finding) g₁ fun finding g' => finding = ⟨.sound, true⟩ ∧ Later t interest feasible g g' ∧
          ∀ i ∈ batch, g'.suite.resolved i = true := by
    intro g₁ suite diagram later
    rw [concluded.finding, ensures_bind]
    apply (conclude_ensures fair later.good known distinct ?_).mono
    · intro _ g₂ h
      obtain ⟨later₂, resolved⟩ := h
      rw [ensures_bind]
      apply (drawGraphs_ensures later₂.good concluded.program concluded.sound).mono
      intro _ g₃ h
      obtain ⟨later₃, suite₃⟩ := h
      refine ⟨rfl, later.trans (later₂.trans later₃), fun i mem => ?_⟩
      rw [suite₃]
      exact resolved i mem
    · rw [suite, diagram]
      exact concluded.refuted
  have good := concluded.later.good
  split
  next =>
    rw [ensures_bind, ensures_modify]
    exact rest _ rfl rfl (concluded.later.trans ⟨{ good with }, rfl, .refl _, fun _ _ h => h, List.prefix_refl _⟩)
  next => exact rest _ rfl rfl concluded.later

include fair judges known distinct in
/-- A search decides what is open in a batch. -/
theorem search_ensures (good : Good t interest feasible g) (left : ∃ i ∈ batch, g.suite.resolved i = false) :
    Ensures T (search analysis fuel batch) g fun finding g' => finding = ⟨.sound, true⟩ ∧
      Later t interest feasible g g' ∧ ∀ i ∈ batch, g'.suite.resolved i = true := by
  let goals := batch.filter fun i => !g.suite.resolved i
  have mem_goals : ∀ i, i ∈ goals ↔ i ∈ batch ∧ g.suite.resolved i = false := fun i => by simp [goals]
  obtain ⟨i₀, member₀, left₀⟩ := left
  have some_goal : i₀ ∈ goals := (mem_goals i₀).2 ⟨member₀, left₀⟩
  rw [search, ensures_bind, ensures_unresolved (known_of_good known good), ensures_bind]
  apply (observers_ensures good (fun i mem => known i ((mem_goals i).1 mem).1) (List.ne_nil_of_mem some_goal)).mono
  intro observers g' h
  obtain ⟨same, components, observes⟩ := h
  rw [same, ensures_bind]
  have enlists : Enlists t batch g components := by
    refine ⟨fun comp mem => ?_, fun i mem open' => observes.all i ((mem_goals i).2 ⟨mem, open'⟩)⟩
    obtain ⟨member, spec⟩ := observes.members comp mem
    exact ⟨((mem_goals _).1 member).1, spec⟩
  have fresh : ∀ comp ∈ components, g.suite.resolved comp.goal = false := fun comp mem =>
    ((mem_goals _).1 (observes.members comp mem).1).2
  apply (drawAutomata_ensures good observers).mono
  intro _ g₁ h
  obtain ⟨later₁, suite₁⟩ := h
  have rest : ∀ (region : Option Region) (g₂ : Explored), Later t interest feasible g g₂ ∧ g₂.suite = g.suite ∧
      Restricts t g₂ batch region → Ensures T (do
        let g ← get
        let precision := if g.settings.reusePrecision then g.precision else none
        let engine ← onShared (analysis.compose observers region precision)
        let initial ← onShared (analysis.initialState engine)
        let (finding, engine, reached) ← inSession engine (.start initial) do
          match region with
          | some r => Session.restrict analysis batch r
          | none => pure ()
          Session.explore analysis fuel batch
        if g.settings.reusePrecision then
          modify fun g => { g with precision := some (analysis.precision engine) }
        conclude batch finding.outcome
        drawGraphs batch reached.graph
        return finding) g₂ fun finding g' => finding = ⟨.sound, true⟩ ∧ Later t interest feasible g g' ∧
          ∀ i ∈ batch, g'.suite.resolved i = true := by
    intro region g₂ h
    obtain ⟨later₂, suite₂, restricts⟩ := h
    rw [ensures_bind, ensures_get, ensures_bind]
    apply (composed_ensures fair later₂.good observes restricts).mono
    intro x g₃ h
    obtain ⟨same, rfl⟩ := h
    rw [same, ensures_bind]
    apply (initial_ensures fair observes (known i₀ member₀) later₂ restricts).mono
    intro state g₄ h
    obtain ⟨suite₄, later₄, working⟩ := h
    have fresh₄ : ∀ comp ∈ components, g₄.suite.resolved comp.goal = false := by
      rw [suite₄, suite₂]
      exact fresh
    have restricts₄ := restricts.grown later₂.good later₄ suite₄
    rw [ensures_bind, ensures_inSession]
    apply (explored_ensures fair judges known distinct good enlists working fresh₄ restricts₄).mono
    intro finding s concluded
    exact settled_ensures fair known distinct concluded
  have region := region_ensures (T := T) later₁.good known
  rw [ensures_bind, ensures_get]
  dsimp only
  split
  next tracks =>
    rw [if_pos tracks] at region
    rw [ensures_bind]
    apply region.mono
    intro region g₂ h
    exact rest region g₂ ⟨later₁.trans h.1, h.2.1.trans suite₁, h.2.2⟩
  next plain =>
    rw [if_neg plain] at region
    exact rest none g₁ ⟨later₁.trans region.1, region.2.1.trans suite₁, region.2.2⟩

end Search

end Generator

end GoalCoverage
