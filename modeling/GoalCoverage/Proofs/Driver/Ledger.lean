import GoalCoverage.Generation.Schedule
import GoalCoverage.Proofs.Pointwise
import GoalCoverage.Proofs.Procedure
import GoalCoverage.Proofs.StateGraph.Retention
import GoalCoverage.Proofs.Suite.Progress

/-!
What generators record, whatever analysis they use. Replay and harvest cover goals that were open, and giving up makes
goals infeasible; in between the diagram may grow. Nothing is said of what goes wrong.
-/

namespace GoalCoverage

open Procedure Diagram

namespace Suite

variable {s : Suite} {i : Nat} {l l' : List Nat} {b : Bool}

theorem resolved_of_eq_ok (ok : s.isResolved i = .ok b) : s.resolved i = b := by
  rw [isResolved] at ok
  rw [resolved]
  split at ok
  next tracks =>
    obtain ⟨γ, found, ok⟩ := Except.bind_eq_ok.1 ok
    rw [if_pos tracks, goal_of_eq_ok found]
    exact Except.ok.inj ok
  next plain =>
    rw [if_neg plain]
    exact Except.ok.inj ok

theorem all_resolved_of_eq_ok (ok : s.areResolved l = .ok b) : l.all s.resolved = b := by
  induction l with
  | nil => exact Except.ok.inj ok
  | cons i rest ih =>
    obtain ⟨first, here, ok⟩ := Except.bind_eq_ok.1 ok
    rw [List.all_cons, resolved_of_eq_ok here]
    cases first with
    | true => exact ih ok
    | false => exact Except.ok.inj ok

theorem filter_resolved_of_eq_ok (ok : s.unresolved l = .ok l') : l' = l.filter fun i => !s.resolved i := by
  induction l generalizing l' with
  | nil =>
    cases ok
    rfl
  | cons i rest ih =>
    rw [unresolved, List.filterMapM_cons] at ok
    obtain ⟨o, first, ok⟩ := Except.bind_eq_ok.1 ok
    obtain ⟨b, here, yields⟩ := Except.bind_eq_ok.1 first
    have same := resolved_of_eq_ok here
    cases yields
    cases b with
    | true =>
      rw [List.filter_cons_of_neg (by simp [same])]
      exact ih ok
    | false =>
      obtain ⟨more, others, ok⟩ := Except.bind_eq_ok.1 ok
      rw [List.filter_cons_of_pos (by simp [same]), ← ih others]
      exact (Except.ok.inj ok).symm

end Suite

namespace Generator

variable {F P α : Type} {g g' g'' : Generator F P} {i : Nat} {l l' : List Nat} {region : Option Region} {covers covers' excludes excludes' : Nat → Prop}

/-- The regions of a generator belong to its diagram. -/
structure Tidy (g : Generator F P) : Prop where
  drawn : g.suite.Drawn g.diagram
  presence : g.suite.variability = true → ∀ t ∈ g.suite.testCases, ∀ n, g.diagram.Knows (t.presenceAfter n)

/-- `g'` comes after `g`; only goals in `covers` were covered since, and only goals in `excludes` found infeasible. -/
structure Develops (covers excludes : Nat → Prop) (g g' : Generator F P) : Prop where
  tidy : g'.Tidy
  suite : Suite.Develops covers excludes g.suite g.diagram g'.suite g'.diagram
  settings : g'.settings = g.settings
  order : g'.order = g.order
  timeouts : g'.timeouts = g.timeouts

namespace Develops

theorem refl (tidy : g.Tidy) : g.Develops covers excludes g :=
  ⟨tidy, .refl tidy.drawn, rfl, rfl, rfl⟩

theorem trans (first : g.Develops covers excludes g') (second : g'.Develops covers excludes g'') :
    g.Develops covers excludes g'' where
  tidy := second.tidy
  suite := first.suite.trans second.suite
  settings := second.settings.trans first.settings
  order := second.order.trans first.order
  timeouts := second.timeouts.trans first.timeouts

theorem mono (h : g.Develops covers excludes g') (wider : ∀ i, covers i → covers' i)
    (wider' : ∀ i, excludes i → excludes' i) : g.Develops covers' excludes' g' :=
  { h with suite := h.suite.mono wider wider' }

end Develops

/-- `g'` comes after `g` without the work of an engine. -/
structure Records (covers excludes : Nat → Prop) (g g' : Generator F P) : Prop extends g.Develops covers excludes g' where
  surroundings : g'.surroundings = g.surroundings
  precision : g'.precision = g.precision

namespace Records

theorem refl (tidy : g.Tidy) : g.Records covers excludes g := ⟨.refl tidy, rfl, rfl⟩

theorem trans (first : g.Records covers excludes g') (second : g'.Records covers excludes g'') :
    g.Records covers excludes g'' where
  toDevelops := first.toDevelops.trans second.toDevelops
  surroundings := second.surroundings.trans first.surroundings
  precision := second.precision.trans first.precision

theorem mono (h : g.Records covers excludes g') (wider : ∀ i, covers i → covers' i)
    (wider' : ∀ i, excludes i → excludes' i) : g.Records covers' excludes' g' :=
  { h with toDevelops := h.toDevelops.mono wider wider' }

end Records

/-- A goal is open for some configuration of a region. -/
def Meets (g : Generator F P) (i : Nat) (region : Option Region) : Prop :=
  ∃ c, g.suite.Leaves g.diagram i c ∧ (g.suite.variability = true → g.diagram.Within region c)

/-- It stays so while nothing is recorded. -/
theorem Meets.grows (meets : g.Meets i region) (tidy : g.Tidy) (known : g.suite.variability = true → g.diagram.Knows region)
    (suite : g'.suite = g.suite) (ext : g.suite.variability = true → g.diagram.Extends g'.diagram) : g'.Meets i region := by
  obtain ⟨c, open', within⟩ := meets
  refine ⟨c, ?_, fun tracks => ?_⟩
  · rw [suite]
    exact (tidy.drawn.leaves_extends ext).2 open'
  · rw [suite] at tracks
    exact ((ext tracks).within_iff (tidy.drawn.ready tracks) (known tracks)).2 (within tracks)

/-- For some configuration a goal of the list was open in `g` and is not in `g'`. -/
def Closes (l : List Nat) (g g' : Generator F P) : Prop :=
  ∃ i ∈ l, ∃ c, g.suite.Leaves g.diagram i c ∧ ¬g'.suite.Leaves g'.diagram i c

theorem Closes.mono (closes : g.Closes l g') (wider : ∀ i ∈ l, i ∈ l') : g.Closes l' g' := by
  obtain ⟨i, mem, closed⟩ := closes
  exact ⟨i, wider i mem, closed⟩

/-- `g'` comes after `g` by test cases for goals of the list; there are more only if less is open. -/
structure Earns (l : List Nat) (covers : Nat → Prop) (g g' : Generator F P) : Prop
    extends g.Records covers (fun _ => False) g' where
  closes : g'.suite.testCases ≠ g.suite.testCases → g.Closes l g'

namespace Earns

theorem refl (tidy : g.Tidy) : g.Earns l covers g := ⟨.refl tidy, fun more => absurd rfl more⟩

theorem trans (first : g.Earns l covers g') (second : g'.Earns l covers g'') : g.Earns l covers g'' where
  toRecords := first.toRecords.trans second.toRecords
  closes more := by
    by_cases later : g''.suite.testCases = g'.suite.testCases
    · rw [later] at more
      obtain ⟨i, mem, c, open', closed⟩ := first.closes more
      exact ⟨i, mem, c, open', fun again => closed (second.suite.leaves i c again)⟩
    · obtain ⟨i, mem, c, open', closed⟩ := second.closes later
      exact ⟨i, mem, c, first.suite.leaves i c open', closed⟩

theorem mono (earns : g.Earns l covers g') (wider : ∀ i ∈ l, i ∈ l') (wider' : ∀ i, covers i → covers' i) :
    g.Earns l' covers' g' :=
  ⟨earns.toRecords.mono wider' fun _ h => h, fun more => (earns.closes more).mono wider⟩

end Earns

section Rules

variable {Q : α → Generator F P → Prop}

theorem ensures_ask_iff {f : Suite → Except Violation α} :
    Ensures anything (ask f) g Q ↔ ∀ a, f g.suite = .ok a → Q a g := by
  rw [Ensures, ask]
  cases f g.suite with
  | ok a => simp
  | error v => simp [anything]

theorem ensures_onRegions_iff {m : Regional α} :
    Ensures anything (onRegions m) g Q ↔ ∀ a d, m g.diagram = .ok (a, d) → Q a { g with diagram := d } := by
  rw [Ensures, onRegions]
  cases m g.diagram with
  | ok r =>
    obtain ⟨a, d⟩ := r
    simp
  | error v => simp [anything]

theorem ensures_onRegions_of {tracks : Bool} {m : StateM Diagram α} {R : α → Diagram → Prop}
    (yields : Yields tracks m g.diagram R) (holds : ∀ a d, g.diagram.Extends d → d.Ready tracks → R a d → Q a { g with diagram := d }) :
    Ensures anything (onRegions (m : Regional α)) g Q :=
  holds _ _ yields.1 yields.2.1 yields.2.2

theorem ensures_changeSuite_iff {f : Suite → Regional Suite} {Q : Unit → Generator F P → Prop} :
    Ensures anything (changeSuite f) g Q ↔
      ∀ s d, f g.suite g.diagram = .ok (s, d) → Q () { g with diagram := d, suite := s } := by
  rw [changeSuite, ensures_bind, ensures_get, ensures_bind, ensures_onRegions_iff]
  exact Iff.rfl

theorem ensures_isResolved_of {Q : Bool → Generator F P → Prop} (holds : Q (g.suite.resolved i) g) :
    Ensures anything (isResolved i) g Q :=
  ensures_ask_iff.2 fun _ ok => Suite.resolved_of_eq_ok ok ▸ holds

theorem ensures_isDone_of {batch : List Nat} {Q : Bool → Generator F P → Prop}
    (holds : Q (batch.all g.suite.resolved) g) : Ensures anything (isDone batch) g Q :=
  ensures_ask_iff.2 fun _ ok => Suite.all_resolved_of_eq_ok ok ▸ holds

theorem ensures_unresolved_of {batch : List Nat} {Q : List Nat → Generator F P → Prop}
    (holds : Q (batch.filter fun i => !g.suite.resolved i) g) : Ensures anything (unresolved batch) g Q :=
  ensures_ask_iff.2 fun _ ok => (Suite.filter_resolved_of_eq_ok ok).symm ▸ holds

theorem ensures_goal_of {Q : Goal → Generator F P → Prop} (holds : ∀ γ, g.suite.goals.get? i = some γ → Q γ g) :
    Ensures anything (goal i) g Q :=
  ensures_ask_iff.2 fun γ ok => holds γ (Suite.goal_of_eq_ok ok)

end Rules

section Recording

variable (tidy : g.Tidy)

include tidy

/-- The diagram may grow at any time. -/
theorem Tidy.grows {d : Diagram} (ext : g.suite.variability = true → g.diagram.Extends d)
    (ready : d.Ready g.suite.variability) : g.Records covers excludes { g with diagram := d } := by
  have drawn := tidy.drawn.extends ext ready
  have presence : g.suite.variability = true → ∀ t ∈ g.suite.testCases, ∀ n, d.Knows (t.presenceAfter n) :=
    fun tracks t mem n => (ext tracks).knows (tidy.presence tracks t mem n)
  exact ⟨⟨⟨drawn, presence⟩, { Suite.Develops.refl (d := d) drawn with
      leaves := fun _ _ => (tidy.drawn.leaves_extends ext).1
      grows := ext }, rfl, rfl, rfl⟩, rfl, rfl⟩

theorem Tidy.recorded {s' : Suite} {d' : Diagram} (suite : Suite.Develops covers excludes g.suite g.diagram s' d')
    (testCases : s'.testCases = g.suite.testCases) :
    g.Records covers excludes { g with diagram := d', suite := s' } := by
  refine ⟨⟨⟨suite.drawn, fun tracks t mem n => ?_⟩, suite, rfl, rfl, rfl⟩, rfl, rfl⟩
  have tracked : g.suite.variability = true := suite.variability.symm.trans tracks
  exact (suite.grows tracked).knows (tidy.presence tracked t (testCases ▸ mem) n)

theorem recordCoverage_ensures {n : Nat} {region : Option Region}
    (known : g.suite.variability = true → g.diagram.Knows region) :
    Ensures anything (changeSuite (·.recordCoverage n i region)) g fun _ g' => g.Records (· = i) (fun _ => False) g' := by
  rw [ensures_changeSuite_iff]
  intro s d ok
  obtain ⟨develops, testCases⟩ := Suite.recordCoverage_develops tidy.drawn known ok
  exact tidy.recorded develops testCases

theorem ensures_addTestCase_of {t : TestCase} {region : Option Region}
    (known : g.suite.variability = true → g.diagram.Knows region)
    (presence : g.suite.variability = true → ∀ n, g.diagram.Knows (t.presenceAfter n)) :
    Ensures anything (changeSuite (·.addTestCase t i region)) g fun _ g' => g.Records (· = i) (fun _ => False) g' ∧
      ∀ c, (g.suite.variability = true → g.diagram.Within region c) → ¬g'.suite.Leaves g'.diagram i c := by
  have stored : Suite.Develops (· = i) (fun _ => False) g.suite g.diagram (g.suite.stored t) g.diagram ∧
      (g.suite.variability = true → ∀ t' ∈ (g.suite.stored t).testCases, ∀ n, g.diagram.Knows (t'.presenceAfter n)) := by
    rw [Suite.stored]
    split
    next =>
      refine ⟨Suite.develops_of_books tidy.drawn rfl rfl rfl (fun _ _ h => h) (fun _ _ => .inl) (fun _ h => h) fun _ => .inl,
        fun tracks t' mem n => ?_⟩
      cases List.mem_append.1 mem with
      | inl old => exact tidy.presence tracks t' old n
      | inr new => exact List.mem_singleton.1 new ▸ presence tracks n
    next => exact ⟨.refl tidy.drawn, tidy.presence⟩
  obtain ⟨develops, shown⟩ := stored
  rw [ensures_changeSuite_iff]
  intro s d ok
  rw [Suite.addTestCase_eq] at ok
  have known' : (g.suite.stored t).variability = true → g.diagram.Knows region := fun tracks =>
    known (develops.variability.symm.trans tracks)
  obtain ⟨recorded, testCases⟩ := Suite.recordCoverage_develops develops.drawn known' ok
  have whole := develops.trans recorded
  refine ⟨⟨⟨⟨recorded.drawn, fun tracks t' mem n => ?_⟩, whole, rfl, rfl, rfl⟩, rfl, rfl⟩, fun c within =>
    Suite.recordCoverage_closes develops.drawn known' ok fun tracks => within (develops.variability.symm.trans tracks)⟩
  have tracked : g.suite.variability = true := whole.variability.symm.trans tracks
  exact (whole.grows tracked).knows (shown tracked t' (testCases ▸ mem) n)

end Recording

/-- The regions of the states of an exploration belong to the diagram. -/
def Owns {S : Type} [AbstractState S] (g : Generator F P) (x : Exploration S) : Prop :=
  g.suite.variability = true → ∀ n v, x.graph.node? n = some v → g.diagram.Knows (AbstractState.presence v.state)

section Harvest

variable {S : Type} [AbstractState S] {x : Exploration S} {batch goals : List Nat} {route : Route}
  {inputs : List Int}

theorem Owns.develops (owns : g.Owns x) (develops : g.Develops covers excludes g') : g'.Owns x := by
  intro tracks n v here
  have tracked : g.suite.variability = true := develops.suite.variability.symm.trans tracks
  exact (develops.suite.grows tracked).knows (owns tracked n v here)

theorem isOpenFor_develops {γ : Goal} (tidy : g.Tidy) (here : g.suite.goals.get? i = some γ)
    (known : g.suite.variability = true → g.diagram.Knows region) (pending : g.suite.resolved i = false) :
    Ensures anything (isOpenFor γ region) g fun open' g' => g.Records covers excludes g' ∧ g'.suite = g.suite ∧
      (open' = true → g.Meets i region) := by
  rw [isOpenFor, ensures_bind, ensures_get]
  split
  next _ _ r tracks =>
    obtain ⟨open', left, has⟩ := tidy.drawn.opened tracks i γ here
    have opened : g.diagram.Has γ.openRegion := by
      rw [Goal.openRegion, left]
      exact has
    rw [ensures_bind]
    apply ensures_onRegions_of (disjoint_yields (tidy.drawn.ready tracks) opened (known tracks r rfl))
    intro apart d ext ready disjoint
    refine ⟨tidy.grows (fun _ => ext) fun _ => ready rfl, rfl, fun overlap => ?_⟩
    rw [Bool.not_eq_true', ← Bool.not_eq_true, disjoint, not_forall] at overlap
    obtain ⟨c, overlap⟩ := overlap
    obtain ⟨open', within⟩ := not_not.1 overlap
    exact ⟨c, (Suite.leaves_of_tracked tracks).2 ⟨γ, here, open'⟩, fun _ => within_some.2 within⟩
  next other =>
    refine ⟨.refl tidy, rfl, fun _ => ?_⟩
    have open' := mt (tidy.drawn.resolved_iff here).2 (by simp [pending])
    rw [not_forall] at open'
    obtain ⟨c, open'⟩ := open'
    exact ⟨c, not_not.1 open', fun tracks r same => absurd same (other r tracks)⟩

theorem knows_regionAt {d : Diagram} {presence : List (Option Region)} {edge : EdgeId}
    (known : ∀ o ∈ presence, d.Knows o) : d.Knows (regionAt route presence edge) := by
  intro r same
  rw [regionAt] at same
  split at same
  next => exact known _ (List.mem_of_getElem? (Option.join_eq_some_iff.1 same)) r rfl
  next => exact known _ (List.mem_of_getLast? (Option.join_eq_some_iff.1 same)) r rfl

/-- The goals of a list that a test case is recorded for, with regions of the diagram for which they are open. -/
def Chosen (g : Generator F P) (goals : List Nat) (entries : List (Nat × Option Region)) : Prop :=
  ∀ entry ∈ entries, entry.1 ∈ goals ∧ (g.suite.variability = true → g.diagram.Knows entry.2) ∧ g.Meets entry.1 entry.2

theorem choose_ensures {presence : List (Option Region)} (tidy : g.Tidy) (pending : ∀ i ∈ goals, g.suite.resolved i = false)
    (known : g.suite.variability = true → ∀ o ∈ presence, g.diagram.Knows o) :
    Ensures anything (goals.filterMapM fun index => do
      let goal ← Generator.goal index
      let region := regionAt route presence goal.criticalEdge
      return if ← isOpenFor goal region then some (index, region) else none) g fun entries g' =>
        g.Records covers excludes g' ∧ g'.suite = g.suite ∧ g'.Chosen goals entries := by
  apply Ensures.filterMapM
    (I := fun _ entries g' => g.Records covers excludes g' ∧ g'.suite = g.suite ∧ g'.Chosen goals entries) _
    ⟨.refl tidy, rfl, by simp [Chosen]⟩
  intro i done entries g' mem holds
  obtain ⟨develops, same, chosen⟩ := holds
  have known' : ∀ edge, g'.suite.variability = true → g'.diagram.Knows (regionAt route presence edge) := by
    intro edge tracks
    have tracked := develops.suite.variability.symm.trans tracks
    exact (develops.suite.grows tracked).knows (knows_regionAt (known tracked))
  rw [ensures_bind]
  apply ensures_goal_of
  intro γ here
  rw [ensures_bind]
  apply (isOpenFor_develops develops.tidy here (known' γ.criticalEdge) (same ▸ pending i mem)).mono
  intro opened g'' h
  obtain ⟨grown, suite, meets⟩ : g'.Records covers excludes g'' ∧ _ := h
  have grows : g'.suite.variability = true → g'.diagram.Extends g''.diagram := grown.suite.grows
  refine ⟨develops.trans grown, suite.trans same, fun entry mem' => ?_⟩
  have kept : ∀ region, (g'.suite.variability = true → g'.diagram.Knows region) → g'.Meets entry.1 region →
      (g''.suite.variability = true → g''.diagram.Knows region) ∧ g''.Meets entry.1 region := fun region knows meets =>
    ⟨fun tracks => (grows (suite ▸ tracks)).knows (knows (suite ▸ tracks)), meets.grows develops.tidy knows suite grows⟩
  cases List.mem_append.1 mem' with
  | inl old =>
    obtain ⟨member, knows, meets⟩ := chosen entry old
    exact ⟨member, kept _ knows meets⟩
  | inr new =>
    cases opened with
    | true =>
      have last : entry = (i, regionAt route presence γ.criticalEdge) := by simpa using new
      subst last
      exact ⟨mem, kept _ (known' γ.criticalEdge) (meets rfl)⟩
    | false => cases new

omit [AbstractState S] in
/-- The states along a route. -/
theorem ensures_states_of {Q : List S → Generator F P → Prop}
    (holds : ∀ states, (∀ s ∈ states, ∃ n v, x.graph.node? n = some v ∧ v.state = s) → Q states g) :
    Ensures anything (route.nodes.mapM fun n => attempt fun g : Generator F P => return (← x.graph.state n, g)) g Q := by
  have looked : Ensures anything (route.nodes.mapM fun n => attempt fun g : Generator F P => return (← x.graph.state n, g)) g
      fun states g' => g' = g ∧ List.Forall₂ (fun n s => ∃ v, x.graph.node? n = some v ∧ v.state = s) route.nodes states := by
    apply Ensures.lookups
    intro n _
    rw [ensures_attempt_iff]
    intro s g' ok
    obtain ⟨s₁, found, same⟩ := Except.bind_eq_ok.1 ok
    cases same
    obtain ⟨v, there, state⟩ := Except.bind_eq_ok.1 found
    refine ⟨rfl, v, ?_, Except.ok.inj state⟩
    rw [StateGraph.node] at there
    split at there
    next here => exact here.trans (congrArg some (Except.ok.inj there))
    next => cases there
  apply looked.mono
  intro states g' h
  obtain ⟨rfl, each⟩ := h
  refine holds states fun s mem => ?_
  obtain ⟨n, _, v, here, state⟩ := exists_of_forall₂_right each mem
  exact ⟨n, v, here, state⟩

omit [AbstractState S] in
theorem recordAll_develops {t : TestCase} {entries : List (Nat × Option Region)} (tidy : g.Tidy)
    (chosen : g.Chosen goals entries) (presence : g.suite.variability = true → ∀ n, g.diagram.Knows (t.presenceAfter n)) :
    Ensures anything (entries.forM fun entry => changeSuite (·.addTestCase t entry.1 entry.2)) g fun _ g' =>
      g.Records (· ∈ goals) (fun _ => False) g' ∧ (entries ≠ [] → g.Closes goals g') := by
  apply Ensures.forM (I := fun done g' => g.Records (· ∈ goals) (fun _ => False) g' ∧ (done ≠ [] → g.Closes goals g')) _
    ⟨.refl tidy, fun some => absurd rfl some⟩
  intro entry done rest g' whole holds
  obtain ⟨develops, _⟩ := holds
  obtain ⟨member, known, c, open', within⟩ := chosen entry (by simp [whole])
  have tracked : g'.suite.variability = true → g.suite.variability = true := develops.suite.variability.symm.trans
  have later : ∀ o, (g.suite.variability = true → g.diagram.Knows o) → g'.suite.variability = true → g'.diagram.Knows o :=
    fun o knows tracks => (develops.suite.grows (tracked tracks)).knows (knows (tracked tracks))
  apply (ensures_addTestCase_of develops.tidy (later _ known) fun tracks n => later _ (fun h => presence h n) tracks).mono
  intro _ g'' h
  obtain ⟨recorded, closed⟩ := h
  refine ⟨develops.trans (recorded.mono (fun j same => same ▸ member) fun _ h => h), fun _ => ⟨_, member, c, open', ?_⟩⟩
  apply closed c
  intro tracks
  have ready := tidy.drawn.ready (tracked tracks)
  exact ((develops.suite.grows (tracked tracks)).within_iff ready (known (tracked tracks))).2 (within (tracked tracks))

/-- Only the goals that a test case is made for are covered by it, and one of them was open where it is covered. -/
theorem addTestCase_develops (tidy : g.Tidy) (owns : g.Owns x) (pending : ∀ i ∈ goals, g.suite.resolved i = false) :
    Ensures anything (addTestCase goals route inputs x) g fun _ g' => g.Earns goals (· ∈ goals) g' := by
  rw [addTestCase, ensures_bind]
  apply ensures_states_of
  intro states shown
  have known : g.suite.variability = true → ∀ o ∈ states.map AbstractState.presence, g.diagram.Knows o := by
    intro tracks o mem
    obtain ⟨s, there, rfl⟩ := List.mem_map.1 mem
    obtain ⟨n, v, here, rfl⟩ := shown s there
    exact owns tracks n v here
  dsimp only
  rw [ensures_bind]
  apply (choose_ensures tidy pending known).mono
  intro entries g' h
  obtain ⟨develops, suite, chosen⟩ := h
  cases entries with
  | nil => exact ⟨develops, fun more => absurd (congrArg Suite.testCases suite) more⟩
  | cons entry rest =>
    dsimp only
    rw [ensures_bind, ensures_get, ensures_bind, ensures_set]
    have counted : g.Records (· ∈ goals) (fun _ => False) { g' with nextTestCase := g'.nextTestCase + 1 } :=
      ⟨⟨⟨develops.tidy.drawn, develops.tidy.presence⟩, develops.suite, develops.settings, develops.order, develops.timeouts⟩,
        develops.surroundings, develops.precision⟩
    apply (recordAll_develops counted.tidy chosen fun tracks n => ?_).mono
    · intro _ g'' h
      obtain ⟨recorded, closes⟩ := h
      refine ⟨counted.trans recorded, fun _ => ?_⟩
      obtain ⟨i, mem, c, open', closed⟩ := closes (List.cons_ne_nil _ _)
      exact ⟨i, mem, c, counted.suite.leaves i c open', closed⟩
    · have tracked := develops.suite.variability.symm.trans tracks
      intro r same
      exact (develops.suite.grows tracked).knows (known tracked _ (List.mem_of_getElem? (Option.join_eq_some_iff.1 same))) r rfl

/-- A goal of a batch that is not resolved. -/
def Pending (g : Generator F P) (batch : List Nat) (i : Nat) : Prop := i ∈ batch ∧ g.suite.resolved i = false

omit [AbstractState S] in
theorem Develops.pending (develops : g.Develops covers excludes g') (tidy : g.Tidy) (pending : g'.Pending batch i) :
    g.Pending batch i := by
  refine ⟨pending.1, Bool.eq_false_iff.2 fun resolved => ?_⟩
  have still := develops.suite.resolved tidy.drawn resolved
  rw [pending.2] at still
  cases still

omit [AbstractState S] in
/-- Test cases for some of the goals that are pending. -/
theorem Earns.of_pending {left : List Nat} (earns : g.Earns left (· ∈ left) g') (sub : ∀ i ∈ left, g.Pending batch i) :
    g.Earns batch (g.Pending batch) g' := earns.mono (fun i mem => (sub i mem).1) sub

theorem addReconstructed_develops {target : NodeId} (tidy : g.Tidy) (owns : g.Owns x) :
    Ensures anything (addReconstructed batch x target) g fun _ g' => g.Earns batch (g.Pending batch) g' := by
  rw [addReconstructed, ensures_bind, ensures_attempt_iff]
  intro route g₁ ok
  obtain ⟨_, _, same⟩ := Except.bind_eq_ok.1 ok
  cases same
  rw [ensures_bind, ensures_attempt_iff]
  intro state g₁ ok
  obtain ⟨_, _, same⟩ := Except.bind_eq_ok.1 ok
  cases same
  rw [ensures_bind]
  apply ensures_unresolved_of
  have sub : ∀ i ∈ (batch.filter fun i => !g.suite.resolved i).filter (AbstractState.accepted state).contains,
      g.Pending batch i := by
    intro i mem
    simp only [List.mem_filter, Bool.not_eq_true'] at mem
    exact mem.1
  apply (addTestCase_develops tidy owns fun i mem => (sub i mem).2).mono
  exact fun _ g' earns => earns.of_pending sub

omit [AbstractState S] in
/-- The goals of a list whose critical edges are on a route. -/
theorem crossing_ensures {l : List Nat} {edges : List EdgeId} :
    Ensures anything (l.filterM fun i => return edges.contains (← goal i).criticalEdge) g fun goals g' => g' = g ∧
      goals = l.filter fun i => (g.suite.goals.get? i).any fun γ => edges.contains γ.criticalEdge := by
  apply Ensures.filterM
  intro i _
  rw [ensures_bind]
  apply ensures_goal_of
  intro γ here
  rw [here]
  exact ⟨rfl, rfl⟩

theorem addExplained_develops {c : Counterexample} (tidy : g.Tidy) (owns : g.Owns x) :
    Ensures anything (addExplained batch x c) g fun _ g' => g.Earns batch (g.Pending batch) g' := by
  rw [addExplained]
  split
  next => exact .refl tidy
  next =>
    rw [ensures_bind]
    apply ensures_unresolved_of
    rw [ensures_bind]
    apply crossing_ensures.mono
    intro goals g₁ h
    obtain ⟨rfl, same⟩ := h
    have sub : ∀ i ∈ goals, g₁.Pending batch i := by
      intro i mem
      rw [same] at mem
      simp only [List.mem_filter, Bool.not_eq_true'] at mem
      exact mem.1
    apply (addTestCase_develops tidy owns fun i mem => (sub i mem).2).mono
    exact fun _ g' earns => earns.of_pending sub

/-- Each of them may be covered only while it is pending. -/
theorem forM_develops {β : Type} {f : β → Procedure (Generator F P) PUnit} {l : List β} (tidy : g.Tidy)
    (owns : g.Owns x) (step : ∀ b ∈ l, ∀ g₁ : Generator F P, g₁.Tidy → g₁.Owns x → Ensures anything (f b) g₁ fun _ g₂ =>
      g₁.Earns batch (g₁.Pending batch) g₂) :
    Ensures anything (l.forM f) g fun _ g' => g.Earns batch (g.Pending batch) g' := by
  apply Ensures.forM (I := fun _ g' => g.Earns batch (g.Pending batch) g') _ (.refl tidy)
  intro b done rest g' whole earns
  apply (step b (by simp [whole]) g' earns.tidy (owns.develops earns.toDevelops)).mono
  intro _ g'' more
  exact earns.trans (more.mono (fun _ h => h) fun i => earns.toDevelops.pending tidy)

/-- How a harvest leaves the generator. It covers goals that were pending, and leaves a part of the exploration. -/
structure Gathers (batch : List Nat) (x : Exploration S) (found : Harvest S) (g g' : Generator F P) : Prop
    extends g.Records (g.Pending batch) (fun _ => False) g' where
  owns : g'.Owns found.reached
  closes : 0 < found.created → g.Closes batch g'
  idle : found.targets = 0 → found.reached = x

theorem harvest_develops {counterexamples : IdMap Counterexample} (tidy : g.Tidy) (owns : g.Owns x) :
    Ensures anything (harvest batch counterexamples x) g fun found g' => g.Gathers batch x found g' := by
  rw [harvest]
  dsimp only
  split
  next => exact ⟨.refl tidy, owns, fun some => absurd some (Nat.lt_irrefl 0), fun _ => rfl⟩
  next busy =>
    rw [ensures_bind, ensures_get]
    have rest : ∀ g', g.Earns batch (g.Pending batch) g' → Ensures anything (do
        let created := (← get).suite.testCases.length - g.suite.testCases.length
        let reached ← attempt fun g : Generator F P => return (← x.consume x.targets, g)
        return (⟨x.targets.length, created, reached⟩ : Harvest S)) g' fun found g'' => g.Gathers batch x found g'' := by
      intro g' earns
      rw [ensures_bind, ensures_get, ensures_bind, ensures_attempt_iff]
      intro y g'' ok
      obtain ⟨y', consumed, same⟩ := Except.bind_eq_ok.1 ok
      cases same
      refine ⟨earns.toRecords, fun tracks n v here => ?_, fun created => earns.closes fun same => ?_, fun none => ?_⟩
      · obtain ⟨v', before, state⟩ := Exploration.retains_consume consumed n v here
        exact state ▸ owns.develops earns.toDevelops tracks n v' before
      · rw [same, Nat.sub_self] at created
        exact absurd created (Nat.lt_irrefl 0)
      · exact absurd (List.isEmpty_iff.2 (List.length_eq_zero_iff.1 none)) busy
    split
    next =>
      rw [ensures_bind]
      apply (forM_develops tidy owns fun t _ g₁ tidy₁ owns₁ => addReconstructed_develops tidy₁ owns₁).mono
      exact fun _ g' earns => rest g' earns
    next =>
      rw [ensures_bind]
      apply (forM_develops tidy owns fun c _ g₁ tidy₁ owns₁ => addExplained_develops tidy₁ owns₁).mono
      exact fun _ g' earns => rest g' earns

end Harvest

end Generator

end GoalCoverage
