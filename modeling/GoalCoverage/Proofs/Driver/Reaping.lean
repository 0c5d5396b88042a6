import GoalCoverage.Generation.Harvest
import GoalCoverage.Proofs.Driver.Ledger
import GoalCoverage.Proofs.Exploration.Consumption
import GoalCoverage.Proofs.Generation.Rules
import GoalCoverage.Proofs.Generation.Start
import GoalCoverage.Proofs.StateGraph.Ancestry
import GoalCoverage.Proofs.Suite.Coverings
import GoalCoverage.Proofs.Suite.Postings
import GoalCoverage.Script

/-!
Harvests from any graph without cycles. A harvest ends, whatever targets there are and wherever its counterexamples lead,
and it consumes all targets. The test cases that it makes get the next numbers, and each of them covers a goal of the batch
that was open until then (`harvest_reaps`).
-/

namespace GoalCoverage

open Procedure StateGraph

namespace Suite

variable {s s' : Suite} {i j n : Nat} {γ : Goal} {t : TestCase}

theorem stored_of_known (known : (s.testCase? t.id).isSome = true) : s.stored t = s := by
  rw [stored, Option.isNone_eq_false_iff.2 known]
  rfl

/-- `s'` is `s` with the test case `t` added for the goal `i`. -/
structure Credits (s s' : Suite) (t : TestCase) (i : Nat) : Prop where
  variability : s'.variability = s.variability
  own : ∃ γ, s'.goals.get? i = some γ ∧ γ.index = i
  others : ∀ j, j ≠ i → s'.goals.get? j = s.goals.get? j
  testCases : s'.testCases = (s.stored t).testCases
  infeasible : s'.infeasible = s.infeasible
  lists : ∀ j n, s'.Lists j n ↔ s.Lists j n ∨ j = i ∧ t.id = n

theorem exists_credits (here : s.goals.get? i = some γ) (index : γ.index = i) (region : Option Region) (d : Diagram) :
    ∃ s' d', s.addTestCase t i region d = .ok (s', d') ∧ s.Credits s' t i := by
  have goals := goals_stored s t
  obtain ⟨s', d', ok⟩ : ∃ s' d', (s.stored t).recordCoverage t.id i region d = .ok (s', d') :=
    exists_recordCoverage (testCase?_stored s t) (goals ▸ here)
  obtain ⟨γ₁, γ', there, same, _, _, rfl, _⟩ := recordCoverage_eq_ok ok
  cases here.symm.trans (goals ▸ there)
  have variability : (s.stored t).variability = s.variability := by rw [stored_eq]
  have infeasible : (s.stored t).infeasible = s.infeasible := by rw [stored_eq]
  refine ⟨_, d', ok, variability, ⟨γ', ?own, same.index.trans index⟩, fun j other => ?others, rfl, infeasible,
    fun j n => (lists_insert rfl j n).trans (or_congr_left (lists_stored s t j n))⟩
  case own => exact (get?_setGoal index same).trans (if_pos rfl)
  case others => exact ((get?_setGoal index same).trans (if_neg other)).trans (congrArg (·.get? j) goals)

namespace Credits

variable (credits : s.Credits s' t i)

include credits

theorem index (before : ∀ j γ, s.goals.get? j = some γ → γ.index = j) (here : s'.goals.get? j = some γ) : γ.index = j := by
  by_cases own : j = i
  · obtain ⟨γ', there, index⟩ := credits.own
    subst own
    cases here.symm.trans there
    exact index
  · rw [credits.others j own] at here
    exact before j γ here

theorem known (here : s.goals.get? j = some γ) : ∃ γ', s'.goals.get? j = some γ' := by
  by_cases own : j = i
  · obtain ⟨γ', there, _⟩ := credits.own
    exact ⟨γ', own ▸ there⟩
  · exact ⟨γ, (credits.others j own).trans here⟩

theorem stored : (s'.testCase? t.id).isSome = true := by
  rw [testCase?, credits.testCases]
  exact testCase?_stored s t

/-- The other goals stay resolved. -/
theorem resolved (other : j ≠ i) (resolved : s.resolved j = true) : s'.resolved j = true := by
  rw [Suite.resolved] at resolved ⊢
  rw [credits.variability, credits.others j other, isInfeasible, credits.infeasible]
  split at resolved
  next tracks =>
    rw [if_pos tracks]
    exact resolved
  next plain =>
    rw [if_neg plain]
    rw [Bool.or_eq_true, isPartiallyCovered_iff] at resolved ⊢
    refine resolved.imp_left fun covered => ?_
    obtain ⟨n, lists⟩ := covered
    exact ⟨n, (credits.lists j n).2 (.inl lists)⟩

end Credits

end Suite

namespace Generator

variable {F P S : Type} {g g' g'' : Generator F P} {T : Failure → Prop} {batch goals : List Nat} {t : TestCase}
  {made made' : List TestCase} {i : Nat} {γ : Goal} {region : Option Region} {route : Route} {x : Exploration S}

/--
Goals are stored under their numbers, and the next test case gets a number that no test case has. New generators are so, and
those that have harvested.
-/
structure Numbered (g : Generator F P) : Prop where
  goals : ∀ i γ, g.suite.goals.get? i = some γ → γ.index = i
  testCases : ∀ t ∈ g.suite.testCases, t.id < g.nextTestCase

theorem numbered_ofGoals {settings : Settings} {program : Program} {given : List Goal} {managed : Bool} {diagram : Diagram}
    {surroundings : F} {clock : Nat → Duration}
    (made : ofGoals settings program given managed diagram surroundings clock = .ok g) : g.Numbered := by
  obtain ⟨_, suite⟩ := Suite.addGoals_eq { variability := settings.presenceConditions } given
  rw [ofGoals_eq_ok made]
  refine ⟨fun i γ here => ?_, fun t mem => ?_⟩
  · obtain ⟨γ₀, _, index, rfl⟩ := Suite.of_get?_addGoals here
    exact (γ₀.sameAs_enlisted _).index.trans index
  · dsimp only at mem
    rw [suite] at mem
    cases mem

/-- Nothing that `g` knows is lost in `g'`. -/
structure Onward (g g' : Generator F P) : Prop where
  numbered : g'.Numbered
  known : ∀ i γ, g.suite.goals.get? i = some γ → ∃ γ', g'.suite.goals.get? i = some γ'
  resolved : ∀ i, g.suite.resolved i = true → g'.suite.resolved i = true
  lists : ∀ i n, g.suite.Lists i n → g'.suite.Lists i n

theorem Onward.refl (numbered : g.Numbered) : g.Onward g :=
  ⟨numbered, fun _ γ here => ⟨γ, here⟩, fun _ h => h, fun _ _ h => h⟩

theorem Onward.trans (first : g.Onward g') (second : g'.Onward g'') : g.Onward g'' where
  numbered := second.numbered
  known i γ here := by
    obtain ⟨γ', here'⟩ := first.known i γ here
    exact second.known i γ' here'
  resolved i h := second.resolved i (first.resolved i h)
  lists i n h := second.lists i n (first.lists i n h)

/-- What is pending was pending before. -/
theorem Onward.pending (onward : g.Onward g') (pending : g'.Pending batch i) : g.Pending batch i := by
  refine ⟨pending.1, Bool.eq_false_iff.2 fun resolved => ?_⟩
  have still := onward.resolved i resolved
  rw [pending.2] at still
  cases still

/-- `g'` is `g` with one more test case, which covers a goal of the batch that was pending. -/
structure Makes (batch : List Nat) (t : TestCase) (g g' : Generator F P) : Prop extends g.Onward g' where
  id : t.id = g.nextTestCase
  next : g'.nextTestCase = g.nextTestCase + 1
  testCases : g'.suite.testCases = g.suite.testCases ++ [t]
  covers : ∃ i, g.Pending batch i ∧ g'.suite.Lists i t.id

/-- Test cases are made one after the other. In between only the diagram may change. -/
inductive Reaps (batch : List Nat) : List TestCase → Generator F P → Generator F P → Prop
  | done (g : Generator F P) : Reaps batch [] g g
  | turn {made : List TestCase} {g g' : Generator F P} (d : Diagram) :
    Reaps batch made { g with diagram := d } g' → Reaps batch made g g'
  | make {t : TestCase} {made : List TestCase} {g g' g'' : Generator F P} :
    g.Makes batch t g' → Reaps batch made g' g'' → Reaps batch (t :: made) g g''

namespace Reaps

theorem append (first : Reaps batch made g g') (second : Reaps batch made' g' g'') : Reaps batch (made ++ made') g g'' := by
  induction first with
  | done => exact second
  | turn d _ ih => exact .turn d (ih second)
  | make makes _ ih => exact .make makes (ih second)

theorem onward (reaps : Reaps batch made g g') (numbered : g.Numbered) : g.Onward g' := by
  induction reaps with
  | done => exact .refl numbered
  | turn d _ ih =>
    have more := ih ⟨numbered.goals, numbered.testCases⟩
    exact ⟨more.numbered, more.known, more.resolved, more.lists⟩
  | make makes _ ih => exact makes.toOnward.trans (ih makes.numbered)

theorem testCases (reaps : Reaps batch made g g') : g'.suite.testCases = g.suite.testCases ++ made := by
  induction reaps with
  | done => rw [List.append_nil]
  | turn d _ ih => exact ih
  | make makes _ ih => rw [ih, makes.testCases, List.append_assoc, List.singleton_append]

theorem ids (reaps : Reaps batch made g g') : made.map (·.id) = List.range' g.nextTestCase made.length := by
  induction reaps with
  | done => rfl
  | turn d _ ih => exact ih
  | make makes _ ih => rw [List.map_cons, ih, makes.id, makes.next, List.length_cons, List.range'_succ]

theorem covers (reaps : Reaps batch made g g') (numbered : g.Numbered) :
    ∀ t ∈ made, ∃ i, g.Pending batch i ∧ g'.suite.Lists i t.id := by
  induction reaps with
  | done => simp
  | turn d _ ih => exact ih ⟨numbered.goals, numbered.testCases⟩
  | make makes reaps ih =>
    intro t mem
    cases mem with
    | head =>
      obtain ⟨i, pending, lists⟩ := makes.covers
      exact ⟨i, pending, (reaps.onward makes.numbered).lists i _ lists⟩
    | tail _ mem =>
      obtain ⟨i, pending, lists⟩ := ih makes.numbered t mem
      exact ⟨i, makes.pending pending, lists⟩

end Reaps

/-- `g'` is `g` while the test case `t` is entered, after it was entered for the goals in `done`. -/
structure Inscribes (t : TestCase) (done : List Nat) (g g' : Generator F P) : Prop where
  goals : ∀ i γ, g'.suite.goals.get? i = some γ → γ.index = i
  known : ∀ i γ, g.suite.goals.get? i = some γ → ∃ γ', g'.suite.goals.get? i = some γ'
  next : g'.nextTestCase = g.nextTestCase + 1
  testCases : (g'.suite.stored t).testCases = g.suite.testCases ++ [t]
  stored : done ≠ [] → (g'.suite.testCase? t.id).isSome = true
  resolved : ∀ i ∉ done, g.suite.resolved i = true → g'.suite.resolved i = true
  lists : ∀ i n, g'.suite.Lists i n ↔ g.suite.Lists i n ∨ i ∈ done ∧ n = t.id

theorem Inscribes.start (numbered : g.Numbered) (d : Diagram) (id : t.id = g.nextTestCase) :
    g.Inscribes t [] { g with diagram := d, nextTestCase := g.nextTestCase + 1 } where
  goals := numbered.goals
  known _ γ here := ⟨γ, here⟩
  next := rfl
  testCases := by
    have fresh : (g.suite.testCase? t.id).isNone = true := by
      rw [Option.isNone_iff_eq_none, Suite.testCase?, List.find?_eq_none]
      intro t' mem same
      have lt := numbered.testCases t' mem
      rw [← id, ← eq_of_beq same] at lt
      exact Nat.lt_irrefl _ lt
    rw [Suite.stored, if_pos fresh]
  stored none := absurd rfl none
  resolved _ _ h := h
  lists i n := by simp

/-- The test case is stored with the first goal that it is entered for. -/
theorem Inscribes.step {done : List Nat} (inscribes : g.Inscribes t done g') (here : g.suite.goals.get? i = some γ)
    (region : Option Region) :
    Ensures T (changeSuite (·.addTestCase t i region)) g' fun _ g'' => g.Inscribes t (done ++ [i]) g'' := by
  obtain ⟨γ', now⟩ := inscribes.known i γ here
  obtain ⟨s', d', ok, credits⟩ := Suite.exists_credits (t := t) now (inscribes.goals i γ' now) region g'.diagram
  rw [ensures_changeSuite_of_ok ok]
  refine ⟨fun j γ there => credits.index inscribes.goals there, fun j γ there => ?known, inscribes.next, ?testCases,
    fun _ => credits.stored, fun j out resolved => ?resolved, fun j n => ?lists⟩
  case known =>
    obtain ⟨γ', between⟩ := inscribes.known j γ there
    exact credits.known between
  case testCases =>
    dsimp only
    rw [Suite.stored_of_known credits.stored]
    exact credits.testCases.trans inscribes.testCases
  case resolved =>
    rw [List.mem_append, List.mem_singleton, not_or] at out
    exact credits.resolved out.2 (inscribes.resolved j out.1 resolved)
  case lists =>
    dsimp only
    rw [credits.lists, inscribes.lists, List.mem_append, List.mem_singleton]
    grind

/-- Once it is entered for some pending goals, the test case is made. -/
theorem Inscribes.makes {done : List Nat} (inscribes : g.Inscribes t done g') (numbered : g.Numbered)
    (id : t.id = g.nextTestCase) (pending : ∀ i ∈ done, g.Pending batch i) (some_goal : done ≠ []) : g.Makes batch t g' := by
  have testCases : g'.suite.testCases = g.suite.testCases ++ [t] := by
    rw [← inscribes.testCases, Suite.stored_of_known (inscribes.stored some_goal)]
  have numbered' : g'.Numbered := by
    refine ⟨inscribes.goals, fun t' mem => ?_⟩
    rw [testCases, List.mem_append, List.mem_singleton] at mem
    rw [inscribes.next]
    cases mem with
    | inl old => exact Nat.lt_succ_of_lt (numbered.testCases t' old)
    | inr new =>
      rw [new, id]
      exact Nat.lt_succ_self _
  have resolved : ∀ i, g.suite.resolved i = true → g'.suite.resolved i = true := by
    intro i before
    refine inscribes.resolved i (fun mem => ?_) before
    have left := (pending i mem).2
    rw [before] at left
    cases left
  obtain ⟨i, mem⟩ := List.exists_mem_of_ne_nil done some_goal
  exact ⟨⟨numbered', inscribes.known, resolved, fun j n lists => (inscribes.lists j n).2 (.inl lists)⟩, id, inscribes.next,
    testCases, i, pending i mem, (inscribes.lists i t.id).2 (.inr ⟨mem, rfl⟩)⟩

section Steps

theorem ensures_isOpenFor {Q : Bool → Generator F P → Prop} (next : ∀ open' d, Q open' { g with diagram := d }) :
    Ensures T (isOpenFor γ region) g Q := by
  rw [isOpenFor, ensures_bind, ensures_get]
  split
  next =>
    rw [ensures_bind]
    exact next _ _
  next => exact next true g.diagram

/-- Goals are chosen whatever their regions are. -/
theorem choose_total {presence : List (Option Region)} (known : ∀ i ∈ goals, ∃ γ, g.suite.goals.get? i = some γ) :
    Ensures T (goals.filterMapM fun index => do
      let goal ← Generator.goal index
      let region := regionAt route presence goal.criticalEdge
      return if ← isOpenFor goal region then some (index, region) else none) g fun entries g' =>
        (∃ d, g' = { g with diagram := d }) ∧ ∀ entry ∈ entries, entry.1 ∈ goals := by
  let Chosen (entries : List (Nat × Option Region)) (g' : Generator F P) : Prop :=
    (∃ d, g' = { g with diagram := d }) ∧ ∀ entry ∈ entries, entry.1 ∈ goals
  apply Ensures.filterMapM (I := fun _ => Chosen) _ ⟨⟨g.diagram, rfl⟩, by simp⟩
  intro i done entries g' mem holds
  obtain ⟨⟨d, same⟩, among⟩ := holds
  obtain ⟨γ, here⟩ : ∃ γ, g'.suite.goals.get? i = some γ := same ▸ known i mem
  rw [ensures_bind, ensures_goal here, ensures_bind]
  apply ensures_isOpenFor
  intro open' d'
  refine ⟨⟨d', by rw [same]⟩, fun entry mem' => ?_⟩
  cases List.mem_append.1 mem' with
  | inl old => exact among entry old
  | inr new =>
    cases open' with
    | false => cases new
    | true =>
      rw [List.mem_singleton.1 new]
      exact mem

theorem inscribeAll_total {entries : List (Nat × Option Region)} (inscribes : g.Inscribes t [] g')
    (known : ∀ entry ∈ entries, ∃ γ, g.suite.goals.get? entry.1 = some γ) :
    Ensures T (entries.forM fun entry => changeSuite (·.addTestCase t entry.1 entry.2)) g' fun _ g'' =>
      g.Inscribes t (entries.map (·.1)) g'' := by
  apply Ensures.forM (I := fun (done : List (Nat × Option Region)) g'' => g.Inscribes t (done.map (·.1)) g'') _ inscribes
  intro entry done rest g'' whole inscribes'
  obtain ⟨γ, here⟩ := known entry (by simp [whole])
  rw [List.map_append]
  exact inscribes'.step here entry.2

/-- A route through the graph yields a test case at most, if it is asked for goals that are pending. -/
theorem addTestCase_reaps [AbstractState S] (numbered : g.Numbered) (known : ∀ i ∈ batch, ∃ γ, g.suite.goals.get? i = some γ)
    (pending : ∀ i ∈ goals, g.Pending batch i) (nodes : ∀ n ∈ route.nodes, x.graph.contains n = true) (inputs : List Int) :
    Ensures T (addTestCase goals route inputs x) g fun _ g' => ∃ made, Reaps batch made g g' := by
  rw [addTestCase, ensures_bind]
  apply (ensures_states fun n mem => contains_iff.1 (nodes n mem)).mono
  intro states g₁ h
  obtain ⟨rfl, _⟩ := h
  dsimp only
  rw [ensures_bind]
  apply (choose_total fun i mem => known i (pending i mem).1).mono
  intro entries g' h
  obtain ⟨⟨d, same⟩, among⟩ := h
  cases entries with
  | nil =>
    rw [same]
    exact ⟨[], .turn d (.done _)⟩
  | cons entry rest =>
    dsimp only
    rw [ensures_bind, ensures_get, ensures_bind, ensures_set, same]
    have chosen : ∀ i ∈ (entry :: rest).map (·.1), g₁.Pending batch i := by
      intro i mem
      obtain ⟨e, there, rfl⟩ := List.mem_map.1 mem
      exact pending e.1 (among e there)
    apply (inscribeAll_total (.start numbered d rfl) fun e mem => known e.1 (chosen e.1 (List.mem_map_of_mem mem)).1).mono
    intro _ g'' inscribes
    exact ⟨_, .make (inscribes.makes numbered rfl chosen (by simp)) (.done g'')⟩

/-- A loop whose steps reap test cases reaps those of all its steps. -/
theorem forM_reaps {β : Type} {f : β → Procedure (Generator F P) PUnit} {l : List β} (numbered : g.Numbered)
    (known : ∀ i ∈ batch, ∃ γ, g.suite.goals.get? i = some γ)
    (step : ∀ b ∈ l, ∀ g₁ : Generator F P, g₁.Numbered → (∀ i ∈ batch, ∃ γ, g₁.suite.goals.get? i = some γ) →
      Ensures T (f b) g₁ fun _ g₂ => ∃ made, Reaps batch made g₁ g₂) :
    Ensures T (l.forM f) g fun _ g' => ∃ made, Reaps batch made g g' := by
  apply Ensures.forM (I := fun _ g' => ∃ made, Reaps batch made g g') _ ⟨[], .done g⟩
  intro b done rest g' whole holds
  obtain ⟨made, reaps⟩ := holds
  have onward := reaps.onward numbered
  have known' : ∀ i ∈ batch, ∃ γ, g'.suite.goals.get? i = some γ := by
    intro i mem
    obtain ⟨γ, here⟩ := known i mem
    exact onward.known i γ here
  apply (step b (by simp [whole]) g' onward.numbered known').mono
  intro _ g'' more
  obtain ⟨others, reaps'⟩ := more
  exact ⟨made ++ others, reaps.append reaps'⟩

theorem pending_of_unresolved (mem : i ∈ batch.filter fun i => !g.suite.resolved i) : g.Pending batch i := by
  rw [List.mem_filter, Bool.not_eq_true'] at mem
  exact mem

variable [AbstractState S]

/-- The walk to a target ends, since it comes to no node twice. -/
theorem addReconstructed_reaps {sh : Shape} {target : NodeId} (shape : x.graph.HasShape sh) (sound : sh.Sound)
    (acyclic : ∀ n, ¬Relation.TransGen x.graph.HasParent n n) (here : x.graph.contains target = true) (numbered : g.Numbered)
    (known : ∀ i ∈ batch, ∃ γ, g.suite.goals.get? i = some γ) :
    Ensures T (addReconstructed batch x target) g fun _ g' => ∃ made, Reaps batch made g g' := by
  obtain ⟨top, route, found, ascends, _⟩ := shape.exists_route sound here (not_circles_of_acyclic acyclic)
  obtain ⟨v, there⟩ := contains_iff.1 here
  have state : x.graph.state target = .ok v.state := by
    rw [StateGraph.state, node_eq_ok there]
    rfl
  rw [addReconstructed, ensures_bind, ensures_attempt (a := route) (t := g), ensures_bind,
    ensures_attempt (a := v.state) (t := g), ensures_bind, ensures_unresolved known]
  · apply addTestCase_reaps numbered known (fun i mem => pending_of_unresolved (List.mem_filter.1 mem).1)
    exact fun n mem => shape.contains_of_path sound here (ascends.reach n mem)
  · simp only [state, bind, Except.bind, pure, Except.pure]
  · simp only [found, bind, Except.bind, pure, Except.pure]

/-- A counterexample may be spurious, and its target may be gone. -/
theorem addExplained_reaps {c : Counterexample} (nodes : ∀ n ∈ c.route.nodes, x.graph.contains n = true)
    (numbered : g.Numbered) (known : ∀ i ∈ batch, ∃ γ, g.suite.goals.get? i = some γ) :
    Ensures T (addExplained batch x c) g fun _ g' => ∃ made, Reaps batch made g g' := by
  rw [addExplained]
  split
  next => exact ⟨[], .done g⟩
  next =>
    rw [ensures_bind, ensures_unresolved known, ensures_bind]
    have picks : Ensures T ((batch.filter fun i => !g.suite.resolved i).filterM fun i =>
        return c.route.edges.contains (← goal i).criticalEdge) g fun goals g' => g' = g ∧
          goals = (batch.filter fun i => !g.suite.resolved i).filter fun i =>
            (g.suite.goals.get? i).any fun γ => c.route.edges.contains γ.criticalEdge := by
      apply Ensures.filterM
      intro i mem
      obtain ⟨γ, here⟩ := known i (List.mem_filter.1 mem).1
      rw [ensures_bind, ensures_goal here, here]
      exact ⟨rfl, rfl⟩
    apply picks.mono
    intro goals g₁ h
    obtain ⟨rfl, rfl⟩ := h
    exact addTestCase_reaps numbered known (fun i mem => pending_of_unresolved (List.mem_filter.1 mem).1) nodes _

theorem harvest_ensures_reaps {sh : Shape} {counterexamples : IdMap Counterexample} (shape : x.graph.HasShape sh)
    (sound : sh.Sound) (acyclic : ∀ n, ¬Relation.TransGen x.graph.HasParent n n) (orderly : x.Orderly) (numbered : g.Numbered)
    (known : ∀ i ∈ batch, ∃ γ, g.suite.goals.get? i = some γ)
    (nodes : ∀ c ∈ counterexamples.values, ∀ n ∈ c.route.nodes, x.graph.contains n = true) (live : x.targets ≠ []) :
    Ensures T (harvest batch counterexamples x) g fun found g' => ∃ made, found.targets = x.targets.length ∧
      found.created = made.length ∧ Reaps batch made g g' ∧ x.Consumed found.reached := by
  have busy : x.targets.isEmpty = false := by simpa using live
  have here : ∀ target ∈ x.targets, x.graph.contains target = true := by
    intro target mem
    obtain ⟨v, there, _⟩ := Exploration.mem_targets.1 mem
    exact contains_iff.2 ⟨v, there⟩
  obtain ⟨y, consumed, left⟩ := Exploration.exists_consumed orderly shape sound
  rw [harvest]
  dsimp only
  simp only [busy, Bool.false_eq_true, if_false]
  rw [ensures_bind, ensures_get]
  have rest : ∀ g' : Generator F P, (∃ made, Reaps batch made g g') → Ensures T (do
      let created := (← get).suite.testCases.length - g.suite.testCases.length
      let reached ← attempt fun g : Generator F P => return (← x.consume x.targets, g)
      return (⟨x.targets.length, created, reached⟩ : Harvest S)) g' fun found g'' => ∃ made,
        found.targets = x.targets.length ∧ found.created = made.length ∧ Reaps batch made g g'' ∧
          x.Consumed found.reached := by
    intro g' h
    obtain ⟨made, reaps⟩ := h
    rw [ensures_bind, ensures_get, ensures_bind, ensures_attempt (a := y) (t := g')]
    · refine ⟨made, rfl, ?_, reaps, left⟩
      dsimp only
      rw [reaps.testCases, List.length_append, Nat.add_sub_cancel_left]
    · simp only [consumed, bind, Except.bind, pure, Except.pure]
  split
  next =>
    rw [ensures_bind]
    apply (forM_reaps numbered known fun target mem g₁ numbered₁ known₁ =>
      addReconstructed_reaps shape sound acyclic (here target mem) numbered₁ known₁).mono
    exact fun _ g' reaps => rest g' reaps
  next =>
    rw [ensures_bind]
    apply (forM_reaps numbered known fun c mem g₁ numbered₁ known₁ => addExplained_reaps (nodes c mem) numbered₁ known₁).mono
    exact fun _ g' reaps => rest g' reaps

/--
A harvest that finds targets ends, whatever its graph is like, if that has no cycles. It tells how many targets it found
and how many test cases it made, and leaves no target.
-/
theorem harvest_reaps {counterexamples : IdMap Counterexample} (consistent : x.graph.Consistent)
    (covers : ∀ n, ¬x.graph.HasCover n n) (acyclic : ∀ n, ¬Relation.TransGen x.graph.HasParent n n) (orderly : x.Orderly)
    (numbered : g.Numbered) (known : ∀ i ∈ batch, ∃ γ, g.suite.goals.get? i = some γ)
    (nodes : ∀ c ∈ counterexamples.values, ∀ n ∈ c.route.nodes, x.graph.contains n = true) (live : x.targets ≠ []) :
    ∃ found g' made, harvest batch counterexamples x g = .ok found g' ∧ found.targets = x.targets.length ∧
      found.created = made.length ∧ Reaps batch made g g' ∧ g'.suite.testCases = g.suite.testCases ++ made ∧
      made.map (·.id) = List.range' g.nextTestCase made.length ∧
      (∀ t ∈ made, ∃ i, g.Pending batch i ∧ g'.suite.Lists i t.id) ∧ g'.Numbered ∧ x.Consumed found.reached := by
  have sound := consistent.sound (fun n link => acyclic n (.single link)) covers
  obtain ⟨found, g', ok, made, targets, created, reaps, consumed⟩ :=
    (harvest_ensures_reaps consistent.hasShape sound acyclic orderly numbered known nodes live).exists_result
  exact ⟨found, g', made, ok, targets, created, reaps, reaps.testCases, reaps.ids, reaps.covers numbered,
    (reaps.onward numbered).numbered, consumed⟩

end Steps

section Example

/-- The third node is a target at a join, the fourth one a target below it that covers the fifth. -/
def branching : List (Edit Script.State) :=
  [.addRoot ⟨0, none, ∅⟩, .addChild 0 ⟨0, none, ∅⟩ (some 0), .addChild 0 ⟨0, none, ∅⟩ (some 1),
    .addChild 1 ⟨0, none, .singleton 1⟩ (some 2), .link 3 2 (some 3), .addChild 3 ⟨0, none, .singleton 2⟩ (some 4),
    .addChild 2 ⟨0, none, ∅⟩ none, .cover 5 4]

def rhombus : Exploration Script.State where
  graph := StateGraph.made branching
  waiting := [2, 4]
  last := some 5
  disabled := ∅
  constraint := none

def rhombusGenerator : Generator Unit Unit where
  settings := {}
  program := .ofArrows 0 []
  diagram := .fresh
  surroundings := ()
  suite := Suite.addGoals { variability := false } [.forEdge 1 2 0 0, .forEdge 2 4 0 0]
  order := .ofList [(1, 0), (2, 1)]
  clock := fun _ => 0
  timeLimit := none

/-- The first one comes to the join along the other branch than the graph does, and the second one is spurious. -/
def rhombusCounterexamples : IdMap Counterexample :=
  .ofList [(3, ⟨3, ⟨[0, 2, 3], [1, 3]⟩, .empty, false⟩), (4, ⟨4, ⟨[0, 1, 3, 4], [0, 2, 4]⟩, .empty, true⟩)]

theorem acyclic_rhombus (n : NodeId) : ¬Relation.TransGen rhombus.graph.HasParent n n := by
  have older : ∀ c ∈ rhombus.graph.ids, (rhombus.graph.node? c).all (fun v => v.parents.toList.all (· < c)) = true := by
    decide +kernel
  have climbs : ∀ c p, rhombus.graph.HasParent c p → p < c := by
    intro c p parent
    obtain ⟨v, here, mem⟩ := parent
    have all := older c (mem_ids.2 ⟨v, here⟩)
    rw [here, Option.all_some, List.all_eq_true] at all
    exact of_decide_eq_true (all p (IdSet.mem_toList.2 mem))
  intro circle
  have drops : ∀ a b, Relation.TransGen rhombus.graph.HasParent a b → b < a := by
    intro a b path
    induction path with
    | single parent => exact climbs _ _ parent
    | tail _ parent ih => exact Nat.lt_trans (climbs _ _ parent) ih
  exact Nat.lt_irrefl n (drops n n circle)

theorem harvest_reaps_rhombus : rhombus.graph.Consistent ∧ (∀ n, ¬rhombus.graph.HasCover n n) ∧
    (∀ n, ¬Relation.TransGen rhombus.graph.HasParent n n) ∧ rhombus.Orderly ∧ rhombusGenerator.Numbered ∧
    (∀ i ∈ [1, 2], ∃ γ, rhombusGenerator.suite.goals.get? i = some γ) ∧
    (∀ c ∈ rhombusCounterexamples.values, ∀ n ∈ c.route.nodes, rhombus.graph.contains n = true) ∧ rhombus.targets ≠ [] ∧
    ∃ found g' made, harvest [1, 2] rhombusCounterexamples rhombus rhombusGenerator = .ok found g' ∧
      found.targets = rhombus.targets.length ∧ found.created = made.length ∧ Reaps [1, 2] made rhombusGenerator g' ∧
      g'.suite.testCases = rhombusGenerator.suite.testCases ++ made ∧
      made.map (·.id) = List.range' rhombusGenerator.nextTestCase made.length ∧
      (∀ t ∈ made, ∃ i, rhombusGenerator.Pending [1, 2] i ∧ g'.suite.Lists i t.id) ∧ g'.Numbered ∧
      rhombus.Consumed found.reached := by
  obtain ⟨shape, sound⟩ := (built_made branching).shaped
  have orderly : rhombus.Orderly := by
    refine ⟨by decide, by decide +kernel, fun n is_last => ?_⟩
    cases is_last
    decide +kernel
  have numbered : rhombusGenerator.Numbered := by
    have made : ofGoals {} (.ofArrows 0 []) [.forEdge 1 2 0 0, .forEdge 2 4 0 0] false .fresh () (fun _ => 0) =
      .ok rhombusGenerator := rfl
    exact numbered_ofGoals made
  have known : ∀ i ∈ [1, 2], ∃ γ, rhombusGenerator.suite.goals.get? i = some γ := by
    have found : ∀ i ∈ [1, 2], (rhombusGenerator.suite.goals.get? i).isSome = true := by decide +kernel
    exact fun i mem => Option.isSome_iff_exists.1 (found i mem)
  have nodes : ∀ c ∈ rhombusCounterexamples.values, ∀ n ∈ c.route.nodes, rhombus.graph.contains n = true := by decide +kernel
  have live : rhombus.targets ≠ [] := by decide +kernel
  have consistent := shape.consistent sound
  exact ⟨consistent, sound.other, acyclic_rhombus, orderly, numbered, known, nodes, live,
    harvest_reaps consistent sound.other acyclic_rhombus orderly numbered known nodes live⟩

/-- The join and the node below it go, the branches wait, and each target has its test case. -/
example : (result? (harvest [1, 2] ∅ rhombus) rhombusGenerator).map (fun found =>
    (found.targets, found.created, found.reached.graph.ids, found.reached.waiting)) =
      some (2, 2, [0, 1, 2, 5], [1, 2, 5]) := by decide +kernel

end Example

end Generator

end GoalCoverage
