import GoalCoverage.Proofs.Automaton.Resolution
import GoalCoverage.Proofs.Driver.Settlement
import GoalCoverage.Proofs.Generation.Warrant

/-!
What test cases are recorded for is warranted. The replay of a test case finds the regions that it had at the crossings of
the critical edge (`upholds_replay`), and a harvest takes the regions from the states along a route (`upholds_harvest`).
-/

namespace GoalCoverage.Generator

open Procedure Diagram StateGraph Explorer

variable {α : Type} {t : Task} {g g' : Explored} {i n root : Nat} {γ γ₀ : Goal} {tc : TestCase} {region last : Option Region}
  {batch goals : List Nat} {components : List Component} {x : Explorer} {y : Exploration State} {route : Route}
  {v : GraphNode State} {presence : List (Option Region)} {inputs : List Int}

section Replay

variable (crosses : t.Crosses)

include crosses

theorem upholds_replayOne (here : t.goals.get? γ.index = some γ₀) (same : γ₀.SameAs γ) (mem : tc ∈ g.suite.testCases) :
    Moves anything (Upholds t) (replayOne γ tc) g := by
  rw [replayOne]
  split
  next => exact moves_pure
  next accepted =>
    have accepts : γ₀.automaton.Recognizes tc.trace := by
      apply Automaton.recognizes_of_accepts
      rw [← same.automaton]
      simpa [Goal.accepts] using accepted
    have critical := crosses γ.index γ₀ tc.trace here accepts
    rw [moves_get_bind]
    split
    next plain =>
      have untracked : g.suite.variability = true → t.Credit γ₀ tc.trace g.diagram none := fun tracks =>
        absurd tracks (by simpa using plain)
      exact (upholds_recordCoverage here mem critical untracked).bind fun _ _ _ _ => moves_pure
    next tracked =>
      split
      next => exact moves_pure
      next =>
        apply upholds_of
        intro warranted
        have variability : g.suite.variability = true := by simpa using tracked
        have tracks := warranted.tracks variability
        have genuine := warranted.genuine tc mem
        apply upholds_goal.bind
        intro now g₁ ok _
        obtain ⟨rfl, known⟩ := of_goal_eq_ok ok
        obtain ⟨r, left, has⟩ := warranted.drawn.opened variability γ.index now known
        have opened : g₁.diagram.Has now.openRegion := by
          rw [Goal.openRegion, left]
          exact has
        have yields : Yields true (joinCrossings g₁.settings.allCoveredGoals now.openRegion
            (crossingRegions tc γ.criticalEdge)) g₁.diagram _ :=
          joinCrossings_yields (warranted.ready tracks) opened (has_crossing genuine tracks)
        apply (upholds_onRegions fun _ => yields).bind
        intro u g₂ ok upheld
        have credit := (ensures_onRegions_of (Q := fun u g₂ => t.Credit γ₀ tc.trace g₂.diagram (some u)) yields
          fun u d _ _ spec => credit_of_crossings genuine tracks accepts critical spec.1
            (same.criticalEdge ▸ spec.2)).of_eq_ok ok
        have mem' := (upheld warranted).testCases.subset mem
        split
        next => exact (upholds_recordCoverage here mem' critical fun _ => credit).bind fun _ _ _ _ => moves_pure
        next => exact moves_pure

theorem upholds_replayAll {l : List TestCase} (here : t.goals.get? γ.index = some γ₀) (same : γ₀.SameAs γ)
    (sub : ∀ tc ∈ l, tc ∈ g.suite.testCases) : Moves anything (Upholds t) (replayAll γ l) g := by
  induction l generalizing g with
  | nil => exact moves_pure
  | cons tc rest ih =>
    apply upholds_of
    intro warranted
    rw [replayAll]
    apply (upholds_replayOne crosses here same (sub tc List.mem_cons_self)).bind
    intro covered g₁ _ upheld
    rw [moves_get_bind]
    split
    next => exact moves_pure
    next => exact ih fun tc mem => (upheld warranted).testCases.subset (sub tc (List.mem_cons_of_mem _ mem))

theorem upholds_replay : Moves anything (Upholds t) (replay i) g := by
  apply upholds_of
  intro warranted
  rw [replay]
  apply upholds_goal.bind
  intro γ g₁ ok _
  obtain ⟨rfl, now⟩ := of_goal_eq_ok ok
  obtain ⟨γ₀, here, same⟩ := warranted.kept i γ now
  rw [← warranted.drawn.index i γ now] at here
  rw [moves_get_bind]
  exact upholds_replayAll crosses here same fun _ mem => mem

theorem upholds_replayBatch : Moves anything (Upholds t) (replayBatch batch) g := by
  apply Moves.forM
  intro i _ g₁ _
  apply upholds_isResolved.bind
  intro resolved g₂ _ _
  split
  next => exact moves_pure
  next =>
    rw [moves_get_bind]
    split
    next => exact upholds_replay crosses
    next => exact moves_pure

end Replay

section Regions

theorem upholds_isOpenFor (now : g.suite.goals.get? i = some γ)
    (known : Warranted t g → g.suite.variability = true → g.diagram.Knows region) :
    Moves anything (Upholds t) (isOpenFor γ region) g := by
  rw [isOpenFor, moves_get_bind]
  split
  next _ _ r tracks =>
    have yields : Warranted t g → Yields true (Diagram.disjoint γ.openRegion r) g.diagram _ := fun warranted => by
      obtain ⟨r', left, has⟩ := warranted.drawn.opened tracks i γ now
      have opened : g.diagram.Has γ.openRegion := by
        rw [Goal.openRegion, left]
        exact has
      exact disjoint_yields (warranted.drawn.ready tracks) opened (known warranted tracks r rfl)
    exact (upholds_onRegions yields).bind fun _ _ _ _ => moves_pure
  next => exact moves_pure

theorem upholds_remainingRegion (tracks : g.suite.variability = true) :
    Moves anything (Upholds t) (remainingRegion batch) g := by
  rw [remainingRegion]
  apply (Moves.mapM fun _ _ _ _ => upholds_goal).bind
  intro goals g₁ ok _
  have lookup : Ensures anything (batch.mapM goal) g fun goals g₁ => g₁ = g ∧
      List.Forall₂ (fun i γ => g.suite.goals.get? i = some γ) batch goals := goals_ensures fun _ lookup => ⟨rfl, lookup⟩
  obtain ⟨rfl, lookup⟩ := lookup.of_eq_ok ok
  apply upholds_onRegions
  intro warranted
  exact joinAll_yields (warranted.drawn.ready tracks) (has_remaining warranted.drawn tracks lookup)

theorem upholds_openRegions : Moves anything (Upholds t) (openRegions batch) g := by
  rw [openRegions]
  apply Moves.bind _ fun _ _ _ _ => moves_pure
  apply Moves.mapM
  intro i _ g₁ _
  exact upholds_goal.bind fun _ _ _ _ => upholds_isResolved.bind fun _ _ _ _ => moves_pure

end Regions

section Harvest

/-- A goal with the region that a route covers it for, if it is open there. -/
def offer (route : Route) (presence : List (Option Region)) (index : Nat) :
    Procedure Explored (Option (Nat × Option Region)) := do
  let goal ← Generator.goal index
  let region := regionAt route presence goal.criticalEdge
  return if ← isOpenFor goal region then some (index, region) else none

theorem upholds_offer (knows : ∀ edge, g.diagram.Knows (regionAt route presence edge)) :
    Moves anything (Upholds t) (offer route presence i) g := by
  rw [offer]
  apply upholds_goal.bind
  intro γ g₁ ok _
  obtain ⟨rfl, now⟩ := of_goal_eq_ok ok
  exact (upholds_isOpenFor now fun _ _ => knows γ.criticalEdge).bind fun _ _ _ _ => moves_pure

theorem offer_ensures : Ensures anything (offer route presence i) g fun offered _ => ∃ γ, g.suite.goals.get? i = some γ ∧
    ∀ entry ∈ offered, entry = (i, regionAt route presence γ.criticalEdge) := by
  rw [offer, ensures_bind]
  apply ensures_goal_of
  intro γ now
  rw [ensures_bind, ensures_anything_iff]
  intro opened g₁ _
  refine ⟨γ, now, fun entry is => ?_⟩
  cases opened with
  | true => exact (Option.some.inj is).symm
  | false => cases is

section Offers

variable (warranted : Warranted t g) (trail : Trail t g.diagram route.edges presence last)

include warranted trail

/-- The regions along a route are known for good. -/
theorem upholds_later_offer (upheld : Upholds t g g') : Moves anything (Upholds t) (offer route presence i) g' := by
  apply upholds_offer
  intro edge
  apply (upheld warranted).diagram.knows
  apply knows_regionAt
  intro o mem
  obtain ⟨k, there⟩ := List.mem_iff_getElem?.1 mem
  exact (trail.regions k o there).1

theorem upholds_offers : Moves anything (Upholds t) (goals.filterMapM (offer route presence)) g :=
  Moves.filterMapM fun _ _ _ upheld => upholds_later_offer warranted trail upheld

/-- A path covers the goals for what is offered. -/
theorem offers_ensures (wanted : ∀ i ∈ goals, Wanted t route.edges i) :
    Ensures anything (goals.filterMapM (offer route presence)) g fun entries _ =>
      ∀ entry ∈ entries, Credited t g.diagram route.edges entry := by
  apply (Ensures.filterMapM (I := fun _ entries g₁ => Upholds t g g₁ ∧
    ∀ entry ∈ entries, Credited t g.diagram route.edges entry) _ ⟨refl g, by simp⟩).mono fun _ _ h => h.2
  intro i done entries g₁ mem holds
  obtain ⟨upheld, credited⟩ := holds
  apply ((upholds_later_offer warranted trail upheld).ensures_and offer_ensures).mono
  intro offered g₂ h
  obtain ⟨more, γ, now, is⟩ := h
  refine ⟨IsTrans.trans _ _ _ upheld more, fun entry member => ?_⟩
  cases List.mem_append.1 member with
  | inl old => exact credited entry old
  | inr new =>
    obtain ⟨γ₀, here, critical, recognized⟩ := wanted i mem
    obtain ⟨γ₁, first, same⟩ := (upheld warranted).warranted.kept i γ now
    cases here.symm.trans first
    rw [is entry (Option.mem_toList.1 new), same.criticalEdge]
    exact ⟨γ₀, here, trail.credit critical recognized⟩

end Offers

/-- A generator that is recording a test case. -/
structure Enters (t : Task) (tc : TestCase) (entries : List (Nat × Option Region)) (g g' : Explored) : Prop where
  upheld : Upheld t g g'
  genuine : t.Genuine g'.diagram tc
  id : tc.id < g'.nextTestCase
  alone : ∀ tc' ∈ g'.suite.testCases, tc'.id = tc.id → tc' = tc
  credited : ∀ entry ∈ entries, Credited t g'.diagram tc.trace entry

theorem Enters.step {entries : List (Nat × Option Region)} (enters : Enters t tc entries g g')
    (mem : (i, region) ∈ entries) {s : Suite} {d : Diagram}
    (ok : g'.suite.addTestCase tc i region g'.diagram = .ok (s, d)) :
    Enters t tc entries g { g' with diagram := d, suite := s } := by
  have stored := enters.upheld.warranted.stored enters.genuine enters.id
  obtain ⟨last, alone⟩ := Suite.alone_stored enters.alone
  obtain ⟨γ, here, credit⟩ := enters.credited (i, region) mem
  rw [Suite.addTestCase_eq] at ok
  have recorded := stored.warranted.covers here last credit.critical (fun _ => credit) ok
  have ready := enters.upheld.warranted.ready
  have ext : g'.diagram.Extends d := recorded.diagram
  have testCases : s.testCases = (g'.suite.stored tc).testCases := Suite.recordCoverage_testCases ok
  exact
    { upheld := (enters.upheld.trans stored).trans recorded
      genuine := enters.genuine.extends ready ext
      id := enters.id
      alone := fun tc' mem => alone tc' (testCases ▸ mem)
      credited := fun entry mem => (enters.credited entry mem).extends ready ext }

theorem upholds_recordAll {entries : List (Nat × Option Region)} (start : Enters t tc entries g g) :
    Moves anything (Upholds t) (entries.forM fun (goal, region) => changeSuite (·.addTestCase tc goal region)) g := by
  have entered : Moves anything (fun g₁ g₂ => Enters t tc entries g g₁ → Enters t tc entries g g₂)
      (entries.forM fun (goal, region) => changeSuite (·.addTestCase tc goal region)) g :=
    Moves.forM fun entry mem g₁ _ => moves_changeSuite (fun _ => trivial) id fun _ _ ok enters => enters.step mem ok
  exact entered.mono (fun _ h => h) fun _ enters _ => (enters start).upheld

section Route

variable (manager : t.Managed) (serves : Serves t components x)

include manager serves

theorem upholds_addTestCase (sound : x.Sound g.diagram y.graph root)
    (branch : y.graph.Branch root route.nodes route.edges n) (here : y.graph.node? n = some v)
    (wanted : ∀ i ∈ goals, Wanted t route.edges i) : Moves anything (Upholds t) (addTestCase goals route inputs y) g := by
  apply upholds_of
  intro warranted
  rw [addTestCase]
  apply (Moves.mapM fun n _ _ _ => upholds_lookup).bind
  intro states g₁ ok _
  obtain ⟨rfl, along⟩ := (ensures_states (T := anything) (known_of_branch sound branch)).of_eq_ok ok
  have trail := trail_of_branch manager serves warranted.diagram sound branch here along
  apply (upholds_offers warranted trail).bind
  intro entries g₂ ok upheld
  have credited := (offers_ensures warranted trail wanted).of_eq_ok ok
  have later := upheld warranted
  cases entries with
  | nil => exact moves_pure
  | cons entry rest =>
    rw [moves_get_bind]
    have counted : Upheld t g₂ { g₂ with nextTestCase := g₂.nextTestCase + 1 } :=
      ⟨{ later.warranted with ids := fun tc mem => Nat.lt_succ_of_lt (later.warranted.ids tc mem) }, .refl _,
        List.prefix_refl _, rfl, fun _ _ h => h, fun _ h => h⟩
    apply (moves_set fun _ => counted).bind
    intro _ g₃ ok _
    cases ok
    apply upholds_recordAll
    refine ⟨(refl _ : Upholds t _ _) counted.warranted, ?_, Nat.lt_succ_self _, ?_, ?_⟩
    · exact (Trail.genuine trail).extends warranted.ready later.diagram
    · intro tc' mem same
      exact absurd same (Nat.ne_of_lt (later.warranted.ids tc' mem))
    · exact fun entry mem => (credited entry mem).extends warranted.ready later.diagram

theorem upholds_addReconstructed (crosses : t.Crosses) (sound : x.Sound g.diagram y.graph root) (live : n ∈ y.targets) :
    Moves anything (Upholds t) (addReconstructed batch y n) g := by
  obtain ⟨v, here, attached, _⟩ := Exploration.mem_targets.1 live
  obtain ⟨route, found, branch⟩ := routeTo_spec sound.tree attached
  rw [addReconstructed]
  apply upholds_lookup.bind
  intro route' g₁ ok _
  obtain ⟨rfl, found'⟩ := of_lookup_eq_ok ok
  cases found.symm.trans found'
  apply upholds_lookup.bind
  intro state g₂ ok _
  obtain ⟨rfl, looked⟩ := of_lookup_eq_ok ok
  rw [StateGraph.state, node_eq_ok here] at looked
  cases looked
  apply upholds_unresolved.bind
  intro left g₃ ok _
  obtain ⟨rfl, _⟩ := of_ask_eq_ok ok
  apply upholds_addTestCase manager serves sound branch here
  intro i mem
  obtain ⟨γ, goal, critical, recognizes⟩ :=
    recognizes_of_accepted serves crosses sound branch here (IdSet.contains_iff.1 (List.mem_filter.1 mem).2)
  exact ⟨γ, goal, critical, fun _ => recognizes⟩

theorem upholds_addExplained {b : Desk} {ce : Counterexample} (sound : x.Sound g.diagram b.reached.graph root)
    (explains : b.engine.explains = t.factory.explains) (explained : Explained b root n ce) :
    Moves anything (Upholds t) (addExplained batch b.reached ce) g := by
  obtain ⟨v, here, _⟩ := Exploration.mem_targets.1 explained.live
  apply upholds_of
  intro warranted
  rw [addExplained]
  split
  next => exact moves_pure
  next =>
    apply upholds_unresolved.bind
    intro left g₁ ok _
    obtain ⟨rfl, _⟩ := of_ask_eq_ok ok
    apply (Moves.filterM fun _ _ _ _ => upholds_goal.bind fun _ _ _ _ => moves_pure).bind
    intro goals g₂ ok _
    obtain ⟨rfl, chosen⟩ := crossing_ensures.of_eq_ok ok
    apply upholds_addTestCase manager serves sound explained.branch here
    intro i mem
    rw [chosen, List.mem_filter] at mem
    obtain ⟨γ, now, crosses⟩ := (Option.any_eq_true _ _).1 mem.2
    obtain ⟨γ₀, first, same⟩ := warranted.kept i γ now
    refine ⟨γ₀, first, ?_, fun plain => ?_⟩
    · simpa [same.criticalEdge] using crosses
    · rw [← explains, explained.asked] at plain
      cases plain

/-- Whatever is found in a run, its test cases show what they are recorded for. -/
theorem upholds_harvest (crosses : t.Crosses) {b : Desk} {counterexamples : IdMap Counterexample}
    (sound : x.Sound g.diagram b.reached.graph root) (explains : b.engine.explains = t.factory.explains)
    (explained : ∀ n ce, counterexamples.get? n = some ce → Explained b root n ce) :
    Moves anything (Upholds t) (harvest batch counterexamples b.reached) g := by
  apply upholds_of
  intro warranted
  have sound' : ∀ g₁, Upholds t g g₁ → x.Sound g₁.diagram b.reached.graph root := fun g₁ upheld =>
    sound.extends (upheld warranted).diagram (serves.tracks ▸ (upheld warranted).warranted.ready)
  have rest : ∀ g₁ : Explored, Moves anything (Upholds t) (do
      let created := (← get).suite.testCases.length - g.suite.testCases.length
      let reached ← attempt fun g : Explored => return (← b.reached.consume b.reached.targets, g)
      return (⟨b.reached.targets.length, created, reached⟩ : Harvest State)) g₁ := by
    intro g₁
    rw [moves_get_bind]
    exact upholds_lookup.bind fun _ _ _ _ => moves_pure
  rw [harvest]
  dsimp only
  split
  next => exact moves_pure
  next =>
    rw [moves_get_bind]
    split
    next =>
      refine Moves.bind (Moves.forM fun n live g₁ upheld => ?_) fun _ g₁ _ _ => rest g₁
      exact upholds_addReconstructed manager serves crosses (sound' g₁ upheld) live
    next =>
      refine Moves.bind (Moves.forM fun ce mem g₁ upheld => ?_) fun _ g₁ _ _ => rest g₁
      obtain ⟨entry, there, same⟩ := List.mem_map.1 mem
      have found := explained entry.1 ce (IdMap.get?_eq_some_iff.2 (same ▸ there))
      exact upholds_addExplained manager serves (sound' g₁ upheld) explains found

end Route

end Harvest

end GoalCoverage.Generator
