import GoalCoverage.Proofs.Driver.Ledger
import GoalCoverage.Proofs.Generation.Replay

/-!
What generators settle by themselves, between the runs of an engine: replay covers goals that are pending, and giving a
goal up resolves it.
-/

namespace GoalCoverage.Generator

open Procedure Diagram

variable {F P : Type} {g g' g₁ : Generator F P} {i : Nat} {batch : List Nat} {covers excludes : Nat → Prop}

/-- Nothing changes for a suite when something else of the generator does. -/
theorem Records.aside (develops : g.Records covers excludes g₁) (suite : g'.suite = g₁.suite)
    (diagram : g'.diagram = g₁.diagram) (settings : g'.settings = g₁.settings) (order : g'.order = g₁.order)
    (timeouts : g'.timeouts = g₁.timeouts) (surroundings : g'.surroundings = g₁.surroundings)
    (precision : g'.precision = g₁.precision) : g.Records covers excludes g' where
  tidy := ⟨suite ▸ diagram ▸ develops.tidy.drawn, suite ▸ diagram ▸ develops.tidy.presence⟩
  suite := suite ▸ diagram ▸ develops.suite
  settings := settings.trans develops.settings
  order := order.trans develops.order
  timeouts := timeouts.trans develops.timeouts
  surroundings := surroundings.trans develops.surroundings
  precision := precision.trans develops.precision

section Regions

theorem goals_ensures {Q : List Goal → Generator F P → Prop}
    (holds : ∀ goals, List.Forall₂ (fun i γ => g.suite.goals.get? i = some γ) batch goals → Q goals g) :
    Ensures anything (batch.mapM goal) g Q := by
  have found : Ensures anything (batch.mapM goal) g fun goals g' => g' = g ∧
      List.Forall₂ (fun i γ => g.suite.goals.get? i = some γ) batch goals :=
    Ensures.lookups fun i _ => ensures_goal_of fun γ here => ⟨rfl, here⟩
  apply found.mono
  intro goals g' h
  obtain ⟨rfl, lookup⟩ := h
  exact holds goals lookup

/-- What is left of goals is known to the diagram. -/
theorem has_remaining {goals : List Goal} (drawn : g.suite.Drawn g.diagram) (tracks : g.suite.variability = true)
    (lookup : List.Forall₂ (fun i γ => g.suite.goals.get? i = some γ) batch goals) :
    ∀ r ∈ goals.filterMap (·.remaining), g.diagram.Has r := by
  intro r mem
  obtain ⟨γ, member, left⟩ := List.mem_filterMap.1 mem
  obtain ⟨i, _, here⟩ := exists_of_forall₂_right lookup member
  obtain ⟨r', left', has⟩ := drawn.opened tracks i γ here
  cases left.symm.trans left'
  exact has

theorem remainingRegion_develops (tidy : g.Tidy) (tracks : g.suite.variability = true) :
    Ensures anything (remainingRegion batch) g fun r g' =>
      g.Records covers excludes g' ∧ g'.diagram.Has r ∧ g'.suite = g.suite := by
  rw [remainingRegion, ensures_bind]
  apply goals_ensures
  intro goals lookup
  apply ensures_onRegions_of (joinAll_yields (tidy.drawn.ready tracks) (has_remaining tidy.drawn tracks lookup))
  intro r d ext ready spec
  exact ⟨tidy.grows (fun _ => ext) fun _ => ready rfl, spec.1, rfl⟩

theorem openRegions_ensures_of (tidy : g.Tidy) (tracks : g.suite.variability = true)
    {Q : IdMap Region → Generator F P → Prop} (holds : ∀ opened : IdMap Region,
      (∀ i r, opened.get? i = some r → g.diagram.Has r) → Q opened g) : Ensures anything (openRegions batch) g Q := by
  rw [openRegions, ensures_bind]
  have entries : Ensures anything (batch.mapM fun i => do
      let known ← goal i
      return (i, if ← isResolved i then .empty else known.openRegion)) g fun entries g' => g' = g ∧
        List.Forall₂ (fun _ entry => g.diagram.Has entry.2) batch entries := by
    apply Ensures.lookups
    intro i _
    rw [ensures_bind]
    apply ensures_goal_of
    intro γ here
    rw [ensures_bind]
    apply ensures_isResolved_of
    refine ⟨rfl, ?_⟩
    split
    next => exact (tidy.drawn.ready tracks).has_empty
    next =>
      obtain ⟨r, left, has⟩ := tidy.drawn.opened tracks i γ here
      rw [Goal.openRegion, left]
      exact has
  apply entries.mono
  intro entries g' h
  obtain ⟨rfl, lookup⟩ := h
  refine holds _ fun i r found => ?_
  obtain ⟨_, _, has⟩ := exists_of_forall₂_right lookup (IdMap.mem_of_get?_ofList found)
  exact has

end Regions

section Replay

variable {γ : Goal} {t : TestCase}

/-- Replay covers only its goal. -/
theorem replayOne_develops (tidy : g.Tidy) (known : g.suite.variability = true → ∀ n, g.diagram.Knows (t.presenceAfter n)) :
    Ensures anything (replayOne γ t) g fun _ g' => g.Records (· = γ.index) (fun _ => False) g' := by
  rw [replayOne]
  split
  next => exact .refl tidy
  next =>
    rw [ensures_bind, ensures_get]
    split
    next plain =>
      rw [ensures_bind]
      exact recordCoverage_ensures tidy fun tracks => absurd tracks (by simpa using plain)
    next tracked =>
      have tracks : g.suite.variability = true := by simpa using tracked
      split
      next => exact .refl tidy
      next =>
        rw [ensures_bind]
        apply ensures_goal_of
        intro γ' here
        obtain ⟨r, left, has⟩ := tidy.drawn.opened tracks γ.index γ' here
        have opened : g.diagram.Has γ'.openRegion := by
          rw [Goal.openRegion, left]
          exact has
        have crossings : ∀ r ∈ crossingRegions t γ.criticalEdge, g.diagram.Has r := by
          intro r crossing
          obtain ⟨k, _, after⟩ := mem_crossingRegions.1 crossing
          exact known tracks (k + 1) r after
        rw [ensures_bind]
        apply ensures_onRegions_of (joinCrossings_yields (tidy.drawn.ready tracks) opened crossings)
        intro u d ext ready spec
        have grown : g.Records (· = γ.index) (fun _ => False) { g with diagram := d } :=
          tidy.grows (fun _ => ext) fun _ => ready rfl
        split
        next =>
          rw [ensures_bind]
          apply (recordCoverage_ensures grown.tidy fun _ => knows_some.2 spec.1).mono
          exact fun _ g' recorded => grown.trans recorded
        next => exact grown

theorem replayAll_develops {l : List TestCase} (tidy : g.Tidy)
    (known : g.suite.variability = true → ∀ t ∈ l, ∀ n, g.diagram.Knows (t.presenceAfter n)) :
    Ensures anything (replayAll γ l) g fun _ g' => g.Records (· = γ.index) (fun _ => False) g' := by
  induction l generalizing g with
  | nil => exact .refl tidy
  | cons t rest ih =>
    rw [replayAll, ensures_bind]
    apply (replayOne_develops tidy fun tracks => known tracks t List.mem_cons_self).mono
    intro covered g' develops
    rw [ensures_bind, ensures_get]
    split
    next => exact develops
    next =>
      have known' : g'.suite.variability = true → ∀ t ∈ rest, ∀ n, g'.diagram.Knows (t.presenceAfter n) := by
        intro tracks t mem n
        have tracked := develops.suite.variability.symm.trans tracks
        exact (develops.suite.grows tracked).knows (known tracked t (List.mem_cons_of_mem _ mem) n)
      exact (ih develops.tidy known').mono fun _ g'' more => develops.trans more

theorem replay_develops (tidy : g.Tidy) :
    Ensures anything (replay i) g fun _ g' => g.Records (· = i) (fun _ => False) g' := by
  rw [replay, ensures_bind]
  apply ensures_goal_of
  intro γ here
  rw [ensures_bind, ensures_get, ← tidy.drawn.index i γ here]
  exact replayAll_develops tidy tidy.presence

theorem replayBatch_develops (tidy : g.Tidy) :
    Ensures anything (replayBatch batch) g fun _ g' => g.Records (g.Pending batch) (fun _ => False) g' := by
  apply Ensures.forM (I := fun _ g' => g.Records (g.Pending batch) (fun _ => False) g') _ (.refl tidy)
  intro i done rest g' whole develops
  rw [ensures_bind]
  apply ensures_isResolved_of
  split
  next => exact develops
  next left =>
    rw [ensures_bind, ensures_get]
    split
    next =>
      apply (replay_develops develops.tidy).mono
      intro _ g'' replayed
      have pending : g.Pending batch i := develops.pending tidy ⟨by simp [whole], by simpa using left⟩
      exact develops.trans (replayed.mono (fun j same => same ▸ pending) fun _ h => h)
    next => exact develops

end Replay

section GiveUp

/-- A goal that is given up is resolved. -/
theorem giveUp_develops (tidy : g.Tidy) : Ensures anything (giveUp i) g fun _ g' =>
    g.Records (fun _ => False) (· = i) g' ∧ g'.suite.resolved i = true := by
  rw [giveUp, ensures_bind, ensures_get, ensures_bind]
  apply ensures_goal_of
  intro γ here
  have known : g.suite.variability = true → g.diagram.Knows (if g.suite.variability then γ.remaining else none) := by
    intro tracks r same
    rw [if_pos tracks] at same
    obtain ⟨r', left, has⟩ := tidy.drawn.opened tracks i γ here
    cases same.symm.trans left
    exact has
  rw [ensures_bind, ensures_changeSuite_iff]
  intro s d ok
  obtain ⟨develops, testCases, _, closed⟩ := Suite.addInfeasible_develops tidy.drawn known ok
  have marked := tidy.recorded develops testCases
  have resolved : s.resolved i = true := closed fun tracks => ⟨γ, here, (if_pos tracks).symm⟩
  split
  next =>
    rw [ensures_changeSuite_iff]
    intro s' d' ok'
    obtain ⟨r, guessed, same⟩ := lift_bind_eq_ok.1 ok'
    obtain ⟨rfl, rfl⟩ := pure_eq_ok.1 same
    obtain ⟨m, guesses⟩ := Suite.propagateInfeasible_spec guessed
    rw [guesses]
    have drawn : ({ s with predictions := m } : Suite).Drawn d :=
      ⟨develops.drawn.index, develops.drawn.opened, develops.drawn.excluded, develops.drawn.ready⟩
    have unchanged : Suite.Develops (fun _ => False) (· = i) s d { s with predictions := m } d :=
      { Suite.Develops.refl develops.drawn with drawn }
    exact ⟨tidy.recorded (develops.trans unchanged) testCases, resolved⟩
  next => exact ⟨marked, resolved⟩

theorem giveUpAll_develops {l : List Nat} (tidy : g.Tidy) : Ensures anything (l.forM giveUp) g fun _ g' =>
    g.Records (fun _ => False) (· ∈ l) g' ∧ ∀ i ∈ l, g'.suite.resolved i = true := by
  apply Ensures.forM (I := fun done g' => g.Records (fun _ => False) (· ∈ l) g' ∧ ∀ i ∈ done, g'.suite.resolved i = true) _
    ⟨.refl tidy, by simp⟩
  intro i done rest g' whole holds
  obtain ⟨develops, resolved⟩ := holds
  apply (giveUp_develops develops.tidy).mono
  intro _ g'' h
  obtain ⟨more, closed⟩ := h
  refine ⟨develops.trans (more.mono (fun _ h => h) fun j same => by simp [whole, same]), fun j mem => ?_⟩
  cases List.mem_append.1 mem with
  | inl old => exact more.suite.resolved develops.tidy.drawn (resolved j old)
  | inr last => exact List.mem_singleton.1 last ▸ closed

/-- The goals of a batch whose automata accept nothing. -/
def Hopeless (g : Generator F P) (batch : List Nat) (i : Nat) : Prop :=
  g.Pending batch i ∧ ∃ γ, g.suite.goals.get? i = some γ ∧ γ.automaton.isDegenerate = true

theorem giveUpDegenerate_develops (tidy : g.Tidy) :
    Ensures anything (giveUpDegenerate batch) g fun _ g' => g.Records (fun _ => False) (g.Hopeless batch) g' := by
  apply Ensures.forM (I := fun _ g' => g.Records (fun _ => False) (g.Hopeless batch) g') _ (.refl tidy)
  intro i done rest g' whole develops
  rw [ensures_bind]
  apply ensures_isResolved_of
  split
  next => exact develops
  next left =>
    rw [ensures_bind]
    apply ensures_goal_of
    intro γ' now
    split
    next degenerate =>
      obtain ⟨γ, here, narrows⟩ := develops.suite.kept i γ' now
      have hopeless : g.Hopeless batch i :=
        ⟨develops.pending tidy ⟨by simp [whole], by simpa using left⟩, γ, here, narrows.same.automaton ▸ degenerate⟩
      apply (giveUp_develops develops.tidy).mono
      exact fun _ g'' h => develops.trans (h.1.mono (fun _ h => h) fun j same => same ▸ hopeless)
    next => exact develops

end GiveUp

section Drawings

/-- Drawings go to the folder only. -/
theorem drawAutomata_keeps {observers : List Observer} :
    Ensures anything (drawAutomata observers) g fun _ g' => ∃ folder, g' = { g with folder } := by
  rw [drawAutomata, ensures_bind, ensures_get]
  split
  next => exact ⟨g.folder, rfl⟩
  next =>
    apply Ensures.forM (I := fun _ (g' : Generator F P) => ∃ folder, g' = { g with folder }) _ ⟨g.folder, rfl⟩
    intro o done rest g' _ holds
    obtain ⟨folder, rfl⟩ := holds
    exact ⟨_, rfl⟩

theorem drawGraphs_keeps {S : Type} [AbstractState S] {graph : StateGraph S} :
    Ensures anything (drawGraphs batch graph) g fun _ g' => ∃ folder, g' = { g with folder } := by
  rw [drawGraphs, ensures_bind, ensures_get]
  split
  next =>
    apply Ensures.forM (I := fun _ (g' : Generator F P) => ∃ folder, g' = { g with folder }) _ ⟨g.folder, rfl⟩
    intro i done rest g' _ holds
    obtain ⟨folder, rfl⟩ := holds
    rw [ensures_bind, ensures_ask_iff]
    exact fun drawing _ => ⟨_, rfl⟩
  next => exact ⟨g.folder, rfl⟩

end Drawings

end GoalCoverage.Generator
