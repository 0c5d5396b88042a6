import GoalCoverage.Proofs.Diagram.Features
import GoalCoverage.Proofs.Driver.Chronicle
import GoalCoverage.Proofs.Ending
import GoalCoverage.Proofs.Suite.Coverings

/-!
What generators do without an engine. None of it is a loop that could go on for ever, it keeps the settings, the limit,
the surroundings and the declared features, and no goal times out unless the time of a search is over.
-/

namespace GoalCoverage

open Procedure Diagram

namespace Diagram

variable {α β : Type}

/-- `m` declares no features, if it succeeds. -/
def Steady (m : Regional α) : Prop := ∀ d a d', m d = .ok (a, d') → d'.features = d.features

section Rules

variable {m : Regional α} {k : α → Regional β}

theorem steady_pure (a : α) : Steady (pure a : Regional α) := by
  intro d a' d' ok
  rw [(pure_eq_ok.1 ok).2]

theorem Steady.bind (first : Steady m) (next : ∀ a, Steady (k a)) : Steady (m >>= k) := by
  intro d b d' ok
  obtain ⟨a, d₁, here, there⟩ := bind_eq_ok.1 ok
  exact (next a d₁ b d' there).trans (first d a d₁ here)

theorem Stable.steady {m : StateM Diagram α} (stable : Stable m) : Steady (monadLift m : Regional α) := by
  intro d a d' ok
  have same : ((m d).1, (m d).2) = (a, d') := Except.ok.inj ok
  rw [← (Prod.mk.inj same).2]
  exact stable d

theorem steady_except {e : Except Violation α} (next : ∀ a, Steady (k a)) :
    Steady ((monadLift e : Regional α) >>= k) := by
  intro d b d' ok
  obtain ⟨a, _, there⟩ := lift_bind_eq_ok.1 ok
  exact next a d b d' there

theorem steady_throw_bind {v : Violation} : Steady ((throw v : Regional α) >>= k) := by
  intro d b d' ok
  obtain ⟨_, _, failed, _⟩ := bind_eq_ok.1 ok
  cases failed

theorem Steady.foldlM {l : List α} {f : β → α → Regional β} (step : ∀ b x, Steady (f b x)) (b : β) : Steady (l.foldlM f b) := by
  induction l generalizing b with
  | nil => exact steady_pure _
  | cons x rest ih =>
    rw [List.foldlM_cons]
    exact (step b x).bind ih

end Rules

end Diagram

namespace Suite

variable {s : Suite} {i n : Nat} {region : Option Region}

/-- `m` changes a suite. It declares no features and puts no goals off, if it succeeds. -/
structure Calm (s : Suite) (m : Regional Suite) : Prop where
  steady : Steady m
  timedOut : ∀ d s' d', m d = .ok (s', d') → s'.timedOut = s.timedOut

theorem recordCoverage_calm : Calm s (s.recordCoverage n i region) := by
  refine ⟨?_, fun d s' d' ok => ?_⟩
  case refine_2 =>
    obtain ⟨γ, γ', _, _, _, _, rfl, _⟩ := recordCoverage_eq_ok ok
    rfl
  rw [recordCoverage]
  split
  next => exact steady_throw_bind
  next =>
    apply steady_except
    intro γ
    split
    next => exact (without_stable _ _).steady.bind fun _ => steady_pure _
    next => exact steady_pure _

theorem addTestCase_calm {t : TestCase} : Calm s (s.addTestCase t i region) := by
  rw [addTestCase_eq]
  refine ⟨recordCoverage_calm.steady, fun d s' d' ok => ?_⟩
  rw [recordCoverage_calm.timedOut d s' d' ok, stored_eq]

theorem addInfeasible_calm : Calm s (s.addInfeasible i region) := by
  refine ⟨?_, fun d s' d' ok => ?_⟩
  case refine_2 =>
    obtain ⟨_, γ, γ', _, _, _, rfl⟩ | ⟨_, rfl, _⟩ := addInfeasible_eq_ok ok
    · rfl
    · rfl
  rw [addInfeasible]
  dsimp only
  split
  next =>
    apply steady_except
    intro γ
    split
    next => exact (join_stable _ _).steady.bind fun _ => (without_stable _ _).steady.bind fun _ => steady_pure _
    next => exact (steady_pure _).bind fun _ => (without_stable _ _).steady.bind fun _ => steady_pure _
  next => exact steady_pure _

theorem propagate_calm {p : Program} : Calm s (do return (← s.propagateInfeasible p i).2) := by
  refine ⟨steady_except fun _ => steady_pure _, fun d s' d' ok => ?_⟩
  obtain ⟨r, found, same⟩ := lift_bind_eq_ok.1 ok
  obtain ⟨rfl, _⟩ := pure_eq_ok.1 same
  obtain ⟨m, is⟩ := propagateInfeasible_spec found
  rw [is]

theorem isCovered_steady : Steady (s.isCovered i) := by
  rw [isCovered]
  split
  next => exact steady_pure _
  next =>
    split
    next => exact steady_pure _
    next => exact steady_except fun γ => (joinAll_stable _).steady.bind fun _ => steady_pure _

theorem tally_steady (t : Statistics) : Steady (s.tally t i) := by
  rw [tally]
  dsimp only
  split
  next =>
    split
    next => exact steady_pure _
    next => exact isCovered_steady.bind fun _ => steady_pure _
  next =>
    split
    next => exact steady_pure _
    next =>
      split
      next => exact steady_pure _
      next => exact steady_pure _

theorem statistics_steady : Steady s.statistics := by
  rw [statistics]
  dsimp only
  split
  next => exact .foldlM (fun t i => tally_steady t) _
  next => exact steady_pure _

end Suite

namespace Generator

variable {F E S P α : Type} {g : Generator F P} {batch goals : List Nat} {i : Nat}

/-- What is not changed before a goal times out. -/
structure Keeps (g g' : Generator F P) : Prop where
  settings : g'.settings = g.settings
  timeLimit : g'.timeLimit = g.timeLimit
  surroundings : g'.surroundings = g.surroundings
  features : g'.diagram.features = g.diagram.features
  timedOut : g'.suite.timedOut = g.suite.timedOut

instance : IsPreorder (Generator F P) Keeps where
  refl _ := ⟨rfl, rfl, rfl, rfl, rfl⟩
  trans _ _ _ first second := ⟨second.settings.trans first.settings, second.timeLimit.trans first.timeLimit,
    second.surroundings.trans first.surroundings, second.features.trans first.features, second.timedOut.trans first.timedOut⟩

/-- Relations along which a generator moves when it works without an engine and no goal times out. -/
class Lenient (R : Generator F P → Generator F P → Prop) : Prop extends IsPreorder (Generator F P) R where
  diagram (g : Generator F P) (diagram : Diagram) : diagram.features = g.diagram.features → R g { g with diagram }
  suite (g : Generator F P) (diagram : Diagram) (suite : Suite) : diagram.features = g.diagram.features →
    suite.timedOut = g.suite.timedOut → R g { g with diagram, suite }
  nextTestCase (g : Generator F P) (nextTestCase : Nat) : R g { g with nextTestCase }
  precision (g : Generator F P) (precision : Option P) : R g { g with precision }
  folder (g : Generator F P) (folder : Folder) : R g { g with folder }

instance : Lenient (Keeps : Generator F P → Generator F P → Prop) where
  diagram _ _ features := ⟨rfl, rfl, rfl, features, rfl⟩
  suite _ _ _ features timedOut := ⟨rfl, rfl, rfl, features, timedOut⟩
  nextTestCase _ _ := ⟨rfl, rfl, rfl, rfl, rfl⟩
  precision _ _ := ⟨rfl, rfl, rfl, rfl, rfl⟩
  folder _ _ := ⟨rfl, rfl, rfl, rfl, rfl⟩

variable {R : Generator F P → Generator F P → Prop} [Lenient R]

theorem lasts_ask {f : Suite → Except Violation α} : Moves lasting R (ask f) g := by
  rw [moves_iff, ask]
  cases f g.suite with
  | ok a => simpa using refl g
  | error v => simpa [lasting] using refl g

theorem lasts_onRegions {m : Regional α} (steady : Steady m) : Moves lasting R (onRegions m) g := by
  rw [moves_iff, onRegions]
  cases out : m g.diagram with
  | ok r =>
    obtain ⟨a, d⟩ := r
    simpa using Lenient.diagram g d (steady _ _ _ out)
  | error v => simpa [lasting] using refl g

/-- The suite is changed as a whole or not at all. -/
theorem moves_changeSuite {T : Failure → Prop} {R : Generator F P → Generator F P → Prop} {f : Suite → Regional Suite}
    (violated : ∀ v, T (.violated v)) (still : R g g)
    (step : ∀ s d, f g.suite g.diagram = .ok (s, d) → R g { g with diagram := d, suite := s }) :
    Moves T R (changeSuite f) g := by
  cases out : f g.suite g.diagram with
  | ok r =>
    obtain ⟨s, d⟩ := r
    have changed : changeSuite f g = .ok () { g with diagram := d, suite := s } := by
      change EStateM.bind (onRegions (f g.suite)) _ g = _
      simp only [EStateM.bind, onRegions, out]
      rfl
    rw [Moves, finish, Ensures, changed]
    exact ⟨step s d out, trivial⟩
  | error v =>
    have failed : changeSuite f g = .error (.violated v) g := by
      change EStateM.bind (onRegions (f g.suite)) _ g = _
      simp only [EStateM.bind, onRegions, out]
    rw [Moves, finish, Ensures, failed]
    exact ⟨still, violated v⟩

theorem lasts_changeSuite {f : Suite → Regional Suite} (calm : ∀ s, Suite.Calm s (f s)) :
    Moves lasting R (changeSuite f) g :=
  moves_changeSuite (fun v => by simp [lasting]) (refl g) fun s d ok =>
    Lenient.suite g d s ((calm g.suite).steady _ _ _ ok) ((calm g.suite).timedOut _ _ _ ok)

theorem lasts_goal : Moves lasting R (goal i) g := lasts_ask

theorem lasts_isResolved : Moves lasting R (isResolved i) g := lasts_ask

theorem lasts_isDone : Moves lasting R (isDone batch) g := lasts_ask

theorem lasts_unresolved : Moves lasting R (unresolved batch) g := lasts_ask

theorem lasts_draw {template name drawing : String} : Moves lasting R (draw template name drawing) g :=
  moves_modify (Lenient.folder g _)

theorem lasts_onShared {m : Procedure (Diagram × F) α}
    (h : Moves lasting (fun p q => q.1.features = p.1.features ∧ q.2 = p.2) m (g.diagram, g.surroundings)) :
    Moves lasting Keeps (onShared m) g := by
  apply Moves.within
  · exact h
  · exact fun _ moved => ⟨rfl, rfl, moved.2, moved.1, rfl⟩

theorem lasts_remainingRegion : Moves lasting R (remainingRegion batch) g :=
  (Moves.mapM fun _ _ _ _ => lasts_goal).bind fun _ _ _ _ => lasts_onRegions (joinAll_stable _).steady

theorem lasts_openRegions : Moves lasting R (openRegions batch) g := by
  apply Moves.bind _ fun _ _ _ _ => moves_pure
  apply Moves.mapM
  intro i _ g₁ _
  exact lasts_goal.bind fun _ _ _ _ => lasts_isResolved.bind fun _ _ _ _ => moves_pure

section Harvest

variable [AbstractState S] {x : Exploration S} {route : Route} {inputs : List Int} {region : Option Region} {γ : Goal}

theorem lasts_isOpenFor : Moves lasting R (isOpenFor γ region) g := by
  rw [isOpenFor, moves_get_bind]
  split
  next => exact (lasts_onRegions (disjoint_stable _ _).steady).bind fun _ _ _ _ => moves_pure
  next => exact moves_pure

omit [AbstractState S] in
/-- Looking something up in an exploration. -/
theorem lasts_lookup {e : Except Violation α} :
    Moves lasting R (attempt fun g : Generator F P => return (← e, g)) g := by
  apply moves_attempt (fun v => by simp [lasting]) (refl g)
  intro a g' ok
  obtain ⟨_, _, same⟩ := Except.bind_eq_ok.1 ok
  cases same
  exact refl g

theorem lasts_addTestCase : Moves lasting R (addTestCase goals route inputs x) g := by
  rw [addTestCase]
  apply (Moves.mapM fun n _ _ _ => lasts_lookup).bind
  intro states g₁ _ _
  dsimp only
  apply Moves.bind
  · apply Moves.filterMapM
    intro i _ g₂ _
    exact lasts_goal.bind fun _ _ _ _ => lasts_isOpenFor.bind fun _ _ _ _ => moves_pure
  intro covered g₂ _ _
  split
  next => exact moves_pure
  next =>
    rw [moves_get_bind]
    apply (moves_set (Lenient.nextTestCase g₂ _)).bind
    intro _ g₃ _ _
    exact Moves.forM fun _ _ _ _ => lasts_changeSuite fun _ => Suite.addTestCase_calm

theorem lasts_addReconstructed {target : NodeId} : Moves lasting R (addReconstructed batch x target) g := by
  rw [addReconstructed]
  apply lasts_lookup.bind
  intro route g₁ _ _
  apply lasts_lookup.bind
  intro state g₂ _ _
  exact lasts_unresolved.bind fun _ _ _ _ => lasts_addTestCase

theorem lasts_addExplained {c : Counterexample} : Moves lasting R (addExplained batch x c) g := by
  rw [addExplained]
  split
  next => exact moves_pure
  next =>
    apply lasts_unresolved.bind
    intro left g₁ _ _
    apply Moves.bind
    · exact Moves.filterM fun _ _ _ _ => lasts_goal.bind fun _ _ _ _ => moves_pure
    exact fun _ _ _ _ => lasts_addTestCase

theorem lasts_harvest {counterexamples : IdMap Counterexample} : Moves lasting R (harvest batch counterexamples x) g := by
  rw [harvest]
  dsimp only
  split
  next => exact moves_pure
  next =>
    rw [moves_get_bind]
    have rest : ∀ g₁ : Generator F P, Moves lasting R (do
        let created := (← get).suite.testCases.length - g.suite.testCases.length
        let reached ← attempt fun g : Generator F P => return (← x.consume x.targets, g)
        return (⟨x.targets.length, created, reached⟩ : Harvest S)) g₁ := by
      intro g₁
      rw [moves_get_bind]
      exact lasts_lookup.bind fun _ _ _ _ => moves_pure
    split
    next => exact (Moves.forM fun _ _ _ _ => lasts_addReconstructed).bind fun _ g₁ _ _ => rest g₁
    next => exact (Moves.forM fun _ _ _ _ => lasts_addExplained).bind fun _ g₁ _ _ => rest g₁

end Harvest

section Replay

theorem joinCrossings_stable (every : Bool) (opened : Region) (regions : List Region) :
    Stable (joinCrossings every opened regions) := by
  apply Stable.foldlM
  intro union r
  have rest : ∀ skip : Bool, Stable (if skip then pure union else Diagram.join union r) := by
    intro skip
    cases skip with
    | true => exact stable_pure _
    | false => exact join_stable _ _
  split
  next => exact (stable_pure _).bind rest
  next => exact (disjoint_stable _ _).bind rest

theorem lasts_replayOne {γ : Goal} {t : TestCase} : Moves lasting R (replayOne γ t) g := by
  rw [replayOne]
  split
  next => exact moves_pure
  next =>
    rw [moves_get_bind]
    split
    next => exact (lasts_changeSuite fun _ => Suite.recordCoverage_calm).bind fun _ _ _ _ => moves_pure
    next =>
      split
      next => exact moves_pure
      next =>
        apply lasts_goal.bind
        intro now g₁ _ _
        apply (lasts_onRegions (joinCrossings_stable _ _ _).steady).bind
        intro region g₂ _ _
        split
        next => exact (lasts_changeSuite fun _ => Suite.recordCoverage_calm).bind fun _ _ _ _ => moves_pure
        next => exact moves_pure

theorem lasts_replayAll {γ : Goal} {l : List TestCase} : Moves lasting R (replayAll γ l) g := by
  induction l generalizing g with
  | nil => exact moves_pure
  | cons t rest ih =>
    rw [replayAll]
    apply lasts_replayOne.bind
    intro covered g₁ _ _
    rw [moves_get_bind]
    split
    next => exact moves_pure
    next => exact ih

theorem lasts_replay : Moves lasting R (replay i) g := by
  rw [replay]
  apply lasts_goal.bind
  intro known g₁ _ _
  rw [moves_get_bind]
  exact lasts_replayAll

theorem lasts_replayBatch : Moves lasting R (replayBatch batch) g := by
  apply Moves.forM
  intro i _ g₁ _
  apply lasts_isResolved.bind
  intro resolved g₂ _ _
  split
  next => exact moves_pure
  next =>
    rw [moves_get_bind]
    split
    next => exact lasts_replay
    next => exact moves_pure

end Replay

section Verdicts

theorem lasts_giveUp : Moves lasting R (giveUp i) g := by
  rw [giveUp, moves_get_bind]
  apply lasts_goal.bind
  intro known g₁ _ _
  apply (lasts_changeSuite fun _ => Suite.addInfeasible_calm).bind
  intro _ g₂ _ _
  split
  next => exact lasts_changeSuite fun _ => Suite.propagate_calm
  next => exact moves_pure

theorem lasts_conclude {outcome : Outcome} (timely : outcome ≠ .timedOut) :
    Moves lasting R (conclude batch outcome) g := by
  rw [conclude]
  apply lasts_unresolved.bind
  intro left g₁ _ _
  cases outcome with
  | timedOut => exact absurd rfl timely
  | sound => exact Moves.forM fun _ _ _ _ => lasts_giveUp
  | unsound => exact Moves.forM fun _ _ _ _ => lasts_giveUp

theorem lasts_giveUpDegenerate : Moves lasting R (giveUpDegenerate batch) g := by
  apply Moves.forM
  intro i _ g₁ _
  apply lasts_isResolved.bind
  intro resolved g₂ _ _
  split
  next => exact moves_pure
  next =>
    apply lasts_goal.bind
    intro known g₃ _ _
    split
    next => exact lasts_giveUp
    next => exact moves_pure

end Verdicts

section Parts

theorem lasts_observers : Moves lasting R (observers goals) g := by
  rw [observers, moves_get_bind]
  apply Moves.bind
  · exact Moves.mapM fun _ _ _ _ => lasts_goal.bind fun _ _ _ _ => moves_pure
  intro components g₁ _ _
  split
  next =>
    split
    next => exact moves_pure
    next => exact moves_refuse (by simp [lasting])
  next => exact moves_pure

theorem lasts_drawAutomata {observers : List Observer} : Moves lasting R (drawAutomata observers) g := by
  rw [drawAutomata, moves_get_bind]
  split
  next => exact moves_pure
  next => exact Moves.forM fun _ _ _ _ => lasts_draw

theorem lasts_drawGraphs [AbstractState S] {graph : StateGraph S} : Moves lasting R (drawGraphs batch graph) g := by
  rw [drawGraphs, moves_get_bind]
  split
  next => exact Moves.forM fun _ _ _ _ => lasts_ask.bind fun _ _ _ _ => lasts_draw
  next => exact moves_pure

theorem lasts_commission : Moves lasting R (commission batch) g := by
  rw [commission]
  apply lasts_unresolved.bind
  intro left g₁ _ _
  apply lasts_observers.bind
  intro observers g₂ _ _
  apply lasts_drawAutomata.bind
  intro _ g₃ _ _
  have rest : ∀ (region : Option Region) (g : Generator F P), Moves lasting R (do
      let g ← get
      return (⟨observers, region, if g.settings.reusePrecision then g.precision else none, g.settings.reusePrecision⟩ :
        Commission P)) g := fun region g => moves_get_bind.2 moves_pure
  rw [moves_get_bind]
  dsimp only
  split
  next => exact lasts_remainingRegion.map.bind fun region g₄ _ _ => rest region g₄
  next => exact rest none g₃

theorem lasts_lacking : Moves lasting R (lacking batch) g := by
  rw [lacking]
  apply lasts_isDone.bind
  intro done g₁ _ _
  split
  next => exact moves_pure
  next =>
    rw [moves_get_bind]
    split
    next =>
      apply lasts_replayBatch.bind
      intro _ g₂ _ _
      apply lasts_isDone.bind
      intro done g₃ _ _
      split
      next => exact moves_pure
      next => exact moves_pure
    next => exact moves_pure

/-- What is done when a batch is opened, once its goals are counted. -/
theorem lasts_survey : Moves lasting R (do
    if (← get).suite.variability then
      let _ ← remainingRegion batch
    giveUpDegenerate batch) g := by
  rw [moves_get_bind]
  split
  next => exact lasts_remainingRegion.bind fun _ _ _ _ => lasts_giveUpDegenerate
  next => exact lasts_giveUpDegenerate

theorem lasts_openBatch : Moves lasting Keeps (openBatch batch) g :=
  (moves_modify ⟨rfl, rfl, rfl, rfl, rfl⟩).bind fun _ _ _ _ => lasts_survey

theorem lasts_closing [AbstractState S] {a : Analysis F E S P} {keeps : Bool} {finding : Session.Finding} {engine : E}
    {reached : Exploration S} (timely : finding.outcome ≠ .timedOut) :
    Moves lasting R (closing a batch keeps finding engine reached) g := by
  have rest : ∀ g : Generator F P, Moves lasting R (do
      conclude batch finding.outcome
      drawGraphs batch reached.graph
      return finding) g := fun g => (lasts_conclude timely).bind fun _ _ _ _ => lasts_drawGraphs.bind fun _ _ _ _ => moves_pure
  rw [closing]
  split
  next => exact (moves_modify (Lenient.precision g _)).bind fun _ g₁ _ _ => rest g₁
  next => exact rest g

theorem lasts_reporting {all : List Nat} {p : Progress} : Moves lasting R (reporting all p) g := by
  have counted : ∀ g : Generator F P, Moves lasting R (do
      let g ← get
      let statistics ← onRegions g.suite.statistics
      return ({ sound := p.sound, processed := g.processed, rounds := p.rounds, statistics } : Report)) g := by
    intro g
    rw [moves_get_bind]
    exact (lasts_onRegions Suite.statistics_steady).bind fun _ _ _ _ => moves_pure
  rw [reporting, moves_get_bind]
  split
  next => exact (Moves.forM fun _ _ _ _ => lasts_replay).bind fun _ g₁ _ _ => counted g₁
  next => exact counted g

end Parts

end Generator

end GoalCoverage
