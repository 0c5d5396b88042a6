import GoalCoverage.Exploration
import GoalCoverage.Generation
import GoalCoverage.Proofs.Procedure
import GoalCoverage.Proofs.StateGraph.Nodes
import GoalCoverage.Proofs.Suite.Recording

/-!
What the parts of the procedures of generators ensure, whatever their analysis is: questions to the suite, work on regions,
changes of the suite, and the states along a route.
-/

namespace GoalCoverage.Generator

open Procedure Diagram StateGraph

variable {F R S α : Type} {g : Generator F R} {T : Failure → Prop} {P : α → Generator F R → Prop} {i : Nat} {γ : Goal}
  {y : Exploration S} {route : Route}

theorem ensures_ask {f : Suite → Except Violation α} {a : α} (ok : f g.suite = .ok a) :
    Ensures T (ask f) g P ↔ P a g := by
  simp only [Ensures, ask, ok]

theorem ensures_goal {P : Goal → Generator F R → Prop} (here : g.suite.goals.get? i = some γ) :
    Ensures T (goal i) g P ↔ P γ g := ensures_ask (Suite.goal_eq_ok here)

theorem ensures_isResolved {P : Bool → Generator F R → Prop} (here : g.suite.goals.get? i = some γ) :
    Ensures T (isResolved i) g P ↔ P (g.suite.resolved i) g := ensures_ask (Suite.isResolved_eq here)

theorem ensures_isDone {P : Bool → Generator F R → Prop} {batch : List Nat}
    (known : ∀ i ∈ batch, ∃ γ, g.suite.goals.get? i = some γ) :
    Ensures T (isDone batch) g P ↔ P (batch.all g.suite.resolved) g := ensures_ask (Suite.areResolved_eq known)

theorem ensures_unresolved {P : List Nat → Generator F R → Prop} {batch : List Nat}
    (known : ∀ i ∈ batch, ∃ γ, g.suite.goals.get? i = some γ) :
    Ensures T (unresolved batch) g P ↔ P (batch.filter fun i => !g.suite.resolved i) g :=
  ensures_ask (Suite.unresolved_eq known)

theorem ensures_onRegions {tracks : Bool} {m : Regional α} {Q : α → Diagram → Prop}
    (delivers : Delivers tracks m g.diagram Q)
    (next : ∀ a d', g.diagram.Extends d' → d'.Ready tracks → Q a d' → P a { g with diagram := d' }) :
    Ensures T (onRegions m) g P := by
  obtain ⟨a, d', ok, ext, ready, holds⟩ := delivers
  simp only [Ensures, onRegions, ok]
  exact next a d' ext ready holds

theorem ensures_changeSuite {tracks : Bool} {f : Suite → Regional Suite} {Q : Suite → Diagram → Prop}
    {P : Unit → Generator F R → Prop} (delivers : Delivers tracks (f g.suite) g.diagram Q)
    (next : ∀ s' d', g.diagram.Extends d' → d'.Ready tracks → Q s' d' →
      P () { g with diagram := d', suite := s' }) : Ensures T (changeSuite f) g P := by
  rw [changeSuite, ensures_bind, ensures_get, ensures_bind]
  apply ensures_onRegions delivers
  intro s' d' ext ready holds
  exact next s' d' ext ready holds

theorem ensures_changeSuite_of_ok {f : Suite → Regional Suite} {P : Unit → Generator F R → Prop} {s' : Suite} {d' : Diagram}
    (ok : f g.suite g.diagram = .ok (s', d')) :
    Ensures T (changeSuite f) g P ↔ P () { g with diagram := d', suite := s' } := by
  rw [changeSuite, ensures_bind, ensures_get, ensures_bind, Ensures, onRegions, ok]
  exact Iff.rfl

/-- Storing a test case first is no different. -/
theorem ensures_addTestCase {tc : TestCase} {region : Option Region} {P : Unit → Generator F R → Prop}
    (ensures : Ensures T (changeSuite (·.recordCoverage tc.id i region)) { g with suite := g.suite.stored tc } P) :
    Ensures T (changeSuite (·.addTestCase tc i region)) g P := by
  rw [changeSuite, ensures_bind, ensures_get, ensures_bind] at ensures ⊢
  simp only [Ensures, onRegions, Suite.addTestCase_eq] at ensures ⊢
  cases out : (g.suite.stored tc).recordCoverage tc.id i region g.diagram with
  | ok r =>
    rw [out] at ensures
    exact ensures
  | error v =>
    rw [out] at ensures
    exact ensures

/-- The states along a route. -/
def States (y : Exploration S) (nodes : List NodeId) (states : List S) : Prop :=
  states.map some = nodes.map fun n => (y.graph.node? n).map (·.state)

theorem ensures_states (known : ∀ n ∈ route.nodes, ∃ v, y.graph.node? n = some v) :
    Ensures T (route.nodes.mapM fun n => attempt fun g : Generator F R => return (← y.graph.state n, g)) g
      fun states g' => g' = g ∧ States y route.nodes states := by
  refine Ensures.mapM (I := fun done states g' => g' = g ∧ States y done states) ?_ ⟨rfl, rfl⟩
  intro n done states g' mem holds
  obtain ⟨rfl, along⟩ := holds
  obtain ⟨v, here⟩ := known n mem
  have found : y.graph.state n = .ok v.state := by
    rw [StateGraph.state, node_eq_ok here]
    rfl
  rw [ensures_attempt (a := v.state) (t := g')]
  · refine ⟨rfl, ?_⟩
    have before : states.map some = done.map _ := along
    simp [States, before, here]
  · simp only [found, bind, Except.bind, pure, Except.pure]

end GoalCoverage.Generator
