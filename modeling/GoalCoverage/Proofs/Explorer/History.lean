import GoalCoverage.Proofs.Automaton.Resolution
import GoalCoverage.Proofs.Diagram.Built
import GoalCoverage.Proofs.Explorer.Composition
import GoalCoverage.Proofs.Explorer.Upkeep
import GoalCoverage.Proofs.StateGraph.Retention
import Mathlib.Logic.Relation

/-!
Interrupted explorations. Runs may be cancelled, targets pruned, goals disabled and regions narrowed in any
order: when nothing waits and no target is left, no enabled goal is reached along any path of the program
that is open for it (`not_accepts_of_history`).
-/

namespace GoalCoverage.Explorer

open Diagram StateGraph Procedure

variable {x : Explorer} {d d' : Diagram} {b b' : Desk} {s : State} {root : NodeId}
  {factory : ExplorerFactory} {observers : List Observer} {components : List Component}

/-- What may be done with an exploration. -/
inductive Step : Desk → Desk → Prop
  | run {b b' : Desk} {fuel : Nat} {token : Token} {ending : RunEnd} : run fuel token b = .ok ending b' → Step b b'
  | prune {b : Desk} {n : NodeId} {y : Exploration State} : n ∈ b.reached.targets → b.reached.prune n = .ok y →
    Step b { b with reached := y }
  | sweep {b : Desk} : Step b { b with reached := b.reached.sweep.2 }
  | disable {b : Desk} (goals : List Nat) : Step b { b with reached := b.reached.disable goals }
  | restrict {b b' : Desk} {constraint : Region} {opened : IdMap Region} :
    b.engine.Narrows b.diagram constraint opened → restrict constraint opened b = .ok () b' → Step b b'
  | call {b : Desk} {d : Diagram} : b.engine.tracks = true → b.diagram.Call d → Step b { b with diagram := d }

/-- A target is pruned, and its goals are disabled. -/
theorem Step.settled {n : NodeId} {y : Exploration State} (live : n ∈ b.reached.targets)
    (pruned : b.reached.prune n = .ok y) (goals : List Nat) :
    Relation.ReflTransGen Step b { b with reached := y.sweep.2.disable goals } :=
  .head (.prune live pruned) <| .head .sweep <| .single (.disable goals)

/-- What stays the same of an explorer. -/
structure SameTask (x y : Explorer) : Prop where
  program : y.program = x.program
  tracks : y.tracks = x.tracks
  observers : y.observers = x.observers
  covering : y.covering = x.covering
  maxNodes : y.maxNodes = x.maxNodes

theorem SameTask.refl (x : Explorer) : SameTask x x := ⟨rfl, rfl, rfl, rfl, rfl⟩

theorem SameTask.trans {x y z : Explorer} (first : SameTask x y) (second : SameTask y z) : SameTask x z :=
  ⟨second.program.trans first.program, second.tracks.trans first.tracks, second.observers.trans first.observers,
    second.covering.trans first.covering, second.maxNodes.trans first.maxNodes⟩

theorem Ran.sameTask (ran : Ran root b b') : SameTask b.engine b'.engine := by
  rw [ran.engine]
  exact ⟨rfl, rfl, rfl, rfl, rfl⟩

theorem Step.spec (step : Step b b') (steady : Steady root none b) :
    Steady root none b' ∧ SameTask b.engine b'.engine := by
  cases step with
  | @run _ fuel token ending ok =>
    have ran := (run_ensures (T := fun _ => True) trivial steady fuel token).of_eq_ok ok
    exact ⟨ran.1.steady, ran.1.sameTask⟩
  | prune live ok =>
    obtain ⟨y, ok', steady', _⟩ := steady.prune live
    rw [ok] at ok'
    cases ok'
    exact ⟨steady', .refl _⟩
  | sweep => exact ⟨steady.sweep.1, .refl _⟩
  | disable goals => exact ⟨steady.disable goals, .refl _⟩
  | @restrict _ constraint opened narrows ok =>
    have restricted := (restrict_ensures (T := fun _ => True) steady narrows).of_eq_ok ok
    refine ⟨restricted.1, ?_⟩
    rw [restricted.2.1]
    exact ⟨rfl, rfl, rfl, rfl, rfl⟩
  | call tracks call =>
    obtain ⟨wf, ext⟩ := call.spec (steady.sound.fit.ready tracks)
    exact ⟨(steady.onDiagram ext fun _ => wf).steady, .refl _⟩

theorem history_spec (history : Relation.ReflTransGen Step b b') (steady : Steady root none b) :
    Steady root none b' ∧ SameTask b.engine b'.engine := by
  induction history with
  | refl => exact ⟨steady, .refl _⟩
  | tail _ step ih =>
    obtain ⟨steady', same⟩ := ih
    obtain ⟨steady'', same'⟩ := step.spec steady'
    exact ⟨steady'', same.trans same'⟩

/-- What an exploration starts from, if it starts at all. -/
theorem initial_of_eq_ok (fit : x.Fit d) (started : x.initialState d = .ok s d') :
    d.Extends d' ∧ d'.Ready x.tracks ∧ x.Initial d' s := by
  cases located : x.program.entry with
  | error v =>
    simp only [initialState, located] at started
    cases started
  | ok entry => exact (ensures_initialState (T := fun _ => True) fit located).of_eq_ok started

/-- A configuration of the constraint, open for a goal, that every edge of a trace is there for. -/
structure Allowed (b : Desk) (goal : Nat) (trace : List EdgeId) (c : Configuration) : Prop where
  admitted : b.diagram.Within b.engine.constraint c
  opened : b.diagram.Within (b.engine.opened.get? goal) c
  edges : ∀ e ∈ trace, b.engine.program.Allows b.diagram c e

theorem not_accepts_of_history {covering : Option IdSet} {constraint : Option Region} {ending : RunEnd}
    {fuel : Nat} {token : Token} (manager : factory.tracks = true → d.Built ∧ factory.program.Over d ∧ d.Knows constraint)
    (watches : Watches components observers) (free : ∀ c ∈ components, c.automaton.isGuarded = false)
    (unfinished : ∀ c ∈ components, c.automaton.isFinal c.automaton.initial = false)
    (total : ∀ c ∈ components, c.automaton.Total factory.program.edges.size)
    (composed : compose factory observers constraint covering = .ok x)
    (started : x.initialState d = .ok s d')
    (history : Relation.ReflTransGen Step
      { diagram := d', surroundings := factory, engine := x, reached := .start s } b)
    (last : run fuel token b = .ok ending b') (idle : b'.reached.waiting = []) (spent : b'.reached.targets = []) :
    ∀ trace, factory.program.IsPath trace → ∀ comp ∈ components, comp.goal ∉ b'.reached.disabled →
      ∀ c, (factory.tracks = true → Allowed b' comp.goal trace c) → comp.automaton.accepts trace ≠ .accept := by
  intro trace path comp mem enabled c allowed accepts
  have shape := compose_eq_ok composed
  have fit : x.Fit d := by
    rw [shape]
    exact ⟨fun tracks => (manager tracks).1.wellFormed, fun tracks => (manager tracks).2.1,
      fun tracks => (manager tracks).2.2, fun _ g => by simp⟩
  have same_observers : x.observers = observers := by rw [shape]
  have unguarded : ∀ o ∈ x.observers, o.automaton.isGuarded = false := by
    rw [same_observers]
    exact fun o here => watches.not_guarded free here
  obtain ⟨ext, ready, initial⟩ := initial_of_eq_ok fit started
  have plain : AbstractState.isTarget s = false := by
    apply initial.plain
    rw [same_observers]
    exact not_accepts_starts watches unfinished
  let b₀ : Desk := { diagram := d', surroundings := factory, engine := x, reached := .start s }
  have steady₀ : Steady 0 none b₀ := Steady.fresh (b := b₀) unguarded (fit.extends ext ready) initial plain
  obtain ⟨steady, same⟩ := history_spec (history.tail (.run last)) steady₀
  have observers_eq : b'.engine.observers = observers := same.observers.trans same_observers
  have program_eq : b'.engine.program = factory.program := same.program.trans (by rw [shape])
  have tracks_eq : b'.engine.tracks = factory.tracks := same.tracks.trans (by rw [shape])
  rw [← observers_eq] at watches
  rw [← program_eq] at total path
  rw [← tracks_eq] at allowed
  have runs : ∀ c ∈ components, ∃ q, c.automaton.Run trace q := by
    intro c mem
    obtain ⟨_, _, _, walk⟩ := path
    exact (total c mem).exists_run fun e here => walk.lt here
  exact steady.refutes watches runs idle spent path mem enabled (fun tracks => (allowed tracks).admitted)
    (fun tracks => (allowed tracks).opened) (fun e here tracks => (allowed tracks).edges e here)
    ((Automaton.accepts_iff (free comp mem)).1 accepts)

section Example

/-- Two edges, of which only the first can be reached. -/
def twoEdges : Program := .ofArrows 2 [(0, 1), (2, 2)]

def twoGoals : List Component := [⟨1, .reaching "G1" 0⟩, ⟨2, .reaching "G2" 1⟩]

/-- An exploration for both goals. -/
def twoEdgesDesk : Desk :=
  let observers := [.plain 1 (.reaching "G1" 0), .powerset 2 (.reaching "G2" 1)]
  { diagram := .fresh
    surroundings := { program := twoEdges, tracks := false, maxNodes := none, explains := false }
    engine :=
      { program := twoEdges, tracks := false, observers, covering := twoEdges.joins, constraint := none, opened := ∅
        maxNodes := none, explains := false, counterexamples := ∅ }
    reached := .start ⟨0, Observer.starts observers, none, ∅⟩ }

/-- The exploration after a first run. -/
def twoEdgesFound : Desk := finish (run 9 none) twoEdgesDesk

/-- The exploration after the target of the first goal was pruned. -/
def twoEdgesPruned : Exploration State :=
  ((twoEdgesFound.reached.prune 2).toOption).getD twoEdgesFound.reached

/-- The exploration after that goal was disabled. -/
def twoEdgesLeft : Desk :=
  { twoEdgesFound with reached := twoEdgesPruned.sweep.2.disable [1] }

theorem not_accepts_twoEdges : (Automaton.reaching "G2" 1).accepts [0] ≠ .accept := by
  obtain ⟨_, first⟩ := exists_eq_ok (m := run 9 none) (s := twoEdgesDesk) (by decide +kernel)
  obtain ⟨_, last⟩ := exists_eq_ok (m := run 9 none) (s := twoEdgesLeft) (by decide +kernel)
  have pruned : twoEdgesFound.reached.prune 2 = .ok twoEdgesPruned := Except.eq_ok_getD (by decide +kernel) _
  have history : Relation.ReflTransGen Step twoEdgesDesk twoEdgesLeft :=
    .head (.run first) (Step.settled (by decide +kernel) pruned [1])
  have watched : List.Forall₂ Component.Watched twoGoals twoEdgesDesk.engine.observers :=
    .cons (.inl rfl) (.cons (.inr rfl) .nil)
  have total : ∀ c ∈ twoGoals, c.automaton.Total twoEdges.edges.size := by
    simp [twoGoals, Automaton.total_reaching]
  have edge : twoEdges.edges[0]? = some ⟨0, 1, "x = 1;", .statement, none⟩ := rfl
  have walk : twoEdges.Walk 0 ([] ++ [0]) 1 := .step .stay edge rfl
  have untracked : twoEdgesDesk.surroundings.tracks ≠ true := by decide
  have composed : compose twoEdgesDesk.surroundings twoEdgesDesk.engine.observers none none =
      .ok twoEdgesDesk.engine := rfl
  exact not_accepts_of_history (fun h => absurd h untracked) (.each watched) (by decide) (by decide) total composed
    rfl history last (by decide +kernel) (by decide +kernel) [0] ⟨0, 1, rfl, walk⟩ ⟨2, .reaching "G2" 1⟩
    (by simp [twoGoals]) (by decide +kernel) (fun _ => true) fun h => absurd h untracked

end Example

end GoalCoverage.Explorer
