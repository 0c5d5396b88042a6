import GoalCoverage.Explorer.Run
import GoalCoverage.Proofs.Procedure

/-!
Composition of explorers. It succeeds for observers that name edges of the program only (`compose_ensures`).
-/

namespace GoalCoverage.Explorer

open Procedure

variable {factory : ExplorerFactory} {observers : List Observer} {p : Program}
  {a : Automaton} {constraint : Option Region} {covering : Option IdSet} {T : Failure → Prop} {d : Diagram}

theorem unknownEdge?_eq_none : unknownEdge? p a = none ↔
    ∀ t ∈ a.transitions, ∀ e ∈ t.label.edges.named, e < p.edges.size := by
  simp [unknownEdge?, List.find?_eq_none, IdSet.mem_toList]

theorem checkParts_eq (some_observer : observers ≠ []) (managed : constraint.isSome = true → factory.tracks = true)
    (known : ∀ o ∈ observers, unknownEdge? factory.program o.automaton = none) :
    checkParts factory observers constraint = .ok () := by
  have each : ∀ (l : List Observer), (∀ o ∈ l, unknownEdge? factory.program o.automaton = none) →
      l.forM (checkObserver factory.program) = .ok () := by
    intro l
    induction l with
    | nil => exact fun _ => rfl
    | cons o rest ih =>
      intro known
      rw [List.forM_eq_forM, List.forM_cons, checkObserver, known o List.mem_cons_self, ← List.forM_eq_forM]
      exact ih fun o mem => known o (List.mem_cons_of_mem _ mem)
  have inhabited : observers.isEmpty = false := by simpa using some_observer
  have allowed : (constraint.isSome && !factory.tracks) = false := by
    cases tracks : factory.tracks with
    | true => simp
    | false =>
      have none : constraint.isSome ≠ true := fun h => by
        rw [managed h] at tracks
        cases tracks
      simpa using none
  rw [checkParts, inhabited, allowed]
  exact each observers known

theorem compose_eq_ok {x : Explorer} (ok : compose factory observers constraint covering = .ok x) :
    x = {
      program := factory.program
      tracks := factory.tracks
      observers
      covering := covering.getD factory.program.joins
      constraint
      opened := ∅
      maxNodes := factory.maxNodes
      explains := factory.explains
      counterexamples := ∅ } := by
  rw [compose] at ok
  cases checked : checkParts factory observers constraint with
  | error r =>
    rw [checked] at ok
    cases ok
  | ok u =>
    rw [checked] at ok
    exact (Except.ok.inj ok).symm

/-- Only explorers that track configurations are composed for a region. -/
theorem tracks_of_compose {x : Explorer} (ok : compose factory observers constraint covering = .ok x)
    (restricted : constraint.isSome = true) : factory.tracks = true := by
  by_contra untracked
  rw [Bool.not_eq_true] at untracked
  have refused : ∃ r, checkParts factory observers constraint = .error r := by
    rw [checkParts, restricted, untracked]
    cases observers with
    | nil => exact ⟨_, rfl⟩
    | cons o rest => exact ⟨_, rfl⟩
  obtain ⟨r, refused⟩ := refused
  rw [compose, refused] at ok
  cases ok

/-- What is composed of parts that fit together. -/
theorem compose_ensures (some_observer : observers ≠ []) (managed : constraint.isSome = true → factory.tracks = true)
    (known : (∀ failure, T failure) ∨ ∀ o ∈ observers, unknownEdge? factory.program o.automaton = none) :
    Ensures T (analysis.compose observers constraint covering) (d, factory) fun x s => s = (d, factory) ∧
      x = {
        program := factory.program
        tracks := factory.tracks
        observers
        covering := covering.getD factory.program.joins
        constraint
        opened := ∅
        maxNodes := factory.maxNodes
        explains := factory.explains
        counterexamples := ∅ } := by
  rw [analysis, ensures_bind, ensures_get]
  dsimp only
  cases out : compose factory observers constraint covering with
  | ok x => exact ⟨rfl, compose_eq_ok out⟩
  | error r =>
    cases known with
    | inl any => exact any _
    | inr known =>
      rw [compose, checkParts_eq some_observer managed known] at out
      cases out

end GoalCoverage.Explorer
