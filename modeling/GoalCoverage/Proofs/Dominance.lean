import GoalCoverage.Proofs.Hunt
import GoalCoverage.Proofs.Suite.Recording

/-!
Guesses from infeasible goals. One edge dominates another if no walk takes the other without having taken the one. The
search that leaves an edge out finds the edges that it does not dominate, so the goals that become infeasible by guess are
exactly the open siblings whose edges are dominated (`propagateInfeasible_exact`).
-/

namespace GoalCoverage

namespace Program

variable {p : Program} {start : Location} {e f : EdgeId}

/-- Wherever a walk from the location takes the edge `f`, it takes `e` there or has taken it before. -/
def Dominates (p : Program) (start : Location) (e f : EdgeId) : Prop :=
  ∀ before after finish, p.Walk start (before ++ f :: after) finish → e ∈ before ++ [f]

theorem traversed_iff_not_dominates : p.Traversed start e f ↔ ¬p.Dominates start e f := by
  constructor
  · intro traversed dominates
    obtain ⟨trace, finish, walk, avoids⟩ := traversed
    exact avoids (dominates trace [] finish walk)
  · intro free
    simp only [Dominates, Classical.not_forall] at free
    obtain ⟨before, after, finish, walk, avoids⟩ := free
    rw [List.append_cons] at walk
    obtain ⟨middle, walk⟩ := walk.of_append
    exact ⟨before, middle, walk, avoids⟩

/-- The search that leaves an edge out finds the targets that it does not dominate. -/
theorem exists_edgesReached (known : p.known start = true) (avoid : EdgeId) (targets : IdSet) :
    ∃ found, p.edgesReached start avoid targets = .ok found ∧
      ∀ f, f ∈ found ↔ f ∈ targets ∧ ¬p.Dominates start avoid f := by
  have located : start < p.locations.size := by simpa [Program.known] using known
  refine ⟨p.huntWithin avoid targets p.locations.size ∅ { found := ∅, todo := [start] }, ?_, fun f => ?_⟩
  · rw [edgesReached, locate, if_pos known]
    rfl
  · rw [← traversed_iff_not_dominates]
    exact mem_huntWithin_iff (.opening p start avoid targets) located (Nat.le_add_right _ _)

end Program

namespace Suite

variable {s s' : Suite} {p : Program} {i : Nat} {γ γ' : Goal} {predicted : List Nat}

/-- The open siblings of a goal whose edges are dominated by its edge. -/
structure Implicated (s : Suite) (p : Program) (γ γ' : Goal) : Prop where
  later : γ.index < γ'.index
  sibling : γ'.cluster = γ.cluster
  unknown : s.prediction γ'.index = .unknown
  dominated : p.Dominates γ.entry γ.criticalEdge γ'.criticalEdge

theorem mem_openSiblings : γ' ∈ s.openSiblings γ ↔ γ' ∈ s.goals.values ∧ γ.index < γ'.index ∧ γ'.cluster = γ.cluster ∧
    s.prediction γ'.index = .unknown := by
  simp [openSiblings, and_assoc]

/-- The prediction of some goals as infeasible. -/
def predictAll (s : Suite) (predicted : List Nat) : Suite := predicted.foldl (fun s g => s.predict g .infeasible) s

theorem get?_predictAll (s : Suite) (predicted : List Nat) (j : Nat) : (s.predictAll predicted).predictions.get? j =
    if j ∈ predicted then some .infeasible else s.predictions.get? j := by
  induction predicted generalizing s with
  | nil => rfl
  | cons g rest ih =>
    have first : s.predictAll (g :: rest) = (s.predict g .infeasible).predictAll rest := rfl
    rw [first, ih, predict, IdMap.get?_insert]
    grind

theorem predictAll_eq (s : Suite) (predicted : List Nat) :
    s.predictAll predicted = { s with predictions := (s.predictAll predicted).predictions } := by
  obtain ⟨m, same⟩ := foldl_predict predicted s
  rw [predictAll, same]

/-- What is predicted are the goals that the search does not clear, in their order. -/
theorem propagateInfeasible_eq (here : s.goals.get? i = some γ) (known : p.known γ.entry = true) :
    ∃ cleared : Goal → Bool, (∀ γ' ∈ s.openSiblings γ, cleared γ' = true ↔ ¬p.Dominates γ.entry γ.criticalEdge γ'.criticalEdge) ∧
      let predicted := ((s.openSiblings γ).filter fun γ' => !cleared γ').map (·.index)
      s.propagateInfeasible p i = .ok (predicted, s.predictAll predicted) := by
  obtain ⟨found, ok, members⟩ := Program.exists_edgesReached known γ.criticalEdge
    (.ofList ((s.openSiblings γ).map (·.criticalEdge)))
  refine ⟨fun γ' => found.contains γ'.criticalEdge, fun γ' mem => ?_, ?_⟩
  · rw [IdSet.contains_iff, members, IdSet.mem_ofList]
    exact and_iff_right (List.mem_map_of_mem mem)
  · simp only [propagateInfeasible, goal_eq_ok here, ok, bind, Except.bind, pure, Except.pure]
    split
    next none =>
      rw [List.isEmpty_iff.1 none]
      rfl
    next => rfl

section Keyed

variable (keyed : ∀ i γ, s.goals.get? i = some γ → γ.index = i)

include keyed

theorem mem_values_iff : γ' ∈ s.goals.values ↔ s.goals.get? γ'.index = some γ' := by
  rw [IdMap.get?_eq_some_iff, IdMap.values, List.mem_map]
  constructor
  · rintro ⟨e, mem, rfl⟩
    rwa [keyed e.1 e.2 (IdMap.get?_eq_some_iff.2 mem)]
  · intro mem
    exact ⟨_, mem, rfl⟩

theorem increasing_values : s.goals.values.Pairwise fun γ γ' => γ.index < γ'.index := by
  rw [IdMap.values, List.pairwise_map]
  refine s.goals.increasing.imp_of_mem fun {e e'} mem mem' less => ?_
  rwa [keyed e.1 e.2 (IdMap.get?_eq_some_iff.2 mem), keyed e'.1 e'.2 (IdMap.get?_eq_some_iff.2 mem')]

/-- The goals that are predicted, in increasing order. -/
theorem exists_propagateInfeasible (here : s.goals.get? i = some γ) (known : p.known γ.entry = true) :
    ∃ predicted, s.propagateInfeasible p i = .ok (predicted, s.predictAll predicted) ∧ predicted.Pairwise (· < ·) ∧
      ∀ j, j ∈ predicted ↔ ∃ γ', s.goals.get? j = some γ' ∧ s.Implicated p γ γ' := by
  obtain ⟨cleared, clears, ok⟩ := propagateInfeasible_eq here known
  refine ⟨_, ok, ?_, fun j => ?_⟩
  · rw [List.pairwise_map]
    exact ((increasing_values keyed).filter _).filter _
  · simp only [List.mem_map, List.mem_filter, Bool.not_eq_true']
    constructor
    · rintro ⟨γ', ⟨mem, guilty⟩, rfl⟩
      obtain ⟨stored, later, sibling, unknown⟩ := mem_openSiblings.1 mem
      rw [← Bool.not_eq_true, clears γ' mem, Classical.not_not] at guilty
      exact ⟨γ', (mem_values_iff keyed).1 stored, later, sibling, unknown, guilty⟩
    · rintro ⟨γ', stored, implicated⟩
      have index := keyed j γ' stored
      subst index
      have mem : γ' ∈ s.openSiblings γ :=
        mem_openSiblings.2 ⟨(mem_values_iff keyed).2 stored, implicated.later, implicated.sibling, implicated.unknown⟩
      refine ⟨γ', ⟨mem, ?_⟩, rfl⟩
      rw [← Bool.not_eq_true, clears γ' mem, Classical.not_not]
      exact implicated.dominated

/--
From an infeasible goal whose entry is a location of the program exactly those goals are predicted to be infeasible, in
increasing order, that have a larger index, the same cluster and no prediction yet, and whose edges are dominated by the edge
of the goal. No other prediction changes, nor does anything else, and the second time nothing is left to predict.
-/
theorem propagateInfeasible_exact (p : Program) (here : s.goals.get? i = some γ) (known : p.known γ.entry = true) :
    ∃ predicted s', s.propagateInfeasible p i = .ok (predicted, s') ∧ predicted.Pairwise (· < ·) ∧
      (∀ j, j ∈ predicted ↔ ∃ γ', s.goals.get? j = some γ' ∧ i < j ∧ γ'.cluster = γ.cluster ∧ s.prediction j = .unknown ∧
        p.Dominates γ.entry γ.criticalEdge γ'.criticalEdge) ∧
      (∀ j, s'.predictions.get? j = if j ∈ predicted then some .infeasible else s.predictions.get? j) ∧
      s' = { s with predictions := s'.predictions } ∧ s'.propagateInfeasible p i = .ok ([], s') := by
  obtain ⟨predicted, ok, increasing, members⟩ := exists_propagateInfeasible keyed here known
  have others := predictAll_eq s predicted
  have goals : (s.predictAll predicted).goals = s.goals := by rw [others]
  obtain ⟨again, ok', _, members'⟩ := exists_propagateInfeasible (s := s.predictAll predicted) (by rwa [goals])
    (by rwa [goals]) known
  -- What is implicated later was implicated before, so that it is predicted by now.
  have none : again = [] := by
    rw [List.eq_nil_iff_forall_not_mem]
    intro j mem
    obtain ⟨γ', stored, implicated⟩ := (members' j).1 mem
    rw [goals] at stored
    have index := keyed j γ' stored
    have unknown := implicated.unknown
    rw [index, prediction, IdMap.getD, get?_predictAll] at unknown
    split at unknown
    next => cases unknown
    next new =>
      refine new ((members j).2 ⟨γ', stored, implicated.later, implicated.sibling, ?_, implicated.dominated⟩)
      rw [index]
      exact unknown
  refine ⟨predicted, s.predictAll predicted, ok, increasing, fun j => ?_, get?_predictAll s predicted, others, ?_⟩
  · rw [members]
    apply exists_congr
    intro γ'
    apply and_congr_right
    intro stored
    rw [← keyed i γ here, ← keyed j γ' stored]
    constructor
    · exact fun implicated => ⟨implicated.later, implicated.sibling, implicated.unknown, implicated.dominated⟩
    · rintro ⟨later, sibling, unknown, dominated⟩
      exact ⟨later, sibling, unknown, dominated⟩
  · rw [ok', none]
    rfl

end Keyed

section Example

/-- Edge 1 closes a cycle with edges 0 and 2, past which edge 4 leads to the loop of edge 5. -/
def roundabout : Program := .ofArrows 3 [(0, 1), (1, 2), (2, 0), (2, 3), (0, 3), (3, 3)]

/-- Two goals share edge 2, one has the edge of the first goal, one is in another cluster, and of one something is known. -/
def siblings : Suite :=
  (({ variability := false } : Suite).addGoals [.forEdge 1 1 0 0, .forEdge 2 2 0 0, .forEdge 3 3 1 0, .forEdge 4 3 0 0,
    .forEdge 5 5 0 0, .forEdge 6 1 0 0, .forEdge 7 2 0 0]).predict 4 .feasible

theorem propagateInfeasible_exact_roundabout : ∃ s', siblings.propagateInfeasible roundabout 1 = .ok ([2, 6, 7], s') ∧
    s'.prediction 4 = .feasible ∧ s'.propagateInfeasible roundabout 1 = .ok ([], s') ∧ roundabout.Dominates 0 1 2 ∧
    ¬roundabout.Dominates 0 1 5 := by
  have keyed : ∀ i γ, siblings.goals.get? i = some γ → γ.index = i := by
    intro i γ here
    have each : ∀ e ∈ siblings.goals.entries, e.2.index = e.1 := by decide +kernel
    exact each (i, γ) (IdMap.get?_eq_some_iff.1 here)
  have known : roundabout.known 0 = true := by decide +kernel
  have here : siblings.goals.get? 1 = some (.forEdge 1 1 0 0) := rfl
  obtain ⟨predicted, s', ok, _, members, others, _, again⟩ :=
    propagateInfeasible_exact keyed roundabout here known
  have run : (siblings.propagateInfeasible roundabout 1).toOption.map (·.1) = some [2, 6, 7] := by decide +kernel
  rw [ok] at run
  cases run
  refine ⟨s', ok, ?_, again, ?_, fun dominated => ?_⟩
  · rw [prediction, IdMap.getD, others]
    rfl
  · obtain ⟨γ', stored, _, _, _, dominated⟩ := (members 2).1 (by decide)
    cases stored
    exact dominated
  · have predicted : 5 ∈ [2, 6, 7] := (members 5).2 ⟨.forEdge 5 5 0 0, rfl, by decide, rfl, rfl, dominated⟩
    exact absurd predicted (by decide)

end Example

end Suite

end GoalCoverage
