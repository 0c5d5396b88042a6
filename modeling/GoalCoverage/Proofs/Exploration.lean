import GoalCoverage.Exploration
import GoalCoverage.Generation.Harvest
import GoalCoverage.Proofs.StateGraph.Removal

/-!
Pruning and sweeping explorations whose graphs are trees. Pruning a live target cuts it off and puts its
parent to the frontier; sweeping drops the nodes that were cut off.
-/

namespace GoalCoverage.Exploration

open StateGraph

variable {S : Type} [AbstractState S] {x x' : Exploration S} {root n m p : NodeId} {v w : GraphNode S}

theorem mem_targets : n ∈ x.targets ↔
    ∃ v, x.graph.node? n = some v ∧ x.graph.Attached n ∧ AbstractState.isTarget v.state = true := by
  rw [targets, List.mem_filter, mem_ids, isLiveTarget, Option.any_eq_true]
  simp only [Bool.and_eq_true, Bool.or_eq_true, decide_eq_true_eq, Bool.not_eq_true',
    IdSet.isEmpty_eq_false_iff, Attached]
  constructor
  · rintro ⟨_, v, here, place, target⟩
    exact ⟨v, here, ⟨v, here, place⟩, target⟩
  · rintro ⟨v, here, ⟨u, known, place⟩, target⟩
    rw [here] at known
    cases known
    exact ⟨⟨v, here⟩, v, here, place, target⟩

omit [AbstractState S] in
theorem node?_start {s : S} : (start s).graph.node? n = some v ↔ n = 0 ∧ v = ⟨s, ∅, ∅, none, false⟩ := by
  cases n with
  | zero => simp [start, StateGraph.allocate, StateGraph.node?, StateGraph.empty, eq_comm]
  | succ n => simp [start, StateGraph.allocate, StateGraph.node?, StateGraph.empty]

omit [AbstractState S] in
theorem add_eq {g' : StateGraph S} {s : S} {label : Option EdgeId} (ok : x.graph.addChild p s label = .ok (n, g')) :
    x.add p s label =
      .ok (n, { x with graph := g', last := some n, waiting := x.waiting ++ [n] }) := by
  simp only [add, ok, bind, Except.bind, pure, Except.pure]

/-- `x'` is `x` after a target `n` below `p` was pruned. -/
structure Pruned (x x' : Exploration S) (n : NodeId) (v : GraphNode S) (p : NodeId) (w : GraphNode S) : Prop where
  graph : x.graph.CutOff x'.graph n v p w
  waiting : x'.waiting =
    if p ∈ x.waiting.filter (· != n) then x.waiting.filter (· != n) else p :: x.waiting.filter (· != n)
  disabled : x'.disabled = x.disabled
  constraint : x'.constraint = x.constraint

omit [AbstractState S] in
/-- Nothing is below a leaf. -/
theorem subtree_of_leaf (here : x.graph.node? n = some v) (leaf : v.children = ∅) :
    ∃ t, x.graph.subtree n = .ok t ∧ t.toList = [n] ∧ ∀ m, t.contains m = decide (m = n) := by
  have none : x.graph.childList n = [] := by
    rw [childList, here]
    simp only [leaf]
    rfl
  have found : Closure.reach x.graph.childList x.graph.nodes.size [n] = (∅ : Std.TreeSet NodeId).insert n := by
    obtain ⟨left, size⟩ := Nat.exists_eq_add_of_lt (lt_of_node? here)
    rw [Closure.reach, size, Closure.visit]
    simp only [Std.TreeSet.contains_emptyc, List.dropWhile_cons, Bool.false_eq_true, if_false, none]
    cases n + left with
    | zero => rfl
    | succ left => rfl
  refine ⟨_, by rw [subtree, node_eq_ok here]; rfl, ?_, fun m => ?_⟩
  · rw [found]
    rfl
  · rw [found, Std.TreeSet.contains_insert]
    simp only [Bool.beq_eq_decide_eq, Std.LawfulEqCmp.compare_eq_iff_eq, Std.TreeSet.contains_emptyc, Bool.or_false]
    simp only [eq_comm]

theorem prune_spec (tree : x.graph.Tree root) (here : x.graph.node? n = some v)
    (target : AbstractState.isTarget v.state = true) (mem : p ∈ v.parents) :
    ∃ w x', x.graph.node? p = some w ∧ x.prune n = .ok x' ∧ x.Pruned x' n v p w := by
  obtain ⟨single, lt, w, e, there, link⟩ := tree.parent n v p here mem
  obtain ⟨leaf, _⟩ := tree.target n v here target
  have ne : p ≠ n := Nat.ne_of_lt lt
  obtain ⟨g', detached, cut⟩ := detach_spec tree here target there single
  obtain ⟨t, subtree, listed, contains⟩ := subtree_of_leaf here leaf
  let y : Exploration S :=
    { x with
      graph := g'
      waiting := x.waiting.filter fun m => !t.contains m
      last := x.last.filter fun m => !t.contains m }
  have resumes : y.resumes t p = .ok true := by
    have after : g'.node? p = some { w with children := w.children.erase n } := by
      rw [cut.node, if_neg ne, if_pos rfl]
    obtain ⟨place, uncovered, _⟩ := tree.of_child there link
    have attached : y.graph.isAttached p = .ok true := by
      rw [isAttached_eq after, Except.ok.injEq, Bool.or_eq_true, decide_eq_true_eq, Bool.not_eq_true',
        IdSet.isEmpty_eq_false_iff]
      refine place.imp_left fun same => ?_
      rw [same]
      exact cut.root.trans tree.root_eq
    have open' : y.graph.isCovered p = false := by
      rw [isCovered, after]
      simp [uncovered]
    simp [resumes, contains, ne, attached, open', bind, Except.bind, pure, Except.pure]
  have waiting : y.waiting = x.waiting.filter (· != n) := by
    apply List.filter_congr
    intro m _
    rw [contains, bne, beq_eq_decide]
  refine ⟨w, y.pushFront p, there, ?_, ?_, ?_, ?_, ?_⟩
  · have only : v.parents.toList = [p] := by
      rw [single]
      rfl
    simp only [prune, subtree, parents_eq_ok here, listed, only, detached, bind, Except.bind, pure, Except.pure,
      List.foldlM_cons, List.foldlM_nil, List.append_nil, List.filter_nil, List.foldl_nil,
      List.filterMapM_cons, List.filterMapM_nil]
    simp only [y] at resumes
    rw [resumes]
    rfl
  · have same : (y.pushFront p).graph = g' := by
      rw [pushFront]
      split <;> rfl
    rw [same]
    exact cut
  · rw [pushFront, waiting]
    split
    · exact waiting
    · rw [← waiting]
  · rw [pushFront]
    split <;> rfl
  · rw [pushFront]
    split <;> rfl

/-- Sweeping releases no cover in a tree, so nothing is put to the frontier. -/
theorem sweep_eq (tree : x.graph.Tree root) : x.sweep.2 =
    { x with
      graph := x.graph.sweep.2
      waiting := x.waiting.filter x.graph.sweep.2.contains
      last := x.last.filter x.graph.sweep.2.contains } := by
  simp only [sweep]
  rw [(sweep_spec tree).2.1]
  rfl

end GoalCoverage.Exploration
