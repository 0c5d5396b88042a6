import GoalCoverage.StateGraph.Removal
import Mathlib.Tactic.SplitIfs

/-!
What the operations on state graphs do to the nodes of the arena, one lemma for each operation.
-/

namespace GoalCoverage.StateGraph

variable {S : Type} {g g' : StateGraph S} {n m p : NodeId} {v w : GraphNode S} {f : GraphNode S → GraphNode S}

theorem lt_of_node? (h : g.node? n = some v) : n < g.nodes.size := by
  rw [node?, Option.join_eq_some_iff] at h
  exact (Array.getElem?_eq_some_iff.1 h).1

theorem node_eq_ok (h : g.node? n = some v) : g.node n = .ok v := by
  rw [node, h]

theorem node_eq_error (missing : g.contains n = false) : g.node n = .error (.unknownNode n) := by
  rw [contains, Option.isSome_eq_false_iff, Option.isNone_iff_eq_none] at missing
  rw [node, missing]

theorem parents_eq_ok (h : g.node? n = some v) : g.parents n = .ok v.parents := by
  rw [parents, node_eq_ok h]
  rfl

theorem children_eq_ok (h : g.node? n = some v) : g.children n = .ok v.children.keys := by
  rw [children, node_eq_ok h]
  rfl

theorem coveredBy_eq_ok (h : g.node? n = some v) : g.coveredBy n = .ok v.coveredBy := by
  rw [coveredBy, node_eq_ok h]
  rfl

theorem isAttached_eq (here : g.node? n = some v) :
    g.isAttached n = .ok (decide (g.root = some n) || !v.parents.isEmpty) := by
  rw [isAttached, node_eq_ok here]
  split_ifs with root
  · rw [decide_eq_true root, Bool.true_or]
  · rw [decide_eq_false root, Bool.false_or]
    rfl

theorem contains_iff : g.contains n = true ↔ ∃ v, g.node? n = some v := by
  rw [contains, Option.isSome_iff_exists]

theorem mem_ids : n ∈ g.ids ↔ ∃ v, g.node? n = some v := by
  rw [ids, List.mem_filter, List.mem_range, contains_iff]
  constructor
  · exact fun h => h.2
  · intro h
    obtain ⟨v, here⟩ := h
    exact ⟨lt_of_node? here, v, here⟩

@[simp] theorem node?_update :
    (g.update n f).node? m = if m = n then (g.node? n).map f else g.node? m := by
  rw [node?, update, Array.getElem?_modify]
  split_ifs with h k k
  · subst h
    rw [node?]
    cases g.nodes[n]? <;> simp
  · exact absurd h.symm k
  · exact absurd k.symm h
  · rfl

theorem node?_update_of_node? (h : g.node? n = some v) :
    (g.update n f).node? m = if m = n then some (f v) else g.node? m := by
  rw [node?_update, h]
  rfl

@[simp] theorem size_update : (g.update n f).nodes.size = g.nodes.size := Array.size_modify

@[simp] theorem covered_update : (g.update n f).covered = g.covered := rfl

theorem node?_allocate (s : S) : (g.allocate s).2.node? m =
    if m = g.nodes.size then some ⟨s, ∅, ∅, none, false⟩ else g.node? m := by
  rw [node?, allocate, Array.getElem?_push]
  split_ifs
  · rfl
  · rfl

theorem link_eq_ok {label : Option EdgeId} (ne : n ≠ p) (here : g.node? n = some v) (there : g.node? p = some w)
    (free : v.parents.contains p = false) (fresh : w.children.contains n = false) :
    g.link n p label = .ok ((g.update n fun v => { v with parents := v.parents.insert p }).update p
      fun v => { v with children := v.children.insert n label }) := by
  simp only [link, bind, Except.bind, pure, Except.pure]
  rw [if_neg ne]
  simp only [node_eq_ok here, node_eq_ok there, free, fresh]
  rfl

/-- `g'` is `g` with a new node below `p`. -/
structure Added (g g' : StateGraph S) (p : NodeId) (w : GraphNode S) (s : S) (label : Option EdgeId) : Prop where
  node : ∀ m, g'.node? m =
    if m = g.nodes.size then some ⟨s, .singleton p, ∅, none, false⟩
    else if m = p then some { w with children := w.children.insert g.nodes.size label }
    else g.node? m
  size : g'.nodes.size = g.nodes.size + 1
  live : g'.live = g.live + 1
  root : g'.root = g.root
  covered : g'.covered = g.covered

theorem addChild_spec (s : S) (label : Option EdgeId) (here : g.node? p = some w)
    (fresh : w.children.get? g.nodes.size = none) :
    ∃ g', g.addChild p s label = .ok (g.nodes.size, g') ∧ g.Added g' p w s label := by
  have lt := lt_of_node? here
  have ne : ¬g.nodes.size = p := fun h => Nat.lt_irrefl _ (h ▸ lt)
  have ne' : ¬p = g.nodes.size := fun h => ne h.symm
  have new : (g.allocate s).2.node? g.nodes.size = some ⟨s, ∅, ∅, none, false⟩ := by
    rw [node?_allocate, if_pos rfl]
  have old : (g.allocate s).2.node? p = some w := by
    rw [node?_allocate, if_neg ne', here]
  let below := (g.allocate s).2.update g.nodes.size fun v => { v with parents := v.parents.insert p }
  let both := below.update p fun v => { v with children := v.children.insert g.nodes.size label }
  have linked : (g.allocate s).2.link g.nodes.size p label = .ok both :=
    link_eq_ok ne new old rfl (by rw [IdMap.contains, fresh, Option.isSome_none])
  refine ⟨both, ?_, ?_⟩
  · simp only [addChild, bind, Except.bind, pure, Except.pure]
    rw [show (g.allocate s).1 = g.nodes.size from rfl, linked]
  refine ⟨fun m => ?_, by simp [both, below, allocate], rfl, rfl, rfl⟩
  simp only [both, below]
  rw [node?_update, node?_update_of_node? new, node?_update_of_node? new, if_neg ne', old, node?_allocate]
  split_ifs with h k
  · exact absurd (k.symm.trans h) ne
  all_goals rfl

/-- `g'` is `g` with `n` covered by `m`. -/
structure Covered (g g' : StateGraph S) (n : NodeId) (v : GraphNode S) (m : NodeId) : Prop where
  node : ∀ k, g'.node? k = if k = n then some { v with coveredBy := some m } else g.node? k
  size : g'.nodes.size = g.nodes.size
  live : g'.live = g.live
  root : g'.root = g.root
  covered : g'.covered = g.covered.insert n

theorem cover_spec (here : g.node? n = some v) (there : g.node? m = some w) (ne : n ≠ m) :
    ∃ g', g.cover n m = .ok g' ∧ g.Covered g' n v m := by
  let marked := g.update n fun v => { v with coveredBy := some m }
  refine ⟨{ marked with covered := g.covered.insert n }, ?_, ?node, ?size, rfl, rfl, rfl⟩
  · have known : g.contains m = true := contains_iff.2 ⟨w, there⟩
    simp only [cover, bind, Except.bind, pure, Except.pure, node_eq_ok here, known]
    rw [if_neg ne]
    rfl
  · intro k
    exact node?_update_of_node? here
  · exact size_update

/-- `g'` is `g` with `n` marked as having no continuation. -/
structure Marked (g g' : StateGraph S) (n : NodeId) (v : GraphNode S) : Prop where
  node : ∀ k, g'.node? k = if k = n then some { v with bottom := true } else g.node? k
  size : g'.nodes.size = g.nodes.size
  live : g'.live = g.live
  root : g'.root = g.root
  covered : g'.covered = g.covered

theorem setBottom_spec (here : g.node? n = some v) : ∃ g', g.setBottom n = .ok g' ∧ g.Marked g' n v := by
  refine ⟨g.update n fun v => { v with bottom := true }, ?_, ?node, ?size, rfl, rfl, rfl⟩
  · simp only [setBottom, node_eq_ok here, bind, Except.bind, pure, Except.pure]
  · intro k
    exact node?_update_of_node? here
  · exact size_update

/-- `g'` is `g` with the leaf `n` cut off from its parent `p`. -/
structure CutOff (g g' : StateGraph S) (n : NodeId) (v : GraphNode S) (p : NodeId) (w : GraphNode S) : Prop where
  node : ∀ m, g'.node? m =
    if m = n then some { v with parents := ∅, children := ∅, coveredBy := none }
    else if m = p then some { w with children := w.children.erase n }
    else g.node? m
  size : g'.nodes.size = g.nodes.size
  live : g'.live = g.live
  root : g'.root = g.root
  covered : g'.covered = g.covered.erase n

end GoalCoverage.StateGraph
