import GoalCoverage.Proofs.StateGraph.Nodes
import Mathlib.Tactic.ByContra

/-!
State graphs that are trees. Every node but the root has at most one parent, which is older, and links are
known at both ends. Detached nodes, covered nodes and targets are leaves, and covers are attached,
uncovered and no targets. So cutting off a live target and sweeping touch nothing else.
-/

namespace GoalCoverage.StateGraph

variable {S : Type} {g g' : StateGraph S} {root n m p : NodeId} {v w : GraphNode S} {l : Option EdgeId}

/-- The root, or a node with a parent. -/
def Attached (g : StateGraph S) (n : NodeId) : Prop :=
  ∃ v, g.node? n = some v ∧ (g.root = some n ∨ ∃ p, p ∈ v.parents)

/-- A node stays as it is, but for new children. -/
structure Kept (v v' : GraphNode S) : Prop where
  state : v'.state = v.state
  parents : v'.parents = v.parents
  coveredBy : v'.coveredBy = v.coveredBy
  children : ∀ c l, v.children.get? c = some l → v'.children.get? c = some l

def Grows (g g' : StateGraph S) : Prop := ∀ n v, g.node? n = some v → ∃ v', g'.node? n = some v' ∧ Kept v v'

/-- A node stays as it is, but for a link or a cover that it loses. -/
structure Lessened (v v' : GraphNode S) : Prop where
  state : v'.state = v.state
  children : ∀ c l, v'.children.get? c = some l → v.children.get? c = some l
  coveredBy : ∀ m, v'.coveredBy = some m → v.coveredBy = some m

def Shrinks (g g' : StateGraph S) : Prop :=
  ∀ n v', g'.node? n = some v' → ∃ v, g.node? n = some v ∧ Lessened v v'

theorem Kept.refl (v : GraphNode S) : Kept v v := ⟨rfl, rfl, rfl, fun _ _ h => h⟩

theorem Kept.trans {u : GraphNode S} (first : Kept u v) (second : Kept v w) : Kept u w where
  state := second.state.trans first.state
  parents := second.parents.trans first.parents
  coveredBy := second.coveredBy.trans first.coveredBy
  children c l h := second.children c l (first.children c l h)

theorem Grows.refl (g : StateGraph S) : g.Grows g := fun _ v h => ⟨v, h, .refl v⟩

theorem Grows.trans {g'' : StateGraph S} (first : g.Grows g') (second : g'.Grows g'') : g.Grows g'' := by
  intro n v here
  obtain ⟨v', here', kept⟩ := first n v here
  obtain ⟨v'', here'', kept'⟩ := second n v' here'
  exact ⟨v'', here'', kept.trans kept'⟩

/-- Nodes are added under new numbers only, and the old ones keep their states. -/
structure Inherits (g g' : StateGraph S) : Prop where
  size : g.nodes.size ≤ g'.nodes.size
  state : ∀ n v', g'.node? n = some v' → n < g.nodes.size → ∃ v, g.node? n = some v ∧ v'.state = v.state

theorem Inherits.refl (g : StateGraph S) : g.Inherits g := ⟨Nat.le_refl _, fun _ v here _ => ⟨v, here, rfl⟩⟩

theorem Inherits.trans {g'' : StateGraph S} (first : g.Inherits g') (second : g'.Inherits g'') : g.Inherits g'' := by
  refine ⟨Nat.le_trans first.size second.size, fun n v'' here'' lt => ?_⟩
  obtain ⟨v', here', same'⟩ := second.state n v'' here'' (Nat.lt_of_lt_of_le lt first.size)
  obtain ⟨v, here, same⟩ := first.state n v' here' lt
  exact ⟨v, here, same'.trans same⟩

/-- A node that is in both graphs has the same state in them. -/
theorem Inherits.state_eq {u : GraphNode S} (inherits : g.Inherits g') (here : g.node? n = some v)
    (there : g'.node? n = some u) : u.state = v.state := by
  obtain ⟨v', here', same⟩ := inherits.state n u there (lt_of_node? here)
  cases here.symm.trans here'
  exact same

theorem Shrinks.inherits (shrinks : g.Shrinks g') (size : g'.nodes.size = g.nodes.size) : g.Inherits g' := by
  refine ⟨Nat.le_of_eq size.symm, fun n v' there _ => ?_⟩
  obtain ⟨v, here, less⟩ := shrinks n v' there
  exact ⟨v, here, less.state⟩

theorem Added.grows {s : S} (added : g.Added g' p w s l) (here : g.node? p = some w)
    (fresh : w.children.get? g.nodes.size = none) : g.Grows g' := by
  intro n v known
  have lt := lt_of_node? known
  rw [added.node, if_neg (Nat.ne_of_lt lt)]
  split_ifs with same
  · subst same
    rw [here] at known
    cases known
    refine ⟨_, rfl, rfl, rfl, rfl, fun c l h => ?_⟩
    have other : c ≠ g.nodes.size := by
      intro e
      rw [e, fresh] at h
      cases h
    rw [IdMap.get?_insert, if_neg other, h]
  · exact ⟨v, known, .refl v⟩

theorem Marked.grows (marked : g.Marked g' n v) (here : g.node? n = some v) : g.Grows g' := by
  intro m u known
  rw [marked.node]
  split_ifs with same
  · subst same
    rw [here] at known
    cases known
    exact ⟨_, rfl, rfl, rfl, rfl, fun _ _ h => h⟩
  · exact ⟨u, known, .refl u⟩

theorem Marked.shrinks (marked : g.Marked g' n v) (here : g.node? n = some v) : g.Shrinks g' := by
  intro m u known
  rw [marked.node] at known
  split_ifs at known with same
  · subst same
    cases known
    exact ⟨v, here, rfl, fun _ _ h => h, fun _ h => h⟩
  · exact ⟨u, known, rfl, fun _ _ h => h, fun _ h => h⟩

theorem CutOff.shrinks (cut : g.CutOff g' n v p w) (here : g.node? n = some v) (there : g.node? p = some w) :
    g.Shrinks g' := by
  intro m u known
  rw [cut.node] at known
  split_ifs at known with same same'
  · subst same
    cases known
    refine ⟨v, here, rfl, fun c l h => ?_, fun k h => nomatch h⟩
    rw [IdMap.get?_empty] at h
    cases h
  · subst same'
    cases known
    refine ⟨w, there, rfl, fun c l h => ?_, fun _ h => h⟩
    rw [IdMap.get?_erase] at h
    split_ifs at h
    exact h
  · exact ⟨u, known, rfl, fun _ _ h => h, fun _ h => h⟩

/-- Nobody changes state when a node is cut off. -/
theorem CutOff.stays (cut : g.CutOff g' n v p w) (here : g.node? n = some v) (there : g.node? p = some w)
    {u : GraphNode S} (known : g.node? m = some u) : ∃ u', g'.node? m = some u' ∧ u'.state = u.state := by
  rw [cut.node]
  split_ifs with same same'
  · subst same
    rw [here] at known
    cases known
    exact ⟨_, rfl, rfl⟩
  · subst same'
    rw [there] at known
    cases known
    exact ⟨_, rfl, rfl⟩
  · exact ⟨u, known, rfl⟩

/-- Only the node that is cut off loses its place and its cover. -/
theorem CutOff.rests (cut : g.CutOff g' n v p w) (there : g.node? p = some w) (other : m ≠ n) {u : GraphNode S}
    (known : g.node? m = some u) :
    ∃ u', g'.node? m = some u' ∧ u'.parents = u.parents ∧ u'.coveredBy = u.coveredBy := by
  rw [cut.node, if_neg other]
  split_ifs with same
  · subst same
    rw [there] at known
    cases known
    exact ⟨_, rfl, rfl, rfl⟩
  · exact ⟨u, known, rfl, rfl⟩

variable [AbstractState S]

structure Tree (g : StateGraph S) (root : NodeId) : Prop where
  root_eq : g.root = some root
  root_mem : ∃ v, g.node? root = some v
  orphan : ∀ v p, g.node? root = some v → p ∉ v.parents
  parent : ∀ n v p, g.node? n = some v → p ∈ v.parents →
    v.parents = .singleton p ∧ p < n ∧ ∃ w e, g.node? p = some w ∧ w.children.get? n = some (some e)
  child : ∀ p w n l, g.node? p = some w → w.children.get? n = some l → ∃ v, g.node? n = some v ∧ p ∈ v.parents
  loose : ∀ n v, g.node? n = some v → n ≠ root → (∀ p, p ∉ v.parents) → v.children = ∅ ∧ v.coveredBy = none
  target : ∀ n v, g.node? n = some v → AbstractState.isTarget v.state = true →
    v.children = ∅ ∧ v.coveredBy = none
  cover : ∀ n v m, g.node? n = some v → v.coveredBy = some m → v.children = ∅ ∧
    (∃ p, p ∈ v.parents) ∧ ∃ w, g.node? m = some w ∧ (m = root ∨ ∃ p, p ∈ w.parents) ∧ w.coveredBy = none ∧
      AbstractState.isTarget w.state = false
  covered : ∀ n, n ∈ g.covered ↔ ∃ v m, g.node? n = some v ∧ v.coveredBy = some m
  live : g.live = g.ids.length

namespace Tree

variable (tree : g.Tree root)

include tree

theorem attached_iff (here : g.node? n = some v) : g.Attached n ↔ n = root ∨ ∃ p, p ∈ v.parents := by
  rw [Attached, tree.root_eq]
  constructor
  · intro h
    obtain ⟨u, known, place⟩ := h
    rw [here] at known
    cases known
    exact place.imp (fun h => (Option.some.inj h).symm) id
  · intro h
    exact ⟨v, here, h.imp (fun h => congrArg some h.symm) id⟩

theorem child_lt (here : g.node? p = some w) (link : w.children.get? n = some l) : p < n := by
  obtain ⟨v, there, mem⟩ := tree.child p w n l here link
  exact (tree.parent n v p there mem).2.1

/-- A node with a child is attached, uncovered and no target. -/
theorem of_child (here : g.node? p = some w) (link : w.children.get? n = some l) :
    (p = root ∨ ∃ q, q ∈ w.parents) ∧ w.coveredBy = none ∧ AbstractState.isTarget w.state = false := by
  have some_child : w.children ≠ ∅ := by
    intro none
    rw [none, IdMap.get?_empty] at link
    cases link
  refine ⟨?_, ?_, ?_⟩
  · by_contra detached
    rw [not_or, not_exists] at detached
    exact some_child (tree.loose p w here detached.1 detached.2).1
  · rw [Option.eq_none_iff_forall_ne_some]
    intro m covered
    exact some_child (tree.cover p w m here covered).1
  · rw [← Bool.not_eq_true]
    intro target
    exact some_child (tree.target p w here target).1

theorem fresh_not_child (here : g.node? p = some w) : w.children.get? g.nodes.size = none := by
  rw [Option.eq_none_iff_forall_ne_some]
  intro l link
  obtain ⟨v, there, _⟩ := tree.child p w _ l here link
  exact Nat.lt_irrefl _ (lt_of_node? there)

end Tree

theorem Attached.grows (tree : g.Tree root) (tree' : g'.Tree root) (grows : g.Grows g')
    (attached : g.Attached n) : g'.Attached n := by
  obtain ⟨v, here, _⟩ := id attached
  obtain ⟨v', here', kept⟩ := grows n v here
  rw [tree'.attached_iff here', kept.parents]
  exact (tree.attached_iff here).1 attached

omit [AbstractState S] in
theorem length_ids_added {s : S} (added : g.Added g' p w s l) (here : g.node? p = some w) :
    g'.ids.length = g.ids.length + 1 := by
  have old : (List.range g.nodes.size).filter g'.contains = g.ids := by
    apply List.filter_congr
    intro n mem
    have lt := List.mem_range.1 mem
    rw [contains, contains, added.node, if_neg (Nat.ne_of_lt lt)]
    split_ifs with same
    · rw [same, here]
      rfl
    · rfl
  have new : g'.contains g.nodes.size = true := contains_iff.2 ⟨_, by rw [added.node, if_pos rfl]⟩
  rw [ids, added.size, List.range_succ, List.filter_append, old, List.length_append]
  simp [new]

theorem Tree.added {s : S} {e : EdgeId} (tree : g.Tree root) (here : g.node? p = some w)
    (attached : g.Attached p) (open' : w.coveredBy = none) (plain : AbstractState.isTarget w.state = false)
    (added : g.Added g' p w s (some e)) : g'.Tree root := by
  have lt : p < g.nodes.size := lt_of_node? here
  have known : ∀ n v, g.node? n = some v → n < g.nodes.size := fun n v h => lt_of_node? h
  have node := added.node
  have place := (tree.attached_iff here).1 attached
  have linked : ∀ k, (w.children.insert g.nodes.size (some e)).get? k =
      if k = g.nodes.size then some (some e) else w.children.get? k := fun k => IdMap.get?_insert
  refine ⟨?_, ?_, ?_, ?_, ?_, ?_, ?_, ?_, ?_, ?_⟩
  · rw [added.root, tree.root_eq]
  · obtain ⟨v, r⟩ := tree.root_mem
    have := known _ _ r
    grind
  · have := tree.orphan
    obtain ⟨v, r⟩ := tree.root_mem
    have := known _ _ r
    grind
  · have := tree.parent
    grind [IdSet.mem_singleton]
  · have grows := added.grows here (tree.fresh_not_child here)
    have old : ∀ q u n l, g.node? q = some u → u.children.get? n = some l →
        ∃ v, g'.node? n = some v ∧ q ∈ v.parents := by
      intro q u n l h link
      obtain ⟨v, there, mem⟩ := tree.child q u n l h link
      obtain ⟨v', there', kept⟩ := grows n v there
      exact ⟨v', there', kept.parents ▸ mem⟩
    intro q u n l h link
    rw [node] at h
    split_ifs at h with first second
    · cases h
      cases link
    · cases h
      subst second
      rw [linked] at link
      split_ifs at link with last
      · exact ⟨_, by rw [node, if_pos last], IdSet.mem_singleton.2 rfl⟩
      · exact old q w n l here link
    · exact old q u n l h link
  · have := tree.loose
    grind [IdSet.mem_singleton]
  · have := tree.target
    grind
  · have := tree.cover
    grind
  · intro n
    rw [added.covered, tree.covered n]
    grind
  · rw [added.live, tree.live, length_ids_added added here]

omit [AbstractState S] in
theorem ids_eq_of_contains (size : g'.nodes.size = g.nodes.size) (same : ∀ n, g'.contains n = g.contains n) :
    g'.ids = g.ids := by
  rw [ids, ids, size]
  exact List.filter_congr fun n _ => same n

theorem Tree.marked (tree : g.Tree root) (here : g.node? n = some v) (marked : g.Marked g' n v) :
    g'.Tree root := by
  have node := marked.node
  have kept : g'.ids = g.ids := by
    apply ids_eq_of_contains marked.size
    intro m
    rw [contains, contains, node]
    split_ifs with same
    · rw [same, here]
      rfl
    · rfl
  refine ⟨?_, ?_, ?_, ?_, ?_, ?_, ?_, ?_, ?_, ?_⟩
  · rw [marked.root, tree.root_eq]
  · have := tree.root_mem
    grind
  · have := tree.orphan
    grind
  · have := tree.parent
    grind
  · have grows := marked.grows here
    intro q u k l h link
    have old : ∃ u, g.node? q = some u ∧ u.children.get? k = some l := by grind
    obtain ⟨u', there, link'⟩ := old
    obtain ⟨x, known, mem⟩ := tree.child q u' k l there link'
    obtain ⟨x', known', stays⟩ := grows k x known
    exact ⟨x', known', stays.parents ▸ mem⟩
  · have := tree.loose
    grind
  · have := tree.target
    grind
  · have := tree.cover
    grind
  · intro k
    rw [marked.covered, tree.covered]
    grind
  · rw [marked.live, tree.live, kept]

theorem Tree.covered' (tree : g.Tree root) (here : g.node? n = some v) (there : g.node? m = some w)
    (ne : n ≠ m) (leaf : v.children = ∅) (hanging : ∃ p, p ∈ v.parents)
    (plain : AbstractState.isTarget v.state = false) (attached : g.Attached m) (open' : w.coveredBy = none)
    (covers : AbstractState.isTarget w.state = false)
    (alone : ∀ k u, g.node? k = some u → u.coveredBy ≠ some n) (covered : g.Covered g' n v m) :
    g'.Tree root := by
  have node := covered.node
  have place := (tree.attached_iff there).1 attached
  have kept : g'.ids = g.ids := by
    apply ids_eq_of_contains covered.size
    intro k
    rw [contains, contains, node]
    split_ifs with same
    · rw [same, here]
      rfl
    · rfl
  refine ⟨?_, ?_, ?_, ?_, ?_, ?_, ?_, ?_, ?_, ?_⟩
  · rw [covered.root, tree.root_eq]
  · have := tree.root_mem
    grind
  · have := tree.orphan
    grind
  · have := tree.parent
    grind
  · have := tree.child
    intro q u k l h link
    have old : ∃ u, g.node? q = some u ∧ u.children.get? k = some l := by grind
    obtain ⟨u', there, link'⟩ := old
    obtain ⟨x, known, mem⟩ := tree.child q u' k l there link'
    rw [node]
    split_ifs with same
    · subst same
      rw [here] at known
      cases known
      exact ⟨_, rfl, mem⟩
    · exact ⟨x, known, mem⟩
  · have := tree.loose
    grind
  · have := tree.target
    grind
  · have := tree.cover
    grind
  · intro k
    rw [covered.covered, IdSet.mem_insert, tree.covered]
    grind
  · rw [covered.live, tree.live, kept]

end GoalCoverage.StateGraph
