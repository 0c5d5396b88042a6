import GoalCoverage.Proofs.StateGraph.Removal

/-!
Routes through trees. There is one branch from the root to every attached node, and the walk back along
parents finds it (`routeTo_spec`).
-/

namespace GoalCoverage.StateGraph

variable {S : Type} {g : StateGraph S} {root n p : NodeId} {v w : GraphNode S} {e : EdgeId}

/-- `n` is a child of `p` for the edge `e`. -/
def Link (g : StateGraph S) (p : NodeId) (e : EdgeId) (n : NodeId) : Prop :=
  ∃ w, g.node? p = some w ∧ w.children.get? n = some (some e)

/-- The way from the root down to a node. -/
inductive Branch (g : StateGraph S) (root : NodeId) : List NodeId → List EdgeId → NodeId → Prop
  | root : Branch g root [root] [] root
  | step {nodes : List NodeId} {edges : List EdgeId} {p n : NodeId} {e : EdgeId} :
    Branch g root nodes edges p → g.Link p e n → Branch g root (nodes ++ [n]) (edges ++ [e]) n

theorem Branch.length {nodes : List NodeId} {edges : List EdgeId} (branch : g.Branch root nodes edges n) :
    nodes.length = edges.length + 1 := by
  induction branch with
  | root => rfl
  | step _ _ ih => simp [ih]

/-- A branch goes through branches. -/
theorem Branch.take {nodes : List NodeId} {edges : List EdgeId} (branch : g.Branch root nodes edges n) {i : Nat}
    (le : i ≤ edges.length) :
    ∃ m, nodes[i]? = some m ∧ g.Branch root (nodes.take (i + 1)) (edges.take i) m := by
  induction branch with
  | root =>
    have zero : i = 0 := Nat.le_zero.1 le
    subst zero
    exact ⟨root, rfl, .root⟩
  | @step nodes edges p n e branch link ih =>
    have same := branch.length
    by_cases last : i = edges.length + 1
    · subst last
      refine ⟨n, by simp [← same], ?_⟩
      rw [List.take_of_length_le (by simp; omega), List.take_of_length_le (by simp)]
      exact branch.step link
    · rw [List.length_append, List.length_singleton] at le
      obtain ⟨m, here, part⟩ := ih (by omega)
      refine ⟨m, ?_, ?_⟩
      · rw [List.getElem?_append_left (by omega)]
        exact here
      · rw [List.take_append_of_le_length (by omega), List.take_append_of_le_length (by omega)]
        exact part

theorem Branch.head? {nodes : List NodeId} {edges : List EdgeId} (branch : g.Branch root nodes edges n) :
    nodes.head? = some root := by
  induction branch with
  | root => rfl
  | step _ _ ih => rw [List.head?_append, ih, Option.some_or]

theorem Branch.getLast? {nodes : List NodeId} {edges : List EdgeId} (branch : g.Branch root nodes edges n) :
    nodes.getLast? = some n := by
  cases branch with
  | root => rfl
  | step => exact List.getLast?_concat

/-- Every edge of a branch is the link between the nodes around it. -/
theorem Branch.exists_link {nodes : List NodeId} {edges : List EdgeId} (branch : g.Branch root nodes edges n) {i : Nat}
    (there : edges[i]? = some e) : ∃ p m, nodes[i]? = some p ∧ nodes[i + 1]? = some m ∧ g.Link p e m := by
  induction branch with
  | root => cases there
  | @step nodes edges p n f branch link ih =>
    have length := branch.length
    obtain old | last := Nat.lt_or_ge i edges.length
    · rw [List.getElem?_append_left old] at there
      obtain ⟨q, m, before, after, link'⟩ := ih there
      refine ⟨q, m, ?_, ?_, link'⟩
      · rwa [List.getElem?_append_left (by omega)]
      · rwa [List.getElem?_append_left (by omega)]
    · obtain rfl : i = edges.length := by
        have lt := (List.getElem?_eq_some_iff.1 there).1
        rw [List.length_append, List.length_singleton] at lt
        omega
      rw [List.getElem?_concat_length] at there
      cases there
      refine ⟨p, n, ?_, ?_, link⟩
      · rw [List.getElem?_append_left (by omega)]
        have parent := branch.getLast?
        rwa [List.getLast?_eq_getElem?, length, Nat.add_sub_cancel] at parent
      · rw [← length, List.getElem?_concat_length]

/-- The walk back ends where there is no parent. -/
theorem walkBack_eq_ok (here : g.node? n = some v) (alone : v.parents = ∅) (target : NodeId) (left : Nat) (route : Route) :
    g.walkBack target left n route = .ok route := by
  have none : g.firstParent n = .ok none := by
    simp only [firstParent, node_eq_ok here, bind, Except.bind, pure, Except.pure, alone]
    rfl
  cases left <;> simp [walkBack, none, bind, Except.bind, pure, Except.pure]

variable [AbstractState S]

theorem Tree.link_of_parent (tree : g.Tree root) (here : g.node? n = some v) (mem : p ∈ v.parents) :
    ∃ e, g.Link p e n := by
  obtain ⟨_, _, w, e, known, link⟩ := tree.parent n v p here mem
  exact ⟨e, w, known, link⟩

theorem Tree.lt_of_link (tree : g.Tree root) (link : g.Link p e n) : p < n := by
  obtain ⟨w, known, child⟩ := link
  exact tree.child_lt known child

theorem Branch.attached (tree : g.Tree root) {nodes : List NodeId} {edges : List EdgeId}
    (branch : g.Branch root nodes edges n) : g.Attached n := by
  cases branch with
  | root => exact tree.attached_root
  | step _ link =>
    obtain ⟨w, known, child⟩ := link
    exact tree.attached_of_child known child

theorem Tree.exists_branch (tree : g.Tree root) (attached : g.Attached n) :
    ∃ nodes edges, g.Branch root nodes edges n := by
  induction n using Nat.strong_induction_on with
  | _ n ih =>
    obtain ⟨v, here, _⟩ := id attached
    cases (tree.attached_iff here).1 attached with
    | inl same =>
      subst same
      exact ⟨_, _, .root⟩
    | inr hanging =>
      obtain ⟨p, mem⟩ := hanging
      obtain ⟨e, link⟩ := tree.link_of_parent here mem
      obtain ⟨nodes, edges, branch⟩ := ih p (tree.lt_of_link link) (tree.attached_parent here mem)
      exact ⟨_, _, branch.step link⟩

/-- A branch goes to ever newer nodes, so it is not longer than there are nodes. -/
theorem Branch.length_le_live (tree : g.Tree root) {nodes : List NodeId} {edges : List EdgeId}
    (branch : g.Branch root nodes edges n) : nodes.length ≤ g.live := by
  have spec : nodes.Pairwise (· < ·) ∧ ∀ m ∈ nodes, m ≤ n ∧ m ∈ g.ids := by
    induction branch with
    | root =>
      refine ⟨by simp, fun m mem => ?_⟩
      rw [List.mem_singleton.1 mem]
      exact ⟨Nat.le_refl _, mem_ids.2 tree.root_mem⟩
    | @step nodes edges p n e _ link ih =>
      have lt := tree.lt_of_link link
      refine ⟨List.pairwise_append.2 ⟨ih.1, by simp, fun m mem k last => ?_⟩, fun m mem => ?_⟩
      · rw [List.mem_singleton.1 last]
        exact Nat.lt_of_le_of_lt (ih.2 m mem).1 lt
      · cases List.mem_append.1 mem with
        | inl old => exact ⟨Nat.le_of_lt (Nat.lt_of_le_of_lt (ih.2 m old).1 lt), (ih.2 m old).2⟩
        | inr new =>
          obtain ⟨w, known, child⟩ := link
          obtain ⟨u, there, _⟩ := tree.child _ _ _ _ known child
          rw [List.mem_singleton.1 new]
          exact ⟨Nat.le_refl _, mem_ids.2 ⟨u, there⟩⟩
  have distinct : nodes.Nodup := spec.1.imp Nat.ne_of_lt
  rw [tree.live]
  exact (distinct.subperm fun m mem => (spec.2 m mem).2).length_le

theorem walkBack_of_branch (tree : g.Tree root) (target : NodeId) {nodes : List NodeId} {edges : List EdgeId}
    (branch : g.Branch root nodes edges n) {left : Nat} (enough : edges.length ≤ left) (rest : List NodeId)
    (more : List EdgeId) :
    g.walkBack target left n ⟨n :: rest, more⟩ = .ok ⟨nodes ++ rest, edges ++ more⟩ := by
  induction branch generalizing left rest more with
  | root =>
    obtain ⟨v, here⟩ := tree.root_mem
    have alone : v.parents = ∅ := by
      apply IdSet.ext_mem
      intro p
      simp [tree.orphan v p here]
    simpa using walkBack_eq_ok here alone target left ⟨root :: rest, more⟩
  | @step nodes edges p n e branch link ih =>
    cases left with
    | zero => simp at enough
    | succ left =>
      obtain ⟨w, known, child⟩ := link
      obtain ⟨v, here, mem⟩ := tree.child p w n _ known child
      have first : g.firstParent n = .ok (some p) := by
        simp only [firstParent, node_eq_ok here, bind, Except.bind, pure, Except.pure,
          (tree.parent n v p here mem).1]
        rfl
      have label : g.edgeLabel p n = some e := by
        rw [edgeLabel, known]
        simp [child]
      have back : g.stepBack p ⟨n :: rest, more⟩ = ⟨p :: n :: rest, e :: more⟩ := by
        simp [stepBack, label]
      simp only [walkBack, first, bind, Except.bind, back]
      rw [ih (by simpa using enough)]
      simp

theorem routeTo_spec (tree : g.Tree root) (attached : g.Attached n) :
    ∃ route, g.routeTo n = .ok route ∧ g.Branch root route.nodes route.edges n := by
  obtain ⟨nodes, edges, branch⟩ := tree.exists_branch attached
  refine ⟨⟨nodes, edges⟩, ?_, branch⟩
  have := branch.length
  have := branch.length_le_live tree
  rw [routeTo, walkBack_of_branch tree n branch (by omega)]
  simp

end GoalCoverage.StateGraph
