import GoalCoverage.Proofs.StateGraph.Ancestry

/-!
Labels of routes. The labels of a route are those of its links, in their order, but a link without a label leaves no gap
among them. So a label and the upper node of its link stand at the same position where all links have labels, and
otherwise the labels below a bare link stand too far up (`routeTo_aligned_iff`).
-/

namespace GoalCoverage.StateGraph

variable {S : Type} {g : StateGraph S} {n p c t : NodeId} {route route' : Route} {e : EdgeId} {left : Nat}

/-- The labels of the links along the nodes, of those that have one. -/
def labels (g : StateGraph S) (nodes : List NodeId) : List EdgeId :=
  (nodes.zip nodes.tail).filterMap fun link => g.edgeLabel link.1 link.2

theorem labels_cons_cons (p c : NodeId) (rest : List NodeId) :
    g.labels (p :: c :: rest) = (g.edgeLabel p c).toList ++ g.labels (c :: rest) := by
  rw [labels, List.tail_cons, List.zip_cons_cons, List.filterMap_cons]
  cases g.edgeLabel p c <;> rfl

/-- The route has nodes, and the labels of their links. -/
structure Listed (g : StateGraph S) (route : Route) : Prop where
  start : route.nodes ≠ []
  edges : route.edges = g.labels route.nodes

theorem Listed.stepBack (listed : g.Listed route) (p : NodeId) : g.Listed (g.stepBack p route) := by
  obtain ⟨c, rest, nodes⟩ := List.exists_cons_of_ne_nil listed.start
  refine ⟨List.cons_ne_nil _ _, ?_⟩
  simp only [StateGraph.stepBack, nodes]
  rw [labels_cons_cons, listed.edges, nodes]

theorem Listed.walkBack (listed : g.Listed route) (ok : g.walkBack t left n route = .ok route') : g.Listed route' := by
  induction left generalizing n route with
  | zero =>
    cases first : g.firstParent n with
    | error fault => cases (walkBack_of_error first).symm.trans ok
    | ok parent =>
      cases parent with
      | none =>
        cases (walkBack_of_end first).symm.trans ok
        exact listed
      | some p => cases (walkBack_zero first).symm.trans ok
  | succ left ih =>
    cases first : g.firstParent n with
    | error fault => cases (walkBack_of_error first).symm.trans ok
    | ok parent =>
      cases parent with
      | none =>
        cases (walkBack_of_end first).symm.trans ok
        exact listed
      | some p => exact ih (listed.stepBack p) ((walkBack_succ first).symm.trans ok)

/-- There is a label for each link, and it stands where the upper node of its link stands among the nodes. -/
structure Aligned (g : StateGraph S) (route : Route) : Prop where
  length : route.nodes.length = route.edges.length + 1
  label : ∀ i e, route.edges[i]? = some e →
    ∃ p c, route.nodes[i]? = some p ∧ route.nodes[i + 1]? = some c ∧ g.edgeLabel p c = some e

/-- If each element has an image, the images stand where the elements do. -/
theorem getElem?_filterMap {α β : Type} {f : α → Option β} {l : List α} (all : ∀ a ∈ l, (f a).isSome = true) (i : Nat) :
    (l.filterMap f)[i]? = l[i]?.bind f := by
  induction l generalizing i with
  | nil => rfl
  | cons a rest ih =>
    obtain ⟨b, image⟩ := Option.isSome_iff_exists.1 (all a List.mem_cons_self)
    rw [List.filterMap_cons_some image]
    cases i with
    | zero => exact image.symm
    | succ i => exact ih (fun a mem => all a (List.mem_cons_of_mem _ mem)) i

theorem Listed.aligned_iff (listed : g.Listed route) :
    g.Aligned route ↔ ∀ link ∈ route.nodes.zip route.nodes.tail, (g.edgeLabel link.1 link.2).isSome = true := by
  have links : (route.nodes.zip route.nodes.tail).length + 1 = route.nodes.length := by
    have := List.length_pos_of_ne_nil listed.start
    rw [List.length_zip, List.length_tail]
    omega
  constructor
  · intro aligned
    apply List.filterMap_length_eq_length.1
    rw [← Nat.add_right_cancel_iff (n := 1), links, aligned.length, listed.edges]
    rfl
  · intro all
    refine ⟨?_, fun i e there => ?_⟩
    · rw [← links, listed.edges, labels, List.filterMap_length_eq_length.2 all]
    · rw [listed.edges, labels, getElem?_filterMap all, Option.bind_eq_some_iff] at there
      obtain ⟨link, at_i, label⟩ := there
      obtain ⟨above, below⟩ := List.getElem?_zip_eq_some.1 at_i
      rw [List.getElem?_tail] at below
      exact ⟨link.1, link.2, above, below, label⟩

/-- A label stands after those of the links above its link. -/
theorem getElem?_labels {nodes : List NodeId} {j : Nat} (above : nodes[j]? = some p) (below : nodes[j + 1]? = some c)
    (label : g.edgeLabel p c = some e) : (g.labels nodes)[(g.labels (nodes.take (j + 1))).length]? = some e := by
  induction nodes generalizing j with
  | nil => cases above
  | cons n rest ih =>
    cases rest with
    | nil => cases below
    | cons m rest =>
      rw [labels_cons_cons]
      cases j with
      | zero =>
        cases above
        cases below
        rw [label]
        rfl
      | succ j =>
        rw [List.take_succ_cons, List.take_succ_cons, labels_cons_cons, ← List.take_succ_cons, List.length_append,
          List.getElem?_append_right (Nat.le_add_right _ _), Nat.add_sub_cancel_left]
        exact ih above below

/--
The labels of a route are those of its links. They stand where the links do if all links have labels; otherwise, a label
moves up by one place for each link above without a label.
-/
theorem routeTo_aligned_iff (ok : g.routeTo t = .ok route) :
    route.edges = g.labels route.nodes ∧
    (g.Aligned route ↔ ∀ link ∈ route.nodes.zip route.nodes.tail, (g.edgeLabel link.1 link.2).isSome = true) ∧
    ∀ j p c e, route.nodes[j]? = some p → route.nodes[j + 1]? = some c → g.edgeLabel p c = some e →
      route.edges[(g.labels (route.nodes.take (j + 1))).length]? = some e := by
  have listed : g.Listed route := Listed.walkBack ⟨List.cons_ne_nil t [], rfl⟩ ok
  refine ⟨listed.edges, listed.aligned_iff, fun j p c e above below label => ?_⟩
  rw [listed.edges]
  exact getElem?_labels above below label

section Example

/-- The upper one of two links has no label. -/
def gap : StateGraph Unit := made [.addRoot (), .addChild 0 () none, .addChild 1 () (some 0)]

theorem routeTo_aligned_iff_gap : gap.routeTo 2 = .ok ⟨[0, 1, 2], [0]⟩ ∧ [0] = gap.labels [0, 1, 2] ∧
    (gap.Aligned ⟨[0, 1, 2], [0]⟩ ↔ ∀ link ∈ [(0, 1), (1, 2)], (gap.edgeLabel link.1 link.2).isSome = true) ∧
    [0][(gap.labels [0, 1]).length]? = some 0 := by
  have ok : gap.routeTo 2 = .ok ⟨[0, 1, 2], [0]⟩ := by rfl
  obtain ⟨edges, aligned, position⟩ := routeTo_aligned_iff ok
  exact ⟨ok, edges, aligned, position 1 1 2 0 rfl rfl (by decide +kernel)⟩

/-- The first label of the route is not that of its first link. -/
theorem gap_misaligned : gap.Built ∧ gap.contains 2 = true ∧ gap.routeTo 2 = .ok ⟨[0, 1, 2], [0]⟩ ∧
    gap.edgeLabel 0 1 = none ∧ gap.edgeLabel 1 2 = some 0 ∧ ¬gap.Aligned ⟨[0, 1, 2], [0]⟩ := by
  refine ⟨built_made _, by decide +kernel, rfl, by decide +kernel, by decide +kernel, fun aligned => ?_⟩
  cases aligned.length

end Example

end GoalCoverage.StateGraph
