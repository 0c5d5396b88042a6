import GoalCoverage.Proofs.Exploration.Moves

/-!
What becomes of the parents of a pruned part. Those of its top wait again, so nothing is lost as long as no node has two
parents (`prune_keeps_continuations`). A join makes parents of deeper nodes possible: these are cut off from their
continuations without being put back to the frontier (`prune_resumes_iff`, `prune_forgets_join`).
-/

namespace GoalCoverage.Exploration

open StateGraph

variable {S : Type} {x x' : Exploration S} {sh : Shape} {n m c : NodeId} {t : Std.TreeSet NodeId}

theorem Cleared.mem_waiting_iff (cleared : x.Cleared x' n t) (shape : x.graph.HasShape sh) (sound : sh.Sound) (outside : m ∉ t)
    (attached : x'.graph.isAttached m = .ok true) (uncovered : x'.graph.isCovered m = false) :
    m ∈ x'.waiting ↔ x.graph.HasChild m n ∨ m ∈ x.waiting ∨ ∃ b ∈ t, x.graph.HasCover m b := by
  rw [cleared.waiting, and_iff_right outside, attached, uncovered, (shape.consistent sound).links]
  simp only [and_true]
  exact or_rotate.symm

/--
An open node that led into the pruned part waits afterwards just if it led to its top, waited before, or was covered
from the part. So no continuation is lost where the part is entered at its top only.
-/
theorem prune_resumes_iff (built : x.graph.Built) (known : x.graph.contains n = true) :
    ∃ t x', x.graph.subtree n = .ok t ∧ x.prune n = .ok x' ∧
      (∀ m c, m ∉ t → c ∈ t → x.graph.HasChild m c → x'.graph.isAttached m = .ok true → x'.graph.isCovered m = false →
        (m ∈ x'.waiting ↔ x.graph.HasChild m n ∨ m ∈ x.waiting ∨ ∃ b ∈ t, x.graph.HasCover m b)) ∧
      ((∀ m c, m ∉ t → c ∈ t → x.graph.HasChild m c → c = n) →
        ∀ m c, m ∉ t → c ∈ t → x.graph.HasChild m c → x'.graph.isAttached m = .ok true → x'.graph.isCovered m = false →
          m ∈ x'.waiting) := by
  obtain ⟨shape, sound⟩ := built.shaped
  obtain ⟨t, x', below, _, ok, _, cleared⟩ := exists_cleared shape sound (shape.contains_iff.1 known)
  refine ⟨t, x', below, ok, fun m c outside _ _ attached uncovered => ?_,
    fun single m c outside inside link attached uncovered => ?_⟩
  · exact cleared.mem_waiting_iff shape sound outside attached uncovered
  · have top : c = n := single m c outside inside link
    exact (cleared.mem_waiting_iff shape sound outside attached uncovered).2 (.inl (top ▸ link))

section Example

/-- Two branches meet in a node, and all nodes are expanded. -/
def fork : List (Move Unit) :=
  [.pop, .add 0 () none, .add 0 () none, .add 1 () none, .link 3 2 none, .pop, .pop, .pop]

def forked : Exploration Unit := (play fork (start ())).toOption.getD (start ())

theorem play_fork : play fork (start ()) = .ok forked := Except.eq_ok_getD (by decide +kernel) _

theorem prune_resumes_iff_forked : forked.graph.contains 1 = true ∧
    ∃ t x', forked.graph.subtree 1 = .ok t ∧ forked.prune 1 = .ok x' ∧
      (∀ m c, m ∉ t → c ∈ t → forked.graph.HasChild m c → x'.graph.isAttached m = .ok true →
        x'.graph.isCovered m = false →
        (m ∈ x'.waiting ↔ forked.graph.HasChild m 1 ∨ m ∈ forked.waiting ∨ ∃ b ∈ t, forked.graph.HasCover m b)) ∧
      ((∀ m c, m ∉ t → c ∈ t → forked.graph.HasChild m c → c = 1) →
        ∀ m c, m ∉ t → c ∈ t → forked.graph.HasChild m c → x'.graph.isAttached m = .ok true →
          x'.graph.isCovered m = false → m ∈ x'.waiting) := by
  have built : forked.graph.Built := play_built (start_built ()) play_fork
  have known : forked.graph.contains 1 = true := by decide +kernel
  exact ⟨known, prune_resumes_iff built known⟩

/-- Pruning the one branch takes the common node from the other one, and only the root waits for another attempt. -/
theorem prune_forgets_join : permits fork (start ()) = true ∧ play fork (start ()) = .ok forked ∧
    forked.graph.contains 1 = true ∧ ∃ t x', forked.graph.subtree 1 = .ok t ∧ forked.prune 1 = .ok x' ∧ 2 ∉ t ∧ 3 ∈ t ∧
      forked.graph.HasChild 2 3 ∧ x'.graph.isAttached 2 = .ok true ∧ x'.graph.isCovered 2 = false ∧ 2 ∉ x'.waiting := by
  have known : forked.graph.contains 1 = true := by decide +kernel
  obtain ⟨shape, sound⟩ := (play_built (start_built ()) play_fork).shaped
  obtain ⟨t, x', below, _, ok, _⟩ := exists_cleared shape sound (shape.contains_iff.1 known)
  have inside : (forked.graph.subtree 1).toOption.any (fun t => decide (2 ∉ t) && decide (3 ∈ t)) = true := by
    decide +kernel
  rw [below, Except.toOption, Option.any_some, Bool.and_eq_true, decide_eq_true_eq, decide_eq_true_eq] at inside
  have linked : forked.graph.HasChild 2 3 := by
    have lists : (forked.graph.node? 2).any (fun v => v.children.contains 3) = true := by decide +kernel
    obtain ⟨v, here, mem⟩ := (Option.any_eq_true _ _).1 lists
    exact ⟨v, here, IdMap.contains_iff.1 mem⟩
  have lost : (forked.prune 1).toOption.any (fun x => decide (x.graph.isAttached 2 = .ok true) &&
      decide (x.graph.isCovered 2 = false) && decide (2 ∉ x.waiting)) = true := by decide +kernel
  rw [ok, Except.toOption, Option.any_some, Bool.and_eq_true, Bool.and_eq_true, decide_eq_true_eq, decide_eq_true_eq,
    decide_eq_true_eq] at lost
  exact ⟨by decide +kernel, play_fork, known, t, x', below, ok, inside.1, inside.2, linked, lost.1.1, lost.1.2, lost.2⟩

end Example

/-- Without joins, nodes that lose a child to the pruning wait, so their other continuations are explored. -/
theorem prune_keeps_continuations (initial : S) (moves : List (Move S)) (permitted : permits moves (start initial) = true)
    (plain : ∀ move ∈ moves, move.joins = false) :
    ∃ x, play moves (start initial) = .ok x ∧ ∀ n, x.graph.contains n = true →
      ∃ t x', x.graph.subtree n = .ok t ∧ x.prune n = .ok x' ∧
        ∀ m c, m ∉ t → c ∈ t → x.graph.HasChild m c → x'.graph.isAttached m = .ok true → x'.graph.isCovered m = false →
          m ∈ x'.waiting := by
  obtain ⟨orderly₀, sh₀, shape₀, sound₀, unjoined₀⟩ := start_orderly initial
  obtain ⟨x, sh, ok, _, shape, sound, unjoined⟩ := play_orderly moves orderly₀ shape₀ sound₀ permitted
  refine ⟨x, ok, fun n known => ?_⟩
  obtain ⟨t, x', below, mem_t, pruned, _, cleared⟩ := exists_cleared shape sound (shape.contains_iff.1 known)
  refine ⟨t, x', below, pruned, fun m c outside inside link attached uncovered => ?_⟩
  rw [cleared.mem_waiting_iff shape sound outside attached uncovered]
  left
  -- A path into the part comes to a deeper node from its only parent, which is in the part, too.
  cases (mem_t c).1 inside with
  | refl => exact link
  | tail path last =>
    have same := unjoined plain unjoined₀ _ _ c last ((shape.hasChild_iff sound).1 link)
    exact absurd ((mem_t m).2 (same ▸ path)) outside

end GoalCoverage.Exploration
