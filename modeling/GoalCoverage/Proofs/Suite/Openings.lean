import GoalCoverage.Proofs.Diagram.Features
import GoalCoverage.Proofs.Suite.Progress
import Mathlib.Data.Finset.Powerset
import Mathlib.Data.Finset.Prod

/-!
What is open in a suite is finite: the goals of a batch with the configurations for which they are open, as far as
the declared features tell them apart.
-/

namespace GoalCoverage.Suite

open Diagram

variable {s s' : Suite} {d d' : Diagram} {i j n : Nat} {c c' : Configuration} {region : Option Region} {batch : List Nat}

open scoped Classical in
/-- The goals of a batch with the configurations for which they are open, given by the features that are present. -/
noncomputable def openings (s : Suite) (d : Diagram) (batch : List Nat) : Finset (Nat × Finset Nat) :=
  (batch.toFinset ×ˢ (Finset.range (d.features.length + 1)).powerset).filter fun p =>
    s.Leaves d p.1 fun l => decide (l ∈ p.2)

theorem mem_openings {p : Nat × Finset Nat} : p ∈ s.openings d batch ↔
    (p.1 ∈ batch ∧ p.2 ⊆ Finset.range (d.features.length + 1)) ∧ s.Leaves d p.1 fun l => decide (l ∈ p.2) := by
  simp [openings]

theorem Drawn.leaves_congr (drawn : s.Drawn d) (same : ∀ l, l ≤ d.features.length → c l = c' l) :
    s.Leaves d i c ↔ s.Leaves d i c' := by
  simp only [Leaves]
  split
  next tracks =>
    apply exists_congr
    intro γ
    apply and_congr_right
    intro here
    obtain ⟨r, left, has⟩ := drawn.opened tracks i γ here
    rw [Goal.openRegion, left, Option.getD_some, (drawn.ready tracks).holds_congr_le has same]
  next => exact Iff.rfl

section Shrinking

variable (features : d'.features = d.features) (shrinks : ∀ i c, s'.Leaves d' i c → s.Leaves d i c)

include features shrinks

theorem openings_subset : s'.openings d' batch ⊆ s.openings d batch := by
  intro p mem
  rw [mem_openings] at mem ⊢
  exact ⟨features ▸ mem.1, shrinks _ _ mem.2⟩

/-- Something is taken away if a goal of the batch is no longer open for some configuration. -/
theorem card_openings_lt (drawn : s.Drawn d) (drawn' : s'.Drawn d') (mem : i ∈ batch) (before : s.Leaves d i c)
    (after : ¬s'.Leaves d' i c) : (s'.openings d' batch).card < (s.openings d batch).card := by
  let present : Finset Nat := (Finset.range (d.features.length + 1)).filter fun l => c l = true
  have told : ∀ l, l ≤ d.features.length → c l = decide (l ∈ present) := by
    intro l le
    simp [present, Nat.lt_succ_of_le le]
  apply Finset.card_lt_card
  refine ⟨openings_subset features shrinks, fun all => after ?_⟩
  have there : (i, present) ∈ s.openings d batch :=
    mem_openings.2 ⟨⟨mem, Finset.filter_subset _ _⟩, (drawn.leaves_congr told).1 before⟩
  exact (drawn'.leaves_congr (features ▸ told)).2 (mem_openings.1 (all there)).2

end Shrinking

end GoalCoverage.Suite
