import GoalCoverage.Closure
import Mathlib.Data.Finset.Card
import Mathlib.Data.List.TakeWhile
import Mathlib.Logic.Relation

/-!
The search finds exactly what can be reached (`mem_reach_iff`), if the identities that can be met are
below its bound.
-/

namespace GoalCoverage.Closure

open Std

variable {next : Nat → List Nat} {bound : Nat} {visited : TreeSet Nat} {todo : List Nat} {x y : Nat}

/-- `y` is reached from `x`. -/
abbrev Reaches (next : Nat → List Nat) : Nat → Nat → Prop := Relation.ReflTransGen fun x y => y ∈ next x

theorem nodup_toList (t : TreeSet Nat) : t.toList.Nodup := by
  refine t.ordered_toList.imp ?_
  intro a b lt
  exact Nat.ne_of_lt (Nat.compare_eq_lt.1 lt)

/-- Below the bound there is nothing besides as many identities as the bound says. -/
theorem mem_of_bound_le_size {t : TreeSet Nat} (below : ∀ x ∈ t, x < bound) (full : bound ≤ t.size)
    (lt : y < bound) : y ∈ t := by
  have sub : t.toList.toFinset ⊆ Finset.range bound := by
    intro x hx
    rw [List.mem_toFinset, TreeSet.mem_toList] at hx
    exact Finset.mem_range.2 (below x hx)
  have card : t.toList.toFinset.card = t.size := by
    rw [List.toFinset_card_of_nodup (nodup_toList t), TreeSet.length_toList]
  have same := Finset.eq_of_subset_of_card_le sub (by rw [card, Finset.card_range]; exact full)
  have : y ∈ t.toList.toFinset := by
    rw [same]
    exact Finset.mem_range.2 lt
  rwa [List.mem_toFinset, TreeSet.mem_toList] at this

theorem visited_subset_visit (left : Nat) (h : x ∈ visited) : x ∈ visit next left visited todo := by
  induction left generalizing visited todo with
  | zero => exact h
  | succ left ih =>
    rw [visit]
    split
    · exact h
    · exact ih (TreeSet.mem_insert.2 (.inr h))

theorem reaches_of_mem_visit (left : Nat) {P : Nat → Prop} (closed : ∀ x y, P x → y ∈ next x → P y)
    (here : ∀ x ∈ visited, P x) (there : ∀ x ∈ todo, P x) :
    ∀ x ∈ visit next left visited todo, P x := by
  induction left generalizing visited todo with
  | zero => exact here
  | succ left ih =>
    rw [visit]
    split
    · exact here
    next y rest first =>
      have sub : ∀ z ∈ y :: rest, P z := by
        intro z hz
        rw [← first] at hz
        exact there z ((List.dropWhile_suffix _).subset hz)
      apply ih
      · intro z hz
        rcases TreeSet.mem_insert.1 hz with same | old
        · rw [← Nat.compare_eq_eq.1 same]
          exact sub y (by simp)
        · exact here z old
      · intro z hz
        rcases List.mem_append.1 hz with new | old
        · exact closed y z (sub y (by simp)) new
        · exact sub z (by simp [old])

/-- Everything to do is visited, and so is what follows anything that is visited on the way. -/
theorem visit_closed (left : Nat) (bounded : ∀ x y, y ∈ next x → y < bound)
    (here : ∀ x ∈ visited, x < bound) (there : ∀ x ∈ todo, x < bound) (enough : bound ≤ left + visited.size) :
    (∀ x ∈ todo, x ∈ visit next left visited todo) ∧
      ∀ x ∈ visit next left visited todo, x ∉ visited → ∀ y ∈ next x, y ∈ visit next left visited todo := by
  induction left generalizing visited todo with
  | zero =>
    rw [Nat.zero_add] at enough
    refine ⟨fun x hx => ?_, fun x hx new => absurd hx new⟩
    exact mem_of_bound_le_size here enough (there x hx)
  | succ left ih =>
    rw [visit]
    split
    next none =>
      rw [List.dropWhile_eq_nil_iff] at none
      exact ⟨fun x hx => by simpa using none x hx, fun x hx new => absurd hx new⟩
    next y rest first =>
      have new : visited.contains y = false := by
        have := List.head?_dropWhile_not visited.contains todo
        rw [first] at this
        simpa using this
      have sub : ∀ z ∈ y :: rest, z ∈ todo := by
        intro z hz
        rw [← first] at hz
        exact (List.dropWhile_suffix _).subset hz
      have step := @ih (visited.insert y) (next y ++ rest) (by
          intro z hz
          rcases TreeSet.mem_insert.1 hz with same | old
          · rw [← Nat.compare_eq_eq.1 same]
            exact there y (sub y (by simp))
          · exact here z old) (by
          intro z hz
          rcases List.mem_append.1 hz with succ | old
          · exact bounded y z succ
          · exact there z (sub z (by simp [old]))) (by
          have size := TreeSet.size_insert (t := visited) (k := y)
          rw [new] at size
          simp only [Bool.false_eq_true, if_false] at size
          omega)
      obtain ⟨done, closed⟩ := step
      have kept : ∀ z ∈ visited.insert y, z ∈ visit next left (visited.insert y) (next y ++ rest) :=
        fun z hz => visited_subset_visit left hz
      refine ⟨fun z hz => ?_, fun z hz old => ?_⟩
      · rw [← List.takeWhile_append_dropWhile (p := visited.contains) (l := todo)] at hz
        rcases List.mem_append.1 hz with before | after
        · have : z ∈ visited := by simpa using List.mem_takeWhile_imp before
          exact kept z (TreeSet.mem_insert.2 (.inr this))
        · rw [first] at after
          rcases List.mem_cons.1 after with rfl | after
          · exact kept z (TreeSet.mem_insert.2 (.inl compare_self))
          · exact done z (List.mem_append.2 (.inr after))
      · by_cases same : z = y
        · subst same
          intro w hw
          exact done w (List.mem_append.2 (.inl hw))
        · apply closed z hz
          intro both
          rcases TreeSet.mem_insert.1 both with e | e
          · exact same (Nat.compare_eq_eq.1 e).symm
          · exact old e

theorem mem_reach_iff (bounded : ∀ x y, y ∈ next x → y < bound) (start : ∀ x ∈ todo, x < bound) :
    y ∈ reach next bound todo ↔ ∃ x ∈ todo, Reaches next x y := by
  constructor
  · refine reaches_of_mem_visit bound (P := fun y => ∃ x ∈ todo, Reaches next x y) ?_ ?_ ?_ y
    · rintro x z ⟨w, hw, path⟩ step
      exact ⟨w, hw, path.tail step⟩
    · intro x hx
      simp at hx
    · intro x hx
      exact ⟨x, hx, .refl⟩
  · rintro ⟨x, hx, path⟩
    obtain ⟨done, closed⟩ := @visit_closed next bound ∅ todo bound bounded (by simp) start (by simp)
    induction path with
    | refl => exact done x hx
    | tail _ step ih => exact closed _ ih (by simp) _ step

end GoalCoverage.Closure
