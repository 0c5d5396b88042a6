import GoalCoverage.Distinct
import Mathlib.Data.List.Nodup
import Mathlib.Tactic.SplitIfs

/-!
What appending without repetition gives: the first list, then what the second one has besides, each value once and at
its first place (`append_eq`). It is associative, so repetitions can be dropped before or after it.
-/

namespace GoalCoverage.Distinct

variable {α : Type} [DecidableEq α] {xs ys before after : List α} {x : α} {i : Nat}

theorem nodup_append (nodup : xs.Nodup) : (append xs ys).Nodup := by
  induction ys generalizing xs with
  | nil => exact nodup
  | cons y ys ih =>
    rw [append_cons]
    apply ih
    split_ifs with old
    · exact nodup
    · exact List.nodup_append.2 ⟨nodup, List.nodup_singleton y, by grind⟩

theorem nodup_ofList (xs : List α) : (ofList xs).Nodup := nodup_append List.nodup_nil

/-- Without repetitions only the members of the first list are dropped. -/
theorem append_eq_of_nodup (nodup : ys.Nodup) : append xs ys = xs ++ ys.filter (· ∉ xs) := by
  induction ys generalizing xs with
  | nil => simp [append]
  | cons y ys ih =>
    rw [List.nodup_cons] at nodup
    rw [append_cons, List.filter_cons, ih nodup.2]
    by_cases old : y ∈ xs
    · simp [old]
    · have same : ys.filter (· ∉ xs ++ [y]) = ys.filter (· ∉ xs) := by
        apply List.filter_congr
        intro z mem
        have other : z ≠ y := fun same => nodup.1 (same ▸ mem)
        simp [other]
      simp only [old, if_false, same, List.append_assoc, List.singleton_append]
      simp

theorem ofList_eq_of_nodup (nodup : xs.Nodup) : ofList xs = xs := by
  rw [ofList, append_eq_of_nodup nodup]
  simp

theorem append_concat (xs ys : List α) (y : α) :
    append xs (ys ++ [y]) = if y ∈ append xs ys then append xs ys else append xs ys ++ [y] :=
  List.foldl_append ..

/-- The last list is appended value by value to the one before it, on either side. -/
theorem append_assoc (xs ys zs : List α) : append (append xs ys) zs = append xs (append ys zs) := by
  induction zs generalizing ys with
  | nil => rfl
  | cons z zs ih =>
    rw [append_cons, append_cons, ← ih]
    congr 1
    by_cases old : z ∈ ys
    · rw [if_pos old, if_pos (mem_append.2 (.inr old))]
    · rw [if_neg old, append_concat]

theorem append_ofList (xs ys : List α) : append xs (ofList ys) = append xs ys := (append_assoc xs [] ys).symm

/-- Behind the first list stands what it lacks of the second, each value once. -/
theorem append_eq (xs ys : List α) : append xs ys = xs ++ (ofList ys).filter (· ∉ xs) := by
  rw [← append_ofList, append_eq_of_nodup (nodup_ofList ys)]

theorem ofList_append (before after : List α) : ofList (before ++ after) = append (ofList before) after :=
  List.foldl_append ..

theorem idxOf_le_length (x : α) (before after : List α) :
    (ofList (before ++ x :: after)).idxOf x ≤ (ofList before).length := by
  rw [ofList_append, append_cons]
  split
  next met =>
    rw [append_eq, List.idxOf_append_of_mem met]
    exact List.idxOf_le_length
  next fresh =>
    rw [append_eq, List.append_assoc, List.idxOf_append_of_notMem fresh]
    simp

/-- When a value is met, all values of smaller numbers have been met. -/
theorem exists_met (smaller : i < (ofList (before ++ x :: after)).idxOf x) :
    ∃ y ∈ before, (ofList (before ++ x :: after)).idxOf y = i := by
  have bound := Nat.lt_of_lt_of_le smaller (idxOf_le_length x before after)
  have nodup := nodup_ofList (before ++ x :: after)
  have same := append_eq (ofList before) (x :: after)
  rw [← ofList_append] at same
  have there : i < (ofList (before ++ x :: after)).length := by
    rw [same, List.length_append]
    exact Nat.lt_add_right _ bound
  refine ⟨(ofList before)[i], mem_ofList.1 (List.getElem_mem bound), ?_⟩
  have here : (ofList before)[i] = (ofList (before ++ x :: after))[i] := by
    simp only [same, List.getElem_append_left bound]
  rw [here, nodup.idxOf_getElem]

end GoalCoverage.Distinct
