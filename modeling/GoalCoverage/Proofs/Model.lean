import GoalCoverage.Analysis
import GoalCoverage.Proofs.Text
import Mathlib.Data.List.Nodup

/-!
Models and the inputs in them. An entry for an input is found by its place, whatever the order of the names and whatever
other entries there are.
-/

namespace GoalCoverage.Model

variable {m : Model} {l : List (String × Int)} {name : String} {value : Int} {k : Nat} {values : List Int}

/-- The entries for input values, by their places. -/
def placed (l : List (String × Int)) : List (Nat × Int) :=
  l.filterMap fun (name, value) => (inputPlace? name).map fun seq => (seq, value)

theorem placed_cons : placed ((name, value) :: l) = ((inputPlace? name).map fun seq => (seq, value)).toList ++ placed l := by
  rw [placed, List.filterMap_cons]
  dsimp only
  cases inputPlace? name <;> rfl

theorem inputPlace?_inputName : inputPlace? (inputName k) = if k < Text.wordBound then some k else none := by
  have name : (inputName k).toList = inputPrefix.toList ++ '@' :: (toString k).toList := by
    simp [inputName]
  have digits : '@' ∉ (toString k).toList := by
    intro mem
    cases Text.isDigit_of_mem_toString mem
  rw [inputPlace?, name, Text.strip?_eq_some_iff.2 rfl, Text.afterLast?_append digits]
  exact Text.natural?_toString

/-- A name that does not start like that of an input is not that of one. -/
theorem inputPlace?_eq_none (other : ¬inputPrefix.toList <+: name.toList) : inputPlace? name = none := by
  rw [inputPlace?, Text.strip?_eq_none other]
  rfl

/-- Entries for other variables come and go among the input values. -/
theorem placed_place_of_none (other : inputPlace? name = none) : placed (place name value l) = placed l := by
  induction l with
  | nil => simp [place, placed, other]
  | cons entry rest ih =>
    obtain ⟨n, v⟩ := entry
    rw [place]
    split
    next => simp [placed_cons, other]
    next =>
      split
      next same =>
        subst same
        simp [placed_cons, other]
      next => rw [placed_cons, placed_cons, ih]

/-- An input value for a new place is added to the others. -/
theorem placed_place_of_some (input : inputPlace? name = some k) (new : k ∉ (placed l).map (·.1)) :
    (placed (place name value l)).Perm ((k, value) :: placed l) := by
  induction l with
  | nil => simp [place, placed, input]
  | cons entry rest ih =>
    obtain ⟨n, v⟩ := entry
    rw [place]
    split
    next => simp [placed_cons, input]
    next =>
      split
      next same =>
        subst same
        simp [placed_cons, input] at new
      next =>
        rw [placed_cons, List.map_append, List.mem_append, not_or] at new
        rw [placed_cons, placed_cons]
        exact ((ih new.2).append_left _).trans List.perm_middle

/-- Input values that have their places in an order are found in this order. -/
theorem inputs_of_perm (numbered : (placed m.entries).Perm (values.zipIdx.map Prod.swap)) : m.inputs = values := by
  have places : (values.zipIdx.map Prod.swap).map (·.1) = List.range' 0 values.length := by
    rw [List.map_map]
    exact List.zipIdx_map_snd 0 values
  have increasing : (values.zipIdx.map Prod.swap).Pairwise fun a b => a.1 < b.1 := by
    rw [← List.pairwise_map, places]
    exact List.pairwise_lt_range'
  have distinct : ((values.zipIdx.map Prod.swap).map (·.1)).Nodup := places ▸ List.nodup_range'
  have same := ((placed m.entries).mergeSort_perm fun a b => decide (a.1 ≤ b.1)).trans numbered
  have sorted : ((placed m.entries).mergeSort fun a b => decide (a.1 ≤ b.1)) = values.zipIdx.map Prod.swap := by
    refine same.eq_of_pairwise (fun a b there here before after => ?_) ?_ (increasing.imp Nat.le_of_lt)
    · exact List.inj_on_of_nodup_map distinct (same.subset there) here (Nat.le_antisymm before after)
    · refine (List.pairwise_mergeSort ?_ ?_ _).imp fun before => of_decide_eq_true before
      · simpa using fun a b c => Nat.le_trans
      · simpa using Nat.le_total
  rw [inputs]
  change ((placed m.entries).mergeSort fun a b => decide (a.1 ≤ b.1)).map (·.2) = values
  rw [sorted, List.map_map]
  exact List.zipIdx_map_fst 0 values

end GoalCoverage.Model
