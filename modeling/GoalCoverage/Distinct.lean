/-!
Lists without repetition, built by appending what is new.

`ofListBy` drops repetitions from a list of values that have keys; it compares a value only with those
of the same key, and `ofListBy_eq` says that it is `ofList` for keys below the number of rows.
-/

namespace GoalCoverage.Distinct

variable {α : Type} [DecidableEq α]

/-- The first list, followed by those members of the second that were not there before. -/
def append (xs ys : List α) : List α := ys.foldl (fun acc y => if y ∈ acc then acc else acc ++ [y]) xs

/-- The members of a list at their first places. -/
def ofList (xs : List α) : List α := append [] xs

theorem append_cons (xs : List α) (y : α) (ys : List α) :
    append xs (y :: ys) = append (if y ∈ xs then xs else xs ++ [y]) ys := rfl

@[simp] theorem mem_append {a : α} {xs ys : List α} : a ∈ append xs ys ↔ a ∈ xs ∨ a ∈ ys := by
  induction ys generalizing xs with
  | nil => simp [append]
  | cons y rest ih =>
    rw [append_cons, ih]
    by_cases h : y ∈ xs
    · grind
    · grind

@[simp] theorem mem_ofList {a : α} {xs : List α} : a ∈ ofList xs ↔ a ∈ xs := by
  simp [ofList]

/-- Goes through a list; the values met before stand in the rows of their keys. -/
def newBy (key : α → Nat) : Array (List α) → List α → List α
  | _, [] => []
  | rows, x :: rest =>
    let row := rows.getD (key x) []
    if x ∈ row then newBy key rows rest
    else x :: newBy key (rows.setIfInBounds (key x) (x :: row)) rest

/-- The members of a list at their first places, looked up by keys. -/
def ofListBy (key : α → Nat) (rowCount : Nat) (xs : List α) : List α :=
  newBy key (Array.replicate rowCount []) xs

theorem append_eq_append_newBy (key : α → Nat) (rows : Array (List α)) (met xs : List α)
    (known : ∀ a, key a < rows.size → (a ∈ rows.getD (key a) [] ↔ a ∈ met))
    (bounded : ∀ x ∈ xs, key x < rows.size) : append met xs = met ++ newBy key rows xs := by
  induction xs generalizing rows met with
  | nil => simp [append, newBy]
  | cons x rest ih =>
    have here := known x (bounded x (by simp))
    rw [append_cons, newBy]
    by_cases old : x ∈ met
    · rw [if_pos old, if_pos (here.2 old)]
      exact ih rows met known fun y hy => bounded y (by simp [hy])
    · rw [if_neg old, if_neg (fun h => old (here.1 h))]
      rw [ih (rows.setIfInBounds (key x) (x :: rows.getD (key x) [])) (met ++ [x])]
      · simp
      · intro a ha
        rw [Array.size_setIfInBounds] at ha
        have there := known a ha
        simp only [Array.getD_eq_getD_getElem?] at there ⊢
        rw [Array.getElem?_setIfInBounds]
        by_cases same : key x = key a
        · rw [if_pos same]
          have := bounded x (by simp)
          grind
        · rw [if_neg same]
          have : a ≠ x := fun h => same (by rw [h])
          grind
      · intro y hy
        rw [Array.size_setIfInBounds]
        exact bounded y (by simp [hy])

theorem ofListBy_eq {key : α → Nat} {rowCount : Nat} {xs : List α} (h : ∀ x ∈ xs, key x < rowCount) :
    ofListBy key rowCount xs = ofList xs := by
  rw [ofList, ofListBy, append_eq_append_newBy key (Array.replicate rowCount []) [] xs]
  · rfl
  · intro a _
    rw [Array.getD_eq_getD_getElem?, Array.getElem?_replicate]
    split <;> simp
  · simpa using h

end GoalCoverage.Distinct
