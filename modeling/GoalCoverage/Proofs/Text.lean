import GoalCoverage.Text
import Std.Data.String.ToNat

/-!
What becomes of texts that are put together and taken apart again.
-/

namespace GoalCoverage.Text

variable {front text rest before after back mark : List Char} {c : Char} {n bound : Nat}

theorem strip?_eq_some_iff : strip? front text = some rest ↔ text = front ++ rest := by
  induction front generalizing text with
  | nil => simp [strip?]
  | cons f front ih =>
    cases text with
    | nil => simp [strip?]
    | cons c text =>
      rw [strip?, List.cons_append, List.cons.injEq]
      split
      next same => simp [ih, same]
      next other => simp [Ne.symm other]

theorem strip?_eq_none (other : ¬front <+: text) : strip? front text = none := by
  cases found : strip? front text with
  | none => rfl
  | some rest => exact absurd ⟨rest, (strip?_eq_some_iff.1 found).symm⟩ other

/-- The parts make up the text with what stands between them. -/
theorem append_of_splitAt? (found : splitAt? mark text = some (before, after)) : before ++ mark ++ after = text := by
  induction text generalizing before with
  | nil =>
    rw [splitAt?] at found
    split at found
    next empty =>
      cases found
      rw [List.isEmpty_iff.1 empty]
      rfl
    next => cases found
  | cons c text ih =>
    rw [splitAt?] at found
    split at found
    next rest stripped =>
      cases found
      exact (strip?_eq_some_iff.1 stripped).symm
    next =>
      obtain ⟨parts, later, same⟩ := Option.map_eq_some_iff.1 found
      cases same
      rw [List.cons_append, List.cons_append, ih later]

theorem afterLast?_append (absent : c ∉ back) : afterLast? c (front ++ c :: back) = some back := by
  have others : ∀ a ∈ back.reverse, (a != c) = true := by
    intro a mem
    rw [bne_iff_ne]
    exact fun same => absent (same ▸ List.mem_reverse.1 mem)
  have marked : (front ++ c :: back).contains c = true := by simp
  rw [afterLast?, if_pos marked, List.reverse_append, List.reverse_cons, List.append_assoc,
    List.takeWhile_append_of_pos others]
  simp

/-- What starts a text starts its part before a character that it does not have. -/
theorem prefix_of_prefix_append_cons (absent : c ∉ front) (starts : front <+: before ++ c :: after) : front <+: before := by
  rw [List.append_cons] at starts
  obtain inside | beyond := List.prefix_or_prefix_of_prefix starts (List.prefix_append (before ++ [c]) after)
  · obtain same | inside := List.prefix_concat_iff.1 inside
    · exact absurd (same ▸ List.mem_concat_self) absent
    · exact inside
  · exact absurd (beyond.subset List.mem_concat_self) absent

theorem toList_toString (n : Nat) : (toString n).toList = Nat.toDigits 10 n := String.toList_ofList

theorem isDigit_of_mem_toString (mem : c ∈ (toString n).toList) : c.isDigit = true := by
  rw [toList_toString] at mem
  exact Nat.isDigit_of_mem_toDigits (by decide) (by decide) mem

theorem digits?_toString (n : Nat) : digits? (toString n).toList = some n := by
  have filled : (toString n).toList.isEmpty = false := by
    rw [toList_toString, List.isEmpty_eq_false_iff]
    exact Nat.toDigits_ne_nil
  have all : (toString n).toList.all Char.isDigit = true := List.all_eq_true.2 fun c mem => isDigit_of_mem_toString mem
  have value : digitsValue (toString n).toList = n := by
    rw [digitsValue, ← Nat.ofDigitChars_eq_foldl, toList_toString, Nat.ofDigitChars_ten_toDigits]
  rw [digits?, filled, all, value]
  rfl

/-- A printed number is read back if it is small enough. -/
theorem natural?_toString : natural? bound (toString n).toList = if n < bound then some n else none := by
  have value := digits?_toString n
  have digit := fun c => isDigit_of_mem_toString (c := c) (n := n)
  have unsigned : ∀ rest, (toString n).toList = '+' :: rest → False := by
    intro rest signed
    rw [signed] at digit
    cases digit '+' List.mem_cons_self
  have whole : natural? bound (toString n).toList = (digits? (toString n).toList).filter (· < bound) := by
    rw [natural?]
    exact unsigned
  rw [whole, value, Option.filter_some]
  simp

end GoalCoverage.Text
