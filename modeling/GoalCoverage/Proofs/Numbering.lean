import GoalCoverage.Numbering
import Mathlib.Data.List.Nodup

/-!
Numberings keep the places that they gave, and number exactly what was inserted.
-/

namespace GoalCoverage.Numbering

open Std

variable {α : Type} [Ord α] {n : Numbering α} {a b : α} {i : Nat} {xs : List α}

theorem get?_eq (n : Numbering α) (i : Nat) : n.get? i = n.toList[i]? := by
  simp [get?, toList]

theorem mem_iff_get? : a ∈ n.toList ↔ ∃ i, n.get? i = some a := by
  simp only [get?_eq, List.mem_iff_getElem?]

theorem nodup_toList (n : Numbering α) : n.toList.Nodup := by
  rw [List.nodup_iff_getElem?_ne_getElem?]
  intro i j lt bound same
  have here : n.get? j = some (n.toList[j]) := by rw [get?_eq, List.getElem?_eq_getElem bound]
  have there : n.get? i = some (n.toList[j]) := by rw [get?_eq, same, List.getElem?_eq_getElem bound]
  rw [← place?_eq_some_iff] at here there
  rw [here] at there
  have := Option.some.inj there
  omega

theorem length_toList (n : Numbering α) : n.toList.length = n.size := by
  simp [toList, size]

variable [TransOrd α] [LawfulEqOrd α]

theorem get?_insert_of_new (new : n.place? a = none) :
    (n.insert a).get? i = if i = n.size then some a else n.get? i := by
  have shape : (n.insert a).members = n.members.push a := by
    rw [place?] at new
    rw [insert, dif_pos new]
  rw [get?, shape, Array.getElem?_push]
  rfl

theorem insert_of_old (old : n.place? a = some i) : n.insert a = n := by
  rw [insert, dif_neg]
  intro new
  rw [place?, new] at old
  cases old

theorem get?_insert (h : n.get? i = some b) : (n.insert a).get? i = some b := by
  cases place : n.place? a with
  | none =>
    have := lt_size_of_get? h
    rw [get?_insert_of_new place, if_neg (by omega), h]
  | some j => rwa [insert_of_old place]

theorem mem_insert : b ∈ (n.insert a).toList ↔ b = a ∨ b ∈ n.toList := by
  cases place : n.place? a with
  | none =>
    simp only [mem_iff_get?, get?_insert_of_new place]
    constructor
    · rintro ⟨i, h⟩
      split_ifs at h
      · exact .inl (Option.some.inj h).symm
      · exact .inr ⟨i, h⟩
    · rintro (rfl | ⟨i, h⟩)
      · exact ⟨n.size, if_pos rfl⟩
      · have := lt_size_of_get? h
        exact ⟨i, by rw [if_neg (by omega), h]⟩
  | some j =>
    rw [insert_of_old place]
    have : a ∈ n.toList := mem_toList_iff.2 ⟨j, place⟩
    constructor
    · exact .inr
    · rintro (rfl | h)
      · exact this
      · exact h

theorem get?_insertAll (h : n.get? i = some b) : (n.insertAll xs).get? i = some b := by
  induction xs generalizing n with
  | nil => exact h
  | cons x rest ih => exact ih (get?_insert h)

theorem get?_insertAll_of_lt (lt : i < n.size) : (n.insertAll xs).get? i = n.get? i := by
  obtain ⟨b, here⟩ : ∃ b, n.get? i = some b := ⟨n.members[i], by rw [get?, Array.getElem?_eq_getElem lt]⟩
  rw [here, get?_insertAll here]

theorem mem_insertAll : b ∈ (n.insertAll xs).toList ↔ b ∈ xs ∨ b ∈ n.toList := by
  induction xs generalizing n with
  | nil => simp [insertAll]
  | cons x rest ih =>
    have step : n.insertAll (x :: rest) = (n.insert x).insertAll rest := rfl
    rw [step, ih, mem_insert, List.mem_cons]
    tauto

theorem mem_ofList : b ∈ (ofList xs).toList ↔ b ∈ xs := by
  rw [ofList, mem_insertAll]
  simp [empty, toList]

/-- The first value gets the first number. -/
theorem get?_ofList_cons (x : α) (xs : List α) : (ofList (x :: xs)).get? 0 = some x := by
  have first : (empty.insert x).get? 0 = some x := by
    rw [get?_insert_of_new (by simp [place?, empty])]
    rfl
  have step : ofList (x :: xs) = (empty.insert x).insertAll xs := rfl
  rw [step]
  exact get?_insertAll first

end GoalCoverage.Numbering
