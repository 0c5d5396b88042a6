import Std.Data.TreeMap

/-!
Numberings: values numbered from 0 in the order of their first appearance.
-/

namespace GoalCoverage

open Std

structure Numbering (α : Type) [Ord α] where
  members : Array α
  places : TreeMap α Nat
  /-- The two views agree, so no member has two numbers. -/
  places_eq_some_iff : ∀ (a : α) (i : Nat), places[a]? = some i ↔ members[i]? = some a

namespace Numbering

variable {α : Type} [Ord α]

def size (n : Numbering α) : Nat := n.members.size

def toList (n : Numbering α) : List α := n.members.toList

/-- The member with a number. -/
def get? (n : Numbering α) (i : Nat) : Option α := n.members[i]?

/-- The number of a member. -/
def place? (n : Numbering α) (a : α) : Option Nat := n.places[a]?

theorem place?_eq_some_iff {n : Numbering α} {a : α} {i : Nat} : n.place? a = some i ↔ n.get? i = some a :=
  n.places_eq_some_iff a i

theorem lt_size_of_get? {n : Numbering α} {a : α} {i : Nat} (h : n.get? i = some a) : i < n.size :=
  (Array.getElem?_eq_some_iff.1 h).1

theorem lt_size_of_place? {n : Numbering α} {a : α} {i : Nat} (h : n.place? a = some i) : i < n.size :=
  lt_size_of_get? (place?_eq_some_iff.1 h)

theorem mem_toList_iff {n : Numbering α} {a : α} : a ∈ n.toList ↔ ∃ i, n.place? a = some i := by
  simp only [toList, Array.mem_toList_iff, Array.mem_iff_getElem?, place?_eq_some_iff, get?]

variable [TransOrd α] [LawfulEqOrd α]

def empty : Numbering α := ⟨#[], ∅, by simp⟩

/-- Numbers a value, unless it has a number. -/
def insert (n : Numbering α) (a : α) : Numbering α :=
  if new : n.places[a]? = none then
    { members := n.members.push a
      places := n.places.insert a n.members.size
      places_eq_some_iff := fun b i => by
        have known := n.places_eq_some_iff
        rw [TreeMap.getElem?_insert, Array.getElem?_push]
        have absent : ∀ j, n.members[j]? ≠ some a := fun j h => by
          rw [(known a j).2 h] at new
          cases new
        by_cases same : a = b
        · subst same
          have := absent i
          grind
        · have fresh : n.members[n.members.size]? = none := by simp
          have := known b i
          grind }
  else n

def insertAll (n : Numbering α) (xs : List α) : Numbering α := xs.foldl insert n

/-- The members of a list at their first places. -/
def ofList (xs : List α) : Numbering α := insertAll empty xs

theorem size_le_insert (n : Numbering α) (a : α) : n.size ≤ (n.insert a).size := by
  rw [insert]
  split
  · simp [size]
  · exact Nat.le_refl _

theorem size_le_insertAll (n : Numbering α) (xs : List α) : n.size ≤ (n.insertAll xs).size := by
  induction xs generalizing n with
  | nil => exact Nat.le_refl _
  | cons x rest ih => exact Nat.le_trans (n.size_le_insert x) (ih (n.insert x))

theorem size_insert_pos (n : Numbering α) (a : α) : 0 < (n.insert a).size := by
  rw [insert]
  split
  · simp [size]
  · next old =>
    obtain ⟨i, place⟩ := Option.ne_none_iff_exists'.1 old
    exact Nat.zero_lt_of_lt (lt_size_of_place? place)

theorem size_ofList_cons_pos (x : α) (xs : List α) : 0 < (ofList (x :: xs)).size :=
  Nat.lt_of_lt_of_le (size_insert_pos empty x) (size_le_insertAll _ xs)

end Numbering

end GoalCoverage
