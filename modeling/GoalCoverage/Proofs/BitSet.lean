import GoalCoverage.BitSet
import Mathlib.Data.Finset.Sort

/-!
Bit sets as finite sets of naturals. Every operation does to the words and to the count what it says it does to
the set (`Represents`), so after any operations the set has what was inserted and not removed or cleared since
(`run_exact`).
-/

namespace GoalCoverage.BitSet

variable {s : BitSet} {S : Finset Nat} {words : Array (BitVec 64)} {word : BitVec 64} {i j n : Nat} {ops : List Nat}

/-! Words -/

theorem getLsbD_mask (i b : Nat) : (mask i).getLsbD b = decide (b = i % 64) := by
  have small := Nat.mod_lt i (by decide : 64 > 0)
  rw [mask, BitVec.getLsbD_shiftLeft, BitVec.getLsbD_one]
  rw [Bool.eq_iff_iff]
  simp only [Bool.and_eq_true, Bool.not_eq_true', decide_eq_true_eq, decide_eq_false_iff_not]
  omega

/-- The lowest bit of a word, and what is above it. -/
theorem exists_lowest (nonzero : word ≠ 0#64) :
    ∃ q, word.toNat = 2 ^ (word.ctz.toNat + 1) * q + 2 ^ word.ctz.toNat := by
  have low : word.toNat % 2 ^ (word.ctz.toNat + 1) = 2 ^ word.ctz.toNat := by
    apply Nat.eq_of_testBit_eq
    intro b
    rw [Nat.testBit_mod_two_pow, Nat.testBit_two_pow, BitVec.testBit_toNat]
    rcases Nat.lt_trichotomy b word.ctz.toNat with below | same | above
    · simp [BitVec.getLsbD_false_of_lt_ctz below, Nat.ne_of_gt below]
    · simp [same, BitVec.getLsbD_true_ctz_of_ne_zero nonzero]
    · simp [Nat.not_lt.2 above, Nat.ne_of_lt above]
  refine ⟨word.toNat / 2 ^ (word.ctz.toNat + 1), ?_⟩
  rw [← low]
  exact (Nat.div_add_mod _ _).symm

/-- Below its lowest bit a word and its predecessor have no bit in common, and above it they agree. -/
theorem getLsbD_clearLowest (nonzero : word ≠ 0#64) (b : Nat) :
    (clearLowest word).getLsbD b = (word.getLsbD b && decide (b ≠ word.ctz.toNat)) := by
  obtain ⟨q, split⟩ := exists_lowest nonzero
  have pos := Nat.two_pow_pos word.ctz.toNat
  have low : 2 ^ word.ctz.toNat < 2 ^ (word.ctz.toNat + 1) := Nat.pow_lt_pow_succ Nat.one_lt_two
  have before : (word - 1#64).toNat = 2 ^ (word.ctz.toNat + 1) * q + (2 ^ word.ctz.toNat - 1) := by
    rw [toNat_sub_one nonzero]
    omega
  rw [clearLowest, BitVec.getLsbD_and, ← BitVec.testBit_toNat word, ← BitVec.testBit_toNat (word - 1#64), before, split,
    Nat.testBit_two_pow_mul_add _ low, Nat.testBit_two_pow_mul_add _ (by omega), Nat.testBit_two_pow,
    Nat.testBit_two_pow_sub_one]
  split
  next => by_cases same : word.ctz.toNat = b <;> simp [same]
  next above =>
    have other : b ≠ word.ctz.toNat := by omega
    simp [other]

theorem mem_bits (word : BitVec 64) (b : Nat) : b ∈ bits word ↔ word.getLsbD b = true := by
  fun_induction bits word with
  | case1 => simp
  | case2 word nonzero ih =>
    rw [List.mem_cons, ih, getLsbD_clearLowest nonzero]
    by_cases same : b = word.ctz.toNat
    · simp [same, BitVec.getLsbD_true_ctz_of_ne_zero nonzero]
    · simp [same]

theorem ctz_le_of_getLsbD (set : word.getLsbD i = true) : word.ctz.toNat ≤ i := by
  by_contra below
  rw [BitVec.getLsbD_false_of_lt_ctz (Nat.lt_of_not_le below)] at set
  cases set

theorem increasing_bits (word : BitVec 64) : (bits word).Pairwise (· < ·) := by
  fun_induction bits word with
  | case1 => exact .nil
  | case2 word nonzero ih =>
    refine .cons (fun b mem => ?_) ih
    rw [mem_bits, getLsbD_clearLowest nonzero, Bool.and_eq_true, decide_eq_true_eq] at mem
    exact Nat.lt_of_le_of_ne (ctz_le_of_getLsbD mem.1) mem.2.symm

/-! Members -/

theorem membersBefore_eq (words : Array (BitVec 64)) (n : Nat) (rest : List Nat) : membersBefore words n rest =
    (List.range n).flatMap (fun w => (bits (words.getD w 0#64)).map (64 * w + ·)) ++ rest := by
  induction n generalizing rest with
  | zero => rfl
  | succ n ih => rw [membersBefore, ih, List.range_succ, List.flatMap_append, List.flatMap_singleton, List.append_assoc]

theorem toList_eq (s : BitSet) :
    s.toList = (List.range s.words.size).flatMap fun w => (bits (s.words.getD w 0#64)).map (64 * w + ·) := by
  rw [toList, membersBefore_eq, List.append_nil]

theorem mem_toList : i ∈ s.toList ↔ s.contains i = true := by
  simp only [toList_eq, List.mem_flatMap, List.mem_range, List.mem_map, mem_bits, contains]
  constructor
  · intro h
    obtain ⟨w, _, b, set, rfl⟩ := h
    have small := BitVec.lt_of_getLsbD set
    rwa [show (64 * w + b) / 64 = w by omega, show (64 * w + b) % 64 = b by omega]
  · intro set
    refine ⟨i / 64, ?_, i % 64, set, Nat.div_add_mod i 64⟩
    by_contra beyond
    rw [Array.getD_eq_getD_getElem?, Array.getElem?_eq_none (Nat.le_of_not_lt beyond)] at set
    simp at set

theorem increasing_toList (s : BitSet) : s.toList.Pairwise (· < ·) := by
  rw [toList_eq, List.pairwise_flatMap]
  refine ⟨fun w _ => ?_, (List.pairwise_lt_range).imp fun {v w} lt x memx y memy => ?_⟩
  · rw [List.pairwise_map]
    exact (increasing_bits _).imp fun lt => Nat.add_lt_add_left lt _
  · obtain ⟨b, set, rfl⟩ := List.mem_map.1 memx
    obtain ⟨c, _, rfl⟩ := List.mem_map.1 memy
    have small := BitVec.lt_of_getLsbD ((mem_bits _ _).1 set)
    omega

/-! What the operations do to the members -/

theorem getD_grow (words : Array (BitVec 64)) (n w : Nat) : (grow words n).getD w 0#64 = words.getD w 0#64 := by
  rw [grow, Array.getD_eq_getD_getElem?, Array.getD_eq_getD_getElem?, Array.getElem?_append, Array.getElem?_replicate]
  split
  next => rfl
  next beyond =>
    rw [Array.getElem?_eq_none (Nat.le_of_not_lt beyond)]
    split <;> rfl

theorem lt_size_grow (words : Array (BitVec 64)) (n : Nat) : n < (grow words (n + 1)).size := by
  rw [grow, Array.size_append, Array.size_replicate]
  omega

theorem getD_modify (f : BitVec 64 → BitVec 64) (bound : n < words.size) (w : Nat) :
    (words.modify n f).getD w 0#64 = if w = n then f (words.getD n 0#64) else words.getD w 0#64 := by
  rw [Array.getD_eq_getD_getElem?, Array.getElem?_modify]
  by_cases same : w = n
  · rw [if_pos same.symm, if_pos same, same, Array.getD_eq_getD_getElem?, Array.getElem?_eq_getElem bound]
    rfl
  · rw [if_neg (Ne.symm same), if_neg same, Array.getD_eq_getD_getElem?]

/-- Two numbers are the same if and only if they have the same word and the same bit. -/
theorem decide_eq_place (i j : Nat) : decide (j = i) = (decide (j / 64 = i / 64) && decide (j % 64 = i % 64)) := by
  rw [← Bool.decide_and]
  exact decide_eq_decide.2 (by omega)

theorem lt_size_of_contains (has : s.contains i = true) : i / 64 < s.words.size := by
  by_contra beyond
  rw [contains, Array.getD_eq_getD_getElem?, Array.getElem?_eq_none (Nat.le_of_not_lt beyond)] at has
  simp at has

theorem contains_grow (s : BitSet) (n j : Nat) : ({ s with words := grow s.words n } : BitSet).contains j = s.contains j := by
  rw [contains, contains, getD_grow]

theorem contains_insert (s : BitSet) (i j : Nat) : (s.insert i).2.contains j = (decide (j = i) || s.contains j) := by
  rw [insert]
  split
  next has =>
    rw [contains_grow]
    by_cases same : j = i
    · rw [same, has, Bool.or_true]
    · rw [decide_eq_false same, Bool.false_or]
  next =>
    simp only [contains, getD_modify _ (lt_size_grow _ _), getD_grow]
    rw [decide_eq_place]
    by_cases word : j / 64 = i / 64
    · rw [if_pos word, word, BitVec.getLsbD_or, getLsbD_mask, decide_eq_true rfl, Bool.true_and, Bool.or_comm]
    · rw [if_neg word, decide_eq_false word, Bool.false_and, Bool.false_or]

theorem contains_remove (s : BitSet) (i j : Nat) : (s.remove i).2.contains j = (decide (j ≠ i) && s.contains j) := by
  have small := Nat.mod_lt j (by decide : 64 > 0)
  rw [remove, decide_not]
  split
  next has =>
    simp only [contains, getD_modify _ (lt_size_of_contains has)]
    rw [decide_eq_place]
    by_cases word : j / 64 = i / 64
    · rw [if_pos word, word, BitVec.getLsbD_and, BitVec.getLsbD_not, getLsbD_mask, decide_eq_true rfl,
        decide_eq_true small, Bool.true_and, Bool.true_and, Bool.and_comm]
    · rw [if_neg word, decide_eq_false word, Bool.false_and, Bool.not_false, Bool.true_and]
  next absent =>
    by_cases same : j = i
    · rw [same, Bool.eq_false_iff.2 absent, Bool.and_false]
    · rw [decide_eq_false same, Bool.not_false, Bool.true_and]

theorem contains_clear (s : BitSet) (i : Nat) : s.clear.contains i = false := by
  rw [contains, clear, Array.getD_eq_getD_getElem?, Array.getElem?_map]
  cases s.words[i / 64]? <;> simp

theorem contains_withCapacity (capacity i : Nat) : (withCapacity capacity).contains i = false := by
  rw [contains, withCapacity, Array.getD_eq_getD_getElem?, Array.getElem?_replicate]
  split <;> simp

/-! Sets of naturals -/

/-- The words and the count of a set with these members. -/
structure Represents (s : BitSet) (S : Finset Nat) : Prop where
  contains_iff : ∀ i, s.contains i = true ↔ i ∈ S
  size_eq : s.size = S.card

theorem represents_empty : Represents empty ∅ := ⟨fun i => by simp [contains, empty], rfl⟩

theorem represents_withCapacity (capacity : Nat) : Represents (withCapacity capacity) ∅ :=
  ⟨fun i => by simp [contains_withCapacity], rfl⟩

theorem Represents.insert (holds : s.Represents S) (i : Nat) : (s.insert i).2.Represents (Insert.insert i S) where
  contains_iff j := by
    rw [contains_insert, Bool.or_eq_true, decide_eq_true_eq, holds.contains_iff, Finset.mem_insert]
  size_eq := by
    rw [BitSet.insert]
    split
    next has => rw [Finset.insert_eq_self.2 ((holds.contains_iff i).1 has), holds.size_eq]
    next absent => rw [Finset.card_insert_of_notMem (mt (holds.contains_iff i).2 absent), holds.size_eq]

theorem Represents.remove (holds : s.Represents S) (i : Nat) : (s.remove i).2.Represents (S.erase i) where
  contains_iff j := by
    rw [contains_remove, Bool.and_eq_true, decide_eq_true_eq, holds.contains_iff, Finset.mem_erase]
  size_eq := by
    rw [BitSet.remove]
    split
    next has => rw [Finset.card_erase_of_mem ((holds.contains_iff i).1 has), holds.size_eq]
    next absent => rw [Finset.erase_eq_of_notMem (mt (holds.contains_iff i).2 absent), holds.size_eq]

theorem Represents.extend (holds : s.Represents S) (is : List Nat) : (s.extend is).Represents (S ∪ is.toFinset) := by
  induction is generalizing s S with
  | nil =>
    rw [List.toFinset_nil, Finset.union_empty]
    exact holds
  | cons i is ih =>
    rw [List.toFinset_cons, Finset.union_insert, ← Finset.insert_union]
    exact ih (holds.insert i)

theorem represents_clear (s : BitSet) : s.clear.Represents ∅ := ⟨fun i => by simp [contains_clear], rfl⟩

/-! Operations one after another -/

inductive Op where
  | insert (i : Nat)
  | remove (i : Nat)
  | extend (is : List Nat)
  | clear

namespace Op

def run (s : BitSet) : Op → BitSet
  | insert i => (s.insert i).2
  | remove i => (s.remove i).2
  | extend is => s.extend is
  | clear => s.clear

/-- What an operation makes of the members. -/
def onto (S : Finset Nat) : Op → Finset Nat
  | insert i => Insert.insert i S
  | remove i => S.erase i
  | extend is => S ∪ is.toFinset
  | clear => ∅

/-- The operation inserts `i`. -/
def Puts (i : Nat) : Op → Prop
  | insert j => i = j
  | extend is => i ∈ is
  | _ => False

/-- The operation removes `i`, or everything. -/
def Drops (i : Nat) : Op → Prop
  | remove j => i = j
  | clear => True
  | _ => False

theorem mem_onto {op : Op} : i ∈ op.onto S ↔ op.Puts i ∨ (i ∈ S ∧ ¬op.Drops i) := by
  cases op with
  | insert j => simp [onto, Puts, Drops]
  | remove j => simp [onto, Puts, Drops, and_comm]
  | extend is => simp [onto, Puts, Drops, or_comm]
  | clear => simp [onto, Puts, Drops]

theorem represents_run (op : Op) (holds : s.Represents S) : (op.run s).Represents (op.onto S) := by
  cases op with
  | insert i => exact holds.insert i
  | remove i => exact holds.remove i
  | extend is => exact holds.extend is
  | clear => exact represents_clear s

end Op

/-- Some operation inserted `i`, and none after it removed or cleared it. -/
def Held (ops : List Op) (i : Nat) : Prop :=
  ∃ before op after, ops = before ++ op :: after ∧ op.Puts i ∧ ∀ later ∈ after, ¬later.Drops i

theorem held_concat {ops : List Op} {op : Op} : Held (ops ++ [op]) i ↔ op.Puts i ∨ (Held ops i ∧ ¬op.Drops i) := by
  constructor
  · intro h
    obtain ⟨before, first, after, split, puts, kept⟩ := h
    cases after using List.reverseRecOn with
    | nil =>
      obtain ⟨_, same⟩ := List.append_inj' split rfl
      cases same
      exact .inl puts
    | append_singleton after last =>
      rw [← List.cons_append, ← List.append_assoc] at split
      obtain ⟨rest, same⟩ := List.append_inj' split rfl
      cases same
      refine .inr ⟨⟨before, first, after, rest, puts, fun later mem => kept later ?_⟩, kept op ?_⟩
      · exact List.mem_append_left _ mem
      · exact List.mem_concat_self
  · intro h
    obtain puts | ⟨⟨before, first, after, rfl, puts, kept⟩, stays⟩ := h
    · exact ⟨ops, op, [], rfl, puts, fun later mem => nomatch mem⟩
    · refine ⟨before, first, after ++ [op], by simp, puts, fun later mem => ?_⟩
      obtain old | new := List.mem_append.1 mem
      · exact kept later old
      · rw [List.mem_singleton.1 new]
        exact stays

/-- What a set with these members answers. -/
structure Answers (s : BitSet) (S : Finset Nat) : Prop where
  contains : ∀ i, s.contains i = true ↔ i ∈ S
  size : s.size = S.card
  isEmpty : s.isEmpty = true ↔ s.size = 0
  /-- An insertion or a removal tells whether it changes the members. -/
  insert : ∀ i, (s.insert i).1 = true ↔ (Op.insert i).onto S ≠ S
  remove : ∀ i, (s.remove i).1 = true ↔ (Op.remove i).onto S ≠ S
  listed : ∀ i, i ∈ s.toList ↔ i ∈ S
  increasing : s.toList.Pairwise (· < ·)

theorem insert_tells (s : BitSet) (i : Nat) : (s.insert i).1 = !s.contains i := by
  rw [insert]
  cases s.contains i <;> rfl

theorem remove_tells (s : BitSet) (i : Nat) : (s.remove i).1 = s.contains i := by
  rw [remove]
  cases s.contains i <;> rfl

theorem Represents.answers (holds : s.Represents S) : s.Answers S where
  contains := holds.contains_iff
  size := holds.size_eq
  isEmpty := by rw [BitSet.isEmpty, beq_iff_eq]
  insert i := by
    rw [insert_tells, Bool.not_eq_true', ← Bool.not_eq_true, holds.contains_iff, Op.onto, Ne, Finset.insert_eq_self]
  remove i := by rw [remove_tells, holds.contains_iff, Op.onto, Finset.erase_ne_self]
  listed i := by rw [mem_toList, holds.contains_iff]
  increasing := increasing_toList s

/-- The default set, or one with room for so many naturals. -/
def fresh (capacity : Option Nat) : BitSet := capacity.elim empty withCapacity

theorem represents_fresh (capacity : Option Nat) : (fresh capacity).Represents ∅ := by
  cases capacity with
  | none => exact represents_empty
  | some capacity => exact represents_withCapacity capacity

theorem exists_represents (capacity : Option Nat) (ops : List Op) :
    ∃ S, (ops.foldl Op.run (fresh capacity)).Represents S ∧ ∀ i, i ∈ S ↔ Held ops i := by
  induction ops using List.reverseRecOn with
  | nil => exact ⟨∅, represents_fresh capacity, fun i => by simp [Held]⟩
  | append_singleton ops op ih =>
    obtain ⟨S, holds, held⟩ := ih
    refine ⟨op.onto S, ?_, fun i => ?_⟩
    · rw [List.foldl_concat]
      exact op.represents_run holds
    · rw [Op.mem_onto, held_concat, held]

/-- After any operations a set answers for what was inserted and not removed or cleared since. -/
theorem run_exact (capacity : Option Nat) (ops : List Op) :
    ∃ S, (∀ i, i ∈ S ↔ Held ops i) ∧ (ops.foldl Op.run (fresh capacity)).Answers S := by
  obtain ⟨S, holds, held⟩ := exists_represents capacity ops
  exact ⟨S, held, holds.answers⟩

end GoalCoverage.BitSet
