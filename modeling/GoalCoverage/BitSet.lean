/-!
Sets of naturals as arrays of 64-bit words.

Bit `b` of word `w` stands for `64 * w + b`. The array grows on demand, and the number of set bits is
kept beside it.
-/

namespace GoalCoverage

structure BitSet where
  words : Array (BitVec 64)
  size : Nat

namespace BitSet

/-- An empty set with room for the naturals below `capacity`. -/
def withCapacity (capacity : Nat) : BitSet := ⟨Array.replicate ((capacity + 63) / 64) 0#64, 0⟩

def empty : BitSet := ⟨#[], 0⟩

def isEmpty (s : BitSet) : Bool := s.size == 0

/-- The word that holds only the bit of `i`. -/
def mask (i : Nat) : BitVec 64 := 1#64 <<< (i % 64)

def contains (s : BitSet) (i : Nat) : Bool := (s.words.getD (i / 64) 0#64).getLsbD (i % 64)

/-- Appends empty words until there are at least `n`. -/
def grow (words : Array (BitVec 64)) (n : Nat) : Array (BitVec 64) :=
  words ++ Array.replicate (n - words.size) 0#64

/-- Adds `i`, and says whether it is new. -/
def insert (s : BitSet) (i : Nat) : Bool × BitSet :=
  let words := grow s.words (i / 64 + 1)
  if s.contains i then (false, { s with words })
  else (true, ⟨words.modify (i / 64) (· ||| mask i), s.size + 1⟩)

/-- Removes `i`, and says whether it was there. -/
def remove (s : BitSet) (i : Nat) : Bool × BitSet :=
  if s.contains i then (true, ⟨s.words.modify (i / 64) (· &&& ~~~mask i), s.size - 1⟩)
  else (false, s)

def extend (s : BitSet) (is : List Nat) : BitSet := is.foldl (fun s i => (s.insert i).2) s

def clear (s : BitSet) : BitSet := ⟨s.words.map fun _ => 0#64, 0⟩

/-- A word without its lowest bit. -/
def clearLowest (word : BitVec 64) : BitVec 64 := word &&& (word - 1#64)

theorem toNat_sub_one {word : BitVec 64} (nonzero : word ≠ 0#64) : (word - 1#64).toNat = word.toNat - 1 := by
  have pos : 0 < word.toNat := Nat.pos_of_ne_zero fun zero => nonzero (BitVec.eq_of_toNat_eq zero)
  exact BitVec.toNat_sub_of_le (BitVec.le_def.2 pos)

theorem clearLowest_lt {word : BitVec 64} (nonzero : word ≠ 0#64) : (clearLowest word).toNat < word.toNat := by
  have pos : 0 < word.toNat := Nat.pos_of_ne_zero fun zero => nonzero (BitVec.eq_of_toNat_eq zero)
  rw [clearLowest, BitVec.toNat_and, toNat_sub_one nonzero]
  exact Nat.lt_of_le_of_lt Nat.and_le_right (Nat.sub_lt pos Nat.one_pos)

/-- The bits of a word, lowest first. -/
def bits (word : BitVec 64) : List Nat :=
  if word = 0#64 then [] else word.ctz.toNat :: bits (clearLowest word)
termination_by word.toNat
decreasing_by exact clearLowest_lt ‹_›

/-- The members that stand in the first words, followed by a list. -/
def membersBefore (words : Array (BitVec 64)) : (count : Nat) → List Nat → List Nat
  | 0, rest => rest
  | w + 1, rest => membersBefore words w ((bits (words.getD w 0#64)).map (64 * w + ·) ++ rest)

/-- The members in increasing order. -/
def toList (s : BitSet) : List Nat := membersBefore s.words s.words.size []

end BitSet

end GoalCoverage
