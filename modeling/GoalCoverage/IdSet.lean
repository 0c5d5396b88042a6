import Std.Data.TreeSet

/-!
Finite sets of identities, kept as strictly increasing lists.

The representation is canonical: two sets with the same members are equal (`ext_mem`), so equality of
sets can be tested, and every listing is in increasing order. Each operation has one lemma that says
which identities it leaves in the set.
-/

namespace GoalCoverage

structure IdSet where
  toList : List Nat
  increasing : toList.Pairwise (· < ·)
  deriving DecidableEq

namespace IdSet

instance : Membership Nat IdSet := ⟨fun s x => x ∈ s.toList⟩

instance (x : Nat) (s : IdSet) : Decidable (x ∈ s) := inferInstanceAs (Decidable (x ∈ s.toList))

@[simp] theorem mem_toList {x : Nat} {s : IdSet} : x ∈ s.toList ↔ x ∈ s := Iff.rfl

theorem mem_mk {x : Nat} {l : List Nat} {h : l.Pairwise (· < ·)} : x ∈ IdSet.mk l h ↔ x ∈ l := Iff.rfl

def empty : IdSet := ⟨[], .nil⟩

instance : EmptyCollection IdSet := ⟨empty⟩

instance : Inhabited IdSet := ⟨empty⟩

@[simp] theorem not_mem_empty (x : Nat) : x ∉ (∅ : IdSet) := by
  intro h
  exact (List.not_mem_nil : x ∉ ([] : List Nat)) h

def isEmpty (s : IdSet) : Bool := s.toList.isEmpty

def size (s : IdSet) : Nat := s.toList.length

def contains (s : IdSet) (x : Nat) : Bool := s.toList.contains x

@[simp] theorem contains_iff {s : IdSet} {x : Nat} : s.contains x = true ↔ x ∈ s := by
  simp [contains]

@[simp] theorem contains_eq_false_iff {s : IdSet} {x : Nat} : s.contains x = false ↔ x ∉ s := by
  rw [← contains_iff, Bool.not_eq_true]

/-- Puts `x` at its place in an increasing list, unless it is there already. -/
def place (x : Nat) : List Nat → List Nat
  | [] => [x]
  | y :: rest =>
    if x < y then x :: y :: rest
    else if x = y then y :: rest
    else y :: place x rest

theorem mem_place {a x : Nat} {l : List Nat} : a ∈ place x l ↔ a = x ∨ a ∈ l := by
  induction l with
  | nil => simp [place]
  | cons y rest ih => grind [place]

theorem increasing_place {x : Nat} {l : List Nat} (h : l.Pairwise (· < ·)) :
    (place x l).Pairwise (· < ·) := by
  induction l with
  | nil => simp [place]
  | cons y rest ih =>
    rw [List.pairwise_cons] at h
    rw [place]
    split
    · next lt =>
      refine List.pairwise_cons.2 ⟨?_, List.pairwise_cons.2 h⟩
      intro a ha
      rcases List.mem_cons.1 ha with rfl | ha
      · exact lt
      · exact Nat.lt_trans lt (h.1 a ha)
    · split
      · exact List.pairwise_cons.2 h
      · refine List.pairwise_cons.2 ⟨?_, ih h.2⟩
        intro a ha
        rcases mem_place.1 ha with rfl | ha
        · omega
        · exact h.1 a ha

def insert (s : IdSet) (x : Nat) : IdSet := ⟨place x s.toList, increasing_place s.increasing⟩

@[simp] theorem mem_insert {a x : Nat} {s : IdSet} : a ∈ s.insert x ↔ a = x ∨ a ∈ s := mem_place

def filter (s : IdSet) (keep : Nat → Bool) : IdSet :=
  ⟨s.toList.filter keep, s.increasing.filter keep⟩

@[simp] theorem mem_filter {a : Nat} {s : IdSet} {keep : Nat → Bool} :
    a ∈ s.filter keep ↔ a ∈ s ∧ keep a = true := List.mem_filter

def erase (s : IdSet) (x : Nat) : IdSet := s.filter (· != x)

@[simp] theorem mem_erase {a x : Nat} {s : IdSet} : a ∈ s.erase x ↔ a ∈ s ∧ a ≠ x := by
  simp [erase]

def insertAll (s : IdSet) (xs : List Nat) : IdSet := xs.foldl insert s

@[simp] theorem mem_insertAll {a : Nat} {s : IdSet} {xs : List Nat} :
    a ∈ s.insertAll xs ↔ a ∈ xs ∨ a ∈ s := by
  induction xs generalizing s with
  | nil => simp [insertAll]
  | cons x rest ih =>
    have step : s.insertAll (x :: rest) = (s.insert x).insertAll rest := rfl
    rw [step, ih]
    grind [mem_insert]

def ofList (xs : List Nat) : IdSet := insertAll ∅ xs

@[simp] theorem mem_ofList {a : Nat} {xs : List Nat} : a ∈ ofList xs ↔ a ∈ xs := by
  simp [ofList]

/-- The members of a search tree. -/
def ofTree (t : Std.TreeSet Nat) : IdSet :=
  ⟨t.toList, t.ordered_toList.imp fun h => Nat.compare_eq_lt.1 h⟩

@[simp] theorem mem_ofTree {a : Nat} {t : Std.TreeSet Nat} : a ∈ ofTree t ↔ a ∈ t :=
  Std.TreeSet.mem_toList

def singleton (x : Nat) : IdSet := ⟨[x], by simp⟩

@[simp] theorem mem_singleton {a x : Nat} : a ∈ singleton x ↔ a = x := by
  simp [singleton, mem_mk]

def union (s t : IdSet) : IdSet := s.insertAll t.toList

@[simp] theorem mem_union {a : Nat} {s t : IdSet} : a ∈ s.union t ↔ a ∈ t ∨ a ∈ s := by
  simp [union]

def inter (s t : IdSet) : IdSet := s.filter t.contains

@[simp] theorem mem_inter {a : Nat} {s t : IdSet} : a ∈ s.inter t ↔ a ∈ s ∧ a ∈ t := by
  simp [inter]

def diff (s t : IdSet) : IdSet := s.filter fun x => !t.contains x

@[simp] theorem mem_diff {a : Nat} {s t : IdSet} : a ∈ s.diff t ↔ a ∈ s ∧ a ∉ t := by
  simp [diff]

def all (s : IdSet) (test : Nat → Bool) : Bool := s.toList.all test

def any (s : IdSet) (test : Nat → Bool) : Bool := s.toList.any test

theorem any_iff {s : IdSet} {test : Nat → Bool} : s.any test = true ↔ ∃ x ∈ s, test x = true :=
  List.any_eq_true

theorem isEmpty_iff {s : IdSet} : s.isEmpty = true ↔ ∀ x, x ∉ s := by
  rw [isEmpty, List.isEmpty_iff, List.eq_nil_iff_forall_not_mem]
  exact Iff.rfl

theorem isEmpty_eq_false_iff {s : IdSet} : s.isEmpty = false ↔ ∃ x, x ∈ s := by
  rw [← Bool.not_eq_true, isEmpty_iff, Classical.not_forall]
  simp only [Classical.not_not]

/-- Two increasing lists with the same members are the same list. -/
theorem increasing_ext : ∀ {l m : List Nat}, l.Pairwise (· < ·) → m.Pairwise (· < ·) →
    (∀ x, x ∈ l ↔ x ∈ m) → l = m
  | [], [], _, _, _ => rfl
  | [], y :: _, _, _, h => absurd ((h y).2 (by simp)) (by simp)
  | x :: _, [], _, _, h => absurd ((h x).1 (by simp)) (by simp)
  | x :: l, y :: m, hl, hm, h => by
    rw [List.pairwise_cons] at hl hm
    have first : x = y := by
      have hx := (h x).1 (by simp)
      have hy := (h y).2 (by simp)
      rcases List.mem_cons.1 hx with e | hx
      · exact e
      rcases List.mem_cons.1 hy with e | hy
      · exact e.symm
      have := hm.1 x hx
      have := hl.1 y hy
      omega
    subst first
    have rest : l = m := increasing_ext hl.2 hm.2 fun z => by
      constructor
      · intro hz
        have := hl.1 z hz
        rcases List.mem_cons.1 ((h z).1 (List.mem_cons_of_mem _ hz)) with e | hz'
        · omega
        · exact hz'
      · intro hz
        have := hm.1 z hz
        rcases List.mem_cons.1 ((h z).2 (List.mem_cons_of_mem _ hz)) with e | hz'
        · omega
        · exact hz'
    rw [rest]

theorem ext_mem {s t : IdSet} (h : ∀ x, x ∈ s ↔ x ∈ t) : s = t := by
  cases s with
  | mk l hl =>
    cases t with
    | mk m hm =>
      have e : l = m := increasing_ext hl hm h
      subst e
      rfl

end IdSet

end GoalCoverage
