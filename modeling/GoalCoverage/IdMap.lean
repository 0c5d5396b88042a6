import GoalCoverage.IdSet

/-!
Finite maps from identities to values, kept as association lists with strictly increasing keys.

As with `IdSet` the representation is canonical: maps that answer every `get?` alike are equal
(`ext_get?`), and all listings are in increasing order of the keys.
-/

namespace GoalCoverage

structure IdMap (α : Type) where
  entries : List (Nat × α)
  increasing : entries.Pairwise fun a b => a.1 < b.1
  deriving DecidableEq

namespace IdMap

variable {α β : Type}

def empty : IdMap α := ⟨[], .nil⟩

instance : EmptyCollection (IdMap α) := ⟨empty⟩

instance : Inhabited (IdMap α) := ⟨empty⟩

def isEmpty (m : IdMap α) : Bool := m.entries.isEmpty

def size (m : IdMap α) : Nat := m.entries.length

/-- The value of the first entry with the given key. -/
def find (k : Nat) : List (Nat × α) → Option α
  | [] => none
  | (key, value) :: rest => if key = k then some value else find k rest

def get? (m : IdMap α) (k : Nat) : Option α := find k m.entries

def getD (m : IdMap α) (k : Nat) (fallback : α) : α := (m.get? k).getD fallback

def contains (m : IdMap α) (k : Nat) : Bool := (m.get? k).isSome

@[simp] theorem get?_empty (k : Nat) : (∅ : IdMap α).get? k = none := rfl

theorem find_of_forall_ne {k : Nat} {l : List (Nat × α)} (h : ∀ e ∈ l, e.1 ≠ k) :
    find k l = none := by
  induction l with
  | nil => rfl
  | cons e rest ih => grind [find]

theorem mem_of_find {k : Nat} {v : α} {l : List (Nat × α)} (h : find k l = some v) :
    (k, v) ∈ l := by
  induction l with
  | nil => cases h
  | cons e rest ih => grind [find]

theorem find_of_mem {k : Nat} {v : α} {l : List (Nat × α)} (inc : l.Pairwise fun a b => a.1 < b.1)
    (h : (k, v) ∈ l) : find k l = some v := by
  induction l with
  | nil => cases h
  | cons e rest ih =>
    rw [List.pairwise_cons] at inc
    obtain ⟨key, value⟩ := e
    rcases List.mem_cons.1 h with e | h
    · cases e
      simp [find]
    · have := inc.1 _ h
      have ne : key ≠ k := by
        intro e
        simp_all
      rw [find, if_neg ne]
      exact ih inc.2 h

theorem get?_eq_some_iff {m : IdMap α} {k : Nat} {v : α} :
    m.get? k = some v ↔ (k, v) ∈ m.entries :=
  ⟨mem_of_find, find_of_mem m.increasing⟩

/-- Puts the entry at its place in a list with increasing keys, replacing one with the same key. -/
def place (k : Nat) (v : α) : List (Nat × α) → List (Nat × α)
  | [] => [(k, v)]
  | (key, value) :: rest =>
    if k < key then (k, v) :: (key, value) :: rest
    else if k = key then (k, v) :: rest
    else (key, value) :: place k v rest

theorem key_of_mem_place {k : Nat} {v : α} {e : Nat × α} {l : List (Nat × α)} (h : e ∈ place k v l) :
    e.1 = k ∨ e ∈ l := by
  induction l with
  | nil => simp_all [place]
  | cons hd rest ih => grind [place]

theorem increasing_place {k : Nat} {v : α} {l : List (Nat × α)}
    (h : l.Pairwise fun a b => a.1 < b.1) : (place k v l).Pairwise fun a b => a.1 < b.1 := by
  induction l with
  | nil => simp [place]
  | cons hd rest ih =>
    obtain ⟨key, value⟩ := hd
    rw [List.pairwise_cons] at h
    rw [place]
    split
    · next lt =>
      refine List.pairwise_cons.2 ⟨?_, List.pairwise_cons.2 h⟩
      intro a ha
      rcases List.mem_cons.1 ha with rfl | ha
      · exact lt
      · exact Nat.lt_trans lt (h.1 a ha)
    · split
      · next eq =>
        subst eq
        exact List.pairwise_cons.2 h
      · refine List.pairwise_cons.2 ⟨?_, ih h.2⟩
        intro a ha
        rcases key_of_mem_place ha with e | ha
        · simp only [e]
          omega
        · exact h.1 a ha

theorem find_place {k k' : Nat} {v : α} {l : List (Nat × α)}
    (h : l.Pairwise fun a b => a.1 < b.1) :
    find k' (place k v l) = if k' = k then some v else find k' l := by
  induction l with
  | nil => grind [place, find]
  | cons hd rest ih =>
    obtain ⟨key, value⟩ := hd
    rw [List.pairwise_cons] at h
    rw [place]
    split
    · grind [find]
    · split
      · grind [find]
      · rw [find, find, ih h.2]
        grind

def insert (m : IdMap α) (k : Nat) (v : α) : IdMap α := ⟨place k v m.entries, increasing_place m.increasing⟩

theorem get?_insert {m : IdMap α} {k k' : Nat} {v : α} :
    (m.insert k v).get? k' = if k' = k then some v else m.get? k' :=
  find_place m.increasing

@[simp] theorem get?_insert_self {m : IdMap α} {k : Nat} {v : α} : (m.insert k v).get? k = some v := by
  simp [get?_insert]

def filter (m : IdMap α) (keep : Nat → α → Bool) : IdMap α :=
  ⟨m.entries.filter fun e => keep e.1 e.2, m.increasing.filter _⟩

theorem find_filter {k : Nat} {keep : Nat → α → Bool} {l : List (Nat × α)}
    (inc : l.Pairwise fun a b => a.1 < b.1) :
    find k (l.filter fun e => keep e.1 e.2) = (find k l).filter (keep k) := by
  induction l with
  | nil => rfl
  | cons e rest ih =>
    obtain ⟨key, value⟩ := e
    rw [List.pairwise_cons] at inc
    rw [List.filter_cons]
    by_cases same : key = k
    · subst same
      have absent : find key (rest.filter fun e => keep e.1 e.2) = none := by
        apply find_of_forall_ne
        intro e he
        have := inc.1 e (List.mem_filter.1 he).1
        omega
      by_cases kept : keep key value = true
      · simp [find, kept, Option.filter]
      · simp [find, kept, absent, Option.filter]
    · by_cases kept : keep key value = true
      · simp [find, kept, same, ih inc.2]
      · simp [find, kept, same, ih inc.2]

theorem get?_filter {m : IdMap α} {keep : Nat → α → Bool} {k : Nat} :
    (m.filter keep).get? k = (m.get? k).filter (keep k) :=
  find_filter m.increasing

def erase (m : IdMap α) (k : Nat) : IdMap α := m.filter fun key _ => key != k

theorem get?_erase {m : IdMap α} {k k' : Nat} :
    (m.erase k).get? k' = if k' = k then none else m.get? k' := by
  rw [erase, get?_filter]
  by_cases same : k' = k
  · subst same
    cases m.get? k' <;> simp
  · cases m.get? k' <;> simp [same]

/-- The keys, as a set. -/
def keys (m : IdMap α) : IdSet := ⟨m.entries.map (·.1), List.pairwise_map.2 m.increasing⟩

theorem mem_keys {m : IdMap α} {k : Nat} : k ∈ m.keys ↔ ∃ v, m.get? k = some v := by
  simp only [get?_eq_some_iff]
  constructor
  · intro h
    obtain ⟨e, he, rfl⟩ := List.mem_map.1 (show k ∈ m.entries.map (·.1) from h)
    exact ⟨e.2, he⟩
  · rintro ⟨v, hv⟩
    exact List.mem_map.2 ⟨_, hv, rfl⟩

/-- The values, in increasing order of their keys. -/
def values (m : IdMap α) : List α := m.entries.map (·.2)

/-- Later entries replace earlier ones with the same key. -/
def ofList (entries : List (Nat × α)) : IdMap α := entries.foldl (fun m e => m.insert e.1 e.2) ∅

theorem mem_of_get?_foldl {l : List (Nat × α)} {m : IdMap α} {k : Nat} {v : α}
    (h : (l.foldl (fun m e => m.insert e.1 e.2) m).get? k = some v) : (k, v) ∈ l ∨ m.get? k = some v := by
  induction l generalizing m with
  | nil => exact .inr h
  | cons e rest ih =>
    cases ih h with
    | inl old => exact .inl (List.mem_cons_of_mem e old)
    | inr new =>
      rw [get?_insert] at new
      split at new
      next same =>
        cases new
        exact .inl (same ▸ List.mem_cons_self)
      next => exact .inr new

theorem mem_of_get?_ofList {l : List (Nat × α)} {k : Nat} {v : α} (h : (ofList l).get? k = some v) : (k, v) ∈ l := by
  cases mem_of_get?_foldl h with
  | inl mem => exact mem
  | inr old => cases old

theorem exists_get?_foldl {l : List (Nat × α)} {m : IdMap α} {k : Nat}
    (h : (∃ e ∈ l, e.1 = k) ∨ ∃ v, m.get? k = some v) :
    ∃ v, (l.foldl (fun m e => m.insert e.1 e.2) m).get? k = some v := by
  induction l generalizing m with
  | nil => simpa using h
  | cons e rest ih =>
    apply ih
    rw [get?_insert]
    split
    next => exact .inr ⟨e.2, rfl⟩
    next other =>
      apply h.imp_left
      intro here
      obtain ⟨e', mem, same⟩ := here
      cases List.mem_cons.1 mem with
      | inl is => exact absurd (is ▸ same) (Ne.symm other)
      | inr mem => exact ⟨e', mem, same⟩

theorem exists_get?_ofList {l : List (Nat × α)} {e : Nat × α} (mem : e ∈ l) : ∃ v, (ofList l).get? e.1 = some v :=
  exists_get?_foldl (.inl ⟨e, mem, rfl⟩)

theorem ext_get? {m n : IdMap α} (h : ∀ k, m.get? k = n.get? k) : m = n := by
  have members : ∀ e : Nat × α, e ∈ m.entries ↔ e ∈ n.entries := by
    intro e
    obtain ⟨k, v⟩ := e
    rw [← get?_eq_some_iff, ← get?_eq_some_iff, h k]
  obtain ⟨l, hl⟩ := m
  obtain ⟨l', hl'⟩ := n
  have same : l = l' := by
    clear h
    induction l generalizing l' with
    | nil =>
      cases l' with
      | nil => rfl
      | cons e _ => exact absurd ((members e).2 (by simp)) (by simp)
    | cons e rest ih =>
      cases l' with
      | nil => exact absurd ((members e).1 (by simp)) (by simp)
      | cons e' rest' =>
        simp only at members ih
        rw [List.pairwise_cons] at hl hl'
        have first : e = e' := by
          rcases List.mem_cons.1 ((members e).1 (by simp)) with same | here
          · exact same
          rcases List.mem_cons.1 ((members e').2 (by simp)) with same | there
          · exact same.symm
          have := hl'.1 e here
          have := hl.1 e' there
          omega
        subst first
        congr 1
        refine ih hl.2 rest' hl'.2 fun z => ?_
        constructor
        · intro hz
          have := hl.1 z hz
          rcases List.mem_cons.1 ((members z).1 (List.mem_cons_of_mem _ hz)) with same | there
          · subst same
            omega
          · exact there
        · intro hz
          have := hl'.1 z hz
          rcases List.mem_cons.1 ((members z).2 (List.mem_cons_of_mem _ hz)) with same | there
          · subst same
            omega
          · exact there
  subst same
  rfl

end IdMap

end GoalCoverage
