import GoalCoverage.Proofs.Automaton.Trimming
import GoalCoverage.Proofs.Distinct

/-!
What trimming leaves. The survivors are the initial state and the states between it and a final state; their new numbers
are the states of the trimmed automaton, and each of these still lies on a way from the initial state to a final state,
since all that lies on such a way survives. So nothing is left to trim a second time (`trim_exact`).
-/

namespace GoalCoverage

theorem Numbering.toList_insertAll {n : Numbering Nat} {xs : List Nat} :
    (n.insertAll xs).toList = Distinct.append n.toList xs := by
  induction xs generalizing n with
  | nil => rfl
  | cons x xs ih =>
    rw [Distinct.append_cons]
    have step : n.insertAll (x :: xs) = (n.insert x).insertAll xs := rfl
    rw [step, ih]
    congr 1
    cases place : n.place? x with
    | none =>
      have new : x ∉ n.toList := fun mem => by
        obtain ⟨i, old⟩ := Numbering.mem_toList_iff.1 mem
        rw [place] at old
        cases old
      rw [if_neg new]
      rw [Numbering.place?] at place
      simp [Numbering.insert, place, Numbering.toList]
    | some i => rw [if_pos (Numbering.mem_toList_iff.2 ⟨i, place⟩), Numbering.insert_of_old place]

theorem Numbering.toList_ofList (xs : List Nat) : (Numbering.ofList xs).toList = Distinct.ofList xs :=
  Numbering.toList_insertAll

namespace Automaton

variable {a : Automaton} {q q' : StateId} {i : Nat}

/-- The initial state survives, and so does whatever lies on a way from it to a final state. -/
def Survives (a : Automaton) (q : StateId) : Prop :=
  q = a.initial ∨ Relation.ReflTransGen a.Linked a.initial q ∧ ∃ f, a.isFinal f = true ∧ Relation.ReflTransGen a.Linked q f

/-- The survivors of `a` are the states of `b` under new numbers, the initial state as state 0. -/
structure Renames (a : Automaton) (rename : IdMap StateId) (b : Automaton) : Prop where
  survives_iff : ∀ q, a.Survives q ↔ ∃ i, rename.get? q = some i
  injective : ∀ q q' i, rename.get? q = some i → rename.get? q' = some i → q = q'
  onto : ∀ i, i < b.size ↔ ∃ q, rename.get? q = some i
  initial : rename.get? a.initial = some 0 ∧ b.initial = 0
  isFinal : ∀ q i, rename.get? q = some i → b.isFinal i = a.isFinal q
  transitions : ∀ u, u ∈ b.transitions ↔
    ∃ t ∈ a.transitions, rename.get? t.source = some u.source ∧ rename.get? t.target = some u.target ∧ t.label = u.label

/-- Every state but the initial one lies on a way from it to a final state, and no transition is listed twice. -/
structure IsTrim (a : Automaton) : Prop where
  reached : ∀ q < a.size, q ≠ a.initial → Relation.ReflTransGen a.Linked a.initial q
  useful : ∀ q < a.size, q ≠ a.initial → ∃ f, a.isFinal f = true ∧ Relation.ReflTransGen a.Linked q f
  nodup : a.transitions.Nodup
  ends : ∀ t ∈ a.transitions, t.source < a.size ∧ t.target < a.size

theorem get?_numbering : a.numbering.get? q = some i ↔ a.kept.get? i = some q := by
  have listed : ∀ {q i}, (q, i) ∈ a.kept.toList.zipIdx ↔ a.kept.get? i = some q := by
    intro q i
    rw [List.mem_zipIdx_iff_getElem?, Numbering.get?_eq]
  constructor
  · exact fun found => listed.1 (IdMap.mem_of_get?_ofList found)
  · intro here
    obtain ⟨j, found⟩ := IdMap.exists_get?_ofList (listed.2 here)
    have there := listed.1 (IdMap.mem_of_get?_ofList found)
    rw [← Numbering.place?_eq_some_iff] at here there
    rw [here] at there
    cases there
    exact found

theorem survives_iff : a.Survives q ↔ ∃ i, a.kept.get? i = some q := by
  rw [← Numbering.mem_iff_get?, mem_kept, mem_reachable_iff, mem_useful_iff, Survives]

theorem exists_get?_kept (lt : i < a.trim.size) : ∃ q, a.kept.get? i = some q := by
  have inside : i < a.kept.toList.length := by
    rw [Numbering.length_toList]
    exact lt
  exact ⟨_, (Numbering.get?_eq _ _).trans (List.getElem?_eq_getElem inside)⟩

theorem trim_renames (a : Automaton) : a.Renames a.numbering a.trim where
  survives_iff q := by simp only [get?_numbering, survives_iff]
  injective q q' i here there := by
    rw [get?_numbering] at here there
    rw [here] at there
    exact Option.some.inj there
  onto i := by
    simp only [get?_numbering]
    exact ⟨exists_get?_kept, fun ⟨_, here⟩ => Numbering.lt_size_of_get? here⟩
  initial := ⟨get?_numbering.2 get?_kept_zero, rfl⟩
  isFinal q i here := isFinal_trim (get?_numbering.1 here)
  transitions u := by
    simp only [trim, mem_transitions_keeping, renumber_eq_some_iff, get?_numbering, Numbering.place?_eq_some_iff]

/-- A way to a useful state is a way of the trimmed automaton, too. -/
theorem reaches_trim (here : a.kept.get? i = some q) (path : Relation.ReflTransGen a.Linked q q') (useful : q' ∈ a.useful) :
    ∃ j, a.kept.get? j = some q' ∧ Relation.ReflTransGen a.trim.Linked i j := by
  induction path with
  | refl => exact ⟨i, here, .refl⟩
  | tail _ link ih =>
    obtain ⟨j, there, path⟩ := ih (mem_useful_of_linked link useful)
    obtain ⟨k, next⟩ := exists_kept there link useful
    exact ⟨k, next, path.tail (linked_iff_via.2 (via_trim.2 ⟨_, _, there, next, linked_iff_via.1 link⟩))⟩

theorem trim_isTrim (a : Automaton) : a.trim.IsTrim := by
  have start : a.kept.get? a.trim.initial = some a.initial := get?_kept_zero
  have between : ∀ i, i < a.trim.size → i ≠ a.trim.initial →
      ∃ q, a.kept.get? i = some q ∧ Relation.ReflTransGen a.Linked a.initial q ∧ q ∈ a.useful := by
    intro i lt other
    obtain ⟨q, here⟩ := exists_get?_kept lt
    obtain rfl | ⟨reached, useful⟩ := mem_kept.1 (Numbering.mem_iff_get?.2 ⟨i, here⟩)
    · rw [← Numbering.place?_eq_some_iff] at here start
      rw [here] at start
      exact absurd (Option.some.inj start) other
    · exact ⟨q, here, mem_reachable_iff.1 reached, useful⟩
  refine ⟨fun i lt other => ?_, fun i lt other => ?_, ?_, a.trim.transitions_lt⟩
  · obtain ⟨q, here, reached, useful⟩ := between i lt other
    obtain ⟨j, there, path⟩ := reaches_trim start reached useful
    rw [← Numbering.place?_eq_some_iff] at here there
    rw [here] at there
    cases there
    exact path
  · obtain ⟨q, here, _, useful⟩ := between i lt other
    exact mem_useful_iff.1 ((mem_useful_trim_iff here).2 useful)
  · have ends : ∀ t ∈ a.transitions.filterMap (renumber a.kept), t.source < a.kept.size := by
      intro u mem
      obtain ⟨t, _, renumbered⟩ := List.mem_filterMap.1 mem
      exact Numbering.lt_size_of_place? (renumber_eq_some_iff.1 renumbered).1
    simp only [trim, keeping]
    rw [Distinct.ofListBy_eq ends]
    exact Distinct.nodup_ofList _

/-- In a trim automaton whose initial state is state 0 all states survive, and keep their numbers. -/
theorem IsTrim.toList_kept (trim : a.IsTrim) (initial : a.initial = 0) : a.kept.toList = List.range a.size := by
  have increasing := (a.reachable.inter a.useful).increasing
  have survivors : ∀ q, q = 0 ∨ q ∈ a.reachable.inter a.useful ↔ q < a.size := by
    intro q
    rw [IdSet.mem_inter, mem_reachable_iff, mem_useful_iff]
    constructor
    · rintro (rfl | ⟨reached, _⟩)
      · exact initial ▸ a.initial_lt
      · cases reached with
        | refl => exact a.initial_lt
        | tail _ link =>
          obtain ⟨t, mem, _, rfl⟩ := link
          exact (trim.ends t mem).2
    · intro lt
      by_cases first : q = a.initial
      · exact .inl (first.trans initial)
      · exact .inr ⟨trim.reached q lt first, trim.useful q lt first⟩
  rw [kept, Numbering.toList_ofList, Distinct.ofList, Distinct.append_cons, if_neg List.not_mem_nil, List.nil_append,
    Distinct.append_eq_of_nodup (increasing.imp Nat.ne_of_lt), initial, List.singleton_append]
  apply IdSet.increasing_ext
  · rw [List.pairwise_cons]
    refine ⟨fun q mem => ?_, increasing.filter _⟩
    simp only [List.mem_filter, List.mem_singleton, decide_eq_true_eq] at mem
    exact Nat.pos_of_ne_zero mem.2
  · exact List.pairwise_lt_range
  · intro q
    rw [List.mem_range, ← survivors]
    by_cases first : q = 0
    · simp [first]
    · simp [first]

/-- Nothing is renumbered and nothing is dropped when all states keep their numbers. -/
theorem keeping_eq_self {kept : Numbering StateId} {size_pos : 0 < kept.size} (all : kept.toList = List.range a.size)
    (initial : a.initial = 0) (nodup : a.transitions.Nodup) : a.keeping kept size_pos = a := by
  have place : ∀ q, q < a.size → kept.place? q = some q := by
    intro q lt
    rw [Numbering.place?_eq_some_iff, Numbering.get?_eq, all, List.getElem?_range lt]
  have size : kept.size = a.size := by rw [← Numbering.length_toList, all, List.length_range]
  have same : a.transitions.filterMap (renumber kept) = a.transitions := by
    have each : ∀ t ∈ a.transitions, renumber kept t = some t := by
      intro t mem
      have ends := a.transitions_lt t mem
      exact renumber_eq_some_iff.2 ⟨place _ ends.1, place _ ends.2, rfl⟩
    rw [List.filterMap_congr each, List.filterMap_some]
  refine eq_of_parts rfl size initial.symm ?_ ?_
  · apply IdSet.ext_mem
    intro q
    simp only [keeping, keptFinals, IdSet.mem_ofList, List.mem_filterMap, List.mem_filter, all, List.mem_range]
    constructor
    · rintro ⟨f, ⟨lt, final⟩, renamed⟩
      rw [place f lt] at renamed
      cases renamed
      simpa [isFinal] using final
    · intro final
      have lt := a.finals_lt q final
      exact ⟨q, ⟨lt, by simpa [isFinal] using final⟩, place q lt⟩
  · simp only [keeping, same]
    rw [Distinct.ofListBy_eq fun t mem => size ▸ (a.transitions_lt t mem).1, Distinct.ofList_eq_of_nodup nodup]

/--
Trimming renumbers the survivors, and what it leaves is trim: every state but the initial one can be reached and leads to
a final state. Trimming that once more changes nothing and gives every state its own number.
-/
theorem trim_exact (a : Automaton) :
    a.Renames a.numbering a.trim ∧ a.trim.IsTrim ∧ a.trim.trim = a.trim ∧
      ∀ q i, a.trim.numbering.get? q = some i ↔ i = q ∧ q < a.trim.size := by
  have trimmed := a.trim_isTrim
  have all : a.trim.kept.toList = List.range a.trim.size := trimmed.toList_kept rfl
  refine ⟨a.trim_renames, trimmed, keeping_eq_self all rfl trimmed.nodup, fun q i => ?_⟩
  rw [get?_numbering, Numbering.get?_eq, all, List.getElem?_eq_some_iff]
  simp only [List.length_range, List.getElem_range]
  grind

end Automaton

end GoalCoverage
