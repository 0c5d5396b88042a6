import GoalCoverage.Automaton.Product
import GoalCoverage.Proofs.Automaton.Trim
import GoalCoverage.Proofs.Label
import Mathlib.Data.List.Perm.Subperm
import Mathlib.Data.List.Sections

/-!
Products of automata. Wherever guards hold, the tuples of a product move as their components do (`joins_iff`). The search
ends because there is nothing left to find (`complete_add`), and then it has found all tuples that can be reached
(`tuples_closed`).
-/

namespace GoalCoverage

theorem Component.exists_move_iff {c : Component} {q q' : StateId} {e : EdgeId} {holds : Guard → Prop} :
    (∃ l : Label, (l, q') ∈ c.moves q ∧ l.Allows holds e) ↔ c.automaton.Goes holds q e q' := by
  cases final : c.automaton.isFinal q with
  | true =>
    rw [Automaton.goes_of_final final]
    simp [moves, final, Label.allows_any]
  | false =>
    rw [Automaton.goes_of_not_final final]
    simp only [moves, final, Automaton.outgoing, Automaton.Via, Bool.false_eq_true, if_false, List.mem_map,
      List.mem_filter, beq_iff_eq, Prod.mk.injEq]
    constructor
    · rintro ⟨l, ⟨t, ⟨mem, source⟩, rfl, target⟩, allowed⟩
      exact ⟨t, mem, source, allowed, target⟩
    · rintro ⟨t, mem, source, allowed, target⟩
      exact ⟨t.label, ⟨t, ⟨mem, source⟩, rfl, target⟩, allowed⟩

namespace Unfolding

variable {components : List Component} {tuple tuple' : List StateId} {e : EdgeId} {trace : List EdgeId}
  {holds : Guard → Prop} {ρ : Resolution}

/-- A common move of the components where some guards hold. -/
def Joins (components : List Component) (holds : Guard → Prop) (tuple : List StateId) (e : EdgeId)
    (tuple' : List StateId) : Prop :=
  ∃ l : Label, (l, tuple') ∈ moves components tuple ∧ l.Allows holds e

theorem joins_iff (length : components.length = tuple.length) :
    Joins components holds tuple e tuple' ↔
      Pointwise (fun c q q' => c.automaton.Goes holds q e q') components tuple tuple' := by
  -- The fold puts the moves of one component after another behind those found before.
  have fold : ∀ (pairs : List (Component × StateId)) (found : List (Label × List StateId)),
      (∃ l : Label, (l, tuple') ∈ pairs.foldl extend found ∧ l.Allows holds e) ↔
      ∃ l targets rest, (l, targets) ∈ found ∧ l.Allows holds e ∧ tuple' = targets ++ rest ∧
        List.Forall₂ (fun p q' => p.1.automaton.Goes holds p.2 e q') pairs rest := by
    intro pairs
    induction pairs with
    | nil => simp
    | cons pair pairs ih =>
      obtain ⟨c, q⟩ := pair
      intro found
      rw [List.foldl_cons, ih]
      constructor
      · intro h
        obtain ⟨l, targets, rest, mem, allowed, rfl, moved⟩ := h
        simp only [extend, List.mem_flatMap, List.mem_filterMap, Option.map_eq_some_iff, Prod.mk.injEq] at mem
        obtain ⟨⟨l0, targets0⟩, mem0, ⟨next, target⟩, step, common, inter, rfl, rfl⟩ := mem
        obtain ⟨before, here⟩ := Label.exists_allowed_inter_iff.1 ⟨common, inter, allowed⟩
        refine ⟨l0, targets0, target :: rest, mem0, before, by simp, .cons ?_ moved⟩
        exact Component.exists_move_iff.1 ⟨next, step, here⟩
      · intro h
        obtain ⟨l, targets, rest, mem, allowed, rfl, moved⟩ := h
        cases moved with
        | @cons _ target _ rest step moved =>
          obtain ⟨next, step, here⟩ := Component.exists_move_iff.2 step
          obtain ⟨common, inter, both⟩ := Label.exists_allowed_inter_iff.2 ⟨allowed, here⟩
          refine ⟨common, targets ++ [target], rest, ?_, both, by simp, moved⟩
          simp only [extend, List.mem_flatMap, List.mem_filterMap, Option.map_eq_some_iff, Prod.mk.injEq]
          exact ⟨(l, targets), mem, (next, target), step, common, inter, rfl, rfl⟩
  rw [Pointwise.iff_zip length, Joins, moves, fold]
  simp [Label.allows_any]

/-- What holds of the label of everything and passes to intersections holds of the labels of all moves. -/
theorem label_of_mem_moves {P : Label → Prop} (any : P .any)
    (inter : ∀ a b l : Label, ∀ c ∈ components, ∀ q q', P a → (b, q') ∈ c.moves q → a.inter b = some l → P l)
    {l : Label} (mem : (l, tuple') ∈ moves components tuple) : P l := by
  suffices ∀ (pairs : List (Component × StateId)) (found : List (Label × List StateId)),
      (∀ p ∈ pairs, p.1 ∈ components) → (∀ m ∈ found, P m.1) →
        ∀ m ∈ pairs.foldl extend found, P m.1 from
    this (components.zip tuple) [(.any, [])] (fun p hp => (List.of_mem_zip hp).1) (by simpa using any) _ mem
  intro pairs
  induction pairs with
  | nil => exact fun found _ all => all
  | cons pair pairs ih =>
    intro found known all
    apply ih _ fun p hp => known p (by simp [hp])
    intro m hm
    simp only [extend, List.mem_flatMap, List.mem_filterMap, Option.map_eq_some_iff] at hm
    obtain ⟨⟨a, targets⟩, mem, ⟨b, q'⟩, step, l, common, rfl⟩ := hm
    exact inter a b l pair.1 (known pair (by simp)) pair.2 q' (all _ mem) step common

/-- Every move can be made on some edge where all guards hold. -/
theorem exists_joins {l : Label} (mem : (l, tuple') ∈ moves components tuple) :
    ∃ e, Joins components (fun _ => True) tuple e tuple' := by
  have matched : ∃ e, l.contains e = true := by
    apply label_of_mem_moves ⟨0, rfl⟩ _ mem
    exact fun a b l c _ q q' _ _ common => Label.exists_contains_of_inter common
  obtain ⟨e, matching⟩ := matched
  exact ⟨e, l, mem, Label.allows_true.2 matching⟩

/-- The initial tuple. -/
def initial (components : List Component) : List StateId := components.map (·.automaton.initial)

/-- Components make their ways side by side. -/
theorem way_initial_iff :
    Way (fun n => Joins components (ρ n)) 0 trace (initial components) tuple' ↔
      List.Forall₂ (fun c q => c.automaton.RunUnder ρ trace q) components tuple' := by
  rw [way_pointwise (R := fun c n => c.automaton.Goes (ρ n)) (fun n _ _ _ same => joins_iff same) (by simp [initial]),
    initial, Pointwise.map_iff]
  exact Iff.rfl

/-- The tuples of states of the components. -/
def Fits (components : List Component) (tuple : List StateId) : Prop :=
  List.Forall₂ (fun c q => q < c.automaton.size) components tuple

theorem Fits.joins (fits : Fits components tuple) (joins : Joins components holds tuple e tuple') :
    Fits components tuple' := by
  have moved := (joins_iff fits.length_eq).1 joins
  clear joins
  induction moved with
  | nil => exact .nil
  | cons step _ ih =>
    cases fits with
    | cons lt rest => exact .cons (Automaton.goes_lt lt step) (ih rest)

theorem fits_initial : Fits components (initial components) := by
  rw [Fits, initial, List.forall₂_map_right_iff, List.forall₂_same]
  exact fun c _ => c.automaton.initial_lt

theorem length_sections (components : List Component) :
    (components.map fun c => List.range c.automaton.size).sections.length = capacity components := by
  induction components with
  | nil => rfl
  | cons c components ih =>
    rw [capacity] at ih ⊢
    simp [List.sections, List.length_flatMap, ih, Nat.mul_comm]

/-- Different tuples that fit are no more than the sizes of the components allow. -/
theorem length_le_of_fits {tuples : List (List StateId)} (distinct : tuples.Nodup)
    (fits : ∀ tuple ∈ tuples, Fits components tuple) :
    tuples.length ≤ capacity components := by
  have sub : tuples ⊆ (components.map fun c => List.range c.automaton.size).sections := by
    intro tuple mem
    rw [List.mem_sections, List.forall₂_map_right_iff]
    exact (fits tuple mem).flip.imp fun _ _ lt => List.mem_range.2 lt
  have le := (distinct.subperm sub).length_le
  rwa [length_sections] at le

/-- What follows the tuples numbered below `source` is numbered. -/
def ClosedBelow (components : List Component) (tuples : Numbering (List StateId)) (source : StateId) : Prop :=
  ∀ i < source, ∀ tuple, tuples.get? i = some tuple → ∀ next ∈ (moves components tuple).map (·.2),
    next ∈ tuples.toList

theorem get?_complete {tuples : Numbering (List StateId)} {i : Nat} (left : Nat) (source : StateId)
    (h : tuples.get? i = some tuple) : (complete components left source tuples).get? i = some tuple := by
  induction left generalizing source tuples with
  | zero => exact h
  | succ left ih =>
    rw [complete]
    split
    · exact h
    · exact ih _ (Numbering.get?_insertAll h)

theorem fits_insertAll {tuples : Numbering (List StateId)} {source : StateId}
    (fits : ∀ tuple ∈ tuples.toList, Fits components tuple) (here : tuples.get? source = some tuple) :
    ∀ next ∈ (tuples.insertAll ((moves components tuple).map (·.2))).toList, Fits components next := by
  intro next mem
  rw [Numbering.mem_insertAll] at mem
  cases mem with
  | inr old => exact fits next old
  | inl new =>
    obtain ⟨⟨l, _⟩, move, rfl⟩ := List.mem_map.1 new
    obtain ⟨e, joins⟩ := exists_joins move
    exact (fits tuple (Numbering.mem_iff_get?.2 ⟨source, here⟩)).joins joins

/-- No tuple is numbered beyond the capacity. -/
theorem get?_eq_none {tuples : Numbering (List StateId)} {source : StateId}
    (fits : ∀ tuple ∈ tuples.toList, Fits components tuple) (full : capacity components ≤ source) :
    tuples.get? source = none := by
  have bound := length_le_of_fits tuples.nodup_toList fits
  rw [Numbering.length_toList] at bound
  exact Array.getElem?_eq_none_iff.2 (Nat.le_trans bound full)

/-- The search ends with all tuples expanded, because its turns are as many as there can be tuples. -/
theorem complete_closed (left : Nat) {source : StateId} {tuples : Numbering (List StateId)}
    (fits : ∀ tuple ∈ tuples.toList, Fits components tuple) (closed : ClosedBelow components tuples source)
    (enough : capacity components ≤ left + source) :
    let found := complete components left source tuples
    (∀ tuple ∈ found.toList, Fits components tuple) ∧ ClosedBelow components found found.size := by
  induction left generalizing source tuples with
  | zero =>
    have none := get?_eq_none fits (by simpa using enough)
    exact ⟨fits, fun i lt => closed i (Nat.lt_of_lt_of_le lt (Array.getElem?_eq_none_iff.1 none))⟩
  | succ left ih =>
    rw [complete]
    split
    next none => exact ⟨fits, fun i lt => closed i (Nat.lt_of_lt_of_le lt (Array.getElem?_eq_none_iff.1 none))⟩
    next tuple here =>
      apply ih (fits_insertAll fits here)
      · intro i lt tuple' place next mem
        have old : i < tuples.size :=
          Nat.lt_of_le_of_lt (Nat.le_of_lt_succ lt) (Numbering.lt_size_of_get? here)
        rw [Numbering.get?_insertAll_of_lt old] at place
        rw [Numbering.mem_insertAll]
        cases Nat.lt_or_eq_of_le (Nat.le_of_lt_succ lt) with
        | inl below => exact .inr (closed i below tuple' place next mem)
        | inr same =>
          subst same
          rw [here] at place
          cases place
          exact .inl mem
      · rw [Nat.add_assoc, Nat.add_comm 1 source] at enough
        exact enough

/-- More turns would make no difference: the search stops by itself. -/
theorem complete_add (left more : Nat) {source : StateId} {tuples : Numbering (List StateId)}
    (fits : ∀ tuple ∈ tuples.toList, Fits components tuple) (enough : capacity components ≤ left + source) :
    complete components (left + more) source tuples = complete components left source tuples := by
  induction left generalizing source tuples with
  | zero =>
    have none := get?_eq_none fits (by simpa using enough)
    cases more with
    | zero => rfl
    | succ more => simp [complete, none]
  | succ left ih =>
    rw [Nat.add_right_comm, complete, complete]
    split
    next => rfl
    next tuple here =>
      apply ih (fits_insertAll fits here)
      rw [Nat.add_assoc, Nat.add_comm 1 source] at enough
      exact enough

theorem fits_start : ∀ tuple ∈ (Numbering.ofList [initial components]).toList, Fits components tuple := by
  intro tuple mem
  rw [Numbering.mem_ofList, List.mem_singleton] at mem
  rw [mem]
  exact fits_initial

theorem tuples_spec (components : List Component) :
    (∀ tuple ∈ (tuples components).toList, Fits components tuple) ∧
      ClosedBelow components (tuples components) (tuples components).size := by
  apply complete_closed _ fits_start
  · intro i lt
    exact absurd lt (Nat.not_lt_zero i)
  · exact Nat.le_refl _

theorem get?_tuples_zero (components : List Component) :
    (tuples components).get? 0 = some (initial components) :=
  get?_complete _ _ (Numbering.get?_ofList_cons _ _)

theorem length_of_mem_tuples (mem : tuple ∈ (tuples components).toList) :
    components.length = tuple.length :=
  ((tuples_spec components).1 tuple mem).length_eq

theorem tuples_closed {l : Label} (mem : tuple ∈ (tuples components).toList)
    (move : (l, tuple') ∈ moves components tuple) : tuple' ∈ (tuples components).toList := by
  obtain ⟨i, place⟩ := Numbering.mem_iff_get?.1 mem
  apply (tuples_spec components).2 i (Numbering.lt_size_of_get? place) tuple place
  exact List.mem_map.2 ⟨(l, tuple'), move, rfl⟩

theorem mem_goalsOf {g : Nat} : g ∈ goalsOf components tuple ↔
    ∃ c q, (c, q) ∈ components.zip tuple ∧ c.goal = g ∧ c.automaton.isFinal q = true := by
  simp only [goalsOf, IdSet.mem_ofList, List.mem_map, List.mem_filter, Prod.exists]
  constructor
  · rintro ⟨c, q, ⟨mem, final⟩, rfl⟩
    exact ⟨c, q, mem, rfl, final⟩
  · rintro ⟨c, q, mem, rfl, final⟩
    exact ⟨c, q, ⟨mem, final⟩, rfl⟩

theorem size_ofList_le (xs : List Nat) : (IdSet.ofList xs).size ≤ xs.length := by
  have distinct : (IdSet.ofList xs).toList.Nodup := (IdSet.ofList xs).increasing.imp Nat.ne_of_lt
  exact (distinct.subperm fun x mem => IdSet.mem_ofList.1 mem).length_le

/-- As many goals as there are components are accepted only if all components are final. -/
theorem all_final_of_size (length : components.length = tuple.length)
    (full : (goalsOf components tuple).size = components.length) {c : Component} {q : StateId}
    (mem : (c, q) ∈ components.zip tuple) : c.automaton.isFinal q = true := by
  have bound : components.length ≤
      ((components.zip tuple).filter fun part => part.1.automaton.isFinal part.2).length := by
    rw [← full, ← List.length_map (·.1.goal)]
    exact size_ofList_le _
  have whole : (components.zip tuple).length = components.length := by simp [length]
  have same := Nat.le_antisymm (List.length_filter_le _ _) (whole ▸ bound)
  exact List.length_filter_eq_length_iff.1 same (c, q) mem

theorem joins_of_all_final (length : components.length = tuple.length)
    (final : ∀ c q, (c, q) ∈ components.zip tuple → c.automaton.isFinal q = true) :
    Joins components holds tuple e tuple' ↔ tuple' = tuple := by
  rw [joins_iff length, eq_comm, ← Pointwise.eq_iff length]
  constructor
  · intro moved
    induction moved with
    | nil => exact .nil
    | cons step _ ih =>
      have here := (Automaton.goes_of_final (final _ _ (by simp))).1 step
      exact .cons here.symm (ih (by simpa using length) fun c q mem => final c q (by simp [mem]))
  · intro same
    induction same with
    | nil => exact .nil
    | cons here _ ih =>
      subst here
      refine .cons ((Automaton.goes_of_final (final _ _ (by simp))).2 rfl) ?_
      exact ih (by simpa using length) fun c q mem => final c q (by simp [mem])

section Whole

variable {name : String} {tuples : Numbering (List StateId)} {size_pos : 0 < tuples.size} {i j : StateId}

theorem mem_transitions {t : Transition} : t ∈ (automaton components name tuples size_pos).transitions ↔
    ∃ tuple tuple', tuples.get? t.source = some tuple ∧ tuples.get? t.target = some tuple' ∧
      (t.label, tuple') ∈ moves components tuple := by
  simp only [automaton, transitionsFrom, List.mem_flatMap, List.mem_filterMap, Option.map_eq_some_iff,
    List.mem_zipIdx_iff_getElem?, Prod.exists, Numbering.place?_eq_some_iff, Numbering.get?_eq]
  constructor
  · rintro ⟨tuple, source, here, label, targets, move, target, there, rfl⟩
    exact ⟨tuple, targets, here, there, move⟩
  · rintro ⟨tuple, targets, here, there, move⟩
    exact ⟨tuple, t.source, here, t.label, targets, move, t.target, there, rfl⟩

theorem via_automaton {P : Label → Prop} : (automaton components name tuples size_pos).Via P i j ↔
    ∃ tuple tuple', tuples.get? i = some tuple ∧ tuples.get? j = some tuple' ∧
      ∃ l : Label, (l, tuple') ∈ moves components tuple ∧ P l := by
  simp only [Automaton.Via, mem_transitions]
  constructor
  · rintro ⟨t, ⟨tuple, tuple', here, there, move⟩, rfl, has, rfl⟩
    exact ⟨tuple, tuple', here, there, t.label, move, has⟩
  · rintro ⟨tuple, tuple', here, there, label, move, has⟩
    exact ⟨⟨i, j, label⟩, ⟨tuple, tuple', here, there, move⟩, rfl, has, rfl⟩

theorem isFinal_automaton (place : tuples.get? i = some tuple) :
    (automaton components name tuples size_pos).isFinal i = !(goalsOf components tuple).isEmpty := by
  have known : ∀ other, tuples.place? other = some i ↔ other = tuple := by
    intro other
    rw [Numbering.place?_eq_some_iff, place]
    exact ⟨fun h => (Option.some.inj h).symm, fun h => h ▸ rfl⟩
  rw [Bool.eq_iff_iff, Automaton.isFinal, automaton, IdSet.contains_iff, IdSet.mem_ofList]
  simp only [List.mem_filterMap, List.mem_filter, known]
  constructor
  · rintro ⟨other, ⟨_, accepting⟩, rfl⟩
    exact accepting
  · intro accepting
    exact ⟨tuple, ⟨Numbering.mem_iff_get?.2 ⟨i, place⟩, accepting⟩, rfl⟩

/-- What holds of the labels of all components passes to the product. -/
theorem label_of_mem_automaton {P : Label → Prop} (any : P .any) (inter : ∀ a b l, P a → P b → a.inter b = some l → P l)
    (each : ∀ c ∈ components, ∀ t ∈ c.automaton.transitions, P t.label) :
    ∀ t ∈ (automaton components name tuples size_pos).transitions, P t.label := by
  intro t mem
  obtain ⟨tuple, tuple', _, _, move⟩ := mem_transitions.1 mem
  apply label_of_mem_moves any _ move
  intro a b l c hc q q' holds taken common
  apply inter a b l holds _ common
  rw [Component.moves] at taken
  split at taken
  · simp only [List.mem_singleton, Prod.mk.injEq] at taken
    rw [taken.1]
    exact any
  · obtain ⟨u, hu, same⟩ := List.mem_map.1 taken
    cases same
    exact each c hc u (List.mem_filter.1 hu).1

end Whole

end Unfolding

end GoalCoverage
