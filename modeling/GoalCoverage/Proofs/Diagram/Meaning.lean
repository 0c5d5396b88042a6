import GoalCoverage.Diagram
import Mathlib.Tactic.SplitIfs

/-!
The meaning of regions: `holds d r c` says that the configuration `c` lies in the region `r`.
A diagram is well formed when its decisions are ordered, reduced and stored once; then regions with
the same configurations are equal (`eq_of_holds`), and a diagram that grows keeps the meaning of old
regions (`Extends.holds_eq`).
-/

namespace GoalCoverage

/-- For each level, whether the feature is present. -/
abbrev Configuration := Nat → Bool

namespace Diagram

def holdsWithin (d : Diagram) (c : Configuration) : Nat → Region → Bool
  | 0, _ => false
  | left + 1, r =>
    if r.isEmpty then false
    else if r.isAll then true
    else holdsWithin d c left (if c (d.decision r).level then (d.decision r).high else (d.decision r).low)

/-- Answers are stored before their decision, so the index bounds the number of steps. -/
def holds (d : Diagram) (r : Region) (c : Configuration) : Bool := d.holdsWithin c (r.index + 1) r

/-- A region that is handed out by the diagram. -/
def Has (d : Diagram) (r : Region) : Prop := r.index < d.size

/-- An optional region; without one there is no restriction. -/
def Within (d : Diagram) (r : Option Region) (c : Configuration) : Prop := ∀ s, r = some s → d.holds s c = true

def Knows (d : Diagram) (r : Option Region) : Prop := ∀ s, r = some s → d.Has s

structure WellFormed (d : Diagram) : Prop where
  terminals : 2 ≤ d.size
  level_pos : ∀ r, 2 ≤ r.index → d.Has r → 1 ≤ (d.decision r).level
  level_le : ∀ r, 2 ≤ r.index → d.Has r → (d.decision r).level ≤ d.features.length
  low_lt : ∀ r, 2 ≤ r.index → d.Has r → (d.decision r).low.index < r.index
  high_lt : ∀ r, 2 ≤ r.index → d.Has r → (d.decision r).high.index < r.index
  low_below : ∀ r, 2 ≤ r.index → d.Has r → (d.decision r).level < d.level (d.decision r).low
  high_below : ∀ r, 2 ≤ r.index → d.Has r → (d.decision r).level < d.level (d.decision r).high
  reduced : ∀ r, 2 ≤ r.index → d.Has r → (d.decision r).low ≠ (d.decision r).high
  known_of_stored : ∀ r, 2 ≤ r.index → d.Has r → d.known[(d.decision r).key]? = some r
  stored_of_known : ∀ k r, d.known[k]? = some r → 2 ≤ r.index ∧ d.Has r ∧ (d.decision r).key = k
  computed : ∀ f g h r : Region, d.computed[(f.index, g.index, h.index)]? = some r →
    2 ≤ f.index ∧ d.Has f ∧ d.Has g ∧ d.Has h ∧ d.Has r ∧
      (∀ c, d.holds r c = if d.holds f c then d.holds g c else d.holds h c) ∧
      min (d.level f) (min (d.level g) (d.level h)) ≤ d.level r

/-- What was stored stays where it is. -/
structure Extends (d d' : Diagram) : Prop where
  size_le : d.size ≤ d'.size
  decision_eq : ∀ r, d.Has r → d'.decision r = d.decision r

variable {d d' d'' : Diagram} {r s : Region} {c : Configuration}

@[simp] theorem within_none : d.Within none c := fun _ h => nomatch h

@[simp] theorem within_some : d.Within (some r) c ↔ d.holds r c = true :=
  ⟨fun h => h r rfl, fun h _ e => Option.some.inj e ▸ h⟩

@[simp] theorem knows_none : d.Knows none := fun _ h => nomatch h

@[simp] theorem knows_some : d.Knows (some r) ↔ d.Has r :=
  ⟨fun h => h r rfl, fun h _ e => Option.some.inj e ▸ h⟩

theorem region_eq_of_index {r s : Region} (h : r.index = s.index) : r = s := by
  cases r
  cases s
  simp_all

theorem isEmpty_of_inner (h : 2 ≤ r.index) : r.isEmpty = false := by
  rw [← Bool.not_eq_true, Region.isEmpty_iff]
  rintro rfl
  simp [Region.empty] at h

theorem isAll_of_inner (h : 2 ≤ r.index) : r.isAll = false := by
  rw [← Bool.not_eq_true, Region.isAll_iff]
  rintro rfl
  simp [Region.all] at h

theorem terminal_or_inner (r : Region) : r = .empty ∨ r = .all ∨ 2 ≤ r.index := by
  have cases : r.index = 0 ∨ r.index = 1 ∨ 2 ≤ r.index := by omega
  rcases cases with h | h | h
  · exact .inl (region_eq_of_index h)
  · exact .inr (.inl (region_eq_of_index h))
  · exact .inr (.inr h)

theorem holdsWithin_inner (left : Nat) (inner : 2 ≤ r.index) :
    d.holdsWithin c (left + 1) r =
      d.holdsWithin c left (if c (d.decision r).level then (d.decision r).high else (d.decision r).low) := by
  rw [holdsWithin, isEmpty_of_inner inner, isAll_of_inner inner]
  simp

@[simp] theorem holds_empty : d.holds .empty c = false := by
  simp [holds, holdsWithin, Region.isEmpty]

@[simp] theorem holds_all : d.holds .all c = true := by
  simp [holds, holdsWithin, Region.isEmpty, Region.isAll, Region.empty, Region.all]

theorem level_of_inner (h : 2 ≤ r.index) : d.level r = (d.decision r).level := by
  have inner : r.isTerminal = false := by simp [Region.isTerminal]; omega
  simp [level, inner]

theorem level_empty : d.level .empty = d.features.length + 1 := rfl

theorem level_all : d.level .all = d.features.length + 1 := rfl

theorem inner_of_level_le (le : d.level r ≤ d.features.length) : 2 ≤ r.index := by
  rcases terminal_or_inner r with rfl | rfl | inner
  · rw [level_empty] at le
    omega
  · rw [level_all] at le
    omega
  · exact inner

namespace WellFormed

variable (wf : d.WellFormed)

include wf

theorem has_empty : d.Has .empty := Nat.lt_of_lt_of_le Nat.zero_lt_two wf.terminals

theorem has_all : d.Has .all := Nat.lt_of_lt_of_le Nat.one_lt_two wf.terminals

theorem has_low (inner : 2 ≤ r.index) (has : d.Has r) : d.Has (d.decision r).low :=
  Nat.lt_trans (wf.low_lt r inner has) has

theorem has_high (inner : 2 ≤ r.index) (has : d.Has r) : d.Has (d.decision r).high :=
  Nat.lt_trans (wf.high_lt r inner has) has

/-- What holds of the terminals, and of a decision when it holds of its answers, holds of every region. -/
theorem region_induction {P : (r : Region) → d.Has r → Prop} (empty : P .empty wf.has_empty) (all : P .all wf.has_all)
    (inner : ∀ (r : Region) (inner : 2 ≤ r.index) (has : d.Has r), P (d.decision r).low (wf.has_low inner has) →
      P (d.decision r).high (wf.has_high inner has) → P r has)
    (r : Region) (has : d.Has r) : P r has := by
  suffices ∀ n : Nat, ∀ (r : Region) (has : d.Has r), r.index < n → P r has from
    this (r.index + 1) r has (Nat.lt_succ_self _)
  intro n
  induction n with
  | zero => intro r _ h; omega
  | succ n ih =>
    intro r has bound
    rcases terminal_or_inner r with rfl | rfl | decides
    · exact empty
    · exact all
    · have low := wf.low_lt r decides has
      have high := wf.high_lt r decides has
      exact inner r decides has (ih _ _ (by omega)) (ih _ _ (by omega))

theorem level_le_terminal (has : d.Has r) : d.level r ≤ d.features.length + 1 := by
  rcases terminal_or_inner r with rfl | rfl | inner
  · exact Nat.le_refl _
  · exact Nat.le_refl _
  · rw [level_of_inner inner]
    exact Nat.le_succ_of_le (wf.level_le r inner has)

theorem one_le_level (has : d.Has r) : 1 ≤ d.level r := by
  rcases terminal_or_inner r with rfl | rfl | inner
  · rw [level_empty]
    omega
  · rw [level_all]
    omega
  · rw [level_of_inner inner]
    exact wf.level_pos r inner has

/-- More steps than the index asks for change nothing. -/
theorem holdsWithin_eq (left : Nat) (has : d.Has r) (enough : r.index < left) :
    d.holdsWithin c left r = d.holds r c := by
  suffices ∀ n m : Nat, ∀ r : Region, d.Has r → r.index < n → r.index < m →
      d.holdsWithin c n r = d.holdsWithin c m r from
    this left (r.index + 1) r has enough (Nat.lt_succ_self _)
  intro n
  induction n with
  | zero => intro m r _ h; omega
  | succ n ih =>
    intro m r has hn hm
    cases m with
    | zero => omega
    | succ m =>
      rcases terminal_or_inner r with rfl | rfl | inner
      · simp [holdsWithin]
      · simp [holdsWithin]
      · have low := wf.low_lt r inner has
        have high := wf.high_lt r inner has
        rw [holdsWithin_inner n inner, holdsWithin_inner m inner]
        split_ifs
        · exact ih m _ (wf.has_high inner has) (by omega) (by omega)
        · exact ih m _ (wf.has_low inner has) (by omega) (by omega)

theorem holds_inner (inner : 2 ≤ r.index) (has : d.Has r) :
    d.holds r c =
      if c (d.decision r).level then d.holds (d.decision r).high c else d.holds (d.decision r).low c := by
  have low := wf.low_lt r inner has
  have high := wf.high_lt r inner has
  rw [holds, holdsWithin_inner _ inner]
  split_ifs
  · exact wf.holdsWithin_eq _ (wf.has_high inner has) high
  · exact wf.holdsWithin_eq _ (wf.has_low inner has) low

/-- Only the features from the level of a region on matter. -/
theorem holds_congr {c' : Configuration} (has : d.Has r) (same : ∀ l, d.level r ≤ l → c l = c' l) :
    d.holds r c = d.holds r c' := by
  induction r, has using wf.region_induction with
  | empty => simp
  | all => simp
  | inner r inner has low high =>
    rw [level_of_inner inner] at same
    have lowBelow := wf.low_below r inner has
    have highBelow := wf.high_below r inner has
    rw [wf.holds_inner inner has, wf.holds_inner inner has, same _ (Nat.le_refl _)]
    split_ifs
    · exact high fun l hl => same l (by omega)
    · exact low fun l hl => same l (by omega)

end WellFormed

/-- The configuration with another answer at one level. -/
def Configuration.answer (c : Configuration) (level : Nat) (present : Bool) : Configuration :=
  fun l => if l = level then present else c l

namespace WellFormed

variable (wf : d.WellFormed)

include wf

theorem holds_answer {level : Nat} {present : Bool} (has : d.Has r) (below : level < d.level r) :
    d.holds r (Configuration.answer c level present) = d.holds r c := by
  apply wf.holds_congr has
  intro l hl
  rw [Configuration.answer, if_neg (by omega)]

theorem holds_low (inner : 2 ≤ r.index) (has : d.Has r) :
    d.holds (d.decision r).low c = d.holds r (Configuration.answer c (d.decision r).level false) := by
  rw [wf.holds_inner inner has]
  simp only [Configuration.answer, if_true, Bool.false_eq_true, if_false]
  exact (wf.holds_answer (wf.has_low inner has) (wf.low_below r inner has)).symm

theorem holds_high (inner : 2 ≤ r.index) (has : d.Has r) :
    d.holds (d.decision r).high c = d.holds r (Configuration.answer c (d.decision r).level true) := by
  rw [wf.holds_inner inner has]
  simp only [Configuration.answer, if_true]
  exact (wf.holds_answer (wf.has_high inner has) (wf.high_below r inner has)).symm

/-- A region is its set of configurations. -/
theorem eq_of_holds (hr : d.Has r) (hs : d.Has s) (same : ∀ c, d.holds r c = d.holds s c) : r = s := by
  suffices ∀ n : Nat, ∀ r s : Region, d.Has r → d.Has s → r.index < n → s.index < n →
      (∀ c, d.holds r c = d.holds s c) → r = s from
    this (r.index + s.index + 1) r s hr hs (by omega) (by omega) same
  intro n
  induction n with
  | zero => intro r s _ _ h; omega
  | succ n ih =>
    -- A region that tests a feature before the other one does cannot depend on it, so it is not reduced.
    have apart : ∀ r s : Region, d.Has r → d.Has s → r.index < n + 1 →
        (∀ c, d.holds r c = d.holds s c) → ¬ d.level r < d.level s := by
      intro r s hr hs bound same lt
      have deepest := wf.level_le_terminal hs
      have inner : 2 ≤ r.index := inner_of_level_le (d := d) (by omega)
      have low := wf.low_lt r inner hr
      have high := wf.high_lt r inner hr
      apply wf.reduced r inner hr
      apply ih _ _ (wf.has_low inner hr) (wf.has_high inner hr) (by omega) (by omega)
      intro c
      rw [level_of_inner inner] at lt
      rw [wf.holds_low inner hr, wf.holds_high inner hr, same, same, wf.holds_answer hs lt,
        wf.holds_answer hs lt]
    intro r s hr hs hrn hsn same
    have level : d.level r = d.level s := by
      have := apart r s hr hs hrn same
      have := apart s r hs hr hsn fun c => (same c).symm
      omega
    by_cases deep : d.level r ≤ d.features.length
    · have innerR := inner_of_level_le deep
      have innerS := inner_of_level_le (level ▸ deep)
      rw [level_of_inner innerR, level_of_inner innerS] at level
      have lows : (d.decision r).low = (d.decision s).low := by
        have := wf.low_lt r innerR hr
        have := wf.low_lt s innerS hs
        apply ih _ _ (wf.has_low innerR hr) (wf.has_low innerS hs) (by omega) (by omega)
        intro c
        rw [wf.holds_low innerR hr, wf.holds_low innerS hs, same, level]
      have highs : (d.decision r).high = (d.decision s).high := by
        have := wf.high_lt r innerR hr
        have := wf.high_lt s innerS hs
        apply ih _ _ (wf.has_high innerR hr) (wf.has_high innerS hs) (by omega) (by omega)
        intro c
        rw [wf.holds_high innerR hr, wf.holds_high innerS hs, same, level]
      have keys : (d.decision r).key = (d.decision s).key := by
        rw [Decision.key, Decision.key, level, lows, highs]
      have stored := wf.known_of_stored r innerR hr
      rw [keys, wf.known_of_stored s innerS hs] at stored
      exact (Option.some.inj stored).symm
    · have terminal : ∀ t : Region, d.Has t → ¬ d.level t ≤ d.features.length → t = .empty ∨ t = .all := by
        intro t ht high
        rcases terminal_or_inner t with h | h | inner
        · exact .inl h
        · exact .inr h
        · rw [level_of_inner inner] at high
          exact absurd (wf.level_le t inner ht) high
      have constant := same fun _ => false
      rcases terminal r hr deep with rfl | rfl <;> rcases terminal s hs (level ▸ deep) with rfl | rfl
      · rfl
      · simp at constant
      · simp at constant
      · rfl

theorem isEmpty_iff_holds (has : d.Has r) : r.isEmpty = true ↔ ∀ c, d.holds r c = false := by
  rw [Region.isEmpty_iff]
  constructor
  · rintro rfl c
    exact holds_empty
  · intro none
    apply wf.eq_of_holds has wf.has_empty
    intro c
    rw [none c, holds_empty]

theorem isEmpty_eq_false_iff (has : d.Has r) : r.isEmpty = false ↔ ∃ c, d.holds r c = true := by
  rw [← Bool.not_eq_true, wf.isEmpty_iff_holds has]
  simp

end WellFormed

namespace Extends

theorem refl (d : Diagram) : d.Extends d := ⟨Nat.le_refl _, fun _ _ => rfl⟩

theorem has (ext : d.Extends d') (h : d.Has r) : d'.Has r := Nat.lt_of_lt_of_le h ext.size_le

theorem trans (first : d.Extends d') (second : d'.Extends d'') : d.Extends d'' where
  size_le := Nat.le_trans first.size_le second.size_le
  decision_eq r h := (second.decision_eq r (first.has h)).trans (first.decision_eq r h)

theorem holds_eq (ext : d.Extends d') (wf : d.WellFormed) (h : d.Has r) : d'.holds r c = d.holds r c := by
  suffices ∀ n : Nat, ∀ r : Region, d.Has r → d'.holdsWithin c n r = d.holdsWithin c n r from
    this _ r h
  intro n
  induction n with
  | zero => intro r _; rfl
  | succ n ih =>
    intro r h
    rcases terminal_or_inner r with rfl | rfl | inner
    · simp [holdsWithin]
    · simp [holdsWithin]
    · rw [holdsWithin_inner n inner, holdsWithin_inner n inner, ext.decision_eq r h]
      split_ifs
      · exact ih _ (wf.has_high inner h)
      · exact ih _ (wf.has_low inner h)

theorem knows {r : Option Region} (ext : d.Extends d') (h : d.Knows r) : d'.Knows r :=
  fun s hs => ext.has (h s hs)

theorem within_iff {r : Option Region} (ext : d.Extends d') (wf : d.WellFormed) (h : d.Knows r) :
    d'.Within r c ↔ d.Within r c := by
  cases r with
  | none => simp [Within]
  | some r =>
    rw [within_some, within_some, ext.holds_eq wf (h r rfl)]

theorem level_eq (ext : d.Extends d') (features : d'.features = d.features) (h : d.Has r) :
    d'.level r = d.level r := by
  rw [level, level, ext.decision_eq r h, features]

end Extends

end Diagram

end GoalCoverage
