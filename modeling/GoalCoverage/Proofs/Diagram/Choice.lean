import GoalCoverage.Proofs.Diagram.Meaning

/-!
Choices between regions. `chooseWithin` keeps the diagram well formed and only adds to it, and the region
it yields holds where the choice does, whatever was computed before.
-/

namespace GoalCoverage.Diagram

open Std

variable {d d' : Diagram} {f g h r low high : Region} {level : Nat}

/-- `r` is found in `d'`, an extension of `d`, as the decision at a level between two regions of `d`. -/
structure Decides (d : Diagram) (level : Nat) (low high : Region) (r : Region) (d' : Diagram) : Prop where
  grows : d.Extends d'
  features : d'.features = d.features
  wellFormed : d'.WellFormed
  has : d'.Has r
  holds : ∀ c, d'.holds r c = if c level then d.holds high c else d.holds low c
  level_le : level ≤ d'.level r

/-- A decision that may be added to a diagram. -/
structure Fits (d : Diagram) (level : Nat) (low high : Region) : Prop where
  level_pos : 1 ≤ level
  level_le : level ≤ d.features.length
  has_low : d.Has low
  has_high : d.Has high
  low_below : level < d.level low
  high_below : level < d.level high

def pushed (d : Diagram) (n : Decision) : Diagram :=
  { d with decisions := d.decisions.push n, known := d.known.insert n.key ⟨d.decisions.size⟩ }

theorem decision_pushed_old {n : Decision} (has : d.Has r) : (d.pushed n).decision r = d.decision r := by
  have bound : r.index < d.decisions.size := has
  simp [decision, pushed, Array.getElem?_push, Nat.ne_of_lt bound]

theorem decision_pushed_new {n : Decision} : (d.pushed n).decision ⟨d.decisions.size⟩ = n := by
  simp [decision, pushed]

theorem extends_pushed (n : Decision) : d.Extends (d.pushed n) where
  size_le := by simp [size, pushed]
  decision_eq _ has := decision_pushed_old has

theorem has_pushed {n : Decision} (has : (d.pushed n).Has r) : d.Has r ∨ r = ⟨d.decisions.size⟩ := by
  have bound : r.index < d.decisions.size + 1 := by simpa [Has, size, pushed] using has
  by_cases old : r.index < d.decisions.size
  · exact .inl old
  · exact .inr (region_eq_of_index (Nat.le_antisymm (Nat.le_of_lt_succ bound) (Nat.le_of_not_lt old)))

theorem level_pushed {n : Decision} (has : d.Has r) : (d.pushed n).level r = d.level r :=
  (extends_pushed n).level_eq rfl has

/-- A property of the decisions of a diagram that a new decision has as well. -/
theorem forall_pushed {n : Decision} {P : Region → Decision → Prop}
    (old : ∀ r, 2 ≤ r.index → d.Has r → P r (d.decision r)) (new : P ⟨d.decisions.size⟩ n) :
    ∀ r, 2 ≤ r.index → (d.pushed n).Has r → P r ((d.pushed n).decision r) := by
  intro r inner has
  rcases has_pushed has with has | rfl
  · rw [decision_pushed_old has]
    exact old r inner has
  · rw [decision_pushed_new]
    exact new

theorem getElem?_insert_key (known : TreeMap Triple Region Triple.order) (k k' : Triple) (r : Region) :
    (known.insert k r)[k']? = if k = k' then some r else known[k']? := by
  rw [TreeMap.getElem?_insert]
  by_cases same : k = k'
  · rw [if_pos same, if_pos (Std.LawfulEqCmp.compare_eq_iff_eq.2 same)]
  · rw [if_neg same, if_neg fun eq => same (Std.LawfulEqCmp.eq_of_compare eq)]

/-- Storing a new decision keeps the diagram well formed. -/
theorem WellFormed.pushed (wf : d.WellFormed) (fits : d.Fits level low high) (ne : low ≠ high)
    (new : d.known[(⟨level, low, high⟩ : Decision).key]? = none) :
    (d.pushed ⟨level, low, high⟩).WellFormed := by
  have ext := extends_pushed (d := d) ⟨level, low, high⟩
  have two : 2 ≤ d.decisions.size := wf.terminals
  refine
    { terminals := Nat.le_trans wf.terminals ext.size_le
      level_pos := forall_pushed (P := fun _ n => 1 ≤ n.level) wf.level_pos fits.level_pos
      level_le := forall_pushed (P := fun _ n => n.level ≤ d.features.length) wf.level_le fits.level_le
      low_lt := forall_pushed (P := fun r n => n.low.index < r.index) wf.low_lt fits.has_low
      high_lt := forall_pushed (P := fun r n => n.high.index < r.index) wf.high_lt fits.has_high
      low_below := ?_
      high_below := ?_
      reduced := forall_pushed (P := fun _ n => n.low ≠ n.high) wf.reduced ne
      known_of_stored := ?_
      stored_of_known := ?_
      computed := ?_ }
  · refine forall_pushed (P := fun _ n => n.level < (d.pushed _).level n.low) ?_ ?_
    · intro r inner has
      rw [level_pushed (wf.has_low inner has)]
      exact wf.low_below r inner has
    · rw [level_pushed fits.has_low]
      exact fits.low_below
  · refine forall_pushed (P := fun _ n => n.level < (d.pushed _).level n.high) ?_ ?_
    · intro r inner has
      rw [level_pushed (wf.has_high inner has)]
      exact wf.high_below r inner has
    · rw [level_pushed fits.has_high]
      exact fits.high_below
  · refine forall_pushed (P := fun r n => (d.pushed _).known[n.key]? = some r) ?_ ?_
    · intro r inner has
      rw [Diagram.pushed, getElem?_insert_key, if_neg]
      · exact wf.known_of_stored r inner has
      · intro same
        rw [same, wf.known_of_stored r inner has] at new
        cases new
    · rw [Diagram.pushed, getElem?_insert_key, if_pos rfl]
  · intro k r found
    rw [Diagram.pushed, getElem?_insert_key] at found
    split_ifs at found with same
    · cases found
      refine ⟨two, by simp [Has, size, Diagram.pushed], ?_⟩
      rw [decision_pushed_new, same]
    · obtain ⟨inner, has, key⟩ := wf.stored_of_known k r found
      refine ⟨inner, ext.has has, ?_⟩
      rw [decision_pushed_old has, key]
  · intro f g h r found
    obtain ⟨inner, hf, hg, hh, hr, holds, le⟩ := wf.computed f g h r found
    refine ⟨inner, ext.has hf, ext.has hg, ext.has hh, ext.has hr, ?_, ?_⟩
    · intro c
      rw [ext.holds_eq wf hr, ext.holds_eq wf hf, ext.holds_eq wf hg, ext.holds_eq wf hh, holds c]
    · rw [level_pushed hf, level_pushed hg, level_pushed hh, level_pushed hr]
      exact le

theorem store_decides (wf : d.WellFormed) (fits : d.Fits level low high) :
    Decides d level low high (store level low high d).1 (store level low high d).2 := by
  rw [store]
  split_ifs with same
  · subst same
    exact
      { grows := .refl d
        features := rfl
        wellFormed := wf
        has := fits.has_low
        holds := fun c => (ite_self _).symm
        level_le := Nat.le_of_lt fits.low_below }
  · dsimp only
    split
    next r found =>
      obtain ⟨inner, has, key⟩ := wf.stored_of_known _ r found
      have parts : (d.decision r).level = level ∧ (d.decision r).low = low ∧ (d.decision r).high = high := by
        simp only [Decision.key, Prod.mk.injEq] at key
        exact ⟨key.1, region_eq_of_index key.2.1, region_eq_of_index key.2.2⟩
      refine
        { grows := .refl d
          features := rfl
          wellFormed := wf
          has := has
          holds := fun c => ?_
          level_le := ?_ }
      · rw [wf.holds_inner inner has, parts.1, parts.2.1, parts.2.2]
      · exact Nat.le_of_eq ((level_of_inner inner).trans parts.1).symm
    next new =>
      have wf' := wf.pushed fits same new
      have ext := extends_pushed (d := d) ⟨level, low, high⟩
      have has : (d.pushed ⟨level, low, high⟩).Has ⟨d.decisions.size⟩ := by simp [Has, size, pushed]
      have inner : 2 ≤ (⟨d.decisions.size⟩ : Region).index := wf.terminals
      refine
        { grows := ext
          features := rfl
          wellFormed := wf'
          has := has
          holds := fun c => ?_
          level_le := ?_ }
      · have := wf'.holds_inner (c := c) inner has
        rw [decision_pushed_new, ext.holds_eq wf fits.has_high, ext.holds_eq wf fits.has_low] at this
        exact this
      · have := level_of_inner (d := d.pushed ⟨level, low, high⟩) inner
        rw [decision_pushed_new] at this
        exact Nat.le_of_eq this.symm

/-- `r` is found in `d'`, an extension of `d`, as the choice between regions of `d`. -/
structure Chooses (d : Diagram) (f g h : Region) (r : Region) (d' : Diagram) : Prop where
  grows : d.Extends d'
  features : d'.features = d.features
  wellFormed : d'.WellFormed
  has : d'.Has r
  holds : ∀ c, d'.holds r c = if d.holds f c then d.holds g c else d.holds h c
  level_le : min (d.level f) (min (d.level g) (d.level h)) ≤ d'.level r

/-- What is left of a region when a feature is absent (`r0`) and present (`r1`). -/
structure Splits (d : Diagram) (level : Nat) (r r0 r1 : Region) : Prop where
  has_low : d.Has r0
  has_high : d.Has r1
  low_below : level < d.level r0
  high_below : level < d.level r1
  holds : ∀ c, d.holds r c = if c level then d.holds r1 c else d.holds r0 c

theorem branches_splits (level : Nat) (wf : d.WellFormed) (has : d.Has r) (le : level ≤ d.level r)
    (deep : level ≤ d.features.length) :
    Splits d level r (d.branches r level).1 (d.branches r level).2 := by
  rw [branches]
  split_ifs with here
  · have inner : 2 ≤ r.index := inner_of_level_le (d := d) (by omega)
    rw [level_of_inner inner] at here
    refine ⟨wf.has_low inner has, wf.has_high inner has, ?_, ?_, ?_⟩
    · exact here ▸ wf.low_below r inner has
    · exact here ▸ wf.high_below r inner has
    · intro c
      rw [wf.holds_inner inner has, here]
  · have lt : level < d.level r := Nat.lt_of_le_of_ne le fun e => here e.symm
    exact ⟨has, has, lt, lt, fun c => (ite_self _).symm⟩

theorem chooses_of_eq (wf : d.WellFormed) (has : d.Has r)
    (holds : ∀ c, d.holds r c = if d.holds f c then d.holds g c else d.holds h c)
    (level_le : min (d.level f) (min (d.level g) (d.level h)) ≤ d.level r) : Chooses d f g h r d where
  grows := .refl d
  features := rfl
  wellFormed := wf
  has := has
  holds := holds
  level_le := level_le

/-- Remembers a choice. -/
def remembered (d : Diagram) (f g h r : Region) : Diagram :=
  { d with computed := d.computed.insert (f.index, g.index, h.index) r }

theorem extends_remembered (d : Diagram) (f g h r : Region) : d.Extends (d.remembered f g h r) :=
  ⟨Nat.le_refl _, fun _ _ => rfl⟩

theorem WellFormed.remembered (wf : d.WellFormed) (inner : 2 ≤ f.index) (hf : d.Has f) (hg : d.Has g)
    (hh : d.Has h) (hr : d.Has r)
    (holds : ∀ c, d.holds r c = if d.holds f c then d.holds g c else d.holds h c)
    (le : min (d.level f) (min (d.level g) (d.level h)) ≤ d.level r) :
    (d.remembered f g h r).WellFormed := by
  have ext := extends_remembered d f g h r
  refine { wf with computed := fun f' g' h' r' found => ?_ }
  rw [Diagram.remembered, getElem?_insert_key] at found
  have old : 2 ≤ f'.index ∧ d.Has f' ∧ d.Has g' ∧ d.Has h' ∧ d.Has r' ∧
      (∀ c, d.holds r' c = if d.holds f' c then d.holds g' c else d.holds h' c) ∧
      min (d.level f') (min (d.level g') (d.level h')) ≤ d.level r' := by
    split_ifs at found with same
    · cases found
      simp only [Prod.mk.injEq] at same
      obtain ⟨ef, eg, eh⟩ := same
      rw [← region_eq_of_index ef, ← region_eq_of_index eg, ← region_eq_of_index eh]
      exact ⟨inner, hf, hg, hh, hr, holds, le⟩
    · exact wf.computed f' g' h' r' found
  obtain ⟨inner', hf', hg', hh', hr', holds', le'⟩ := old
  refine ⟨inner', hf', hg', hh', hr', fun c => ?_, le'⟩
  rw [ext.holds_eq wf hr', ext.holds_eq wf hf', ext.holds_eq wf hg', ext.holds_eq wf hh', holds' c]

section Combine

variable {f0 f1 g0 g1 h0 h1 : Region} {d1 d2 d3 : Diagram}

/-- The steps that are left suffice for the branches with the feature. -/
theorem Splits.enough_high {left : Nat} (splitF : Splits d level f f0 f1) (splitG : Splits d level g g0 g1)
    (splitH : Splits d level h h0 h1) (enough : d.features.length + 1 < left + 1 + level) :
    d.features.length + 1 < left + min (d.level f1) (min (d.level g1) (d.level h1)) := by
  have := splitF.high_below
  have := splitG.high_below
  have := splitH.high_below
  omega

/-- They suffice for the branches without it when those with it are done. -/
theorem Chooses.enough_low {left : Nat} (highs : Chooses d f1 g1 h1 high d1) (splitF : Splits d level f f0 f1)
    (splitG : Splits d level g g0 g1) (splitH : Splits d level h h0 h1)
    (enough : d.features.length + 1 < left + 1 + level) :
    d1.features.length + 1 < left + min (d1.level f0) (min (d1.level g0) (d1.level h0)) := by
  have levels : ∀ {r : Region}, d.Has r → d1.level r = d.level r := highs.grows.level_eq highs.features
  rw [highs.features, levels splitF.has_low, levels splitG.has_low, levels splitH.has_low]
  have := splitF.low_below
  have := splitG.low_below
  have := splitH.low_below
  omega

/-- The choices on both branches fit below the decision between them. -/
theorem Chooses.fits (level_pos : 1 ≤ level) (level_le : level ≤ d.features.length)
    (splitF : Splits d level f f0 f1) (splitG : Splits d level g g0 g1) (splitH : Splits d level h h0 h1)
    (highs : Chooses d f1 g1 h1 high d1) (lows : Chooses d1 f0 g0 h0 low d2) : d2.Fits level low high where
  level_pos := level_pos
  level_le := by
    rw [lows.features, highs.features]
    exact level_le
  has_low := lows.has
  has_high := lows.grows.has highs.has
  low_below := by
    have levels : ∀ {r : Region}, d.Has r → d1.level r = d.level r := highs.grows.level_eq highs.features
    have bound := lows.level_le
    rw [levels splitF.has_low, levels splitG.has_low, levels splitH.has_low] at bound
    have := splitF.low_below
    have := splitG.low_below
    have := splitH.low_below
    omega
  high_below := by
    have bound := highs.level_le
    rw [lows.grows.level_eq lows.features highs.has]
    have := splitF.high_below
    have := splitG.high_below
    have := splitH.high_below
    omega

/-- The decision between the choices on both branches is the choice. -/
theorem Chooses.combine (wf : d.WellFormed) (inner : 2 ≤ f.index) (hf : d.Has f) (hg : d.Has g)
    (hh : d.Has h) (least : min (d.level f) (min (d.level g) (d.level h)) = level)
    (splitF : Splits d level f f0 f1) (splitG : Splits d level g g0 g1) (splitH : Splits d level h h0 h1)
    (highs : Chooses d f1 g1 h1 high d1) (lows : Chooses d1 f0 g0 h0 low d2)
    (stored : Decides d2 level low high r d3) : Chooses d f g h r (d3.remembered f g h r) := by
  have e2 : d.Extends d2 := highs.grows.trans lows.grows
  have e3 : d.Extends d3 := e2.trans stored.grows
  have features : d3.features = d.features := stored.features.trans (lows.features.trans highs.features)
  have holds : ∀ c, d3.holds r c = if d.holds f c then d.holds g c else d.holds h c := by
    intro c
    rw [stored.holds c, lows.grows.holds_eq highs.wellFormed highs.has, highs.holds c, lows.holds c,
      highs.grows.holds_eq wf splitF.has_low, highs.grows.holds_eq wf splitG.has_low,
      highs.grows.holds_eq wf splitH.has_low, splitF.holds c, splitG.holds c, splitH.holds c]
    split_ifs <;> rfl
  have le : min (d.level f) (min (d.level g) (d.level h)) ≤ d3.level r := by
    rw [least]
    exact stored.level_le
  have levels : ∀ {r : Region}, d.Has r → d3.level r = d.level r := e3.level_eq features
  have e4 := extends_remembered d3 f g h r
  refine
    { grows := e3.trans e4
      features := features
      wellFormed := ?_
      has := stored.has
      holds := fun c => (e4.holds_eq stored.wellFormed stored.has).trans (holds c)
      level_le := le }
  apply stored.wellFormed.remembered inner (e3.has hf) (e3.has hg) (e3.has hh) stored.has
  · intro c
    rw [holds c, e3.holds_eq wf hf, e3.holds_eq wf hg, e3.holds_eq wf hh]
  · rw [levels hf, levels hg, levels hh]
    exact le

end Combine

/-- The steps that are left suffice as long as they and the least level exceed the last level. -/
theorem chooseWithin_chooses (left : Nat) (wf : d.WellFormed) (hf : d.Has f) (hg : d.Has g) (hh : d.Has h)
    (enough : d.features.length + 1 < left + min (d.level f) (min (d.level g) (d.level h))) :
    Chooses d f g h (chooseWithin left f g h d).1 (chooseWithin left f g h d).2 := by
  induction left generalizing d f g h with
  | zero =>
    have := wf.level_le_terminal hf
    omega
  | succ left ih =>
    have leG : min (d.level f) (min (d.level g) (d.level h)) ≤ d.level g := by omega
    have leH : min (d.level f) (min (d.level g) (d.level h)) ≤ d.level h := by omega
    rcases terminal_or_inner f with rfl | rfl | inner
    · have : chooseWithin (left + 1) .empty g h d = (h, d) := by
        simp [chooseWithin, Region.isEmpty, Region.isAll, Region.empty, Region.all]
      rw [this]
      exact chooses_of_eq wf hh (fun c => by simp) leH
    · have : chooseWithin (left + 1) .all g h d = (g, d) := by
        simp [chooseWithin, Region.isAll]
      rw [this]
      exact chooses_of_eq wf hg (fun c => by simp) leG
    rw [chooseWithin, isAll_of_inner inner, isEmpty_of_inner inner]
    simp only [Bool.false_eq_true, if_false]
    split_ifs with same trivial
    · subst same
      exact chooses_of_eq wf hg (fun c => (ite_self _).symm) leG
    · rw [Bool.and_eq_true, Region.isAll_iff, Region.isEmpty_iff] at trivial
      obtain ⟨rfl, rfl⟩ := trivial
      exact chooses_of_eq wf hf (fun c => by simp) (Nat.min_le_left _ _)
    · split
      next r found =>
        obtain ⟨_, _, _, _, hr, holds, le⟩ := wf.computed f g h r found
        exact chooses_of_eq wf hr holds le
      next =>
        have deep : d.level f ≤ d.features.length := by
          rw [level_of_inner inner]
          exact wf.level_le f inner hf
        generalize least : min (d.level f) (min (d.level g) (d.level h)) = level at enough ⊢
        have splitF := branches_splits level wf hf (by omega) (by omega)
        have splitG := branches_splits level wf hg (by omega) (by omega)
        have splitH := branches_splits level wf hh (by omega) (by omega)
        generalize (d.branches f level).1 = f0, (d.branches f level).2 = f1 at *
        generalize (d.branches g level).1 = g0, (d.branches g level).2 = g1 at *
        generalize (d.branches h level).1 = h0, (d.branches h level).2 = h1 at *
        have highs := ih wf splitF.has_high splitG.has_high splitH.has_high
          (splitF.enough_high splitG splitH enough)
        generalize chooseWithin left f1 g1 h1 d = out at highs ⊢
        obtain ⟨high, d1⟩ := out
        have lows := ih highs.wellFormed (highs.grows.has splitF.has_low) (highs.grows.has splitG.has_low)
          (highs.grows.has splitH.has_low) (highs.enough_low splitF splitG splitH enough)
        dsimp only at lows ⊢
        generalize chooseWithin left f0 g0 h0 d1 = out at lows ⊢
        obtain ⟨low, d2⟩ := out
        have level_pos : 1 ≤ level := by
          have := wf.one_le_level hf
          have := wf.one_le_level hg
          have := wf.one_le_level hh
          omega
        have stored := store_decides lows.wellFormed
          (highs.fits level_pos (by omega) splitF splitG splitH lows)
        dsimp only at stored ⊢
        generalize store level low high d2 = out at stored ⊢
        obtain ⟨r, d3⟩ := out
        exact .combine wf inner hf hg hh least splitF splitG splitH highs lows stored

theorem choose_chooses (wf : d.WellFormed) (hf : d.Has f) (hg : d.Has g) (hh : d.Has h) :
    Chooses d f g h (choose f g h d).1 (choose f g h d).2 := by
  apply chooseWithin_chooses _ wf hf hg hh
  have := wf.one_le_level hf
  have := wf.one_le_level hg
  have := wf.one_le_level hh
  omega

end GoalCoverage.Diagram
