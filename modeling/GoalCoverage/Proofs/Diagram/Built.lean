import GoalCoverage.Proofs.Diagram.Computation

/-!
Diagrams that are made by calls, starting from a fresh one. All of them are well formed (`Built.wellFormed`),
and calls keep what was there.
-/

namespace GoalCoverage.Diagram

variable {d d' : Diagram} {r : Region} {name : String}

/-- A call, with regions that the diagram handed out. The other operations are made of choices. -/
inductive Call : Diagram → Diagram → Prop
  | declare (d : Diagram) (name : String) : Call d (declare name d).2
  | feature (d : Diagram) (name : String) : Call d (feature? name d).2
  | choose {d : Diagram} {f g h : Region} : d.Has f → d.Has g → d.Has h → Call d (choose f g h d).2

inductive Built : Diagram → Prop
  | fresh : Built fresh
  | call {d d' : Diagram} : Built d → Call d d' → Built d'

theorem wellFormed_fresh : fresh.WellFormed := by
  have none : ∀ r, 2 ≤ r.index → ¬fresh.Has r := by
    intro r inner has
    have bound : r.index < 2 := has
    omega
  refine ⟨Nat.le_refl 2, ?_, ?_, ?_, ?_, ?_, ?_, ?_, ?_, ?_, ?_⟩
  · exact fun r inner has => absurd has (none r inner)
  · exact fun r inner has => absurd has (none r inner)
  · exact fun r inner has => absurd has (none r inner)
  · exact fun r inner has => absurd has (none r inner)
  · exact fun r inner has => absurd has (none r inner)
  · exact fun r inner has => absurd has (none r inner)
  · exact fun r inner has => absurd has (none r inner)
  · exact fun r inner has => absurd has (none r inner)
  · intro k r found
    simp [fresh] at found
  · intro f g h r found
    simp [fresh] at found

/-- The diagram with one more feature, which comes below all others. -/
def widened (d : Diagram) (name : String) : Diagram := { d with features := d.features ++ [name] }

theorem extends_widened (d : Diagram) (name : String) : d.Extends (d.widened name) := ⟨Nat.le_refl _, fun _ _ => rfl⟩

theorem level_widened : (d.widened name).level r = if r.isTerminal then d.features.length + 2 else d.level r := by
  cases terminal : r.isTerminal <;> simp [level, terminal, widened, decision]

theorem level_le_widened (wf : d.WellFormed) (has : d.Has r) : d.level r ≤ (d.widened name).level r := by
  rw [level_widened]
  split
  · exact Nat.le_succ_of_le (wf.level_le_terminal has)
  · exact Nat.le_refl _

theorem WellFormed.widened (wf : d.WellFormed) (name : String) : (d.widened name).WellFormed := by
  have ext := extends_widened d name
  refine { wf with level_le := ?_, low_below := ?_, high_below := ?_, computed := ?_ }
  · intro r inner has
    have bound := wf.level_le r inner has
    have wider : (d.widened name).features.length = d.features.length + 1 := by simp [Diagram.widened]
    rw [wider]
    exact Nat.le_succ_of_le bound
  · intro r inner has
    exact Nat.lt_of_lt_of_le (wf.low_below r inner has) (level_le_widened wf (wf.has_low inner has))
  · intro r inner has
    exact Nat.lt_of_lt_of_le (wf.high_below r inner has) (level_le_widened wf (wf.has_high inner has))
  · intro f g h r found
    obtain ⟨inner, hf, hg, hh, hr, holds, le⟩ := wf.computed f g h r found
    refine ⟨inner, hf, hg, hh, hr, fun c => ?_, ?_⟩
    · rw [ext.holds_eq wf hr, ext.holds_eq wf hf, ext.holds_eq wf hg, ext.holds_eq wf hh, holds c]
    · -- Only terminals move, and they were below every decision before.
      have moved : ∀ s : Region, (d.widened name).level s = d.level s ∨
          (d.widened name).level s = d.features.length + 2 ∧ d.level s = d.features.length + 1 := by
        intro s
        rw [level_widened]
        cases terminal : s.isTerminal with
        | true => exact .inr ⟨rfl, by simp [level, terminal]⟩
        | false => exact .inl rfl
      have bound := wf.level_le f inner hf
      rw [← level_of_inner inner] at bound
      have := moved f
      have := moved g
      have := moved h
      have := moved r
      omega

theorem fits_feature {level : Nat} (wf : d.WellFormed) (level_pos : 1 ≤ level) (level_le : level ≤ d.features.length) :
    d.Fits level .empty .all where
  level_pos := level_pos
  level_le := level_le
  has_low := wf.has_empty
  has_high := wf.has_all
  low_below := Nat.lt_succ_of_le level_le
  high_below := Nat.lt_succ_of_le level_le

theorem levelOf?_le {level : Nat} (known : d.levelOf? name = some level) : 1 ≤ level ∧ level ≤ d.features.length := by
  rw [levelOf?, Option.map_eq_some_iff] at known
  obtain ⟨i, found, rfl⟩ := known
  have bound := (List.findIdx?_eq_some_iff_getElem.1 found).1
  exact ⟨Nat.le_add_left 1 i, bound⟩

/-- A call keeps the diagram well formed, and what is in it. -/
theorem Call.spec (call : Call d d') (wf : d.WellFormed) : d'.WellFormed ∧ d.Extends d' := by
  cases call with
  | declare name =>
    rw [Diagram.declare]
    split
    next level known =>
      have stored := store_decides wf (fits_feature wf (levelOf?_le known).1 (levelOf?_le known).2)
      exact ⟨stored.wellFormed, stored.grows⟩
    next =>
      have fits : (d.widened name).Fits (d.features.length + 1) .empty .all :=
        fits_feature (wf.widened name) (Nat.le_add_left 1 _) (by simp [widened])
      have stored := store_decides (wf.widened name) fits
      exact ⟨stored.wellFormed, (extends_widened d name).trans stored.grows⟩
  | feature name =>
    rw [feature?]
    split
    next level known =>
      have stored := store_decides wf (fits_feature wf (levelOf?_le known).1 (levelOf?_le known).2)
      exact ⟨stored.wellFormed, stored.grows⟩
    next => exact ⟨wf, .refl d⟩
  | choose hf hg hh =>
    have chosen := choose_chooses wf hf hg hh
    exact ⟨chosen.wellFormed, chosen.grows⟩

theorem Built.wellFormed (built : Built d) : d.WellFormed := by
  induction built with
  | fresh => exact wellFormed_fresh
  | call _ call ih => exact (call.spec ih).1

end GoalCoverage.Diagram
