import GoalCoverage.Proofs.Diagram.Canonicity
import GoalCoverage.Proofs.Diagram.Count

/-!
Cubes of a region, which its text lists. They partition the region, and the model of a region, found by a walk that never
turns back, is the first of them (`cubes_partition`): in a reduced diagram only the empty region has no cube.
-/

namespace GoalCoverage

namespace Diagram

variable {d : Diagram} {r : Region} {c : Configuration} {cube : Cube} {left left' : Nat} {names : List String}
  {ledger : List Entry} {e : Entry}

/-- Does the configuration give every answer that the cube fixes? -/
def Cube.covers (cube : Cube) (c : Configuration) : Bool := cube.all fun l => c l.1 == l.2

theorem Cube.covers_cons (l : Nat × Bool) : Cube.covers (l :: cube) c = (c l.1 == l.2 && cube.covers c) := rfl

section Steps

theorem cubesWithin_empty (left : Nat) : d.cubesWithin left .empty = [] := by
  cases left <;> simp [cubesWithin, Region.isEmpty]

theorem cubesWithin_all (left : Nat) : d.cubesWithin (left + 1) .all = [[]] := by
  simp [cubesWithin, Region.isEmpty, Region.isAll, Region.empty, Region.all]

theorem cubesWithin_inner (left : Nat) (inner : 2 ≤ r.index) :
    d.cubesWithin (left + 1) r =
      (d.cubesWithin left (d.decision r).high).map (((d.decision r).level, true) :: ·) ++
        (d.cubesWithin left (d.decision r).low).map (((d.decision r).level, false) :: ·) := by
  rw [cubesWithin, isEmpty_of_inner inner, isAll_of_inner inner]
  rfl

theorem modelWithin_terminal (left : Nat) (terminal : r.isTerminal = true) : d.modelWithin left r = [] := by
  cases left <;> simp [modelWithin, terminal]

theorem modelWithin_inner (left : Nat) (inner : 2 ≤ r.index) :
    d.modelWithin (left + 1) r =
      if (d.decision r).high.isEmpty then ((d.decision r).level, false) :: d.modelWithin left (d.decision r).low
      else ((d.decision r).level, true) :: d.modelWithin left (d.decision r).high := by
  have decides : r.isTerminal = false := by simp [Region.isTerminal]; omega
  rw [modelWithin, decides]
  rfl

variable (wf : d.WellFormed)

include wf

/-- The answers of a decision test later features, so fewer steps suffice for them. -/
theorem WellFormed.enough_answers (inner : 2 ≤ r.index) (has : d.Has r)
    (enough : d.features.length + 1 < left + 1 + d.level r) :
    d.features.length + 1 < left + d.level (d.decision r).low ∧
      d.features.length + 1 < left + d.level (d.decision r).high := by
  rw [level_of_inner inner] at enough
  have := wf.low_below r inner has
  have := wf.high_below r inner has
  omega

theorem WellFormed.enough_cubes (has : d.Has r) : d.features.length + 1 < d.features.length + 1 + d.level r := by
  have := wf.one_le_level has
  omega

/-- More steps than there are levels left change nothing. -/
theorem WellFormed.eq_of_enough {α : Type} {walk : Nat → Region → α}
    (terminal : ∀ r left left', r.isTerminal = true → walk (left + 1) r = walk (left' + 1) r)
    (inner : ∀ r left left', 2 ≤ r.index → walk left (d.decision r).low = walk left' (d.decision r).low →
      walk left (d.decision r).high = walk left' (d.decision r).high → walk (left + 1) r = walk (left' + 1) r)
    (has : d.Has r) (enough : d.features.length + 1 < left + d.level r)
    (enough' : d.features.length + 1 < left' + d.level r) : walk left r = walk left' r := by
  induction left generalizing r left' with
  | zero =>
    have := wf.level_le_terminal has
    omega
  | succ left ih =>
    obtain ⟨left', rfl⟩ : ∃ n, left' = n + 1 := by
      have := wf.level_le_terminal has
      exact ⟨left' - 1, by omega⟩
    obtain rfl | rfl | decides := terminal_or_inner r
    · exact terminal .empty left left' rfl
    · exact terminal .all left left' rfl
    · have answers := wf.enough_answers decides has enough
      have answers' := wf.enough_answers decides has enough'
      exact inner r left left' decides (ih (wf.has_low decides has) answers.1 answers'.1)
        (ih (wf.has_high decides has) answers.2 answers'.2)

theorem WellFormed.cubesWithin_eq (has : d.Has r) (enough : d.features.length + 1 < left + d.level r)
    (enough' : d.features.length + 1 < left' + d.level r) : d.cubesWithin left r = d.cubesWithin left' r := by
  refine wf.eq_of_enough (fun r left left' stops => ?_) (fun r left left' inner low high => ?_) has enough enough'
  · obtain rfl | rfl := Region.isTerminal_iff.1 stops
    · rw [cubesWithin_empty, cubesWithin_empty]
    · rw [cubesWithin_all, cubesWithin_all]
  · rw [cubesWithin_inner left inner, cubesWithin_inner left' inner, low, high]

/-- The walk to the model ends: further steps change nothing. -/
theorem WellFormed.modelWithin_eq (has : d.Has r) (enough : d.features.length + 1 < left + d.level r)
    (enough' : d.features.length + 1 < left' + d.level r) : d.modelWithin left r = d.modelWithin left' r := by
  refine wf.eq_of_enough (fun r left left' stops => ?_) (fun r left left' inner low high => ?_) has enough enough'
  · rw [modelWithin_terminal _ stops, modelWithin_terminal _ stops]
  · rw [modelWithin_inner left inner, modelWithin_inner left' inner, low, high]

end Steps

theorem cubes_empty : d.cubes .empty = [] := cubesWithin_empty _

theorem cubes_all : d.cubes .all = [[]] := cubesWithin_all _

section Cubes

variable (wf : d.WellFormed)

include wf

/-- The cubes of a decision: those with its feature, and then those without it. -/
theorem WellFormed.cubes_inner (inner : 2 ≤ r.index) (has : d.Has r) :
    d.cubes r = (d.cubes (d.decision r).high).map (((d.decision r).level, true) :: ·) ++
      (d.cubes (d.decision r).low).map (((d.decision r).level, false) :: ·) := by
  have answers := wf.enough_answers inner has (wf.enough_cubes has)
  rw [cubes, cubesWithin_inner _ inner, cubes, cubes,
    wf.cubesWithin_eq (wf.has_high inner has) answers.2 (wf.enough_cubes (wf.has_high inner has)),
    wf.cubesWithin_eq (wf.has_low inner has) answers.1 (wf.enough_cubes (wf.has_low inner has))]

/-- A cube names features from the level of its region on, in the order of their declaration. -/
theorem WellFormed.sublist_of_mem_cubes (has : d.Has r) (mem : cube ∈ d.cubes r) :
    (cube.map fun l => d.featureName l.1).Sublist (d.features.drop (d.level r - 1)) := by
  induction r, has using wf.region_induction generalizing cube with
  | empty => simp [cubes_empty] at mem
  | all =>
    rw [cubes_all, List.mem_singleton] at mem
    subst mem
    exact List.nil_sublist _
  | inner r inner has low high =>
    have positive := wf.level_pos r inner has
    have inside : (d.decision r).level - 1 < d.features.length := by
      have := wf.level_le r inner has
      omega
    have later : ∀ {s : Region} {rest : Cube} (b : Bool), (d.decision r).level < d.level s →
        (rest.map fun l => d.featureName l.1).Sublist (d.features.drop (d.level s - 1)) →
        ((((d.decision r).level, b) :: rest).map fun l => d.featureName l.1).Sublist (d.features.drop (d.level r - 1)) := by
      intro s rest b below sub
      rw [List.map_cons, level_of_inner inner, List.drop_eq_getElem_cons inside, featureName_eq inside,
        Nat.sub_add_cancel positive]
      exact (sub.trans (List.drop_sublist_drop_left _ (by omega))).cons_cons _
    rw [wf.cubes_inner inner has, List.mem_append, List.mem_map, List.mem_map] at mem
    obtain ⟨rest, mem, rfl⟩ | ⟨rest, mem, rfl⟩ := mem
    · exact later true (wf.high_below r inner has) (high mem)
    · exact later false (wf.low_below r inner has) (low mem)

/-- A configuration lies in one cube of a region, if it lies in the region, and else in none. -/
theorem WellFormed.countP_cubes (c : Configuration) (has : d.Has r) :
    (d.cubes r).countP (·.covers c) = if d.holds r c then 1 else 0 := by
  induction r, has using wf.region_induction with
  | empty => simp [cubes_empty]
  | all => simp [cubes_all, Cube.covers]
  | inner r inner has low high =>
    rw [wf.cubes_inner inner has, wf.holds_inner inner has, List.countP_append, List.countP_map, List.countP_map]
    cases answer : c (d.decision r).level with
    | true => simpa [Function.comp_def, Cube.covers_cons, answer] using high
    | false => simpa [Function.comp_def, Cube.covers_cons, answer] using low

/-- Since one answer of a decision is not empty, the walk that prefers the other one need not turn back. -/
theorem WellFormed.head?_cubes (has : d.Has r) (nonempty : r ≠ .empty) :
    (d.cubes r).head? = some (d.modelWithin (d.features.length + 1) r) := by
  induction r, has using wf.region_induction with
  | empty => exact absurd rfl nonempty
  | all => rw [cubes_all, modelWithin_terminal _ rfl, List.head?_cons]
  | inner r inner has low high =>
    have answers := wf.enough_answers inner has (wf.enough_cubes has)
    rw [wf.cubes_inner inner has, modelWithin_inner _ inner, List.head?_append, List.head?_map, List.head?_map,
      wf.modelWithin_eq (wf.has_low inner has) answers.1 (wf.enough_cubes (wf.has_low inner has)),
      wf.modelWithin_eq (wf.has_high inner has) answers.2 (wf.enough_cubes (wf.has_high inner has))]
    by_cases none : (d.decision r).high = .empty
    · have other : (d.decision r).low ≠ .empty := fun same => wf.reduced r inner has (same.trans none.symm)
      rw [low other, if_pos (Region.isEmpty_iff.2 none), none, cubes_empty]
      rfl
    · rw [high none, if_neg (mt Region.isEmpty_iff.1 none)]
      rfl

theorem WellFormed.model?_eq_head? (has : d.Has r) : d.model? r = (d.cubes r).head? := by
  by_cases none : r = .empty
  · rw [model?, if_pos (Region.isEmpty_iff.2 none), none, cubes_empty, List.head?_nil]
  · rw [model?, if_neg (mt Region.isEmpty_iff.1 none), wf.head?_cubes has none]

end Cubes

/--
In a session the cubes of a region name declared features in the order of their declaration. A set of features that lies
in the region lies in exactly one cube, and any other set in none. The model of the region is the first cube, which is
missing only when the region is empty, and the walk to it ends.
-/
theorem cubes_partition (session : Session d names ledger) (mem : e ∈ ledger) :
    (d.features.Nodup ∧ ∀ cube ∈ d.cubes e.region, (cube.map fun l => d.featureName l.1).Sublist d.features) ∧
    (d.cubes .all = [[]] ∧ d.cubes .empty = []) ∧
    (∀ present : String → Bool, (d.cubes e.region).countP (fun cube => cube.covers fun level => present (d.featureName level)) =
      if e.meaning present then 1 else 0) ∧
    (d.model? e.region = none ↔ ∀ present, e.meaning present = false) ∧
    d.model? e.region = (d.cubes e.region).head? ∧
    (∀ cube, d.model? e.region = some cube → ∀ present : String → Bool,
      cube.covers (fun level => present (d.featureName level)) = true → e.meaning present = true) ∧
    ∀ left, d.features.length < left →
      d.modelWithin left e.region = d.modelWithin (d.features.length + 1) e.region := by
  have faithful := session.faithful
  have wf := faithful.wellFormed
  have has := faithful.has e mem
  have meaning : ∀ present, e.meaning present = d.holds e.region fun level => present (d.featureName level) := fun present => by
    rw [← faithful.denotes e mem, denotes]
  have first := wf.model?_eq_head? has
  refine ⟨⟨faithful.nodup, fun cube mem => ?_⟩, ⟨cubes_all, cubes_empty⟩, fun present => ?_, ?_, first,
    fun cube found present covered => ?_, fun left enough => ?_⟩
  · exact (wf.sublist_of_mem_cubes has mem).trans (List.drop_sublist _ _)
  · rw [meaning]
    exact wf.countP_cubes _ has
  · have empty := (wf.canonical faithful.nodup).isEmpty_iff e.region has
    rw [faithful.denotes e mem] at empty
    rw [← empty, model?]
    cases e.region.isEmpty <;> simp
  · rw [meaning]
    have here : cube ∈ d.cubes e.region := List.mem_of_head? (first ▸ found)
    have count := wf.countP_cubes (fun level => present (d.featureName level)) has
    have positive : 0 < (d.cubes e.region).countP (·.covers fun level => present (d.featureName level)) :=
      List.countP_pos_iff.2 ⟨cube, here, covered⟩
    by_contra outside
    rw [if_neg outside] at count
    omega
  · have positive := wf.one_le_level has
    exact wf.modelWithin_eq has (by omega) (by omega)

/-- The second cube skips the second feature. -/
theorem cubes_partition_skipping :
    (∃ ledger, Session fourDeclared ["D", "C", "B", "A"] ledger ∧ eitherEntry ∈ ledger) ∧
    fourDeclared.cubes ⟨5⟩ = [[(1, true)], [(1, false), (3, true)]] ∧
    fourDeclared.model? ⟨5⟩ = some [(1, true)] ∧
    ∀ present : String → Bool, (fourDeclared.cubes ⟨5⟩).countP
      (fun cube => cube.covers fun level => present (fourDeclared.featureName level)) =
        if eitherEntry.meaning present then 1 else 0 := by
  obtain ⟨ledger, session, mem⟩ := session_four
  obtain ⟨_, _, exactly, _, first, _⟩ := cubes_partition session mem
  have cubes : fourDeclared.cubes eitherEntry.region = [[(1, true)], [(1, false), (3, true)]] := by decide +kernel
  rw [cubes] at first
  exact ⟨⟨ledger, session, mem⟩, cubes, first, exactly⟩

example : fourDeclared.text ⟨5⟩ = "A | !A & C" := by decide +kernel

end Diagram

end GoalCoverage
