import Mathlib.Data.List.Forall2

/-!
Relations between lists of one length, member by member. Components of a product move pointwise, and so
do the observers of an explorer.
-/

namespace GoalCoverage

inductive Pointwise {α β γ : Type} (R : α → β → γ → Prop) : List α → List β → List γ → Prop
  | nil : Pointwise R [] [] []
  | cons {a : α} {b : β} {c : γ} {as : List α} {bs : List β} {cs : List γ} :
    R a b c → Pointwise R as bs cs → Pointwise R (a :: as) (b :: bs) (c :: cs)

namespace Pointwise

variable {α β γ δ : Type} {R : α → β → γ → Prop} {as : List α} {bs : List β} {cs : List γ}

theorem mono {S : α → β → γ → Prop} (h : Pointwise R as bs cs) (imp : ∀ a b c, R a b c → S a b c) :
    Pointwise S as bs cs := by
  induction h with
  | nil => exact .nil
  | cons first _ ih => exact .cons (imp _ _ _ first) ih

theorem length_left (h : Pointwise R as bs cs) : as.length = bs.length := by
  induction h with
  | nil => rfl
  | cons _ _ ih => simp [ih]

theorem length_right (h : Pointwise R as bs cs) : as.length = cs.length := by
  induction h with
  | nil => rfl
  | cons _ _ ih => simp [ih]

theorem iff_zip (length : as.length = bs.length) :
    Pointwise R as bs cs ↔ List.Forall₂ (fun p c => R p.1 p.2 c) (as.zip bs) cs := by
  constructor
  · intro h
    induction h with
    | nil => exact .nil
    | cons first _ ih => exact .cons first (ih (by simpa using length))
  · intro h
    induction as generalizing bs cs with
    | nil =>
      have none : bs = [] := List.length_eq_zero_iff.1 length.symm
      subst none
      cases h
      exact .nil
    | cons a as ih =>
      cases bs with
      | nil => simp at length
      | cons b bs =>
        cases h with
        | cons first rest => exact .cons first (ih (by simpa using length) rest)

/-- Two steps after each other, pointwise. -/
theorem comp_iff {S : α → γ → δ → Prop} {ds : List δ} :
    (∃ cs, Pointwise R as bs cs ∧ Pointwise S as cs ds) ↔
      Pointwise (fun a b d => ∃ c, R a b c ∧ S a c d) as bs ds := by
  constructor
  · rintro ⟨cs, first, second⟩
    induction first generalizing ds with
    | nil =>
      cases second
      exact .nil
    | cons step _ ih =>
      cases second with
      | cons next rest => exact .cons ⟨_, step, next⟩ (ih rest)
  · intro h
    induction h with
    | nil => exact ⟨[], .nil, .nil⟩
    | cons step _ ih =>
      obtain ⟨c, here, there⟩ := step
      obtain ⟨cs, first, second⟩ := ih
      exact ⟨c :: cs, .cons here first, .cons there second⟩

theorem eq_iff {bs cs : List β} (length : as.length = bs.length) :
    Pointwise (fun _ b c => b = c) as bs cs ↔ bs = cs := by
  constructor
  · intro h
    induction h with
    | nil => rfl
    | cons first _ ih => rw [first, ih (by simpa using length)]
  · rintro rfl
    induction as generalizing bs with
    | nil =>
      have none : bs = [] := List.length_eq_zero_iff.1 length.symm
      subst none
      exact .nil
    | cons a as ih =>
      cases bs with
      | nil => simp at length
      | cons b bs => exact .cons rfl (ih (by simpa using length))

theorem map_iff {f : α → β} :
    Pointwise R as (as.map f) cs ↔ List.Forall₂ (fun a c => R a (f a) c) as cs := by
  constructor
  · intro h
    generalize image : as.map f = bs at h
    induction h with
    | nil => exact .nil
    | cons first _ ih =>
      obtain ⟨rfl, rest⟩ := List.cons.inj image
      exact .cons first (ih rest)
  · intro h
    induction h with
    | nil => exact .nil
    | cons first _ ih => exact .cons first ih

theorem exists_of_mem_left (h : Pointwise R as bs cs) {a : α} (mem : a ∈ as) :
    ∃ b c, (b, c) ∈ bs.zip cs ∧ R a b c := by
  induction h with
  | nil => cases mem
  | @cons a' b' c' as bs cs first rest ih =>
    cases List.mem_cons.1 mem with
    | inl same =>
      subst same
      exact ⟨b', c', by simp, first⟩
    | inr later =>
      obtain ⟨b, c, mem, holds⟩ := ih later
      exact ⟨b, c, by simp [mem], holds⟩

theorem of_forall₂ (h : List.Forall₂ (fun a b => ∃ c, R a b c) as bs) : ∃ cs, Pointwise R as bs cs := by
  induction h with
  | nil => exact ⟨[], .nil⟩
  | cons first _ ih =>
    obtain ⟨c, holds⟩ := first
    obtain ⟨cs, rest⟩ := ih
    exact ⟨c :: cs, .cons holds rest⟩

theorem forget_left (h : Pointwise R as bs cs) : List.Forall₂ (fun b c => ∃ a, R a b c) bs cs := by
  induction h with
  | nil => exact .nil
  | cons first _ ih => exact .cons ⟨_, first⟩ ih

end Pointwise

theorem mem_zip_map {α β : Type} {f : α → β} {as : List α} {a : α} (mem : a ∈ as) :
    (a, f a) ∈ as.zip (as.map f) := by
  induction as with
  | nil => cases mem
  | cons b as ih =>
    cases List.mem_cons.1 mem with
    | inl same => simp [same]
    | inr later => simp [ih later]

/-- One choice for every member of a list, with a given one at a given place. -/
theorem exists_choice {α β : Type} {R : α → β → Prop} {as : List α} {a₀ : α} {b₀ : β} (here : R a₀ b₀)
    (each : ∀ a ∈ as, ∃ b, R a b) : ∃ choice : α → β, (∀ a ∈ as, R a (choice a)) ∧ choice a₀ = b₀ := by
  have anywhere : ∀ a, ∃ b, (a ∈ as → R a b) ∧ (a = a₀ → b = b₀) := by
    intro a
    by_cases same : a = a₀
    · subst same
      exact ⟨b₀, fun _ => here, fun _ => rfl⟩
    · by_cases mem : a ∈ as
      · obtain ⟨b, holds⟩ := each a mem
        exact ⟨b, fun _ => holds, fun h => absurd h same⟩
      · exact ⟨b₀, fun h => absurd h mem, fun h => absurd h same⟩
  choose choice spec using anywhere
  exact ⟨choice, fun a => (spec a).1, (spec a₀).2 rfl⟩

theorem exists_of_forall₂_right {α β : Type} {R : α → β → Prop} {as : List α} {bs : List β} {b : β}
    (h : List.Forall₂ R as bs) (mem : b ∈ bs) : ∃ a ∈ as, R a b := by
  induction h with
  | nil => cases mem
  | @cons a b' as bs first rest ih =>
    cases List.mem_cons.1 mem with
    | inl same => exact ⟨a, by simp, same ▸ first⟩
    | inr later =>
      obtain ⟨a, here, holds⟩ := ih later
      exact ⟨a, by simp [here], holds⟩

end GoalCoverage
