import GoalCoverage.Proofs.Diagram.Choice

/-!
Computations that declare no features. With the features, the levels of all decisions stay bounded, and only
the levels up to that bound matter for a region (`WellFormed.holds_congr_le`).
-/

namespace GoalCoverage

namespace Diagram

variable {α β : Type} {d : Diagram} {f g h r : Region}

/-- `m` declares no features. -/
def Stable (m : StateM Diagram α) : Prop := ∀ d, (m d).2.features = d.features

section Rules

variable {m : StateM Diagram α} {k : α → StateM Diagram β} {l : List α}

theorem stable_pure (a : α) : Stable (pure a) := fun _ => rfl

theorem Stable.bind (first : Stable m) (next : ∀ a, Stable (k a)) : Stable (m >>= k) := fun d =>
  (next (m d).1 (m d).2).trans (first d)

theorem Stable.mapM {f : α → StateM Diagram β} (step : ∀ x, Stable (f x)) : Stable (l.mapM f) := by
  induction l with
  | nil => exact stable_pure _
  | cons x rest ih =>
    rw [List.mapM_cons]
    exact (step x).bind fun y => ih.bind fun out => stable_pure _

theorem Stable.filterMapM {f : α → StateM Diagram (Option β)} (step : ∀ x, Stable (f x)) :
    Stable (l.filterMapM f) := by
  induction l with
  | nil => exact stable_pure _
  | cons x rest ih =>
    rw [List.filterMapM_cons]
    apply (step x).bind
    intro y
    cases y with
    | none => exact ih
    | some y => exact ih.bind fun out => stable_pure _

theorem Stable.flatMapM {f : α → StateM Diagram (List β)} (step : ∀ x, Stable (f x)) : Stable (l.flatMapM f) := by
  induction l with
  | nil => exact stable_pure _
  | cons x rest ih =>
    rw [List.flatMapM_cons]
    exact (step x).bind fun y => ih.bind fun out => stable_pure _

theorem Stable.foldlM {f : β → α → StateM Diagram β} (step : ∀ b x, Stable (f b x)) (b : β) : Stable (l.foldlM f b) := by
  induction l generalizing b with
  | nil => exact stable_pure _
  | cons x rest ih =>
    rw [List.foldlM_cons]
    exact (step b x).bind ih

theorem Stable.anyM {p : α → StateM Diagram Bool} (step : ∀ x, Stable (p x)) : Stable (l.anyM p) := by
  induction l with
  | nil => exact stable_pure _
  | cons x rest ih =>
    apply (step x).bind
    intro b
    cases b with
    | true => exact stable_pure _
    | false => exact ih

theorem Stable.findM? {p : Nat → StateM Diagram Bool} {l : List Nat} (step : ∀ x, Stable (p x)) :
    Stable (l.findM? p) := by
  induction l with
  | nil => exact stable_pure _
  | cons x rest ih =>
    apply (step x).bind
    intro b
    cases b with
    | true => exact stable_pure _
    | false => exact ih

end Rules

section Operations

theorem store_stable (level : Nat) (low high : Region) : Stable (store level low high) := by
  intro d
  rw [store]
  split
  next => rfl
  next =>
    dsimp only
    split <;> rfl

theorem chooseWithin_stable (left : Nat) (f g h : Region) : Stable (chooseWithin left f g h) := by
  induction left generalizing f g h with
  | zero => exact fun _ => rfl
  | succ left ih =>
    intro d
    unfold chooseWithin
    dsimp only
    split_ifs
    · rfl
    · rfl
    · rfl
    · rfl
    · split
      next => rfl
      next =>
        -- The answer "yes", the answer "no" and the decision between them are computed one after the other.
        exact (store_stable _ _ _ _).trans ((ih _ _ _ _).trans (ih _ _ _ _))

theorem choose_stable (f g h : Region) : Stable (choose f g h) := fun d => chooseWithin_stable _ f g h d

theorem complement_stable (f : Region) : Stable (complement f) := choose_stable f .empty .all

theorem meet_stable (f g : Region) : Stable (meet f g) := choose_stable f g .empty

theorem join_stable (f g : Region) : Stable (join f g) := choose_stable f .all g

theorem without_stable (f g : Region) : Stable (without f g) :=
  (complement_stable g).bind fun rest => choose_stable f rest .empty

theorem joinAll_stable (l : List Region) : Stable (joinAll l) := .foldlM join_stable _

theorem implies_stable (f g : Region) : Stable (implies f g) := (without_stable f g).bind fun _ => stable_pure _

theorem disjoint_stable (f g : Region) : Stable (disjoint f g) := (meet_stable f g).bind fun _ => stable_pure _

end Operations

/-- Only the declared features matter. -/
theorem WellFormed.holds_congr_le {c c' : Configuration} (wf : d.WellFormed) (has : d.Has r)
    (same : ∀ l, l ≤ d.features.length → c l = c' l) : d.holds r c = d.holds r c' := by
  induction r, has using wf.region_induction with
  | empty => simp
  | all => simp
  | inner r inner has low high => rw [wf.holds_inner inner has, wf.holds_inner inner has, same _ (wf.level_le r inner has), low, high]

end Diagram

end GoalCoverage
