import GoalCoverage.Proofs.Suite.Recording

/-!
How suites develop, whatever is recorded in them: what is covered or infeasible stays so, and what is open of a goal
only gets less.
-/

namespace GoalCoverage

namespace Diagram

variable {α β : Type} {d d' : Diagram} {r : Region}

section Rules

variable {m : Regional α} {k : α → Regional β} {a : α} {b : β}

theorem pure_eq_ok {a' : α} : (pure a : Regional α) d = .ok (a', d') ↔ a = a' ∧ d = d' := by
  have same : (pure a : Regional α) d = .ok (a, d) := rfl
  rw [same, Except.ok.injEq, Prod.mk.injEq]

theorem bind_eq_ok : (m >>= k) d = .ok (b, d') ↔ ∃ a d₁, m d = .ok (a, d₁) ∧ k a d₁ = .ok (b, d') := by
  simp only [bind, StateT.bind, Except.bind]
  cases m d with
  | ok r => exact ⟨fun h => ⟨r.1, r.2, rfl, h⟩, fun ⟨_, _, same, h⟩ => by cases same; exact h⟩
  | error v => simp

theorem lift_bind_eq_ok {e : Except Violation α} :
    ((monadLift e : Regional α) >>= k) d = .ok (b, d') ↔ ∃ a, e = .ok a ∧ k a d = .ok (b, d') := by
  cases e with
  | ok a =>
    have same : ((monadLift (Except.ok a : Except Violation α) : Regional α) >>= k) d = k a d := rfl
    simp [same]
  | error v =>
    have same : ((monadLift (Except.error v : Except Violation α) : Regional α) >>= k) d = .error v := rfl
    simp [same]

theorem state_bind_eq_ok {m : StateM Diagram α} :
    ((monadLift m : Regional α) >>= k) d = .ok (b, d') ↔ k (m d).1 (m d).2 = .ok (b, d') := Iff.rfl

end Rules

/-- Nothing is left of a region without itself. -/
theorem without_self (wf : d.WellFormed) (has : d.Has r) : (without r r d).1 = .empty := by
  obtain ⟨_, ready, has', holds⟩ := without_yields wf has has
  rw [← Region.isEmpty_iff, (ready rfl).isEmpty_iff_holds has']
  intro c
  rw [holds]
  simp

end Diagram

namespace Goal

variable {γ γ' γ'' : Goal}

/-- The goal after something was recorded of it. -/
structure Narrows (γ γ' : Goal) : Prop where
  same : γ.SameAs γ'
  closed : γ.remaining = some .empty → γ'.remaining = some .empty

theorem Narrows.refl (γ : Goal) : γ.Narrows γ := ⟨.refl γ, fun h => h⟩

theorem Narrows.trans (first : γ.Narrows γ') (second : γ'.Narrows γ'') : γ.Narrows γ'' :=
  ⟨first.same.trans second.same, fun h => second.closed (first.closed h)⟩

end Goal

namespace Suite

open Diagram

variable {s s' s'' : Suite} {d d' d'' : Diagram} {i j n : Nat} {c : Configuration} {γ γ' : Goal} {r : Region}
  {region : Option Region}
  {covers covers' excludes excludes' : Nat → Prop}

theorem resolved_of_plain (plain : s.variability = false) :
    s.resolved i = true ↔ s.isPartiallyCovered i = true ∨ i ∈ s.infeasible := by
  simp [Suite.resolved, plain, isInfeasible, IdSet.contains_iff]

theorem leaves_of_plain (plain : s.variability = false) : s.Leaves d i c ↔ s.resolved i = false := by
  simp [Leaves, plain]

theorem leaves_of_tracked (tracks : s.variability = true) :
    s.Leaves d i c ↔ ∃ γ, s.goals.get? i = some γ ∧ d.holds γ.openRegion c = true := by
  simp [Leaves, tracks]

/-- Goals are kept under their indices, and their regions belong to the diagram. -/
structure Drawn (s : Suite) (d : Diagram) : Prop where
  index : ∀ i γ, s.goals.get? i = some γ → γ.index = i
  opened : s.variability = true → ∀ i γ, s.goals.get? i = some γ → ∃ r, γ.remaining = some r ∧ d.Has r
  excluded : s.variability = true → ∀ i γ, s.goals.get? i = some γ → d.Knows γ.infeasible
  ready : d.Ready s.variability

/-- Nothing changes for a suite when the diagram grows. -/
theorem Drawn.extends (drawn : s.Drawn d) (ext : s.variability = true → d.Extends d') (ready : d'.Ready s.variability) :
    s.Drawn d' where
  index := drawn.index
  opened tracks i γ here := by
    obtain ⟨r, left, has⟩ := drawn.opened tracks i γ here
    exact ⟨r, left, (ext tracks).has has⟩
  excluded tracks i γ here := (ext tracks).knows (drawn.excluded tracks i γ here)
  ready := ready

/-- The same is open. -/
theorem Drawn.leaves_extends (drawn : s.Drawn d) (ext : s.variability = true → d.Extends d') :
    s.Leaves d' i c ↔ s.Leaves d i c := by
  cases tracks : s.variability with
  | true =>
    rw [leaves_of_tracked tracks, leaves_of_tracked tracks]
    apply exists_congr
    intro γ
    apply and_congr_right
    intro here
    obtain ⟨r, left, has⟩ := drawn.opened tracks i γ here
    rw [Goal.openRegion, left, Option.getD_some, (ext tracks).holds_eq (drawn.ready tracks) has]
  | false => rw [leaves_of_plain tracks, leaves_of_plain tracks]

theorem Drawn.resolved_iff (drawn : s.Drawn d) (here : s.goals.get? i = some γ) :
    s.resolved i = true ↔ ∀ c, ¬s.Leaves d i c := by
  cases tracks : s.variability with
  | false => simp [Leaves, tracks]
  | true =>
    obtain ⟨r, left, has⟩ := drawn.opened tracks i γ here
    have empty := (drawn.ready tracks).isEmpty_iff_holds has
    simp [Leaves, Suite.resolved, tracks, here, left, Goal.openRegion, empty]

/-- `s'` comes after `s`; only goals in `covers` were covered since, and only goals in `excludes` found infeasible. -/
structure Develops (covers excludes : Nat → Prop) (s : Suite) (d : Diagram) (s' : Suite) (d' : Diagram) : Prop where
  drawn : s'.Drawn d'
  leaves : ∀ i c, s'.Leaves d' i c → s.Leaves d i c
  grows : s.variability = true → d.Extends d'
  variability : s'.variability = s.variability
  timedOut : s'.timedOut = s.timedOut
  kept : ∀ i γ', s'.goals.get? i = some γ' → ∃ γ, s.goals.get? i = some γ ∧ γ.Narrows γ'
  known : ∀ i γ, s.goals.get? i = some γ → ∃ γ', s'.goals.get? i = some γ'
  lists : ∀ i n, s.Lists i n → s'.Lists i n
  covered : ∀ i n, s'.Lists i n → s.Lists i n ∨ covers i
  infeasible : ∀ i, i ∈ s.infeasible → i ∈ s'.infeasible
  excluded : ∀ i, i ∈ s'.infeasible → i ∈ s.infeasible ∨ excludes i

namespace Develops

theorem refl (drawn : s.Drawn d) : Develops covers excludes s d s d where
  drawn := drawn
  leaves _ _ h := h
  grows _ := .refl d
  variability := rfl
  timedOut := rfl
  kept _ γ' known := ⟨γ', known, .refl γ'⟩
  known _ γ known := ⟨γ, known⟩
  lists _ _ h := h
  covered _ _ h := .inl h
  infeasible _ h := h
  excluded _ h := .inl h

theorem trans (first : Develops covers excludes s d s' d') (second : Develops covers excludes s' d' s'' d'') :
    Develops covers excludes s d s'' d'' where
  drawn := second.drawn
  leaves i c h := first.leaves i c (second.leaves i c h)
  grows tracks := (first.grows tracks).trans (second.grows (first.variability.trans tracks))
  variability := second.variability.trans first.variability
  timedOut := second.timedOut.trans first.timedOut
  kept i γ'' known := by
    obtain ⟨γ', here', narrows'⟩ := second.kept i γ'' known
    obtain ⟨γ, here, narrows⟩ := first.kept i γ' here'
    exact ⟨γ, here, narrows.trans narrows'⟩
  known i γ here := by
    obtain ⟨γ', here'⟩ := first.known i γ here
    exact second.known i γ' here'
  lists i n h := second.lists i n (first.lists i n h)
  covered i n h := (second.covered i n h).elim (first.covered i n) .inr
  infeasible i h := second.infeasible i (first.infeasible i h)
  excluded i h := (second.excluded i h).elim (first.excluded i) .inr

theorem mono (h : Develops covers excludes s d s' d') (wider : ∀ i, covers i → covers' i)
    (wider' : ∀ i, excludes i → excludes' i) : Develops covers' excludes' s d s' d' :=
  { h with
    covered := fun i n lists => (h.covered i n lists).imp_right (wider i)
    excluded := fun i mem => (h.excluded i mem).imp_right (wider' i) }

theorem isPartiallyCovered (h : Develops covers excludes s d s' d') (covered : s.isPartiallyCovered i = true) :
    s'.isPartiallyCovered i = true := by
  rw [isPartiallyCovered_iff] at covered ⊢
  exact covered.imp fun n => h.lists i n

/-- What is resolved stays resolved. -/
theorem resolved (h : Develops covers excludes s d s' d') (drawn : s.Drawn d) (resolved : s.resolved i = true) :
    s'.resolved i = true := by
  rw [Suite.resolved] at resolved
  rw [Suite.resolved, h.variability]
  split at resolved
  next tracks =>
    obtain ⟨γ, known, closed⟩ := (Option.any_eq_true _ _).1 resolved
    obtain ⟨r, left, _⟩ := drawn.opened tracks i γ known
    obtain ⟨γ', known'⟩ := h.known i γ known
    obtain ⟨γ₀, here, narrows⟩ := h.kept i γ' known'
    cases known.symm.trans here
    have empty : r = .empty := by simpa [left] using closed
    simp [tracks, known', narrows.closed (empty ▸ left)]
  next tracks =>
    rw [Bool.or_eq_true] at resolved
    rw [if_neg tracks, Bool.or_eq_true]
    exact resolved.imp h.isPartiallyCovered fun mem =>
      IdSet.contains_iff.2 (h.infeasible i (IdSet.contains_iff.1 mem))

end Develops

/-- No goal is covered and infeasible. -/
def Exclusive (s : Suite) : Prop := ∀ i, s.isPartiallyCovered i = true → i ∉ s.infeasible

/-- Without configurations, a step that only covers or only excludes goals that were not resolved keeps verdicts apart. -/
theorem Develops.exclusive (h : Develops covers excludes s d s' d') (plain : s.variability = false) (exclusive : s.Exclusive)
    (covered : ∀ i, covers i → s.resolved i = false) (excluded : ∀ i, excludes i → s.resolved i = false)
    (either : (∀ i, ¬covers i) ∨ ∀ i, ¬excludes i) : s'.Exclusive := by
  intro i now marked
  have fresh : s.resolved i = false → ¬s.isPartiallyCovered i = true ∧ i ∉ s.infeasible := by
    intro open'
    rw [← not_or, ← resolved_of_plain plain, open']
    simp
  have before : s.isPartiallyCovered i = true ∨ covers i := by
    rw [isPartiallyCovered_iff] at now ⊢
    obtain ⟨n, lists⟩ := now
    exact (h.covered i n lists).imp_left fun old => ⟨n, old⟩
  cases before with
  | inl before =>
    cases h.excluded i marked with
    | inl old => exact exclusive i before old
    | inr new => exact (fresh (excluded i new)).1 before
  | inr new =>
    cases h.excluded i marked with
    | inl old => exact (fresh (covered i new)).2 old
    | inr new' => exact either.elim (fun none => none i new) fun none => none i new'

/-- Books are kept beside the goals. -/
theorem develops_of_books (drawn : s.Drawn d) (goals : s'.goals = s.goals) (variability : s'.variability = s.variability)
    (timedOut : s'.timedOut = s.timedOut) (lists : ∀ j n, s.Lists j n → s'.Lists j n)
    (covered : ∀ j n, s'.Lists j n → s.Lists j n ∨ covers j) (infeasible : ∀ j, j ∈ s.infeasible → j ∈ s'.infeasible)
    (excluded : ∀ j, j ∈ s'.infeasible → j ∈ s.infeasible ∨ excludes j) : Develops covers excludes s d s' d where
  drawn := ⟨goals ▸ drawn.index, goals ▸ variability ▸ drawn.opened, goals ▸ variability ▸ drawn.excluded,
    variability ▸ drawn.ready⟩
  leaves j c h := by
    cases tracks : s.variability with
    | true =>
      rw [leaves_of_tracked tracks, ← goals]
      exact (leaves_of_tracked (variability.trans tracks)).1 h
    | false =>
      rw [leaves_of_plain (variability.trans tracks), ← Bool.not_eq_true, resolved_of_plain (variability.trans tracks),
        isPartiallyCovered_iff] at h
      rw [leaves_of_plain tracks, ← Bool.not_eq_true, resolved_of_plain tracks, isPartiallyCovered_iff]
      exact fun closed => h (Or.imp (Exists.imp (lists j)) (infeasible j) closed)
  grows _ := .refl d
  variability := variability
  timedOut := timedOut
  kept _ γ' known := ⟨γ', goals ▸ known, .refl γ'⟩
  known _ γ known := ⟨γ, goals ▸ known⟩
  lists := lists
  covered := covered
  infeasible := infeasible
  excluded := excluded

/-- A goal is replaced; if configurations are tracked, a region was taken from what was open of it. -/
theorem develops_setGoal (drawn : s.Drawn d) (here : s.goals.get? i = some γ) (same : γ.SameAs γ')
    (left : s.variability = true → γ'.remaining = some (without γ.openRegion r d).1 ∧ d' = (without γ.openRegion r d).2)
    (kept : s.variability = false → γ'.remaining = γ.remaining ∧ d' = d) (has : s.variability = true → d.Has r)
    (known : s.variability = true → d.Knows γ'.infeasible) : Develops covers excludes s d (s.setGoal γ') d' := by
  have index : γ'.index = i := same.index.trans (drawn.index i γ here)
  have goals : ∀ j, (s.setGoal γ').goals.get? j = if j = i then some γ' else s.goals.get? j := by
    intro j
    rw [setGoal, IdMap.get?_insert, index]
  have rest : s.variability = true → d.Extends d' ∧ d'.WellFormed ∧ ∃ r, γ'.remaining = some r ∧ d'.Has r ∧
      ∀ c, d'.holds r c = true → d.holds γ.openRegion c = true := by
    intro tracks
    obtain ⟨open', remaining, has'⟩ := drawn.opened tracks i γ here
    have opened : d.Has γ.openRegion := by
      rw [Goal.openRegion, remaining]
      exact has'
    obtain ⟨remaining', rfl⟩ := left tracks
    obtain ⟨ext, ready, has'', holds⟩ := without_yields (drawn.ready tracks) opened (has tracks)
    refine ⟨ext, ready rfl, _, remaining', has'', fun c open' => ?_⟩
    rw [holds c, Bool.and_eq_true] at open'
    exact open'.1
  have narrows : γ.Narrows γ' := by
    refine ⟨same, fun empty => ?_⟩
    cases tracks : s.variability with
    | true =>
      rw [(left tracks).1, Goal.openRegion, empty]
      rfl
    | false => exact (kept tracks).1.trans empty
  refine ⟨⟨fun j γ₁ known => ?_, fun tracks j γ₁ known => ?_, fun tracks j γ₁ known' => ?_, fun tracks => (rest tracks).2.1⟩,
    fun j c open' => ?_, fun tracks => (rest tracks).1, rfl, rfl, fun j γ₁ known => ?_, fun j γ₁ known => ?_, fun _ _ h => h,
    fun _ _ => .inl, fun _ h => h, fun _ => .inl⟩
  · rw [goals] at known
    split at known
    next at_i =>
      cases known
      exact at_i ▸ index
    next => exact drawn.index j γ₁ known
  · rw [goals] at known
    split at known
    next =>
      cases known
      obtain ⟨_, _, r', remaining, has', _⟩ := rest tracks
      exact ⟨r', remaining, has'⟩
    next =>
      obtain ⟨r₁, remaining, has₁⟩ := drawn.opened tracks j γ₁ known
      exact ⟨r₁, remaining, (rest tracks).1.has has₁⟩
  · rw [goals] at known'
    apply (rest tracks).1.knows
    split at known'
    next =>
      cases known'
      exact known tracks
    next => exact drawn.excluded tracks j γ₁ known'
  · cases tracks : s.variability with
    | true =>
      obtain ⟨ext, _, r', remaining, _, narrowed⟩ := rest tracks
      have tracked : (s.setGoal γ').variability = true := tracks
      obtain ⟨γ₁, known₁, holds⟩ := (leaves_of_tracked tracked).1 open'
      rw [leaves_of_tracked tracks]
      rw [goals] at known₁
      split at known₁
      next same =>
        cases known₁
        rw [Goal.openRegion, remaining] at holds
        exact ⟨γ, same ▸ here, narrowed c holds⟩
      next =>
        obtain ⟨r₁, remaining₁, has₁⟩ := drawn.opened tracks j γ₁ known₁
        refine ⟨γ₁, known₁, ?_⟩
        rw [Goal.openRegion, remaining₁, Option.getD_some] at holds ⊢
        rwa [ext.holds_eq (drawn.ready tracks) has₁] at holds
    | false =>
      have plain : (s.setGoal γ').variability = false := tracks
      rw [leaves_of_plain plain, ← Bool.not_eq_true, resolved_of_plain plain] at open'
      rw [leaves_of_plain tracks, ← Bool.not_eq_true, resolved_of_plain tracks]
      exact open'
  · rw [goals] at known
    split at known
    next at_i =>
      cases known
      exact ⟨γ, at_i ▸ here, narrows⟩
    next => exact ⟨γ₁, known, .refl γ₁⟩
  · rw [goals]
    split
    next => exact ⟨γ', rfl⟩
    next => exact ⟨γ₁, known⟩

theorem goal_of_eq_ok (ok : s.goal i = .ok γ) : s.goals.get? i = some γ := by
  rw [goal] at ok
  split at ok
  next here =>
    cases ok
    exact here
  next => cases ok

theorem has_getD (ready : d.Ready s.variability) (known : s.variability = true → d.Knows region) :
    s.variability = true → d.Has (region.getD .all) := by
  intro tracks
  cases region with
  | none => exact (ready tracks).has_all
  | some r => exact known tracks r rfl

theorem lists_insert {m : IdMap IdSet} (same : m = s.coveredBy.insert i ((s.coveredBy.getD i ∅).insert n)) (j t : Nat) :
    (∃ ids, m.get? j = some ids ∧ t ∈ ids) ↔ s.Lists j t ∨ j = i ∧ n = t := by
  rw [same, IdMap.get?_insert, Lists]
  split
  next is =>
    subst is
    simp only [Option.some.injEq, exists_eq_left', IdSet.mem_insert, IdMap.getD, true_and]
    cases s.coveredBy.get? j with
    | none => simp [eq_comm]
    | some ids => simp [eq_comm, or_comm]
  next other => simp [other]

/-- How coverage is recorded, if it is. -/
theorem recordCoverage_eq_ok (ok : s.recordCoverage n i region d = .ok (s', d')) : ∃ γ γ', s.goals.get? i = some γ ∧
    γ.SameAs γ' ∧ γ'.infeasible = γ.infeasible ∧
    γ'.covering = γ.covering.insert n (if s.variability then some (region.getD .all) else none) ∧
    s' = ({ s with coveredBy := s.coveredBy.insert i ((s.coveredBy.getD i ∅).insert n) }.predict i .feasible).setGoal γ' ∧
    (s.variability = true → γ'.remaining = some (without γ.openRegion (region.getD .all) d).1 ∧
      d' = (without γ.openRegion (region.getD .all) d).2) ∧
    (s.variability = false → γ'.remaining = γ.remaining ∧ d' = d) := by
  simp only [recordCoverage] at ok
  split at ok
  next => cases ok
  next =>
    rw [lift_bind_eq_ok] at ok
    obtain ⟨γ, found, ok⟩ := ok
    have here : s.goals.get? i = some γ := goal_of_eq_ok found
    split at ok
    next tracked =>
      have tracks : s.variability = true := tracked
      rw [state_bind_eq_ok, pure_eq_ok] at ok
      obtain ⟨rfl, rfl⟩ := ok
      let γ' : Goal := { γ with
        remaining := some (without γ.openRegion (region.getD .all) d).1
        covering := γ.covering.insert n (some (region.getD .all)) }
      exact ⟨γ, γ', here, ⟨rfl, rfl, rfl, rfl, rfl⟩, rfl, by rw [if_pos tracks], rfl, fun _ => ⟨rfl, rfl⟩, by simp [tracks]⟩
    next plain =>
      have tracks : ¬s.variability = true := plain
      rw [pure_eq_ok] at ok
      obtain ⟨rfl, rfl⟩ := ok
      exact ⟨γ, { γ with covering := γ.covering.insert n none }, here, ⟨rfl, rfl, rfl, rfl, rfl⟩, rfl,
        by rw [if_neg tracks], rfl, fun h => absurd h tracks, fun _ => ⟨rfl, rfl⟩⟩

/-- What recording coverage does, if it succeeds. -/
theorem recordCoverage_develops (drawn : s.Drawn d) (known : s.variability = true → d.Knows region)
    (ok : s.recordCoverage n i region d = .ok (s', d')) :
    Develops (· = i) (fun _ => False) s d s' d' ∧ s'.testCases = s.testCases := by
  obtain ⟨γ, γ', here, same, infeasible, _, rfl, left, kept⟩ := recordCoverage_eq_ok ok
  let booking : Suite := { s with coveredBy := s.coveredBy.insert i ((s.coveredBy.getD i ∅).insert n) }.predict i .feasible
  have listed : ∀ j t, booking.Lists j t ↔ s.Lists j t ∨ j = i ∧ n = t := lists_insert rfl
  have booked : Develops (· = i) (fun _ => False) s d booking d :=
    develops_of_books drawn rfl rfl rfl (fun j t lists => (listed j t).2 (.inl lists))
      (fun j t lists => ((listed j t).1 lists).imp_right And.left) (fun _ h => h) fun _ => .inl
  exact ⟨booked.trans (develops_setGoal booked.drawn here same left kept (has_getD drawn.ready known) fun tracks =>
    infeasible ▸ drawn.excluded tracks i γ here), rfl⟩

/-- What coverage is recorded for is no longer open. -/
theorem recordCoverage_closes {c : Configuration} (drawn : s.Drawn d) (known : s.variability = true → d.Knows region)
    (ok : s.recordCoverage n i region d = .ok (s', d')) (within : s.variability = true → d.Within region c) :
    ¬s'.Leaves d' i c := by
  obtain ⟨γ, γ', here, same, _, _, rfl, left, _⟩ := recordCoverage_eq_ok ok
  let booking : Suite := { s with coveredBy := s.coveredBy.insert i ((s.coveredBy.getD i ∅).insert n) }.predict i .feasible
  have index : γ'.index = i := same.index.trans (drawn.index i γ here)
  intro open'
  cases tracks : s.variability with
  | false =>
    have plain : (booking.setGoal γ').variability = false := tracks
    have listed : (booking.setGoal γ').Lists i n := (lists_insert rfl i n).2 (.inr ⟨rfl, rfl⟩)
    have closed := (resolved_of_plain plain).2 (.inl (isPartiallyCovered_iff.2 ⟨n, listed⟩))
    exact Bool.false_ne_true (((leaves_of_plain plain).1 open').symm.trans closed)
  | true =>
    have tracked : (booking.setGoal γ').variability = true := tracks
    have now : (booking.setGoal γ').goals.get? i = some γ' := by
      rw [setGoal, IdMap.get?_insert, index, if_pos rfl]
    obtain ⟨r, remaining, has⟩ := drawn.opened tracks i γ here
    obtain ⟨remaining', rfl⟩ := left tracks
    have opened : d.Has γ.openRegion := by
      rw [Goal.openRegion, remaining]
      exact has
    obtain ⟨_, _, _, holds⟩ := without_yields (drawn.ready tracks) opened (has_getD drawn.ready known tracks)
    have covered : d.holds (region.getD .all) c = true := by
      cases region with
      | none => exact holds_all
      | some r₁ => exact within_some.1 (within tracks)
    obtain ⟨γ₁, now₁, open'⟩ := (leaves_of_tracked tracked).1 open'
    cases now.symm.trans now₁
    have left' : γ'.openRegion = (without γ.openRegion (region.getD .all) d).1 := by
      rw [Goal.openRegion, remaining', Option.getD_some]
    rw [left', holds c, covered, Bool.not_true, Bool.and_false] at open'
    exact Bool.false_ne_true open'

/-- What is known to be infeasible is taken from what is open. -/
theorem exclude_develops {u : Region} (drawn : s.Drawn d) (tracks : s.variability = true) (here : s.goals.get? i = some γ)
    (has : d.Has r) (has_u : d.Has u)
    (ok : (do
      let remaining ← Diagram.without γ.openRegion r
      return s.setGoal { γ with infeasible := some u, remaining := some remaining } : Regional Suite) d = .ok (s', d')) :
    Develops covers excludes s d s' d' ∧ s'.testCases = s.testCases ∧ s'.infeasible = s.infeasible ∧
      (γ.remaining = some r → s'.resolved i = true) := by
  rw [state_bind_eq_ok, pure_eq_ok] at ok
  obtain ⟨rfl, rfl⟩ := ok
  refine ⟨develops_setGoal drawn here ⟨rfl, rfl, rfl, rfl, rfl⟩ (fun _ => ⟨rfl, rfl⟩) (by simp [tracks]) (fun _ => has)
    fun _ => knows_some.2 has_u, rfl, rfl, fun left => ?_⟩
  have nothing : (without γ.openRegion r d).1 = .empty := by
    rw [Goal.openRegion, left]
    exact without_self (drawn.ready tracks) has
  simp [Suite.resolved, setGoal, tracks, drawn.index i γ here, nothing]

/-- What marking a goal as infeasible does, if it succeeds. -/
theorem addInfeasible_develops (drawn : s.Drawn d) (known : s.variability = true → d.Knows region)
    (ok : s.addInfeasible i region d = .ok (s', d')) :
    Develops (fun _ => False) (· = i) s d s' d' ∧ s'.testCases = s.testCases ∧ i ∈ s'.infeasible ∧
      ((s.variability = true → ∃ γ, s.goals.get? i = some γ ∧ γ.remaining = region) → s'.resolved i = true) := by
  have has := has_getD drawn.ready known
  let booking : Suite := { s with infeasible := s.infeasible.insert i }.predict i .infeasible
  have booked : Develops (fun _ => False) (· = i) s d booking d :=
    develops_of_books drawn rfl rfl rfl (fun _ _ h => h) (fun _ _ => .inl) (fun j mem => IdSet.mem_insert.2 (.inr mem))
      fun j mem => (IdSet.mem_insert.1 mem).symm
  have marked : i ∈ booking.infeasible := IdSet.mem_insert.2 (.inl rfl)
  simp only [addInfeasible] at ok
  split at ok
  next tracked =>
    have tracks : s.variability = true := tracked
    rw [lift_bind_eq_ok] at ok
    obtain ⟨γ, found, ok⟩ := ok
    have here : booking.goals.get? i = some γ := goal_of_eq_ok found
    have all_left : (s.variability = true → ∃ γ, s.goals.get? i = some γ ∧ γ.remaining = region) →
        γ.remaining = some (region.getD .all) := by
      intro left
      obtain ⟨γ', here', same⟩ := left tracks
      cases here.symm.trans here'
      obtain ⟨r, remaining, _⟩ := drawn.opened tracks i γ here
      rw [← same, remaining]
      rfl
    cases before : γ.infeasible with
    | some old =>
      simp only [before] at ok
      rw [state_bind_eq_ok] at ok
      have has_old := booked.drawn.excluded tracks i γ here old before
      obtain ⟨ext, ready, has_u, _⟩ := join_yields (drawn.ready tracks) has_old (has tracks)
      have widened : Develops (fun _ => False) (· = i) s d booking (join old (region.getD .all) d).2 :=
        { booked with
          drawn := booked.drawn.extends (fun _ => ext) fun _ => ready rfl
          leaves := fun j c open' => booked.leaves j c ((booked.drawn.leaves_extends fun _ => ext).1 open')
          grows := fun _ => ext }
      obtain ⟨develops, testCases, infeasible, resolved⟩ :=
        exclude_develops widened.drawn tracks here (ext.has (has tracks)) has_u ok
      exact ⟨widened.trans develops, testCases, infeasible ▸ marked, fun left => resolved (all_left left)⟩
    | none =>
      simp only [before] at ok
      rw [bind_eq_ok] at ok
      obtain ⟨u, d₁, same, ok⟩ := ok
      obtain ⟨rfl, rfl⟩ := pure_eq_ok.1 same
      obtain ⟨develops, testCases, infeasible, resolved⟩ :=
        exclude_develops booked.drawn tracks here (has tracks) (has tracks) ok
      exact ⟨booked.trans develops, testCases, infeasible ▸ marked, fun left => resolved (all_left left)⟩
  next plain =>
    rw [pure_eq_ok] at ok
    obtain ⟨rfl, rfl⟩ := ok
    refine ⟨booked, rfl, marked, fun _ => ?_⟩
    rw [Suite.resolved, if_neg plain, isInfeasible, IdSet.contains_iff.2 marked, Bool.or_true]

end Suite

end GoalCoverage
