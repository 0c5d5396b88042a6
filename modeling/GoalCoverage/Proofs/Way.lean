import GoalCoverage.Program
import GoalCoverage.Proofs.Pointwise
import Mathlib.Logic.Relation

/-!
Ways along a trace, by moves that may depend on the place in the trace where they are made. Where the moves of one
system are matched by moves of another one, so are its ways (`Way.simulated`), and to move side by side is to make
ways side by side (`way_pointwise`).
-/

namespace GoalCoverage

variable {α β : Type} {move : Nat → α → EdgeId → α → Prop} {n : Nat} {trace : List EdgeId} {q q' last : α}

/-- A sequence of moves along a trace, the first of them at place `n`. -/
def Way (move : Nat → α → EdgeId → α → Prop) : Nat → List EdgeId → α → α → Prop
  | _, [], q, q' => q = q'
  | n, e :: trace, q, q' => ∃ m, move n q e m ∧ Way move (n + 1) trace m q'

theorem way_concat {e : EdgeId} :
    Way move n (trace ++ [e]) q q' ↔ ∃ m, Way move n trace q m ∧ move (n + trace.length) m e q' := by
  induction trace generalizing n q with
  | nil => simp [Way]
  | cons f trace ih =>
    have place : n + (f :: trace).length = n + 1 + trace.length := by rw [List.length_cons]; omega
    simp only [List.cons_append, Way, ih, place]
    constructor
    · rintro ⟨m, step, m', way, last⟩
      exact ⟨m', ⟨m, step, way⟩, last⟩
    · rintro ⟨m', ⟨m, step, way⟩, last⟩
      exact ⟨m, step, m', way, last⟩

/-- One move, wherever and along whatever edge it is made. -/
def Advances (move : Nat → α → EdgeId → α → Prop) (q q' : α) : Prop := ∃ n e, move n q e q'

theorem Way.advances (way : Way move n trace q q') : Relation.ReflTransGen (Advances move) q q' := by
  induction trace generalizing n q with
  | nil => rw [(way : q = q')]
  | cons e trace ih =>
    obtain ⟨m, step, way⟩ := way
    exact .head ⟨n, e, step⟩ (ih way)

theorem Way.mono {more : Nat → α → EdgeId → α → Prop} (imp : ∀ n q e q', move n q e q' → more n q e q')
    (way : Way move n trace q q') : Way more n trace q q' := by
  induction trace generalizing n q with
  | nil => exact way
  | cons e trace ih =>
    obtain ⟨m, step, way⟩ := way
    exact ⟨m, imp n q e m step, ih way⟩

/-- Only moves on from which the last state can be reached have to be matched. -/
theorem Way.simulated {step : Nat → β → EdgeId → β → Prop} (stands : β → α → Prop) {i : β}
    (matched : ∀ n q e m i, stands i q → move n q e m → Relation.ReflTransGen (Advances move) m last →
      ∃ j, step n i e j ∧ stands j m)
    (start : stands i q) (way : Way move n trace q last) : ∃ j, Way step n trace i j ∧ stands j last := by
  induction trace generalizing n q i with
  | nil =>
    cases (way : q = last)
    exact ⟨i, rfl, start⟩
  | cons e trace ih =>
    obtain ⟨m, taken, way⟩ := way
    obtain ⟨k, there, stands'⟩ := matched n q e m i start taken way.advances
    obtain ⟨j, rest, found⟩ := ih stands' way
    exact ⟨j, ⟨k, there, rest⟩, found⟩

/-- Moving pointwise is to make ways side by side. -/
theorem way_pointwise {R : β → Nat → α → EdgeId → α → Prop} {joint : Nat → List α → EdgeId → List α → Prop}
    {bs : List β} (joint_iff : ∀ (n : Nat) (qs qs' : List α) (e : EdgeId), bs.length = qs.length →
      (joint n qs e qs' ↔ Pointwise (fun b q q' => R b n q e q') bs qs qs'))
    {qs qs' : List α} (length : bs.length = qs.length) :
    Way joint n trace qs qs' ↔ Pointwise (fun b q q' => Way (R b) n trace q q') bs qs qs' := by
  induction trace generalizing n qs with
  | nil => exact (Pointwise.eq_iff length).symm
  | cons e trace ih =>
    simp only [Way]
    rw [← Pointwise.comp_iff]
    apply exists_congr
    intro m
    rw [joint_iff n qs m e length]
    apply and_congr_right
    intro moved
    exact ih moved.length_right

end GoalCoverage
