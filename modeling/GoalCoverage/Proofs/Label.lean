import GoalCoverage.Label
import Mathlib.Data.Finset.Basic
import Mathlib.Data.Fintype.EquivFin

/-!
What labels match, alone and under guards, and what their intersections do.
-/

namespace GoalCoverage

variable {a b l : Label} {e : EdgeId} {holds : Guard → Prop}

theorem EdgeSet.contains_of_isEmpty {s : EdgeSet} (h : s.isEmpty = true) : s.contains e = false := by
  cases s with
  | only edges =>
    rw [contains, IdSet.contains_eq_false_iff]
    exact IdSet.isEmpty_iff.1 h e
  | any => cases h
  | except edges => cases h

/-- There are edges outside any finite set. -/
theorem EdgeSet.exists_contains {s : EdgeSet} (h : s.isEmpty = false) : ∃ e, s.contains e = true := by
  cases s with
  | any => exact ⟨0, rfl⟩
  | only edges =>
    have inhabited : ¬∀ e, e ∉ edges := by
      rw [← IdSet.isEmpty_iff, Bool.not_eq_true]
      exact h
    obtain ⟨e, mem⟩ := not_forall.1 inhabited
    exact ⟨e, by simpa [contains] using mem⟩
  | except edges =>
    obtain ⟨e, fresh⟩ := Infinite.exists_notMem_finset edges.toList.toFinset
    exact ⟨e, by simpa [contains, IdSet.contains] using fresh⟩

namespace Label

theorem inter_eq_some_iff :
    a.inter b = some l ↔
      (a.edges.inter b.edges).isEmpty = false ∧ l = ⟨a.edges.inter b.edges, Distinct.append a.guards b.guards⟩ := by
  rw [inter]
  split
  next none => simp [none]
  next inhabited => simp [inhabited, eq_comm]

theorem contains_inter (h : a.inter b = some l) : l.contains e = (a.contains e && b.contains e) := by
  obtain ⟨-, rfl⟩ := inter_eq_some_iff.1 h
  exact EdgeSet.contains_inter a.edges b.edges e

theorem exists_inter (ha : a.contains e = true) (hb : b.contains e = true) : ∃ l, a.inter b = some l := by
  refine ⟨_, inter_eq_some_iff.2 ⟨?_, rfl⟩⟩
  by_contra none
  have apart := EdgeSet.contains_of_isEmpty (Bool.not_eq_false _ ▸ none) (e := e)
  rw [contains] at ha hb
  rw [EdgeSet.contains_inter, ha, hb] at apart
  cases apart

theorem exists_contains_of_inter (h : a.inter b = some l) : ∃ e, l.contains e = true := by
  obtain ⟨inhabited, rfl⟩ := inter_eq_some_iff.1 h
  exact EdgeSet.exists_contains inhabited

/-- An intersection names no other edges. -/
theorem mem_named_inter (h : a.inter b = some l) (mem : e ∈ l.edges.named) :
    e ∈ a.edges.named ∨ e ∈ b.edges.named := by
  obtain ⟨-, rfl⟩ := inter_eq_some_iff.1 h
  revert mem
  cases a.edges <;> cases b.edges <;> simp +contextual [EdgeSet.inter, EdgeSet.named, or_comm]

theorem mem_guards_inter_iff {g : Guard} (h : a.inter b = some l) : g ∈ l.guards ↔ g ∈ a.guards ∨ g ∈ b.guards := by
  obtain ⟨-, rfl⟩ := inter_eq_some_iff.1 h
  exact Distinct.mem_append

/-- The guards of an intersection are those of either label. -/
theorem mem_guards_inter {g : Guard} (h : a.inter b = some l) (mem : g ∈ l.guards) : g ∈ a.guards ∨ g ∈ b.guards :=
  (mem_guards_inter_iff h).1 mem

theorem not_guarded_inter (ha : a.isGuarded = false) (hb : b.isGuarded = false) (h : a.inter b = some l) :
    l.isGuarded = false := by
  obtain ⟨-, rfl⟩ := inter_eq_some_iff.1 h
  simp only [isGuarded, Bool.not_eq_false', List.isEmpty_iff] at ha hb ⊢
  rw [ha, hb]
  rfl

/-- The label matches the edge, and all its guards hold. -/
def Allows (l : Label) (holds : Guard → Prop) (e : EdgeId) : Prop := l.contains e = true ∧ ∀ g ∈ l.guards, holds g

instance [DecidablePred holds] : Decidable (l.Allows holds e) := inferInstanceAs (Decidable (_ ∧ _))

theorem allows_any : any.Allows holds e := ⟨rfl, fun _ mem => absurd mem List.not_mem_nil⟩

theorem Allows.mono {more : Guard → Prop} (imp : ∀ g, holds g → more g) (h : l.Allows holds e) : l.Allows more e :=
  ⟨h.1, fun g mem => imp g (h.2 g mem)⟩

theorem allows_true : l.Allows (fun _ => True) e ↔ l.contains e = true := by simp [Allows]

theorem allows_false : l.Allows (fun _ => False) e ↔ l.isGuarded = false ∧ l.contains e = true := by
  simp only [Allows, isGuarded, Bool.not_eq_false', List.isEmpty_iff, ← List.eq_nil_iff_forall_not_mem]
  exact and_comm

theorem allows_inter (h : a.inter b = some l) : l.Allows holds e ↔ a.Allows holds e ∧ b.Allows holds e := by
  simp only [Allows, contains_inter h, mem_guards_inter_iff h, Bool.and_eq_true, or_imp, forall_and]
  exact and_and_and_comm

theorem exists_allowed_inter_iff :
    (∃ l, a.inter b = some l ∧ l.Allows holds e) ↔ a.Allows holds e ∧ b.Allows holds e := by
  constructor
  · rintro ⟨l, common, allowed⟩
    exact (allows_inter common).1 allowed
  · rintro ⟨first, second⟩
    obtain ⟨l, common⟩ := exists_inter first.1 second.1
    exact ⟨l, common, (allows_inter common).2 ⟨first, second⟩⟩

end Label

end GoalCoverage
