import GoalCoverage.Proofs.Distinct
import GoalCoverage.Proofs.Label
import Mathlib.Data.Option.Basic

/-!
Intersections of labels as an algebra. They match what both labels match, under the guards of both, and fail when
there is nothing to match, since outside any finite set there are edges. Edge sets are kept in a canonical form, so
the order of the labels shows in the order of the guards only, and their grouping does not show (`inter_exact`).
-/

namespace GoalCoverage

namespace EdgeSet

variable {s t : EdgeSet}

/-- The only sets without edges are those that are known to be empty. -/
theorem isEmpty_iff : s.isEmpty = true ↔ ∀ e, s.contains e = false := by
  constructor
  · intro empty e
    exact contains_of_isEmpty empty
  · intro none
    by_contra inhabited
    obtain ⟨e, found⟩ := exists_contains (Bool.eq_false_iff.2 inhabited)
    rw [none e] at found
    cases found

theorem isEmpty_inter_left (empty : s.isEmpty = true) : (s.inter t).isEmpty = true := by
  rw [isEmpty_iff] at empty ⊢
  intro e
  rw [contains_inter, empty, Bool.false_and]

theorem inter_comm (s t : EdgeSet) : s.inter t = t.inter s := by
  -- In every case both sides are the same kind of set, over the same edges.
  cases s <;> cases t <;> try rfl
  all_goals
    simp only [inter, only.injEq, except.injEq]
    apply IdSet.ext_mem
    intro e
    simp only [IdSet.mem_inter, IdSet.mem_union, and_comm, or_comm]

theorem inter_assoc (s t u : EdgeSet) : (s.inter t).inter u = s.inter (t.inter u) := by
  cases s <;> cases t <;> cases u <;> try rfl
  all_goals
    simp only [inter, only.injEq, except.injEq]
    apply IdSet.ext_mem
    intro e
    simp only [IdSet.mem_inter, IdSet.mem_union, IdSet.mem_diff]
    tauto

end EdgeSet

namespace Label

variable {a b l : Label}

/-- What a label is that stands for two labels at once. -/
structure IsInter (a b l : Label) : Prop where
  contains : ∀ e, l.contains e = true ↔ a.contains e = true ∧ b.contains e = true
  guards : ∀ g, g ∈ l.guards ↔ g ∈ a.guards ∨ g ∈ b.guards
  /-- Of the second label's guards only those are added that the first one lacks, each of them once. -/
  added : ∃ added, l.guards = a.guards ++ added ∧ added.Nodup ∧ ∀ g ∈ added, g ∉ a.guards

/-- The same edges under the same guards. -/
def Same (l m : Label) : Prop := l.edges = m.edges ∧ ∀ g, g ∈ l.guards ↔ g ∈ m.guards

theorem isInter_inter (h : a.inter b = some l) : IsInter a b l where
  contains e := by rw [contains_inter h, Bool.and_eq_true]
  guards g := mem_guards_inter_iff h
  added := by
    obtain ⟨-, rfl⟩ := inter_eq_some_iff.1 h
    refine ⟨_, Distinct.append_eq _ _, (Distinct.nodup_ofList _).filter _, ?_⟩
    intro g mem
    simpa using (List.mem_filter.1 mem).2

theorem inter_eq_none_iff : a.inter b = none ↔ ∀ e, ¬(a.contains e = true ∧ b.contains e = true) := by
  constructor
  · intro none e both
    obtain ⟨l, found⟩ := exists_inter both.1 both.2
    rw [none] at found
    cases found
  · intro apart
    by_contra found
    obtain ⟨l, found⟩ := Option.ne_none_iff_exists'.1 found
    obtain ⟨e, mem⟩ := exists_contains_of_inter found
    exact apart e (((isInter_inter found).contains e).1 mem)

/-- The order of two labels shows in the order of the guards only. -/
theorem same_inter (a b : Label) : Option.Rel Same (a.inter b) (b.inter a) := by
  rw [inter, inter, EdgeSet.inter_comm b.edges a.edges]
  split
  next => exact .none
  next =>
    refine .some ⟨rfl, fun g => ?_⟩
    simp only [Distinct.mem_append, or_comm]

theorem inter_bind (a b c : Label) :
    ((a.inter b).bind fun l => l.inter c) =
      if ((a.edges.inter b.edges).inter c.edges).isEmpty then none
      else some ⟨(a.edges.inter b.edges).inter c.edges, Distinct.append (Distinct.append a.guards b.guards) c.guards⟩ := by
  rw [inter]
  split
  next empty => rw [if_pos (EdgeSet.isEmpty_inter_left empty), Option.bind_none]
  next => rw [Option.bind_some, inter]

theorem bind_inter (a b c : Label) :
    ((b.inter c).bind fun l => a.inter l) =
      if (a.edges.inter (b.edges.inter c.edges)).isEmpty then none
      else some ⟨a.edges.inter (b.edges.inter c.edges), Distinct.append a.guards (Distinct.append b.guards c.guards)⟩ := by
  rw [inter]
  split
  next empty =>
    rw [EdgeSet.inter_comm a.edges, if_pos (EdgeSet.isEmpty_inter_left empty), Option.bind_none]
  next => rw [Option.bind_some, inter]

/-- The grouping of three labels does not show. -/
theorem inter_assoc (a b c : Label) :
    ((a.inter b).bind fun l => l.inter c) = (b.inter c).bind fun l => a.inter l := by
  rw [inter_bind, bind_inter, EdgeSet.inter_assoc, Distinct.append_assoc]

/--
An intersection matches what both labels match under the guards of both, and there is none only if they have no edge
in common. Neither the order nor the grouping of labels changes the edges and the guards of their intersection.
-/
theorem inter_exact (a b c : Label) :
    (∀ l, a.inter b = some l → IsInter a b l) ∧
      (a.inter b = none ↔ ∀ e, ¬(a.contains e = true ∧ b.contains e = true)) ∧
      Option.Rel Same (a.inter b) (b.inter a) ∧
      ((a.inter b).bind fun l => l.inter c) = (b.inter c).bind fun l => a.inter l :=
  ⟨fun _ => isInter_inter, inter_eq_none_iff, same_inter a b, inter_assoc a b c⟩

end Label

end GoalCoverage
