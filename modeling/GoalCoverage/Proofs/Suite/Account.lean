import GoalCoverage.Proofs.Diagram.Computation
import GoalCoverage.Suite

/-!
Accounts of goals. For each goal a suite covers some configurations, excludes others as infeasible, and leaves
the rest open. Without tracking all configurations are alike.
-/

namespace GoalCoverage

namespace Goal

variable {g g' g'' : Goal}

/-- What the suite never changes of a goal. -/
structure SameAs (g g' : Goal) : Prop where
  index : g'.index = g.index
  criticalEdge : g'.criticalEdge = g.criticalEdge
  cluster : g'.cluster = g.cluster
  entry : g'.entry = g.entry
  automaton : g'.automaton = g.automaton

theorem SameAs.refl (g : Goal) : g.SameAs g := ⟨rfl, rfl, rfl, rfl, rfl⟩

theorem SameAs.trans (first : g.SameAs g') (second : g'.SameAs g'') : g.SameAs g'' where
  index := second.index.trans first.index
  criticalEdge := second.criticalEdge.trans first.criticalEdge
  cluster := second.cluster.trans first.cluster
  entry := second.entry.trans first.entry
  automaton := second.automaton.trans first.automaton

/-- The configurations in the regions of the covering test cases. -/
def Covers (g : Goal) (d : Diagram) (c : Configuration) : Prop :=
  ∃ t r, g.covering.get? t = some (some r) ∧ d.holds r c = true

/-- The configurations for which the goal is known to be infeasible. -/
def Excludes (g : Goal) (d : Diagram) (c : Configuration) : Prop := ∃ r, g.infeasible = some r ∧ d.holds r c = true

end Goal

namespace Suite

variable {s : Suite} {d d' : Diagram} {i j t : Nat} {c : Configuration} {g : Goal} {batch : List Nat}

/-- The test case is recorded as covering the goal. -/
def Lists (s : Suite) (i t : Nat) : Prop := ∃ ids, s.coveredBy.get? i = some ids ∧ t ∈ ids

def Covers (s : Suite) (d : Diagram) (i : Nat) (c : Configuration) : Prop :=
  if s.variability then ∃ g, s.goals.get? i = some g ∧ g.Covers d c else ∃ t, s.Lists i t

def Excludes (s : Suite) (d : Diagram) (i : Nat) (c : Configuration) : Prop :=
  if s.variability then ∃ g, s.goals.get? i = some g ∧ g.Excludes d c else i ∈ s.infeasible

/-- Nothing is left to find out about a known goal. -/
def resolved (s : Suite) (i : Nat) : Bool :=
  if s.variability then (s.goals.get? i).any fun g => g.remaining.all (·.isEmpty)
  else s.isPartiallyCovered i || s.isInfeasible i

def Leaves (s : Suite) (d : Diagram) (i : Nat) (c : Configuration) : Prop :=
  if s.variability then ∃ g, s.goals.get? i = some g ∧ d.holds g.openRegion c = true
  else s.resolved i = false

theorem isPartiallyCovered_iff : s.isPartiallyCovered i = true ↔ ∃ t, s.Lists i t := by
  simp only [isPartiallyCovered, Option.any_eq_true, Bool.not_eq_true', IdSet.isEmpty_eq_false_iff, Lists]
  exact ⟨fun ⟨ids, known, t, mem⟩ => ⟨t, ids, known, mem⟩, fun ⟨t, ids, known, mem⟩ => ⟨ids, known, t, mem⟩⟩

/-- The regions of a suite belong to the diagram, and every account balances. -/
structure Sane (s : Suite) (d : Diagram) : Prop where
  index : ∀ i g, s.goals.get? i = some g → g.index = i
  remaining : s.variability = true → ∀ i g, s.goals.get? i = some g → ∃ r, g.remaining = some r ∧ d.Has r
  infeasible : s.variability = true → ∀ i g r, s.goals.get? i = some g → g.infeasible = some r →
    d.Has r ∧ r.isEmpty = false
  covering : s.variability = true → ∀ i g t o, s.goals.get? i = some g → g.covering.get? t = some o →
    s.Lists i t ∧ ∃ r, o = some r ∧ d.Has r
  listed : s.variability = true → ∀ i g t, s.goals.get? i = some g → s.Lists i t → ∃ o, g.covering.get? t = some o
  balance : ∀ i g c, s.goals.get? i = some g → (s.Leaves d i c ↔ ¬s.Covers d i c ∧ ¬s.Excludes d i c)

theorem goal_eq_ok (here : s.goals.get? i = some g) : s.goal i = .ok g := by
  rw [goal, here]

theorem isResolved_eq (here : s.goals.get? i = some g) : s.isResolved i = .ok (s.resolved i) := by
  rw [isResolved, resolved, goal_eq_ok here, here]
  cases s.variability <;> rfl

theorem areResolved_eq (known : ∀ i ∈ batch, ∃ g, s.goals.get? i = some g) :
    s.areResolved batch = .ok (batch.all s.resolved) := by
  induction batch with
  | nil => rfl
  | cons i rest ih =>
    obtain ⟨g, here⟩ := known i List.mem_cons_self
    have ih := ih fun j mem => known j (List.mem_cons_of_mem i mem)
    rw [areResolved, isResolved_eq here, ih, List.all_cons]
    cases s.resolved i <;> rfl

theorem unresolved_eq (known : ∀ i ∈ batch, ∃ g, s.goals.get? i = some g) :
    s.unresolved batch = .ok (batch.filter fun i => !s.resolved i) := by
  induction batch with
  | nil => rfl
  | cons i rest ih =>
    obtain ⟨g, here⟩ := known i List.mem_cons_self
    have ih := ih fun j mem => known j (List.mem_cons_of_mem i mem)
    simp only [unresolved] at ih
    rw [unresolved, List.filterMapM_cons, isResolved_eq here, ih, List.filter_cons]
    cases s.resolved i <;> rfl

/-- A goal is resolved when it is open for no configuration. -/
theorem Sane.resolved_iff (sane : s.Sane d) (ready : d.Ready s.variability) (here : s.goals.get? i = some g) :
    s.resolved i = true ↔ ∀ c, ¬s.Leaves d i c := by
  have remaining := sane.remaining
  simp only [Leaves]
  cases tracks : s.variability with
  | false => simp
  | true =>
    rw [tracks] at ready
    obtain ⟨r, left, has⟩ := remaining tracks i g here
    simp only [resolved, tracks, here, left, if_true, Option.any_some, Option.all_some, Goal.openRegion, Option.some.injEq,
      exists_eq_left', Option.getD_some]
    rw [(ready rfl).isEmpty_iff_holds has]
    simp

section Extends

variable (sane : s.Sane d) (ready : d.Ready s.variability) (ext : d.Extends d')

include sane ready ext

theorem Sane.goal_covers_iff (tracks : s.variability = true) (here : s.goals.get? i = some g) :
    g.Covers d' c ↔ g.Covers d c := by
  apply exists_congr
  intro t
  apply exists_congr
  intro r
  apply and_congr_right
  intro entry
  obtain ⟨_, r', same, has⟩ := sane.covering tracks i g t _ here entry
  cases same
  rw [ext.holds_eq (ready tracks) has]

theorem Sane.goal_excludes_iff (tracks : s.variability = true) (here : s.goals.get? i = some g) :
    g.Excludes d' c ↔ g.Excludes d c := by
  apply exists_congr
  intro r
  apply and_congr_right
  intro region
  rw [ext.holds_eq (ready tracks) (sane.infeasible tracks i g r here region).1]

theorem Sane.covers_iff : s.Covers d' i c ↔ s.Covers d i c := by
  simp only [Covers]
  split
  next tracks =>
    apply exists_congr
    intro g
    exact and_congr_right fun here => sane.goal_covers_iff ready ext tracks here
  next => exact Iff.rfl

theorem Sane.excludes_iff : s.Excludes d' i c ↔ s.Excludes d i c := by
  simp only [Excludes]
  split
  next tracks =>
    apply exists_congr
    intro g
    exact and_congr_right fun here => sane.goal_excludes_iff ready ext tracks here
  next => exact Iff.rfl

theorem Sane.leaves_iff : s.Leaves d' i c ↔ s.Leaves d i c := by
  simp only [Leaves]
  split
  next tracks =>
    apply exists_congr
    intro g
    apply and_congr_right
    intro here
    obtain ⟨r, left, has⟩ := sane.remaining tracks i g here
    rw [Goal.openRegion, left, Option.getD_some, ext.holds_eq (ready tracks) has]
  next => exact Iff.rfl

theorem Sane.extends : s.Sane d' where
  index := sane.index
  remaining tracks i g here := by
    obtain ⟨r, left, has⟩ := sane.remaining tracks i g here
    exact ⟨r, left, ext.has has⟩
  infeasible tracks i g r here region := by
    obtain ⟨has, inhabited⟩ := sane.infeasible tracks i g r here region
    exact ⟨ext.has has, inhabited⟩
  covering tracks i g t o here entry := by
    obtain ⟨lists, r, same, has⟩ := sane.covering tracks i g t o here entry
    exact ⟨lists, r, same, ext.has has⟩
  listed := sane.listed
  balance i g c here := by
    rw [sane.leaves_iff ready ext, sane.covers_iff ready ext, sane.excludes_iff ready ext]
    exact sane.balance i g c here

end Extends

end Suite

end GoalCoverage
