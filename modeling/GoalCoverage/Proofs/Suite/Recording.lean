import GoalCoverage.Dominance
import GoalCoverage.Proofs.Suite.Account
import Mathlib.Tactic.Tauto

/-!
What recording does to the accounts of a suite. Coverage and infeasibility are booked for one goal, they leave
what is open of it, and the accounts keep their balance.
-/

namespace GoalCoverage

namespace Diagram

variable {α β : Type} {tracks : Bool} {d d' : Diagram}

/-- `m` succeeds in `d`, only adds to the diagram and yields a value for which `Q` holds. -/
def Delivers (tracks : Bool) (m : Regional α) (d : Diagram) (Q : α → Diagram → Prop) : Prop :=
  ∃ a d', m d = .ok (a, d') ∧ d.Extends d' ∧ d'.Ready tracks ∧ Q a d'

section Rules

variable {m : Regional α} {k : α → Regional β} {P : α → Diagram → Prop} {Q : β → Diagram → Prop}

theorem delivers_pure {a : α} (ready : d.Ready tracks) (holds : P a d) :
    Delivers tracks (pure a : Regional α) d P :=
  ⟨a, d, rfl, .refl d, ready, holds⟩

theorem Delivers.mono {Q : α → Diagram → Prop} (h : Delivers tracks m d P)
    (imp : ∀ a d', d.Extends d' → d'.Ready tracks → P a d' → Q a d') : Delivers tracks m d Q := by
  obtain ⟨a, d', ok, ext, ready, holds⟩ := h
  exact ⟨a, d', ok, ext, ready, imp a d' ext ready holds⟩

theorem Delivers.bind (h : Delivers tracks m d P)
    (next : ∀ a d', d.Extends d' → d'.Ready tracks → P a d' → Delivers tracks (k a) d' Q) :
    Delivers tracks (m >>= k) d Q := by
  obtain ⟨a, d', ok, ext, ready, holds⟩ := h
  obtain ⟨b, d'', ok', ext', ready', holds'⟩ := next a d' ext ready holds
  refine ⟨b, d'', ?_, ext.trans ext', ready', holds'⟩
  simp only [Bind.bind, StateT.bind, ok, Except.bind]
  exact ok'

theorem Yields.delivers {m : StateM Diagram α} (yields : Yields tracks m d P) :
    Delivers tracks (monadLift m : Regional α) d P :=
  ⟨_, _, rfl, yields.1, yields.2.1, yields.2.2⟩

theorem delivers_bind_ok {e : Except Violation α} {a : α} (ok : e = .ok a) :
    Delivers tracks ((monadLift e : Regional α) >>= k) d Q ↔ Delivers tracks (k a) d Q := by
  subst ok
  exact Iff.rfl

end Rules

end Diagram

namespace Suite

open Diagram

variable {s s' s'' : Suite} {d d' d'' : Diagram} {i j t : Nat} {c : Configuration} {g g' : Goal} {test : Option Nat}
  {covered excluded : Configuration → Prop}

/-- `s'` is `s` after configurations of a goal were booked as covered, by a test case, or as excluded. -/
structure Booked (s s' : Suite) (d d' : Diagram) (i : Nat) (test : Option Nat)
    (covered excluded : Configuration → Prop) : Prop where
  variability : s'.variability = s.variability
  testCases : s'.testCases = s.testCases
  timedOut : s'.timedOut = s.timedOut
  kept : ∀ j g', s'.goals.get? j = some g' → ∃ g, s.goals.get? j = some g ∧ g.SameAs g'
  known : ∀ j g, s.goals.get? j = some g → ∃ g', s'.goals.get? j = some g'
  lists : ∀ j t, s'.Lists j t ↔ s.Lists j t ∨ j = i ∧ test = some t
  entries : ∀ j g' t o, s'.goals.get? j = some g' → g'.covering.get? t = some o →
    s'.Lists j t ∨ ∃ g o', s.goals.get? j = some g ∧ g.covering.get? t = some o'
  covers : ∀ j c, s'.Covers d' j c ↔ s.Covers d j c ∨ j = i ∧ covered c
  excludes : ∀ j c, s'.Excludes d' j c ↔ s.Excludes d j c ∨ j = i ∧ excluded c
  leaves : ∀ j c, s'.Leaves d' j c ↔ s.Leaves d j c ∧ ¬(j = i ∧ (covered c ∨ excluded c))
  sane : s'.Sane d'

/-- An update of one goal of a suite that tracks configurations. -/
structure Update (s s' : Suite) (d d' : Diagram) (i : Nat) (g g' : Goal) (test : Option Nat)
    (covered excluded : Configuration → Prop) : Prop where
  variability : s'.variability = s.variability
  testCases : s'.testCases = s.testCases
  timedOut : s'.timedOut = s.timedOut
  goals : ∀ j, s'.goals.get? j = if j = i then some g' else s.goals.get? j
  same : g.SameAs g'
  lists : ∀ j t, s'.Lists j t ↔ s.Lists j t ∨ j = i ∧ test = some t
  remaining : ∃ r, g'.remaining = some r ∧ d'.Has r ∧
    ∀ c, d'.holds r c = true ↔ d.holds g.openRegion c = true ∧ ¬(covered c ∨ excluded c)
  covering : ∀ t o, g'.covering.get? t = some o → s'.Lists i t ∧ ∃ r, o = some r ∧ d'.Has r
  listed : ∀ t, s'.Lists i t → ∃ o, g'.covering.get? t = some o
  covers : ∀ c, g'.Covers d' c ↔ g.Covers d c ∨ covered c
  infeasible : ∀ r, g'.infeasible = some r → d'.Has r ∧ r.isEmpty = false
  excludes : ∀ c, g'.Excludes d' c ↔ g.Excludes d c ∨ excluded c

section Update

variable (update : Update s s' d d' i g g' test covered excluded) (tracks : s.variability = true)
  (here : s.goals.get? i = some g)

include update tracks here

theorem Update.covers_iff (sane : s.Sane d) (ready : d.Ready s.variability) (ext : d.Extends d') :
    s'.Covers d' j c ↔ s.Covers d j c ∨ j = i ∧ covered c := by
  rw [← sane.covers_iff ready ext]
  simp only [Covers, update.variability, tracks, if_true, update.goals]
  split
  next same =>
    subst same
    simp only [here, Option.some.injEq, exists_eq_left', true_and]
    rw [update.covers, sane.goal_covers_iff ready ext tracks here]
  next other => simp [other]

theorem Update.excludes_iff (sane : s.Sane d) (ready : d.Ready s.variability) (ext : d.Extends d') :
    s'.Excludes d' j c ↔ s.Excludes d j c ∨ j = i ∧ excluded c := by
  rw [← sane.excludes_iff ready ext]
  simp only [Excludes, update.variability, tracks, if_true, update.goals]
  split
  next same =>
    subst same
    simp only [here, Option.some.injEq, exists_eq_left', true_and]
    rw [update.excludes, sane.goal_excludes_iff ready ext tracks here]
  next other => simp [other]

theorem Update.leaves_iff (sane : s.Sane d) (ready : d.Ready s.variability) (ext : d.Extends d') :
    s'.Leaves d' j c ↔ s.Leaves d j c ∧ ¬(j = i ∧ (covered c ∨ excluded c)) := by
  rw [← sane.leaves_iff ready ext]
  simp only [Leaves, update.variability, tracks, if_true, update.goals]
  split
  next same =>
    subst same
    obtain ⟨r, left, has, spec⟩ := update.remaining
    obtain ⟨r', left', has'⟩ := sane.remaining tracks j g here
    simp only [here, Option.some.injEq, exists_eq_left', true_and, Goal.openRegion, left, left', Option.getD_some]
    rw [spec, ext.holds_eq (ready tracks) has', Goal.openRegion, left', Option.getD_some]
  next other => simp [other]

theorem Update.booked (sane : s.Sane d) (ready : d.Ready s.variability) (ext : d.Extends d') :
    Booked s s' d d' i test covered excluded := by
  have covers := fun j c => update.covers_iff (j := j) (c := c) tracks here sane ready ext
  have excludes := fun j c => update.excludes_iff (j := j) (c := c) tracks here sane ready ext
  have leaves := fun j c => update.leaves_iff (j := j) (c := c) tracks here sane ready ext
  have kept : ∀ j h', s'.goals.get? j = some h' → j = i ∧ h' = g' ∨ j ≠ i ∧ s.goals.get? j = some h' := by
    intro j h' known
    rw [update.goals] at known
    split at known
    next same => exact .inl ⟨same, (Option.some.inj known).symm⟩
    next other => exact .inr ⟨other, known⟩
  refine ⟨update.variability, update.testCases, update.timedOut, fun j h' known => ?_, fun j h known => ?_,
    update.lists, fun j h' t o known entry => ?_, covers, excludes, leaves, ?_⟩
  · obtain ⟨rfl, rfl⟩ | ⟨_, old⟩ := kept j h' known
    · exact ⟨g, here, update.same⟩
    · exact ⟨h', old, .refl h'⟩
  · rw [update.goals]
    split
    next => exact ⟨g', rfl⟩
    next => exact ⟨h, known⟩
  · obtain ⟨rfl, rfl⟩ | ⟨_, old⟩ := kept j h' known
    · exact .inl (update.covering t o entry).1
    · exact .inr ⟨h', o, old, entry⟩
  have later := sane.extends ready ext
  refine ⟨fun j h' known => ?_, fun _ j h' known => ?_, fun _ j h' r known region => ?_,
    fun _ j h' t o known entry => ?_, fun _ j h' t known lists => ?_, fun j h' c known => ?_⟩
  · obtain ⟨rfl, rfl⟩ | ⟨_, old⟩ := kept j h' known
    · exact update.same.index.trans (sane.index j g here)
    · exact sane.index j h' old
  · obtain ⟨rfl, rfl⟩ | ⟨_, old⟩ := kept j h' known
    · obtain ⟨r, left, has, _⟩ := update.remaining
      exact ⟨r, left, has⟩
    · exact later.remaining tracks j h' old
  · obtain ⟨rfl, rfl⟩ | ⟨_, old⟩ := kept j h' known
    · exact update.infeasible r region
    · exact later.infeasible tracks j h' r old region
  · obtain ⟨rfl, rfl⟩ | ⟨_, old⟩ := kept j h' known
    · exact update.covering t o entry
    · obtain ⟨lists, region⟩ := later.covering tracks j h' t o old entry
      exact ⟨(update.lists j t).2 (.inl lists), region⟩
  · obtain ⟨rfl, rfl⟩ | ⟨other, old⟩ := kept j h' known
    · exact update.listed t lists
    · have lists := ((update.lists j t).1 lists).resolve_right fun h => other h.1
      exact later.listed tracks j h' t old lists
  · have before : s.Leaves d j c ↔ ¬s.Covers d j c ∧ ¬s.Excludes d j c := by
      obtain ⟨rfl, rfl⟩ | ⟨_, old⟩ := kept j h' known
      · exact sane.balance j g c here
      · exact sane.balance j h' c old
    rw [leaves, covers, excludes, before]
    tauto

end Update

theorem leaves_iff_of_not_tracks (tracks : s.variability = false) :
    s.Leaves d i c ↔ ¬(∃ t, s.Lists i t) ∧ i ∉ s.infeasible := by
  simp only [Leaves, resolved, tracks, Bool.false_eq_true, if_false, Bool.or_eq_false_iff, ← isPartiallyCovered_iff,
    Bool.not_eq_true, isInfeasible]
  rw [← IdSet.contains_iff, Bool.not_eq_true]

/-- An update of one goal of a suite that does not track configurations. -/
structure PlainUpdate (s s' : Suite) (i : Nat) (test : Option Nat) (excludes : Prop) : Prop where
  variability : s'.variability = s.variability
  testCases : s'.testCases = s.testCases
  timedOut : s'.timedOut = s.timedOut
  kept : ∀ j g', s'.goals.get? j = some g' → ∃ g, s.goals.get? j = some g ∧ g.SameAs g'
  known : ∀ j g, s.goals.get? j = some g → ∃ g', s'.goals.get? j = some g'
  lists : ∀ j t, s'.Lists j t ↔ s.Lists j t ∨ j = i ∧ test = some t
  entries : ∀ j g' t o, s'.goals.get? j = some g' → g'.covering.get? t = some o →
    s'.Lists j t ∨ ∃ g o', s.goals.get? j = some g ∧ g.covering.get? t = some o'
  infeasible : ∀ j, j ∈ s'.infeasible ↔ j ∈ s.infeasible ∨ j = i ∧ excludes

theorem PlainUpdate.booked {excludes : Prop} (update : PlainUpdate s s' i test excludes)
    (tracks : s.variability = false) (sane : s.Sane d) :
    Booked s s' d d' i test (fun _ => ∃ t, test = some t) (fun _ => excludes) := by
  have tracks' : s'.variability = false := update.variability.trans tracks
  have none : ¬s'.variability = true := by simp [tracks']
  have covers : ∀ j c, s'.Covers d' j c ↔ s.Covers d j c ∨ j = i ∧ ∃ t, test = some t := by
    intro j c
    simp only [Covers, tracks, tracks', Bool.false_eq_true, if_false, update.lists, exists_or, exists_and_left]
  have excluded : ∀ j c, s'.Excludes d' j c ↔ s.Excludes d j c ∨ j = i ∧ excludes := by
    intro j c
    simp only [Excludes, tracks, tracks', Bool.false_eq_true, if_false, update.infeasible]
  have listed : ∀ j, (∃ t, s'.Lists j t) ↔ (∃ t, s.Lists j t) ∨ j = i ∧ ∃ t, test = some t := by
    intro j
    simp only [update.lists, exists_or, exists_and_left]
  refine ⟨update.variability, update.testCases, update.timedOut, update.kept, update.known, update.lists,
    update.entries, covers, excluded, fun j c => ?_, ?_⟩
  · rw [leaves_iff_of_not_tracks tracks, leaves_iff_of_not_tracks tracks', listed, update.infeasible]
    tauto
  · refine ⟨fun j g' known => ?_, fun h => absurd h none, fun h => absurd h none, fun h => absurd h none,
      fun h => absurd h none, fun j g' c known => ?_⟩
    · obtain ⟨g, here, same⟩ := update.kept j g' known
      exact same.index.trans (sane.index j g here)
    · rw [leaves_iff_of_not_tracks tracks']
      simp only [Covers, Excludes, tracks', Bool.false_eq_true, if_false]

/-- The suite with a test case stored. -/
def stored (s : Suite) (tc : TestCase) : Suite :=
  if (s.testCase? tc.id).isNone then { s with testCases := s.testCases ++ [tc] } else s

theorem addTestCase_eq (tc : TestCase) (region : Option Region) :
    s.addTestCase tc i region = (s.stored tc).recordCoverage tc.id i region := rfl

theorem testCase?_eq_some {id : Nat} {tc : TestCase} (h : s.testCase? id = some tc) : tc ∈ s.testCases ∧ tc.id = id := by
  rw [testCase?] at h
  exact ⟨List.mem_of_find?_eq_some h, by simpa using List.find?_some h⟩

theorem testCase?_isNone {id : Nat} (stored : ∃ tc ∈ s.testCases, tc.id = id) : (s.testCase? id).isNone = false := by
  obtain ⟨tc, mem, same⟩ := stored
  rw [← Bool.not_eq_true, Option.isNone_iff_eq_none, testCase?, List.find?_eq_none]
  intro none
  have := none tc mem
  simp [same] at this

/-- Storing a test case changes nothing else. -/
theorem stored_eq (s : Suite) (tc : TestCase) : s.stored tc = { s with testCases := (s.stored tc).testCases } := by
  rw [stored]
  split <;> rfl

theorem goals_stored (s : Suite) (tc : TestCase) : (s.stored tc).goals = s.goals := by rw [stored_eq]

theorem lists_stored (s : Suite) (tc : TestCase) (j n : Nat) : (s.stored tc).Lists j n ↔ s.Lists j n := by
  rw [stored_eq]
  exact Iff.rfl

theorem prefix_stored (s : Suite) (tc : TestCase) : s.testCases <+: (s.stored tc).testCases := by
  rw [stored]
  split
  next => exact List.prefix_append _ _
  next => exact List.prefix_refl _

theorem mem_stored {tc tc' : TestCase} (mem : tc' ∈ (s.stored tc).testCases) : tc' ∈ s.testCases ∨ tc' = tc := by
  rw [stored] at mem
  split at mem
  next => exact (List.mem_append.1 mem).imp_right List.mem_singleton.1
  next => exact .inl mem

theorem nodup_stored {tc : TestCase} (distinct : (s.testCases.map (·.id)).Nodup) :
    ((s.stored tc).testCases.map (·.id)).Nodup := by
  rw [stored]
  split
  next fresh =>
    rw [List.map_append, List.nodup_append]
    refine ⟨distinct, by simp, fun a old b new same => ?_⟩
    obtain ⟨tc', mem, rfl⟩ := List.mem_map.1 old
    have last : b = tc.id := by simpa using new
    rw [testCase?_isNone ⟨tc', mem, same.trans last⟩] at fresh
    cases fresh
  next => exact distinct

/-- A test case is stored unless another one has its number. -/
theorem alone_stored {tc : TestCase} (alone : ∀ tc' ∈ s.testCases, tc'.id = tc.id → tc' = tc) :
    tc ∈ (s.stored tc).testCases ∧ ∀ tc' ∈ (s.stored tc).testCases, tc'.id = tc.id → tc' = tc := by
  refine ⟨?_, fun tc' mem same => (mem_stored mem).elim (alone tc' · same) id⟩
  rw [stored]
  split
  next => exact List.mem_append_right _ (List.mem_singleton.2 rfl)
  next known =>
    rw [Bool.not_eq_true, Option.isNone_eq_false_iff, Option.isSome_iff_exists] at known
    obtain ⟨tc', found⟩ := known
    obtain ⟨mem, same⟩ := testCase?_eq_some found
    exact alone tc' mem same ▸ mem

theorem recordCoverage_delivers {id : Nat} {region : Option Region} (sane : s.Sane d)
    (ready : d.Ready s.variability) (here : s.goals.get? i = some g) (stored : ∃ tc ∈ s.testCases, tc.id = id)
    (known : s.variability = true → d.Knows region) (fresh : s.variability = true → g.covering.get? id = none) :
    Delivers s.variability (s.recordCoverage id i region) d fun s' d' =>
      Booked s s' d d' i (some id) (fun c => s.variability = true → d.Within region c) fun _ => False := by
  have index := sane.index i g here
  have listed : ∀ j t, (∃ ids, (s.coveredBy.insert i ((s.coveredBy.getD i ∅).insert id)).get? j = some ids ∧ t ∈ ids) ↔
      s.Lists j t ∨ j = i ∧ some id = some t := by
    intro j t
    rw [IdMap.get?_insert, Lists]
    split
    next same =>
      subst same
      simp only [Option.some.injEq, exists_eq_left', IdSet.mem_insert, IdMap.getD, true_and]
      cases s.coveredBy.get? j with
      | none => simp [eq_comm]
      | some ids => simp [eq_comm, or_comm]
    next other => simp [other]
  let booking : Suite :=
    { s with coveredBy := s.coveredBy.insert i ((s.coveredBy.getD i ∅).insert id) }.predict i .feasible
  have found : booking.goal i = .ok g := goal_eq_ok here
  simp only [recordCoverage, testCase?_isNone stored, Bool.false_eq_true, if_false]
  refine (delivers_bind_ok found).2 ?_
  change Delivers _ (if s.variability = true then _ else _) d _
  split
  next tracks =>
    obtain ⟨r₀, left, has⟩ := sane.remaining tracks i g here
    have has_covered : d.Has (region.getD .all) := by
      cases region with
      | none => exact (ready tracks).has_all
      | some r => exact known tracks r rfl
    have within : ∀ c, d.holds (region.getD .all) c = true ↔ s.variability = true → d.Within region c := by
      intro c
      cases region <;> simp [tracks]
    have opened : d.Has g.openRegion := by
      rw [Goal.openRegion, left]
      exact has
    have rest_yields : Yields s.variability (without g.openRegion (region.getD .all)) d fun r d' =>
        d'.Has r ∧ ∀ c, d'.holds r c = (d.holds g.openRegion c && !d.holds (region.getD .all) c) := by
      rw [tracks]
      exact without_yields (ready tracks) opened has_covered
    apply rest_yields.delivers.bind
    intro rest d' ext ready' spec
    refine delivers_pure ready' ?_
    have later := sane.extends ready ext
    let g' : Goal :=
      { g with remaining := some rest, covering := g.covering.insert id (some (region.getD .all)) }
    have entries : ∀ t, g'.covering.get? t = if t = id then some (some (region.getD .all)) else g.covering.get? t :=
      fun t => IdMap.get?_insert
    have update : Update s (booking.setGoal g') d d' i g g' (some id)
        (fun c => s.variability = true → d.Within region c) fun _ => False := by
      refine ⟨rfl, rfl, rfl, fun j => ?_, ⟨rfl, rfl, rfl, rfl, rfl⟩, listed, ⟨rest, rfl, spec.1, fun c => ?_⟩,
        fun t o entry => ?_, fun t lists => ?_, fun c => ?_, fun r region => later.infeasible tracks i g r here region, fun c => ?_⟩
      · exact (IdMap.get?_insert (k := g.index)).trans (by rw [index]; rfl)
      · rw [spec.2, Bool.and_eq_true, Bool.not_eq_true', ← Bool.not_eq_true, within, or_false]
      · rw [entries] at entry
        split at entry
        next same =>
          refine ⟨(listed i t).2 (.inr ⟨rfl, congrArg some same.symm⟩), _, (Option.some.inj entry).symm, ?_⟩
          exact ext.has has_covered
        next =>
          obtain ⟨lists, region⟩ := later.covering tracks i g t o here entry
          exact ⟨(listed i t).2 (.inl lists), region⟩
      · rw [entries]
        split
        next => exact ⟨_, rfl⟩
        next other =>
          have lists := ((listed i t).1 lists).resolve_right fun h => other (Option.some.inj h.2).symm
          exact sane.listed tracks i g t here lists
      · rw [← sane.goal_covers_iff ready ext tracks here, ← within, ← ext.holds_eq (ready tracks) has_covered]
        constructor
        · intro h
          obtain ⟨t, r, entry, holds⟩ := h
          rw [entries] at entry
          split at entry
          next =>
            cases entry
            exact .inr holds
          next => exact .inl ⟨t, r, entry, holds⟩
        · intro h
          cases h with
          | inl old =>
            obtain ⟨t, r, entry, holds⟩ := old
            refine ⟨t, r, ?_, holds⟩
            rw [entries, if_neg]
            · exact entry
            · intro same
              rw [same, fresh tracks] at entry
              cases entry
          | inr new => exact ⟨id, _, by rw [entries, if_pos rfl], new⟩
      · have excluded : g.Excludes d' c ↔ g.Excludes d c := sane.goal_excludes_iff ready ext tracks here
        rw [or_false]
        exact excluded
    exact update.booked tracks here sane ready ext
  next plain =>
    have untracked : s.variability = false := by simpa using plain
    refine delivers_pure ready ?_
    let g' : Goal := { g with covering := g.covering.insert id none }
    have update : PlainUpdate s (booking.setGoal g') i (some id) False := by
      have goals : ∀ j, (booking.setGoal g').goals.get? j = if j = i then some g' else s.goals.get? j := by
        intro j
        exact (IdMap.get?_insert (k := g.index)).trans (by rw [index]; rfl)
      refine ⟨rfl, rfl, rfl, fun j h known => ?_, fun j h known => ?_, listed, fun j h t o known entry => ?_, fun j => ?_⟩
      · rw [goals] at known
        split at known
        next same =>
          cases known
          exact ⟨g, same ▸ here, rfl, rfl, rfl, rfl, rfl⟩
        next => exact ⟨h, known, .refl h⟩
      · rw [goals]
        split
        next => exact ⟨g', rfl⟩
        next => exact ⟨h, known⟩
      · rw [goals] at known
        split at known
        next same =>
          cases known
          have placed : (g.covering.insert id none).get? t = some o := entry
          rw [IdMap.get?_insert] at placed
          split at placed
          next is => exact .inl ((listed j t).2 (.inr ⟨same, congrArg some is.symm⟩))
          next => exact .inr ⟨g, o, same ▸ here, placed⟩
        next => exact .inr ⟨h, o, known, entry⟩
      · exact ⟨.inl, fun h => h.elim (fun h => h) fun h => h.2.elim⟩
    have same : (fun c => s.variability = true → d.Within region c) = fun _ => ∃ t, some id = some t := by
      funext c
      simp [untracked]
    rw [same]
    exact update.booked untracked sane

/-- Accounts do not depend on how far the diagram had grown before. -/
theorem Booked.earlier {d₁ : Diagram} (booked : Booked s s' d₁ d' i test covered excluded) (sane : s.Sane d)
    (ready : d.Ready s.variability) (ext : d.Extends d₁) : Booked s s' d d' i test covered excluded :=
  { booked with
    covers := fun j c => by
      rw [booked.covers, sane.covers_iff ready ext]
    excludes := fun j c => by
      rw [booked.excludes, sane.excludes_iff ready ext]
    leaves := fun j c => by
      rw [booked.leaves, sane.leaves_iff ready ext] }

/-- Booking a region as excluded, once its union with what was excluded before is known. -/
theorem exclude_delivers {r u : Region} (sane : s.Sane d) (ready : d.Ready s.variability)
    (tracks : s.variability = true) (here : s.goals.get? i = some g) (has : d.Has r) (has_u : d.Has u)
    (inhabited : u.isEmpty = false) (union : ∀ c, d.holds u c = true ↔ g.Excludes d c ∨ d.holds r c = true) :
    Delivers s.variability (do
      let remaining ← without g.openRegion r
      return ({ s with infeasible := s.infeasible.insert i }.predict i .infeasible).setGoal
        { g with infeasible := some u, remaining := some remaining }) d fun s' d' =>
      Booked s s' d d' i none (fun _ => False) fun c => s.variability = true → d.Within (some r) c := by
  have index := sane.index i g here
  obtain ⟨r₀, left, has₀⟩ := sane.remaining tracks i g here
  have opened : d.Has g.openRegion := by
    rw [Goal.openRegion, left]
    exact has₀
  have rest_yields : Yields s.variability (without g.openRegion r) d fun v d' =>
      d'.Has v ∧ ∀ c, d'.holds v c = (d.holds g.openRegion c && !d.holds r c) := by
    rw [tracks]
    exact without_yields (ready tracks) opened has
  apply rest_yields.delivers.bind
  intro rest d' ext ready' spec
  refine delivers_pure ready' ?_
  have later := sane.extends ready ext
  suffices update : Update s (({ s with infeasible := s.infeasible.insert i }.predict i .infeasible).setGoal
      { g with infeasible := some u, remaining := some rest }) d d' i g
      { g with infeasible := some u, remaining := some rest } none (fun _ => False)
      fun c => s.variability = true → d.Within (some r) c from update.booked tracks here sane ready ext
  refine ⟨rfl, rfl, rfl, fun j => ?_, ⟨rfl, rfl, rfl, rfl, rfl⟩, fun j t => ?_, ⟨rest, rfl, spec.1, fun c => ?_⟩,
    fun t o entry => ?_, fun t lists => sane.listed tracks i g t here lists, fun c => ?_, fun v region => ?_, fun c => ?_⟩
  · exact (IdMap.get?_insert (k := g.index)).trans (by rw [index]; rfl)
  · exact ⟨.inl, fun h => h.elim (fun h => h) fun h => absurd h.2 (Option.some_ne_none t).symm⟩
  · rw [spec.2, Bool.and_eq_true, Bool.not_eq_true', ← Bool.not_eq_true, false_or, within_some]
    simp [tracks]
  · exact later.covering tracks i g t o here entry
  · have covers : g.Covers d' c ↔ g.Covers d c := sane.goal_covers_iff ready ext tracks here
    rw [or_false]
    exact covers
  · cases region
    exact ⟨ext.has has_u, inhabited⟩
  · have excludes : Goal.Excludes { g with infeasible := some u, remaining := some rest } d' c ↔ d'.holds u c = true := by
      simp [Goal.Excludes]
    rw [excludes, ext.holds_eq (ready tracks) has_u, union, within_some]
    simp [tracks]

theorem addInfeasible_delivers {region : Option Region} (sane : s.Sane d) (ready : d.Ready s.variability)
    (here : s.goals.get? i = some g) (known : s.variability = true → ∃ r, region = some r ∧ d.Has r ∧ r.isEmpty = false) :
    Delivers s.variability (s.addInfeasible i region) d fun s' d' =>
      Booked s s' d d' i none (fun _ => False) fun c => s.variability = true → d.Within region c := by
  have index := sane.index i g here
  let booking : Suite := { s with infeasible := s.infeasible.insert i }.predict i .infeasible
  have found : booking.goal i = .ok g := goal_eq_ok here
  simp only [addInfeasible]
  change Delivers _ (if s.variability = true then _ else _) d _
  split
  next tracks =>
    obtain ⟨r, rfl, has, inhabited⟩ := known tracks
    obtain ⟨r₀, left, has₀⟩ := sane.remaining tracks i g here
    refine (delivers_bind_ok found).2 ?_
    split
    next old before =>
      obtain ⟨has_old, inhabited_old⟩ := sane.infeasible tracks i g old here before
      have union_yields : Yields s.variability (join old r) d fun u d' =>
          d'.Has u ∧ ∀ c, d'.holds u c = (d.holds old c || d.holds r c) := by
        rw [tracks]
        exact join_yields (ready tracks) has_old has
      apply union_yields.delivers.bind
      intro u d₁ ext ready₁ spec
      have later := sane.extends ready ext
      have within : (fun c => s.variability = true → d.Within (some r) c) =
          fun c => s.variability = true → d₁.Within (some r) c := by
        funext c
        rw [ext.within_iff (ready tracks) (knows_some.2 has)]
      have union : ∀ c, d₁.holds u c = true ↔ g.Excludes d₁ c ∨ d₁.holds r c = true := by
        intro c
        rw [spec.2, Bool.or_eq_true, ← ext.holds_eq (ready tracks) has_old, ← ext.holds_eq (ready tracks) has]
        simp [Goal.Excludes, before]
      have some_config : u.isEmpty = false := by
        obtain ⟨c, holds⟩ := ((ready tracks).isEmpty_eq_false_iff has_old).1 inhabited_old
        refine ((ready₁ tracks).isEmpty_eq_false_iff spec.1).2 ⟨c, ?_⟩
        rw [spec.2, holds, Bool.true_or]
      rw [within]
      exact (exclude_delivers later ready₁ tracks here (ext.has has) spec.1 some_config union).mono
        fun s' d' _ _ booked => booked.earlier sane ready ext
    next before =>
      refine exclude_delivers sane ready tracks here has has inhabited fun c => ?_
      simp [Goal.Excludes, before]
  next plain =>
    have untracked : s.variability = false := by simpa using plain
    refine delivers_pure ready ?_
    have update : PlainUpdate s booking i none True := by
      refine ⟨rfl, rfl, rfl, fun j h known => ⟨h, known, .refl h⟩, fun j h known => ⟨h, known⟩, fun j t => ?_,
        fun j h t o known entry => .inr ⟨h, o, known, entry⟩, fun j => ?_⟩
      · exact ⟨.inl, fun h => h.elim (fun h => h) fun h => nomatch h.2⟩
      · rw [and_true, or_comm]
        exact IdSet.mem_insert
    have none_covered : (fun _ : Configuration => False) = fun _ => ∃ t : Nat, (none : Option Nat) = some t := by
      funext c
      simp
    have excluded : (fun c => s.variability = true → d.Within region c) = fun _ => True := by
      funext c
      simp [untracked]
    rw [none_covered, excluded]
    exact update.booked untracked sane

theorem foldl_predict (predicted : List Nat) (s : Suite) :
    ∃ m, predicted.foldl (fun s g => s.predict g .infeasible) s = { s with predictions := m } := by
  induction predicted generalizing s with
  | nil => exact ⟨s.predictions, rfl⟩
  | cons g rest ih =>
    obtain ⟨m, same⟩ := ih (s.predict g .infeasible)
    exact ⟨m, same⟩

/-- Guesses change nothing but the predictions. -/
theorem propagateInfeasible_spec {p : Program} {predicted : List Nat}
    (ok : s.propagateInfeasible p i = .ok (predicted, s')) : ∃ m, s' = { s with predictions := m } := by
  simp only [propagateInfeasible, bind, Except.bind, pure, Except.pure] at ok
  split at ok
  next => cases ok
  next =>
    split at ok
    next =>
      cases ok
      exact ⟨s.predictions, rfl⟩
    next =>
      split at ok
      next => cases ok
      next =>
        cases ok
        exact foldl_predict _ s

theorem propagateInfeasible_isOk {p : Program} (here : s.goals.get? i = some g) (entry : p.known g.entry = true) :
    ∃ r, s.propagateInfeasible p i = .ok r := by
  have located : p.locate g.entry = .ok g.entry := by rw [Program.locate, if_pos entry]
  simp only [propagateInfeasible, goal_eq_ok here, bind, Except.bind, Program.edgesReached, located, pure, Except.pure]
  split
  next => exact ⟨_, rfl⟩
  next => exact ⟨_, rfl⟩

end Suite

end GoalCoverage
