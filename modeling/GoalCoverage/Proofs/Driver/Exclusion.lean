import GoalCoverage.Proofs.Driver.Guarantee

/-!
Verdicts that exclude each other. If configurations are not tracked, the goals of a batch are covered or marked as
infeasible only while they are open, and time out only if they stay open; and no goal is in two batches of a round. So
every goal ends with one verdict (`generate_excludes`). Only recording all goals that the test cases cover gives goals a
second one.
-/

namespace GoalCoverage

open Procedure

namespace IdSet

theorem nodup_toList (s : IdSet) : s.toList.Nodup := s.increasing.imp Nat.ne_of_lt

/-- A set is counted along any list of distinct identities that has its members. -/
theorem size_eq_length_filter {s : IdSet} {l : List Nat} (once : l.Nodup) (within : ∀ i ∈ s, i ∈ l) :
    s.size = (l.filter s.contains).length := by
  apply List.Perm.length_eq
  rw [List.perm_ext_iff_of_nodup s.nodup_toList (once.filter _)]
  intro i
  rw [List.mem_filter, contains_iff, mem_toList]
  exact ⟨fun mem => ⟨within i mem, mem⟩, And.right⟩

end IdSet

namespace IdMap

/-- What has one place only is listed once. -/
theorem nodup_values {α : Type} {m : IdMap α} (apart : ∀ j k v, m.get? j = some v → m.get? k = some v → j = k) :
    m.values.Nodup := by
  have distinct : m.entries.Nodup := m.increasing.imp fun lt same => Nat.ne_of_lt lt (congrArg Prod.fst same)
  rw [values]
  apply distinct.map_on
  intro e mem e' mem' same
  have key : e.1 = e'.1 := apart _ _ e.2 (get?_eq_some_iff.2 mem) (get?_eq_some_iff.2 (same ▸ mem'))
  exact Prod.ext key same

end IdMap

namespace Suite

variable {s s' : Suite} {d d' : Diagram} {i : Nat} {covers excludes : Nat → Prop}

/-- The verdicts that a goal has. -/
def verdicts (s : Suite) (i : Nat) : Nat := [s.isPartiallyCovered i, s.isInfeasible i, s.isTimedOut i].count true

/-- Without configurations, goals are resolved by being covered or excluded. -/
theorem Develops.resolved_of_plain (develops : Develops covers excludes s d s' d') (plain : s.variability = false)
    (resolved : s'.resolved i = true) : s.resolved i = true ∨ covers i ∨ excludes i := by
  rw [Suite.resolved_of_plain (develops.variability.trans plain), isPartiallyCovered_iff] at resolved
  rw [Suite.resolved_of_plain plain, isPartiallyCovered_iff]
  cases resolved with
  | inl covered =>
    obtain ⟨n, lists⟩ := covered
    exact (develops.covered i n lists).imp (fun old => .inl ⟨n, old⟩) .inl
  | inr marked => exact (develops.excluded i marked).imp .inr .inr

/-- If every goal has one verdict, the verdicts are as many as the goals. -/
theorem counts_add (one : ∀ i ∈ s.goalIds, s.verdicts i = 1) (known : ∀ i ∈ s.infeasible, i ∈ s.goalIds) :
    s.feasibleCount + s.infeasibleCount + s.timedOutCount = s.goals.size := by
  have along : ∀ l : List Nat, (∀ i ∈ l, s.verdicts i = 1) → (l.filter s.isPartiallyCovered).length +
      (l.filter s.isInfeasible).length + (l.filter s.isTimedOut).length = l.length := by
    intro l one
    induction l with
    | nil => rfl
    | cons i rest ih =>
      have counted := ih fun j mem => one j (List.mem_cons_of_mem i mem)
      have here := one i List.mem_cons_self
      simp only [verdicts, List.count_cons, List.count_nil, beq_true] at here
      simp only [List.filter_cons, List.length_cons]
      split at here <;> split at here <;> split at here <;> simp_all <;> omega
  have marked : s.infeasibleCount = (s.goalIds.filter s.isInfeasible).length :=
    IdSet.size_eq_length_filter s.goals.keys.nodup_toList known
  have size : s.goalIds.length = s.goals.size := List.length_map _
  rw [feasibleCount, marked, timedOutCount, along s.goalIds one, size]

end Suite

namespace Generator

variable {F E S P : Type} {g g' : Generator F P} {i : Nat} {batch queue : List Nat}

/-- No goal has two verdicts, and those that timed out are logged once. -/
structure Separate (g : Generator F P) : Prop where
  exclusive : g.suite.Exclusive
  timedOut : ∀ i, g.suite.isTimedOut i = true → g.suite.resolved i = false
  marked : ∀ i ∈ g.suite.infeasible, g.Has i
  logged : ∀ i ∈ g.timeouts, g.suite.isTimedOut i = true
  once : g.timeouts.Nodup

/-- The goals of a queue are listed once, and none of them has timed out. -/
structure Awaits (queue : List Nat) (g : Generator F P) : Prop where
  once : queue.Nodup
  fresh : ∀ i ∈ queue, g.suite.isTimedOut i = false

variable [AbstractState S] {a : Analysis F E S P} {h : Holdings F E P} {fuel : Nat} {p : Progress} {excludes : Nat → Prop}

theorem Found.mem (found : Found a fuel batch g i) : i ∈ batch := by
  cases found with
  | inl hopeless => exact hopeless.1.1
  | inr open' =>
    obtain ⟨s, _, finding, t, _, _, pending⟩ := open'
    exact pending.1

/-- Verdicts stay apart when a batch is processed in which no goal has timed out before. -/
theorem Settles.separate (settles : g.Settles h batch (g.Pending batch) excludes False g') (plain : g.suite.variability = false)
    (orderly : g.Orderly) (separate : g.Separate) (awaits : g.Awaits batch) (has : ∀ i ∈ batch, g.Has i)
    (within : ∀ i, excludes i → i ∈ batch) :
    g'.Separate ∧ ∀ i, g'.suite.isTimedOut i = true → i ∈ batch ∨ g.suite.isTimedOut i = true := by
  obtain ⟨g₁, proceeds, defers, _⟩ := settles
  have develops := proceeds.develops
  have timedOut₁ : ∀ i, g₁.suite.isTimedOut i = g.suite.isTimedOut i := fun i => by
    rw [Suite.isTimedOut, develops.suite.timedOut, Suite.isTimedOut]
  have left : ∀ i ∈ g₁.leftOf batch, i ∈ batch := fun i mem => (mem_leftOf.1 mem).1
  have timedOut := fun i => defers.isTimedOut_iff (i := i) (develops.orderly orderly) fun j mem =>
    develops.has_iff.2 (has j (left j mem))
  have fresh : ∀ i ∈ batch, i ∉ g.timeouts := by
    intro i mem logged
    have now := separate.logged i logged
    rw [awaits.fresh i mem] at now
    cases now
  have source : ∀ i, g'.suite.isTimedOut i = true → i ∈ g₁.leftOf batch ∨ g.suite.isTimedOut i = true := fun i now =>
    timedOut₁ i ▸ (timedOut i).1 now
  refine ⟨⟨?_, fun i now => ?_, fun i mem => ?_, fun i mem => ?_, ?_⟩, fun i now => (source i now).imp_left (left i)⟩
  · have exclusive := proceeds.exclusive plain separate.exclusive
    rw [defers.suite]
    exact exclusive
  · rw [defers.resolved]
    cases source i now with
    | inl mem => exact (mem_leftOf.1 mem).2
    | inr old =>
      have outside : i ∉ batch := by
        intro mem
        rw [awaits.fresh i mem] at old
        cases old
      rw [← Bool.not_eq_true]
      intro resolved
      rcases develops.suite.resolved_of_plain plain resolved with before | covers | excluded
      · rw [separate.timedOut i old] at before
        cases before
      · exact outside covers.1
      · exact outside (within i excluded)
  · rw [defers.suite] at mem
    rw [Has, defers.suite]
    apply develops.has_iff.2
    exact (develops.suite.excluded i mem).elim (separate.marked i) fun excluded => has i (within i excluded)
  · rw [defers.timeouts, develops.timeouts, List.mem_append] at mem
    apply (timedOut i).2
    rw [timedOut₁]
    exact mem.symm.imp_right (separate.logged i)
  · rw [defers.timeouts, develops.timeouts]
    apply separate.once.append (awaits.once.filter _)
    intro i logged mem
    exact fresh i (left i mem) logged

/-- Verdicts stay apart when batches are processed that have no goal in common. -/
theorem batches_separate {cut : List (List Nat)} {flags : List Bool} (regular : g.Regular h) (orderly : g.Orderly)
    (plain : g.suite.variability = false) (has : ∀ i ∈ cut.flatten, g.Has i) (separate : g.Separate)
    (awaits : g.Awaits cut.flatten) (ok : cut.mapM (processBatch a fuel) g = .ok flags g') : g'.Separate := by
  revert regular orderly plain has separate awaits
  apply mapM_induction (f := processBatch a fuel) (M := fun _ cut g _ g' => g.Regular h → g.Orderly →
    g.suite.variability = false → (∀ i ∈ cut.flatten, g.Has i) → g.Separate → g.Awaits cut.flatten → g'.Separate) _ _ ok
  · intro g _ _ _ _ separate _
    exact separate
  · intro batch rest g b g₁ cs bs g' processed ih regular orderly plain has separate awaits
    obtain ⟨once, fresh⟩ := awaits
    rw [List.flatten_cons] at has once fresh
    obtain ⟨once_batch, once_rest, apart⟩ := List.nodup_append.1 once
    have untracked : g.suite.variability = true → a.Lawful h := fun tracks => by cases plain.symm.trans tracks
    have has_batch : ∀ i ∈ batch, g.Has i := fun i mem => has i (List.mem_append_left _ mem)
    obtain ⟨settles, single⟩ := (processBatch_settles regular untracked).of_eq_ok processed
    obtain ⟨continues, _⟩ := settles.continues regular.tidy orderly has_batch single
    obtain ⟨separate₁, since⟩ := settles.separate plain orderly separate
      ⟨once_batch, fun i mem => fresh i (List.mem_append_left _ mem)⟩ has_batch fun i => Found.mem
    apply ih continues.regular continues.orderly (continues.variability.trans plain) _ separate₁ ⟨once_rest, fun i mem => ?_⟩
    · intro i mem
      exact (continues.has_iff i).2 (has i (List.mem_append_right _ mem))
    · rw [← Bool.not_eq_true]
      intro now
      cases since i now with
      | inl here => exact apart i here i mem rfl
      | inr old =>
        rw [fresh i (List.mem_append_right _ mem)] at old
        cases old

theorem processQueue_separates (ready : g.Ready h p.queue) (plain : g.suite.variability = false) (separate : g.Separate)
    (awaits : g.Awaits p.queue) : Ensures anything (processQueue a fuel p.queue) g fun _ g' => g'.Separate := by
  rw [processQueue, ensures_bind, ensures_get, ensures_bind, ensures_anything_iff]
  intro flags g' ok
  have part : (g.settings.batches p.queue).flatten.Sublist p.queue := by rw [Settings.flatten_batches]
  exact batches_separate ready.regular ready.orderly plain (fun i mem => ready.has i (part.subset mem)) separate
    ⟨part.nodup awaits.once, fun i mem => awaits.fresh i (part.subset mem)⟩ ok

omit [AbstractState S] in
/-- A retry round takes all timeouts back. -/
theorem beginRetry_separates (orderly : g.Orderly) (separate : g.Separate) :
    Ensures anything beginRetry g fun queue g' => g'.Separate ∧ g'.Awaits queue := by
  have once : (g.settings.retryOrder.queue g.suite.timedOut g.timeouts).Nodup := by
    have values : g.suite.timedOut.values.Nodup := by
      apply IdMap.nodup_values
      intro j k i here there
      exact Option.some.inj ((orderly.timedOut j i here).1.symm.trans (orderly.timedOut k i there).1)
    cases g.settings.retryOrder with
    | forward => exact values
    | inverted => exact List.nodup_reverse.2 values
    | unordered => exact separate.once.filter _
  rw [beginRetry, ensures_bind, ensures_get]
  dsimp only
  rw [ensures_bind, ensures_set]
  have emptied : ∀ g' : Generator F P, g'.suite = { g.suite with timedOut := ∅ } → g'.timeouts = [] →
      g'.Separate ∧ g'.Awaits (g.settings.retryOrder.queue g.suite.timedOut g.timeouts) := by
    intro g' suite timeouts
    have none : ∀ i, g'.suite.isTimedOut i = false := fun i => by
      rw [suite]
      rfl
    refine ⟨⟨?_, fun i now => ?_, fun i mem => ?_, fun i mem => ?_, ?_⟩, once, fun i _ => none i⟩
    · rw [suite]
      exact separate.exclusive
    · rw [none i] at now
      cases now
    · rw [suite] at mem
      rw [Has, suite]
      exact separate.marked i mem
    · rw [timeouts] at mem
      cases mem
    · rw [timeouts]
      exact List.nodup_nil
  split
  next =>
    rw [ensures_bind]
    exact trivial
  next =>
    rw [ensures_bind, ensures_modify]
    exact emptied _ rfl rfl

theorem round_separates (ready : g.Ready h p.queue) (plain : g.suite.variability = false) (separate : g.Separate)
    (awaits : g.Awaits p.queue) : Ensures anything (round a fuel p) g fun r g' =>
      g'.Separate ∧ ∀ p', r = .inl p' → g'.Awaits p'.queue := by
  have untracked : g.suite.variability = true → a.Lawful h := fun tracks => by cases plain.symm.trans tracks
  rw [round, ensures_bind]
  apply ((processQueue_continues ready.regular ready.orderly untracked ready.has).and
    (processQueue_separates ready plain separate awaits)).mono
  intro sound g₁ both
  obtain ⟨⟨continues, _⟩, separate₁⟩ := both
  rw [ensures_bind, ensures_get]
  split
  next =>
    rw [ensures_bind]
    apply (beginRetry_separates continues.orderly separate₁).mono
    intro queue g₂ begun
    exact ⟨begun.1, fun p' same => Sum.inl.inj same ▸ begun.2⟩
  next => exact ⟨separate₁, by simp⟩

theorem rounds_separate {p' : Progress} (ready : g.Ready h p.queue) (plain : g.suite.variability = false)
    (separate : g.Separate) (awaits : g.Awaits p.queue) (ok : repeatUntil (round a fuel) fuel p g = .ok p' g') :
    g'.Separate := by
  revert ready plain separate awaits
  apply repeatUntil_induction (M := fun _ p g _ g' => g.Ready h p.queue → g.suite.variability = false → g.Separate →
    g.Awaits p.queue → g'.Separate) _ _ ok
  · intro p g p' g' went ready plain separate awaits
    exact ((round_separates ready plain separate awaits).of_eq_ok went).1
  · intro p g p₁ g₁ l p' g' went ih ready plain separate awaits
    have untracked : g.suite.variability = true → a.Lawful h := fun tracks => by cases plain.symm.trans tracks
    obtain ⟨continues, again, _⟩ := (round_continues ready untracked).of_eq_ok went
    obtain ⟨separate₁, awaits₁⟩ := (round_separates ready plain separate awaits).of_eq_ok went
    exact ih (again p₁ rfl) (continues.variability.trans plain) separate₁ (awaits₁ p₁ rfl)

variable {settings : Settings} {program : Program} {goals : List Goal} {managed : Bool} {diagram : Diagram}
  {surroundings : F} {clock : Nat → Duration}

omit [AbstractState S] in
theorem separate_ofGoals (made : ofGoals settings program goals managed diagram surroundings clock = .ok g) :
    g.Separate ∧ g.Awaits g.suite.goalIds := by
  have parts := ofGoals_eq_ok made
  obtain ⟨predictions, suite⟩ := Suite.addGoals_eq { variability := settings.presenceConditions } goals
  have infeasible : g.suite.infeasible = ∅ := by rw [parts, suite]
  have timedOut : ∀ i, g.suite.isTimedOut i = false := fun i => by
    rw [parts, suite]
    rfl
  have timeouts : g.timeouts = [] := by rw [parts]
  refine ⟨⟨fun i _ => ?_, fun i now => ?_, fun i mem => ?_, fun i mem => ?_, ?_⟩, IdSet.nodup_toList _, fun i _ => timedOut i⟩
  · rw [infeasible]
    exact IdSet.not_mem_empty i
  · rw [timedOut i] at now
    cases now
  · rw [infeasible] at mem
    exact absurd mem (IdSet.not_mem_empty i)
  · rw [timeouts] at mem
    cases mem
  · rw [timeouts]
    exact List.nodup_nil

/-- A goal that is decided has one verdict if none has two. -/
theorem Separate.verdicts (separate : g.Separate) (plain : g.suite.variability = false) (decided : g.Decided i) :
    g.suite.verdicts i = 1 := by
  have resolved := Suite.resolved_of_plain (i := i) plain
  have exclusive := separate.exclusive i
  have timedOut := separate.timedOut i
  rw [← Bool.not_eq_true, resolved, ← IdSet.contains_iff, ← Suite.isInfeasible] at timedOut
  rw [← IdSet.contains_iff, ← Suite.isInfeasible] at exclusive
  rw [Decided, resolved, ← IdSet.contains_iff, ← Suite.isInfeasible] at decided
  rw [Suite.verdicts]
  revert decided exclusive timedOut
  cases g.suite.isPartiallyCovered i <;> cases g.suite.isInfeasible i <;> cases g.suite.isTimedOut i <;> simp

/-- The counts in the report of a suite without configurations. -/
theorem statistics_add (plain : g.suite.variability = false) (one : ∀ i, g.Has i → g.suite.verdicts i = 1)
    (marked : ∀ i ∈ g.suite.infeasible, g.Has i) :
    Ensures anything (onRegions g.suite.statistics) g fun t g' => g'.suite = g.suite ∧
      t.feasible + t.infeasible + t.timedOut = t.goals := by
  rw [ensures_onRegions_iff]
  intro t d counted
  rw [Suite.statistics, plain] at counted
  cases counted
  exact ⟨rfl, Suite.counts_add (fun i mem => one i (IdMap.mem_keys.1 (IdSet.mem_toList.1 mem)))
    fun i mem => IdSet.mem_toList.2 (IdMap.mem_keys.2 (marked i mem))⟩

/--
Whatever the engines do, and however timeouts are treated: if configurations are not tracked and test cases are recorded
for the goals of their batch only, every goal is in exactly one of the classes covered, infeasible and timed out when a
generation ends; and so the counts of the classes in the report add up to the number of goals.
-/
theorem generate_excludes (made : ofGoals settings program goals managed diagram surroundings clock = .ok g)
    (plain : settings.presenceConditions = false) (own : settings.allCoveredGoals = false) {report : Report}
    (ok : generate a fuel g = .ok report g') :
    (∀ γ ∈ goals, [g'.suite.isPartiallyCovered γ.index, g'.suite.isInfeasible γ.index,
      g'.suite.isTimedOut γ.index].count true = 1) ∧
    report.statistics.feasible + report.statistics.infeasible + report.statistics.timedOut = report.statistics.goals := by
  have parts := ofGoals_eq_ok made
  obtain ⟨predictions, suite⟩ := Suite.addGoals_eq { variability := settings.presenceConditions } goals
  have untracked : g.suite.variability = false := by rw [parts, suite, plain]
  let h : Holdings F E P := ⟨fun _ _ => True, fun _ _ => True, fun _ _ => True⟩
  have ready : g.Ready h g.suite.goalIds := ready_ofGoals (a := a) made fun tracks => by cases plain.symm.trans tracks
  obtain ⟨separate, awaits⟩ := separate_ofGoals made
  have ends : Ensures anything (generate a fuel) g fun report g' => (∀ i, g.Has i → g'.suite.verdicts i = 1) ∧
      report.statistics.feasible + report.statistics.infeasible + report.statistics.timedOut = report.statistics.goals := by
    rw [generate, ensures_bind, ensures_get, ensures_bind, ensures_anything_iff]
    intro p g₁ done
    obtain ⟨continues, decided⟩ := rounds_continue (p := { rounds := [], sound := true, queue := g.suite.goalIds }) ready
      (fun tracks => by cases untracked.symm.trans tracks) done
    have separate₁ := rounds_separate (p := { rounds := [], sound := true, queue := g.suite.goalIds }) ready untracked separate
      awaits done
    have plain₁ := continues.variability.trans untracked
    have one : ∀ i, g₁.Has i → g₁.suite.verdicts i = 1 := fun i has => separate₁.verdicts plain₁ (decided i has)
    have kept : ¬g₁.settings.allCoveredGoals = true := by
      rw [continues.settings, parts, own]
      exact Bool.false_ne_true
    rw [ensures_bind, ensures_get, if_neg kept, ensures_bind, ensures_get, ensures_bind]
    apply (statistics_add plain₁ one separate₁.marked).mono
    intro t g₂ counted
    obtain ⟨same, sum⟩ := counted
    exact ⟨fun i has => same ▸ one i ((continues.has_iff i).2 has), sum⟩
  obtain ⟨one, sum⟩ := ends.of_eq_ok ok
  refine ⟨fun γ mem => one γ.index ?_, sum⟩
  rw [Has, parts]
  exact Suite.exists_get?_addGoals _ mem

section Late

/-- The first engine runs out of time. The second finds an execution along both edges, but reports its goal only. -/
def lateScripts : List Script :=
  let step (name : String) (c : Command Script.State) : Script.Step := ⟨name, return .command c⟩
  [{ runs := [⟨[], .expire⟩] },
    { runs := [⟨[step "pop" .pop,
        step "add" (.add 0 { location := 1, presence := none, accepted := ∅ } (some 0)),
        step "add" (.add 1 { location := 2, presence := none, accepted := .singleton 2 } (some 1)),
        step "remove_waiting" (.removeWaiting 1), step "remove_waiting" (.removeWaiting 2),
        ⟨"cex", return .explain 2 .empty false none⟩], .sound⟩] }]

def lateSettings (all : Bool) : Settings := { timeLimit := some (.ofMillis 200), allCoveredGoals := all }

def lateGenerator (all : Bool) : Generator Script.Stage Nat :=
  { settings := lateSettings all
    program := corridor
    diagram := .fresh
    surroundings := { program := corridor, scripts := lateScripts }
    suite := Suite.addGoals { variability := false } (corridor.goals .edges true)
    order := .ofList ((corridor.goals .edges true).mapIdx fun i γ => (γ.index, i))
    clock := fun _ => 0
    timeLimit := some (.ofMillis 200) }

theorem made_lateGenerator (all : Bool) : ofGoals (lateSettings all) corridor (corridor.goals .edges true) false .fresh
    { program := corridor, scripts := lateScripts } (fun _ => 0) = .ok (lateGenerator all) := rfl

theorem generate_excludes_late : ∃ report g', generate Script.analysis 5 (lateGenerator false) = .ok report g' ∧
    report.statistics.timedOut = 1 ∧
    report.statistics.feasible + report.statistics.infeasible + report.statistics.timedOut = report.statistics.goals := by
  obtain ⟨report, done⟩ := exists_eq_ok (m := generate Script.analysis 5) (s := lateGenerator false) (by decide +kernel)
  have late : result? (generate Script.analysis 5) (lateGenerator false) |>.any (·.statistics.timedOut == 1) := by decide +kernel
  rw [result?_eq done] at late
  exact ⟨report, _, done, by simpa using late, (generate_excludes (made_lateGenerator false) rfl rfl done).2⟩

/-- A goal that timed out is covered as well if in the end the test cases are recorded for all goals. -/
theorem covered_after_timeout : ∃ report g', generate Script.analysis 5 (lateGenerator true) = .ok report g' ∧
    g'.suite.isPartiallyCovered 1 = true ∧ g'.suite.isTimedOut 1 = true ∧
    report.statistics.feasible + report.statistics.infeasible + report.statistics.timedOut = 3 ∧
    report.statistics.goals = 2 := by
  obtain ⟨report, done⟩ := exists_eq_ok (m := generate Script.analysis 5) (s := lateGenerator true) (by decide +kernel)
  have counted : result? (generate Script.analysis 5) (lateGenerator true) |>.any fun report =>
      report.statistics.feasible + report.statistics.infeasible + report.statistics.timedOut == 3 &&
        report.statistics.goals == 2 := by decide +kernel
  rw [result?_eq done] at counted
  exact ⟨report, _, done, by decide +kernel, by decide +kernel, by simpa using counted⟩

end Late

end Generator

end GoalCoverage
