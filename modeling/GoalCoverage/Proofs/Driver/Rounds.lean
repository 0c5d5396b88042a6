import GoalCoverage.Proofs.Driver.Course
import GoalCoverage.Proofs.Generation.Schedule
import GoalCoverage.Proofs.Generation.Start

/-!
The rounds of a generation. Every goal has a place of its own in the table of timed-out goals, so none is lost from it: at
the end of a round every goal is resolved or timed out, and a retry round takes up all that timed out.
-/

namespace GoalCoverage

open Procedure Diagram

namespace IdMap

variable {α : Type} {m : IdMap α} {k : Nat} {v : α} {entries : List (Nat × α)}

theorem mem_values : v ∈ m.values ↔ ∃ k, m.get? k = some v := by
  rw [values, List.mem_map]
  constructor
  · intro h
    obtain ⟨e, mem, rfl⟩ := h
    exact ⟨e.1, get?_eq_some_iff.2 mem⟩
  · intro h
    obtain ⟨k, here⟩ := h
    exact ⟨(k, v), get?_eq_some_iff.1 here, rfl⟩

/-- What is entered stays, if nothing else is entered at the same place. -/
theorem get?_foldl_insert (entered : (k, v) ∈ entries ∨ m.get? k = some v) (only : ∀ u, (k, u) ∈ entries → u = v) :
    (entries.foldl (fun m e => m.insert e.1 e.2) m).get? k = some v := by
  induction entries generalizing m with
  | nil =>
    cases entered with
    | inl mem => cases mem
    | inr old => exact old
  | cons e rest ih =>
    rw [List.foldl_cons]
    apply ih _ fun u mem => only u (List.mem_cons_of_mem _ mem)
    rw [get?_insert]
    by_cases same : k = e.1
    · have value : e.2 = v := only e.2 (by simp [same])
      exact .inr (by rw [if_pos same, value])
    · rw [if_neg same]
      cases entered with
      | inl mem =>
        cases List.mem_cons.1 mem with
        | inl here => exact absurd (congrArg Prod.fst here) same
        | inr later => exact .inl later
      | inr old => exact .inr old

end IdMap

namespace Suite

variable {s : Suite} {i k : Nat} {entries : List (Nat × Nat)}

theorem isTimedOut_iff : s.isTimedOut i = true ↔ ∃ k, s.timedOut.get? k = some i := by
  rw [isTimedOut, List.contains_iff_mem, IdMap.mem_values]

theorem of_get?_addTimedOut (here : (s.addTimedOut entries).timedOut.get? k = some i) :
    (k, i) ∈ entries ∨ s.timedOut.get? k = some i := by
  exact IdMap.mem_of_get?_foldl here

end Suite

namespace Generator

variable {F E S P : Type} {g g' g'' : Generator F P} {i : Nat} {batch left : List Nat}

/-- The generator has the goal. -/
def Has (g : Generator F P) (i : Nat) : Prop := ∃ γ, g.suite.goals.get? i = some γ

/-- A goal has a verdict if it is resolved or timed out. -/
def Decided (g : Generator F P) (i : Nat) : Prop := g.suite.resolved i = true ∨ g.suite.isTimedOut i = true

/-- Goals have places of their own, and those that timed out are found at theirs. -/
structure Orderly (g : Generator F P) : Prop where
  placed : ∀ i, g.Has i → ∃ k, g.order.get? i = some k
  apart : ∀ i j k, g.order.get? i = some k → g.order.get? j = some k → i = j
  timedOut : ∀ k i, g.suite.timedOut.get? k = some i → g.order.get? i = some k ∧ g.Has i
  logged : ∀ k i, g.suite.timedOut.get? k = some i → i ∈ g.timeouts

/-- What timed out is kept, and nothing takes its place. -/
theorem Defers.isTimedOut_iff (defers : g.Defers left g') (orderly : g.Orderly) (has : ∀ i ∈ left, g.Has i) :
    g'.suite.isTimedOut i = true ↔ i ∈ left ∨ g.suite.isTimedOut i = true := by
  have place : ∀ i ∈ left, g.order.get? i = some (g.order.getD i 0) := by
    intro i mem
    obtain ⟨k, here⟩ := orderly.placed i (has i mem)
    rw [IdMap.getD, here]
    rfl
  have only : ∀ k i, (i ∈ left ∧ g.order.getD i 0 = k ∨ g.suite.timedOut.get? k = some i) →
      ∀ j, (k, j) ∈ left.map (fun i => (g.order.getD i 0, i)) → j = i := by
    intro k i before j entered
    obtain ⟨j', mem, same⟩ := List.mem_map.1 entered
    cases same
    have at_j := place j mem
    cases before with
    | inl now =>
      obtain ⟨mem', same⟩ := now
      exact orderly.apart j i _ at_j (same ▸ place i mem')
    | inr old => exact orderly.apart j i _ at_j (orderly.timedOut _ i old).1
  rw [Suite.isTimedOut_iff, Suite.isTimedOut_iff, defers.suite]
  constructor
  · intro h
    obtain ⟨k, here⟩ := h
    cases Suite.of_get?_addTimedOut here with
    | inl new =>
      obtain ⟨j, mem, same⟩ := List.mem_map.1 new
      cases same
      exact .inl mem
    | inr old => exact .inr ⟨k, old⟩
  · intro h
    cases h with
    | inl mem =>
      refine ⟨g.order.getD i 0, IdMap.get?_foldl_insert (.inl (List.mem_map.2 ⟨i, mem, rfl⟩)) ?_⟩
      exact only _ i (.inl ⟨mem, rfl⟩)
    | inr old =>
      obtain ⟨k, here⟩ := old
      exact ⟨k, IdMap.get?_foldl_insert (.inr here) (only k i (.inr here))⟩

theorem Defers.orderly (defers : g.Defers left g') (orderly : g.Orderly) (has : ∀ i ∈ left, g.Has i) : g'.Orderly := by
  have goals : ∀ i, g'.Has i ↔ g.Has i := by
    intro i
    rw [Has, Has, defers.suite]
    exact Iff.rfl
  have source : ∀ k i, g'.suite.timedOut.get? k = some i →
      (i ∈ left ∧ g.order.getD i 0 = k) ∨ g.suite.timedOut.get? k = some i := by
    intro k i here
    rw [defers.suite] at here
    apply (Suite.of_get?_addTimedOut here).imp_left
    intro new
    obtain ⟨j, mem, same⟩ := List.mem_map.1 new
    cases same
    exact ⟨mem, rfl⟩
  refine ⟨fun i known => ?_, ?_, fun k i here => ?_, fun k i here => ?_⟩
  · rw [defers.order]
    exact orderly.placed i ((goals i).1 known)
  · rw [defers.order]
    exact orderly.apart
  · rw [defers.order, goals]
    cases source k i here with
    | inl new =>
      obtain ⟨mem, rfl⟩ := new
      obtain ⟨k, at_k⟩ := orderly.placed i (has i mem)
      refine ⟨?_, has i mem⟩
      rw [IdMap.getD, at_k]
      rfl
    | inr old => exact orderly.timedOut k i old
  · rw [defers.timeouts, List.mem_append]
    cases source k i here with
    | inl new => exact .inr new.1
    | inr old => exact .inl (orderly.logged k i old)

variable {h : Holdings F E P} {covers excludes : Nat → Prop}

theorem Develops.has_iff (develops : g.Develops covers excludes g') : g'.Has i ↔ g.Has i := by
  constructor
  · intro known
    obtain ⟨γ', here'⟩ := known
    obtain ⟨γ, here, _⟩ := develops.suite.kept i γ' here'
    exact ⟨γ, here⟩
  · intro known
    obtain ⟨γ, here⟩ := known
    exact develops.suite.known i γ here

theorem Develops.orderly (develops : g.Develops covers excludes g') (orderly : g.Orderly) : g'.Orderly where
  placed i known := by
    rw [develops.order]
    exact orderly.placed i (develops.has_iff.1 known)
  apart := by
    rw [develops.order]
    exact orderly.apart
  timedOut k i here := by
    rw [develops.suite.timedOut] at here
    rw [develops.order, develops.has_iff]
    exact orderly.timedOut k i here
  logged k i here := by
    rw [develops.suite.timedOut] at here
    rw [develops.timeouts]
    exact orderly.logged k i here

theorem Develops.decided (develops : g.Develops covers excludes g') (tidy : g.Tidy) (decided : g.Decided i) : g'.Decided i := by
  apply decided.imp (develops.suite.resolved tidy.drawn)
  intro timedOut
  rw [Suite.isTimedOut, develops.suite.timedOut]
  exact timedOut

section Settled

variable [AbstractState S]

/-- How one step of a generation leads to the next; the chronicle of the step is given by its batches. -/
structure Continues (a : Analysis F E S P) (h : Holdings F E P) (fuel : Nat) (batches : List (List Nat × Generator F P))
    (g g' : Generator F P) : Prop where
  regular : g'.Regular h
  orderly : g'.Orderly
  variability : g'.suite.variability = g.suite.variability
  settings : g'.settings = g.settings
  has_iff : ∀ i, g'.Has i ↔ g.Has i
  kept : ∀ i γ', g'.suite.goals.get? i = some γ' → ∃ γ, g.suite.goals.get? i = some γ ∧ γ.Narrows γ'
  resolved : ∀ i, g.suite.resolved i = true → g'.suite.resolved i = true
  once : ∀ e ∈ batches, (compositions a fuel e.1 e.2).length ≤ 1
  found : ∀ i ∈ g'.suite.infeasible, i ∈ g.suite.infeasible ∨
    (∃ γ, g.suite.goals.get? i = some γ ∧ γ.automaton.isDegenerate = true) ∨
      ∃ e ∈ batches, ∃ s ∈ sessions a fuel e.1 e.2, LeavesOpen a fuel e.1 s i

variable {a : Analysis F E S P} {fuel : Nat} {batches batches' : List (List Nat × Generator F P)}

theorem Continues.refl (regular : g.Regular h) (orderly : g.Orderly) : Continues a h fuel [] g g where
  regular := regular
  orderly := orderly
  variability := rfl
  settings := rfl
  has_iff _ := Iff.rfl
  kept _ γ here := ⟨γ, here, .refl γ⟩
  resolved _ h := h
  once := by simp
  found _ mem := .inl mem

theorem Continues.trans (first : Continues a h fuel batches g g') (second : Continues a h fuel batches' g' g'') :
    Continues a h fuel (batches ++ batches') g g'' where
  regular := second.regular
  orderly := second.orderly
  variability := second.variability.trans first.variability
  settings := second.settings.trans first.settings
  has_iff i := (second.has_iff i).trans (first.has_iff i)
  kept i γ'' here := by
    obtain ⟨γ', here', narrows'⟩ := second.kept i γ'' here
    obtain ⟨γ, here, narrows⟩ := first.kept i γ' here'
    exact ⟨γ, here, narrows.trans narrows'⟩
  resolved i h := second.resolved i (first.resolved i h)
  once e mem := (List.mem_append.1 mem).elim (first.once e) (second.once e)
  found i mem := by
    rcases second.found i mem with old | ⟨γ', here', degenerate⟩ | ⟨e, there, leaves⟩
    · rcases first.found i old with older | hopeless | ⟨e, there, leaves⟩
      · exact .inl older
      · exact .inr (.inl hopeless)
      · exact .inr (.inr ⟨e, List.mem_append_left _ there, leaves⟩)
    · obtain ⟨γ, here, narrows⟩ := first.kept i γ' here'
      exact .inr (.inl ⟨γ, here, narrows.same.automaton ▸ degenerate⟩)
    · exact .inr (.inr ⟨e, List.mem_append_right _ there, leaves⟩)

/-- Without excluding anything, no batch is needed. -/
theorem Continues.of_develops (regular : g'.Regular h) (develops : g.Develops covers (fun _ => False) g')
    (orderly : g.Orderly) (tidy : g.Tidy) : Continues a h fuel [] g g' where
  regular := regular
  orderly := develops.orderly orderly
  variability := develops.suite.variability
  settings := develops.settings
  has_iff _ := develops.has_iff
  kept := develops.suite.kept
  resolved _ := develops.suite.resolved tidy.drawn
  once := by simp
  found i mem := .inl ((develops.suite.excluded i mem).elim id False.elim)

/-- A batch that is processed continues the generation, and all its goals are decided. -/
theorem Settles.continues (settles : g.Settles h batch covers (Found a fuel batch g) False g') (tidy : g.Tidy)
    (orderly : g.Orderly) (has : ∀ i ∈ batch, g.Has i) (once : (compositions a fuel batch g).length ≤ 1) :
    Continues a h fuel [(batch, g)] g g' ∧ (∀ i, g.Decided i → g'.Decided i) ∧ ∀ i ∈ batch, g'.Decided i := by
  obtain ⟨g₁, proceeds, defers, _⟩ := settles
  have develops := proceeds.develops
  have has₁ : ∀ i ∈ g₁.leftOf batch, g₁.Has i := fun i mem => develops.has_iff.2 (has i (mem_leftOf.1 mem).1)
  have orderly₁ := develops.orderly orderly
  have timedOut := fun i => defers.isTimedOut_iff (i := i) orderly₁ has₁
  have decided : ∀ i, g₁.Decided i → g'.Decided i := fun i =>
    Or.imp (fun h => defers.resolved.trans h) fun h => (timedOut i).2 (.inr h)
  refine ⟨⟨defers.regular proceeds.regular, defers.orderly orderly₁ has₁, ?_, defers.settings.trans develops.settings, fun i => ?_,
    fun i γ' here => ?_, fun i h => ?_, by simpa using once, fun i mem => ?_⟩, fun i h => decided i (develops.decided tidy h), fun i mem => ?_⟩
  · rw [defers.suite]
    exact develops.suite.variability
  · rw [Has, defers.suite]
    exact develops.has_iff
  · rw [defers.suite] at here
    exact develops.suite.kept i γ' here
  · rw [defers.resolved]
    exact develops.suite.resolved tidy.drawn h
  · rw [defers.suite] at mem
    apply (develops.suite.excluded i mem).imp id
    intro found
    apply found.imp
    · intro hopeless
      exact hopeless.2
    · intro open'
      exact ⟨(batch, g), List.mem_singleton_self _, open'⟩
  · cases left : g₁.suite.resolved i with
    | true => exact .inl (defers.resolved.trans left)
    | false => exact .inr ((timedOut i).2 (.inl (mem_leftOf.2 ⟨mem, left⟩)))

variable {p : Progress} {queue : List Nat}

/-- The batches of a queue are processed one after the other. -/
theorem batches_continue {cut : List (List Nat)} {flags : List Bool} (regular : g.Regular h) (orderly : g.Orderly)
    (lawful : g.suite.variability = true → a.Lawful h) (has : ∀ batch ∈ cut, ∀ i ∈ batch, g.Has i)
    (ok : cut.mapM (processBatch a fuel) g = .ok flags g') :
    Continues a h fuel (calls (processBatch a fuel) cut g) g g' ∧ (∀ i, g.Decided i → g'.Decided i) ∧
      ∀ batch ∈ cut, ∀ i ∈ batch, g'.Decided i := by
  revert regular orderly lawful has
  apply mapM_induction (f := processBatch a fuel) (M := fun cs cut g _ g' => g.Regular h → g.Orderly →
    (g.suite.variability = true → a.Lawful h) → (∀ batch ∈ cut, ∀ i ∈ batch, g.Has i) → Continues a h fuel cs g g' ∧
      (∀ i, g.Decided i → g'.Decided i) ∧ ∀ batch ∈ cut, ∀ i ∈ batch, g'.Decided i) _ _ ok
  · intro g regular orderly _ _
    exact ⟨.refl regular orderly, fun _ h => h, by simp⟩
  · intro batch rest g b g₁ cs bs g' processed ih regular orderly lawful has
    obtain ⟨settles, once⟩ := (processBatch_settles regular lawful).of_eq_ok processed
    obtain ⟨first, kept, decided⟩ :=
      settles.continues regular.tidy orderly (fun i mem => has batch List.mem_cons_self i mem) once
    obtain ⟨later, kept', decided'⟩ := ih first.regular first.orderly
      (fun tracks => lawful (first.variability.symm.trans tracks))
      fun batch' mem i here => (first.has_iff i).2 (has batch' (List.mem_cons_of_mem _ mem) i here)
    refine ⟨first.trans later, fun i h => kept' i (kept i h), fun batch' mem i here => ?_⟩
    cases List.mem_cons.1 mem with
    | inl same => exact kept' i (decided i (same ▸ here))
    | inr mem => exact decided' batch' mem i here

theorem processQueue_continues (regular : g.Regular h) (orderly : g.Orderly)
    (lawful : g.suite.variability = true → a.Lawful h) (has : ∀ i ∈ p.queue, g.Has i) :
    Ensures anything (processQueue a fuel p.queue) g fun _ g' => Continues a h fuel (batchesOf a fuel p g) g g' ∧
      (∀ i, g.Decided i → g'.Decided i) ∧ ∀ i ∈ p.queue, g'.Decided i := by
  rw [processQueue, ensures_bind, ensures_get, ensures_bind, ensures_anything_iff]
  intro flags g' ok
  have within : ∀ batch ∈ g.settings.batches p.queue, ∀ i ∈ batch, g.Has i := fun batch mem i here =>
    has i ((Settings.sublist_of_mem_batches mem).subset here)
  obtain ⟨continues, kept, decided⟩ := batches_continue regular orderly lawful within ok
  refine ⟨continues, kept, fun i mem => ?_⟩
  obtain ⟨batch, there, here⟩ := Settings.exists_mem_batches (s := g.settings) mem
  exact decided batch there i here

/-- Every goal is decided or waits in the queue, and the queue has goals only. -/
structure Ready (h : Holdings F E P) (queue : List Nat) (g : Generator F P) : Prop where
  regular : g.Regular h
  orderly : g.Orderly
  has : ∀ i ∈ queue, g.Has i
  decided : ∀ i, g.Has i → i ∈ queue ∨ g.Decided i

omit [AbstractState S] in
/-- Whatever their order, all goals that timed out are queued. -/
theorem mem_queue_iff {order : RetryOrder} (orderly : g.Orderly) :
    i ∈ order.queue g.suite.timedOut g.timeouts ↔ g.suite.isTimedOut i = true := by
  rw [Suite.isTimedOut, List.contains_iff_mem]
  cases order with
  | forward => exact Iff.rfl
  | inverted => rw [RetryOrder.queue, List.mem_reverse]
  | unordered =>
    rw [RetryOrder.queue, List.mem_filter, List.contains_iff_mem, and_iff_right_iff_imp, IdMap.mem_values]
    intro h
    obtain ⟨k, here⟩ := h
    exact orderly.logged k i here

/-- A retry round begins with all goals that are not resolved. -/
theorem beginRetry_ready (regular : g.Regular h) (orderly : g.Orderly) (decided : ∀ i, g.Has i → g.Decided i) :
    Ensures anything beginRetry g fun queue g' => g'.Ready h queue ∧ Continues a h fuel [] g g' := by
  rw [beginRetry, ensures_bind, ensures_get]
  dsimp only
  rw [ensures_bind, ensures_set]
  let queue := g.settings.retryOrder.queue g.suite.timedOut g.timeouts
  have counted : ∀ g' : Generator F P, g'.suite = { g.suite with timedOut := ∅ } → g'.diagram = g.diagram →
      g'.surroundings = g.surroundings → g'.precision = g.precision → g'.order = g.order →
      g'.settings = g.settings → g'.Ready h queue ∧ Continues a h fuel [] g g' := by
    intro g' suite diagram surroundings precision order settings
    have has_iff : ∀ i, g'.Has i ↔ g.Has i := by
      intro i
      rw [Has, Has, suite]
    have none : ∀ k i, g'.suite.timedOut.get? k ≠ some i := by
      intro k i
      rw [suite]
      simp
    have regular' : g'.Regular h := by
      refine ⟨⟨?_, ?_⟩, ?_, ?_⟩
      · rw [suite, diagram]
        exact ⟨regular.tidy.drawn.index, regular.tidy.drawn.opened, regular.tidy.drawn.excluded, regular.tidy.drawn.ready⟩
      · rw [suite, diagram]
        exact regular.tidy.presence
      · rw [suite, diagram, surroundings]
        exact regular.surroundings
      · rw [suite, diagram, precision]
        exact regular.precision
    have orderly' : g'.Orderly := by
      refine ⟨fun i known => ?_, ?_, fun k i here => absurd here (none k i), fun k i here => absurd here (none k i)⟩
      · rw [order]
        exact orderly.placed i ((has_iff i).1 known)
      · rw [order]
        exact orderly.apart
    have resolved : ∀ i, g.suite.resolved i = true → g'.suite.resolved i = true := by
      intro i
      rw [suite]
      exact id
    refine ⟨⟨regular', orderly', fun i mem => ?_, fun i known => ?_⟩, regular', orderly', ?_, settings, has_iff, fun i γ' here => ?_,
      resolved, by simp, fun i mem => .inl ?_⟩
    · obtain ⟨k, here⟩ := Suite.isTimedOut_iff.1 ((mem_queue_iff orderly).1 mem)
      exact (has_iff i).2 (orderly.timedOut k i here).2
    · cases decided i ((has_iff i).1 known) with
      | inl h => exact .inr (.inl (resolved i h))
      | inr h => exact .inl ((mem_queue_iff orderly).2 h)
    · rw [suite]
    · rw [suite] at here
      exact ⟨γ', here, .refl γ'⟩
    · rw [suite] at mem
      exact mem
  split
  next =>
    rw [ensures_bind]
    exact trivial
  next =>
    rw [ensures_bind, ensures_modify]
    exact counted _ rfl rfl rfl rfl rfl rfl

theorem round_continues (ready : g.Ready h p.queue) (lawful : g.suite.variability = true → a.Lawful h) :
    Ensures anything (round a fuel p) g fun r g' => Continues a h fuel (batchesOf a fuel p g) g g' ∧
      (∀ p', r = .inl p' → g'.Ready h p'.queue) ∧ ∀ p', r = .inr p' → ∀ i, g'.Has i → g'.Decided i := by
  rw [round, ensures_bind]
  apply (processQueue_continues ready.regular ready.orderly lawful ready.has).mono
  intro sound g₁ queued
  obtain ⟨continues, kept, decided⟩ := queued
  have all : ∀ i, g₁.Has i → g₁.Decided i := fun i known =>
    (ready.decided i ((continues.has_iff i).1 known)).elim (decided i) (kept i)
  rw [ensures_bind, ensures_get]
  split
  next =>
    rw [ensures_bind]
    apply (beginRetry_ready (a := a) continues.regular continues.orderly all).mono
    intro queue g₂ begun
    obtain ⟨ready', more⟩ := begun
    have whole := continues.trans more
    rw [List.append_nil] at whole
    exact ⟨whole, fun p' same => Sum.inl.inj same ▸ ready', by simp⟩
  next => exact ⟨continues, by simp, fun _ _ => all⟩

/-- What holds when all rounds are over. -/
theorem rounds_continue {p' : Progress} (ready : g.Ready h p.queue) (lawful : g.suite.variability = true → a.Lawful h)
    (ok : repeatUntil (round a fuel) fuel p g = .ok p' g') :
    Continues a h fuel ((turns (round a fuel) fuel p g).flatMap fun e => batchesOf a fuel e.1 e.2) g g' ∧
      ∀ i, g'.Has i → g'.Decided i := by
  revert ready lawful
  apply repeatUntil_induction (M := fun l p g _ g' => g.Ready h p.queue →
    (g.suite.variability = true → a.Lawful h) → Continues a h fuel (l.flatMap fun e => batchesOf a fuel e.1 e.2) g g' ∧
      ∀ i, g'.Has i → g'.Decided i) _ _ ok
  · intro p g p' g' went ready lawful
    obtain ⟨continues, _, decided⟩ := (round_continues ready lawful).of_eq_ok went
    refine ⟨?_, decided p' rfl⟩
    rw [List.flatMap_cons, List.flatMap_nil, List.append_nil]
    exact continues
  · intro p g p₁ g₁ l p' g' went ih ready lawful
    obtain ⟨continues, again, _⟩ := (round_continues ready lawful).of_eq_ok went
    obtain ⟨more, decided⟩ := ih (again p₁ rfl) fun tracks => lawful (continues.variability.symm.trans tracks)
    refine ⟨?_, decided⟩
    rw [List.flatMap_cons]
    exact continues.trans more

omit [AbstractState S] in
theorem replayQueue_develops (tidy : g.Tidy) :
    Ensures anything (queue.forM replay) g fun _ g' => g.Records (· ∈ queue) (fun _ => False) g' := by
  apply Ensures.forM (I := fun _ g' => g.Records (· ∈ queue) (fun _ => False) g') _ (.refl tidy)
  intro i done rest g' whole records
  apply (replay_develops records.tidy).mono
  intro _ g'' more
  exact records.trans (more.mono (fun j same => by simp [whole, same]) fun _ h => h)

/-- At the end of generation all goals are decided. -/
theorem generate_continues (ready : g.Ready h g.suite.goalIds) (lawful : g.suite.variability = true → a.Lawful h) :
    Ensures anything (generate a fuel) g fun _ g' => ∃ g₁ d, Continues a h fuel (batchCalls a fuel g) g g₁ ∧
      (∀ i, g₁.Has i → g₁.Decided i) ∧ g' = { g₁ with diagram := d } := by
  rw [generate, ensures_bind, ensures_get, ensures_bind, ensures_anything_iff]
  intro p g₁ done
  obtain ⟨continues, decided⟩ := rounds_continue (p := { rounds := [], sound := true, queue := g.suite.goalIds }) ready lawful done
  have counted : ∀ g₂ : Generator F P, Continues a h fuel (batchCalls a fuel g) g g₂ → (∀ i, g₂.Has i → g₂.Decided i) →
      Ensures anything (do
        let g ← get
        let statistics ← onRegions g.suite.statistics
        return ({ sound := p.sound, processed := g.processed, rounds := p.rounds, statistics } : Report)) g₂
        fun _ g' => ∃ g₁ d, Continues a h fuel (batchCalls a fuel g) g g₁ ∧
          (∀ i, g₁.Has i → g₁.Decided i) ∧ g' = { g₁ with diagram := d } := by
    intro g₂ continues decided
    rw [ensures_bind, ensures_get, ensures_bind, ensures_onRegions_iff]
    intro statistics d _
    exact ⟨g₂, d, continues, decided, rfl⟩
  rw [ensures_bind, ensures_get]
  split
  next =>
    rw [ensures_bind]
    apply (replayQueue_develops continues.regular.tidy).mono
    intro _ g₂ records
    have lawful₁ : g₁.suite.variability = true → a.Lawful h := fun tracks => lawful (continues.variability.symm.trans tracks)
    have more : Continues a h fuel [] g₁ g₂ := Continues.of_develops
      (continues.regular.records lawful₁ records) records.toDevelops continues.orderly continues.regular.tidy
    have whole := continues.trans more
    rw [List.append_nil] at whole
    exact counted g₂ whole fun i known =>
      records.decided continues.regular.tidy (decided i (records.has_iff.1 known))
  next => exact counted g₁ continues decided

end Settled

end Generator

end GoalCoverage
