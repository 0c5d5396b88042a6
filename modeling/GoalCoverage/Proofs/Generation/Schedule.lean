import GoalCoverage.Generation.Schedule
import GoalCoverage.Proofs.Generation.Replay
import GoalCoverage.Proofs.Generation.Search
import GoalCoverage.Proofs.Suite.Coverings

/-!
The schedule of generators. Every goal is in a batch, and a batch is processed until all its goals are resolved
(`generate_ensures`).
-/

namespace GoalCoverage

open Procedure Diagram Explorer

namespace Settings

variable {s : Settings} {queue batch : List Nat} {i left : Nat}

theorem batchSize_pos (some_goal : queue ≠ []) : 0 < s.batchSize queue.length := by
  have pos := List.length_pos_of_ne_nil some_goal
  rw [batchSize]
  split
  next => exact pos
  next limited => omega

/-- Batches of one size, or one batch if the size is 0; only the last batch may be smaller. -/
structure Tiles (size : Nat) (queue : List Nat) (batches : List (List Nat)) : Prop where
  flatten : batches.flatten = queue
  filled : [] ∉ batches
  single : size = 0 → batches.length ≤ 1
  full : 0 < size → ∀ batch ∈ batches.dropLast, batch.length = size
  most : 0 < size → ∀ batch ∈ batches, batch.length ≤ size

namespace Tiles

variable {size : Nat} {first : List Nat} {batches : List (List Nat)}

theorem nil : Tiles size [] [] := ⟨rfl, List.not_mem_nil, fun _ => Nat.zero_le 1, by simp, by simp⟩

theorem eq_nil (tiles : Tiles size [] batches) : batches = [] := by
  cases batches with
  | nil => rfl
  | cons first rest =>
    have none := List.flatten_eq_nil_iff.1 tiles.flatten first List.mem_cons_self
    exact absurd (none ▸ List.mem_cons_self) tiles.filled

/-- A batch that is not the last one is full. -/
theorem cons (rest : Tiles size queue batches) (filled : first ≠ []) (full : queue ≠ [] → 0 < size ∧ first.length = size)
    (most : 0 < size → first.length ≤ size) : Tiles size (first ++ queue) (first :: batches) where
  flatten := by rw [List.flatten_cons, rest.flatten]
  filled mem := by
    cases List.mem_cons.1 mem with
    | inl here => exact filled here.symm
    | inr later => exact rest.filled later
  single zero := by
    have last : queue = [] := by
      by_contra more
      exact absurd zero (Nat.ne_of_gt (full more).1)
    subst last
    rw [rest.eq_nil, List.length_singleton]
  full sized batch mem := by
    cases batches with
    | nil => cases mem
    | cons second others =>
      rw [List.dropLast_cons_cons] at mem
      have more : queue ≠ [] := by
        rintro rfl
        cases rest.eq_nil
      cases List.mem_cons.1 mem with
      | inl here => exact here ▸ (full more).2
      | inr later => exact rest.full sized batch later
  most sized batch mem := by
    cases List.mem_cons.1 mem with
    | inl here => exact here ▸ most sized
    | inr later => exact rest.most sized batch later

end Tiles

theorem tiles_cut (enough : queue.length ≤ left) :
    Tiles s.goalsPerRun queue (batches.cut s left queue) := by
  induction left generalizing queue with
  | zero =>
    cases List.eq_nil_of_length_eq_zero (Nat.le_zero.1 enough)
    exact .nil
  | succ left ih =>
    rw [batches.cut]
    split
    next empty => exact List.isEmpty_iff.1 empty ▸ .nil
    next some_goal =>
      have some_goal := mt List.isEmpty_iff.2 some_goal
      have pos := batchSize_pos (s := s) some_goal
      have queued := List.length_pos_of_ne_nil some_goal
      have shorter : (queue.drop (s.batchSize queue.length)).length ≤ left := by
        rw [List.length_drop]
        omega
      have filled : queue.take (s.batchSize queue.length) ≠ [] := by
        rw [← List.length_pos_iff, List.length_take]
        omega
      have tiles := (ih shorter).cons filled (fun more => ?_) fun sized => ?_
      · rwa [List.take_append_drop] at tiles
      · have less : s.batchSize queue.length < queue.length := by
          rw [Ne, List.drop_eq_nil_iff] at more
          omega
        rw [List.length_take]
        rw [batchSize] at less ⊢
        split at less
        next => omega
        next sized =>
          rw [if_neg sized]
          omega
      · rw [List.length_take, batchSize, if_neg (Nat.ne_of_gt sized)]
        omega

theorem tiles_batches : Tiles s.goalsPerRun queue (s.batches queue) := tiles_cut (Nat.le_refl _)

theorem flatten_batches : (s.batches queue).flatten = queue := tiles_batches.flatten

theorem sublist_of_mem_batches (mem : batch ∈ s.batches queue) : batch.Sublist queue := by
  have part := List.sublist_flatten_of_mem mem
  rwa [flatten_batches] at part

theorem exists_mem_batches (mem : i ∈ queue) : ∃ batch ∈ s.batches queue, i ∈ batch := by
  have part : i ∈ (s.batches queue).flatten := flatten_batches ▸ mem
  exact List.mem_flatten.1 part

end Settings

namespace Suite

variable {s : Suite} {d : Diagram} {i : Nat} {g : Goal}

section Statistics

variable {tracks : Bool} (wider : s.variability = true → tracks = true)

include wider

theorem isCovered_delivers (charted : s.Charted d) (ready : d.Ready tracks) (here : s.goals.get? i = some g) :
    Delivers tracks (s.isCovered i) d fun _ _ => True := by
  rw [isCovered]
  split
  next => exact delivers_pure ready trivial
  next =>
    split
    next => exact delivers_pure ready trivial
    next tracked =>
      have variability : s.variability = true := by simpa using tracked
      have on := wider variability
      have has : ∀ r ∈ g.covering.values.map (·.getD .all), d.Has r := by
        intro r mem
        obtain ⟨o, value, rfl⟩ := List.mem_map.1 mem
        obtain ⟨entry, there, rfl⟩ := List.mem_map.1 value
        exact charted variability i g entry.1 entry.2 here (IdMap.get?_eq_some_iff.2 there)
      refine (delivers_bind_ok (goal_eq_ok here)).2 ?_
      have yields := joinAll_yields (ready on) has
      rw [← on] at yields
      apply yields.delivers.bind
      intro u d' _ ready' _
      exact delivers_pure ready' trivial

theorem tally_delivers (charted : s.Charted d) (ready : d.Ready tracks) (here : s.goals.get? i = some g) (t : Statistics) :
    Delivers tracks (s.tally t i) d fun _ _ => True := by
  have covered := isCovered_delivers wider charted ready here
  rw [tally]
  split
  next =>
    dsimp only
    split
    next => exact delivers_pure ready trivial
    next =>
      apply covered.bind
      intro complete d' _ ready' _
      exact delivers_pure ready' trivial
  next =>
    split
    next => exact delivers_pure ready trivial
    next =>
      split
      next => exact delivers_pure ready trivial
      next => exact delivers_pure ready trivial

theorem statistics_delivers (charted : s.Charted d) (ready : d.Ready tracks) :
    Delivers tracks s.statistics d fun _ _ => True := by
  have counts : ∀ (l : List Nat) (t : Statistics) (d' : Diagram), (∀ i ∈ l, ∃ g, s.goals.get? i = some g) →
      s.Charted d' → d'.Ready tracks → Delivers tracks (l.foldlM s.tally t) d' fun _ _ => True := by
    intro l
    induction l with
    | nil => exact fun t d' _ _ ready' => delivers_pure ready' trivial
    | cons i rest ih =>
      intro t d' known charted' ready'
      obtain ⟨g, here⟩ := known i List.mem_cons_self
      rw [List.foldlM_cons]
      apply (tally_delivers wider charted' ready' here t).bind
      intro t' d'' ext ready'' _
      exact ih t' d'' (fun i mem => known i (List.mem_cons_of_mem _ mem))
        (fun on i g n o here entry => ext.has (charted' on i g n o here entry)) ready''
  rw [statistics]
  dsimp only
  split
  next => exact counts s.goalIds _ d (fun i mem => IdMap.mem_keys.1 mem) charted ready
  next => exact delivers_pure ready trivial

end Statistics

end Suite

namespace Generator

variable {t : Task} {interest : Nat → Prop} {feasible : Nat → Configuration → Prop} {g g' : Explored}
  {T : Failure → Prop} {i : Nat} {γ : Goal} {batch queue : List Nat} {fuel : Nat}

section Schedule

variable (fair : t.Fair T) (judges : t.Judges interest feasible)

include fair judges

theorem giveUpDegenerate_ensures (good : Good t interest feasible g) (known : ∀ i ∈ batch, ∃ γ, t.goals.get? i = some γ) :
    Ensures T (giveUpDegenerate batch) g fun _ g' => Later t interest feasible g g' := by
  apply Ensures.forM (I := fun _ g' => Later t interest feasible g g') _ (.refl good)
  intro i done rest g' whole later
  obtain ⟨γ, here⟩ := known i (by simp [whole])
  obtain ⟨γ', now⟩ := later.good.known i γ here
  obtain ⟨γ₀, first, same⟩ := later.good.kept i γ' now
  rw [here] at first
  cases first
  rw [ensures_bind, ensures_isResolved now]
  split
  next => exact later
  next left =>
    rw [ensures_bind, ensures_goal now]
    split
    next degenerate =>
      have hopeless : interest i → ∀ c, g'.suite.Leaves g'.diagram i c → ¬feasible i c := by
        intro wanted c _ can
        obtain ⟨path, _, recognizes, _⟩ := judges.found i γ c wanted here can
        rw [same.automaton] at degenerate
        exact Automaton.not_recognizes_of_isDegenerate degenerate recognizes
      apply (giveUp_ensures fair later.good here (by simpa using left) hopeless).mono
      intro _ g'' h
      exact later.trans h.1
    next => exact later

theorem replayBatch_ensures (good : Good t interest feasible g) (known : ∀ i ∈ batch, ∃ γ, t.goals.get? i = some γ) :
    Ensures T (replayBatch batch) g fun _ g' => Later t interest feasible g g' := by
  apply Ensures.forM (I := fun _ g' => Later t interest feasible g g') _ (.refl good)
  intro i done rest g' whole later
  obtain ⟨γ, here⟩ := known i (by simp [whole])
  obtain ⟨γ', now⟩ := later.good.known i γ here
  rw [ensures_bind, ensures_isResolved now]
  split
  next => exact later
  next =>
    rw [ensures_bind, ensures_get]
    split
    next =>
      apply (replay_ensures fair judges later.good here).mono
      intro _ g'' later'
      exact later.trans later'
    next => exact later

theorem attemptBatch_ensures (good : Good t interest feasible g) (known : ∀ i ∈ batch, ∃ γ, t.goals.get? i = some γ)
    (distinct : batch.Nodup) : Ensures T (attemptBatch analysis fuel batch true) g fun r g' =>
      match r with
      | .inl sound => Later t interest feasible g g' ∧ sound = true
      | .inr sound => Later t interest feasible g g' ∧ sound = true ∧ ∀ i ∈ batch, g'.suite.resolved i = true := by
  have searched : ∀ g', Later t interest feasible g g' → batch.all g'.suite.resolved = false →
      Ensures T (do
        let finding ← search analysis fuel batch
        let sound := true && finding.sound
        return if finding.outcome = .timedOut then .inr sound else .inl sound) g' fun (r : Bool ⊕ Bool) g'' =>
          match r with
          | .inl sound => Later t interest feasible g g'' ∧ sound = true
          | .inr sound => Later t interest feasible g g'' ∧ sound = true ∧ ∀ i ∈ batch, g''.suite.resolved i = true := by
    intro g' later open'
    have left : ∃ i ∈ batch, g'.suite.resolved i = false := by simpa using open'
    rw [ensures_bind]
    apply (search_ensures fair judges known distinct later.good left).mono
    intro finding g'' h
    obtain ⟨rfl, later', _⟩ := h
    exact ⟨later.trans later', rfl⟩
  rw [attemptBatch, ensures_bind, ensures_isDone (known_of_good known good)]
  split
  next done => exact ⟨.refl good, rfl, fun i mem => List.all_eq_true.1 done i mem⟩
  next open' =>
    rw [ensures_bind, ensures_get]
    split
    next =>
      rw [ensures_bind]
      apply (replayBatch_ensures fair judges good known).mono
      intro _ g' later
      rw [ensures_bind, ensures_isDone (known_of_good known later.good)]
      split
      next done => exact ⟨later, rfl, fun i mem => List.all_eq_true.1 done i mem⟩
      next open' => exact searched g' later (by simpa using open')
    next => exact searched g (.refl good) (by simpa using open')

theorem processBatch_ensures (good : Good t interest feasible g) (known : ∀ i ∈ batch, ∃ γ, t.goals.get? i = some γ)
    (distinct : batch.Nodup) : Ensures T (processBatch analysis fuel batch) g fun sound g' =>
      Later t interest feasible g g' ∧ sound = true ∧ ∀ i ∈ batch, g'.suite.resolved i = true := by
  have rest : ∀ g', Later t interest feasible g g' → Ensures T (do
      giveUpDegenerate batch
      repeatUntil (attemptBatch analysis fuel batch) fuel true) g' fun sound g'' =>
        Later t interest feasible g g'' ∧ sound = true ∧ ∀ i ∈ batch, g''.suite.resolved i = true := by
    intro g' later
    rw [ensures_bind]
    apply (giveUpDegenerate_ensures fair judges later.good known).mono
    intro _ g₁ later₁
    apply Ensures.repeatUntil (I := fun sound g'' => Later t interest feasible g g'' ∧ sound = true) fair.exhausted _ fuel
      ⟨later.trans later₁, rfl⟩
    intro sound g₂ holds
    obtain ⟨later₂, rfl⟩ := holds
    apply (attemptBatch_ensures fair judges later₂.good known distinct).mono
    intro r g₃ spec
    cases r with
    | inl sound => exact ⟨later₂.trans spec.1, spec.2⟩
    | inr sound => exact ⟨later₂.trans spec.1, spec.2⟩
  have counted : Later t interest feasible g { g with processed := g.processed + batch.length } :=
    ⟨{ good with }, rfl, .refl _, fun _ _ h => h, List.prefix_refl _⟩
  rw [processBatch, ensures_bind, ensures_modify, ensures_bind, ensures_get]
  split
  next tracks =>
    rw [ensures_bind]
    apply (remainingRegion_ensures counted.good tracks (known_of_good known counted.good)).mono
    intro _ g' h
    exact rest g' (counted.trans h.1)
  next => exact rest _ counted

theorem processQueue_ensures (good : Good t interest feasible g) (known : ∀ i ∈ queue, ∃ γ, t.goals.get? i = some γ)
    (distinct : queue.Nodup) : Ensures T (processQueue analysis fuel queue) g fun sound g' =>
      Later t interest feasible g g' ∧ sound = true ∧ ∀ i ∈ queue, g'.suite.resolved i = true := by
  let Done (done : List (List Nat)) (sound : List Bool) (g' : Explored) : Prop := Later t interest feasible g g' ∧
    sound.all id = true ∧ ∀ batch ∈ done, (∀ i ∈ batch, ∃ γ, t.goals.get? i = some γ) ∧
      ∀ i ∈ batch, g'.suite.resolved i = true
  have all : Ensures T ((g.settings.batches queue).mapM (processBatch analysis fuel)) g fun sound g' =>
      Done (g.settings.batches queue) sound g' := by
    apply Ensures.mapM _ ⟨.refl good, rfl, by simp⟩
    intro batch done sound g' mem holds
    obtain ⟨later, before, resolved⟩ := holds
    have part := Settings.sublist_of_mem_batches mem
    have known' : ∀ i ∈ batch, ∃ γ, t.goals.get? i = some γ := fun i here => known i (part.subset here)
    apply (processBatch_ensures fair judges later.good known' (part.nodup distinct)).mono
    intro sound' g'' h
    obtain ⟨later', rfl, resolved'⟩ := h
    refine ⟨later.trans later', by simp [before], fun batch' mem => ?_⟩
    cases List.mem_append.1 mem with
    | inl old =>
      obtain ⟨members, closed⟩ := resolved batch' old
      refine ⟨members, fun i here => ?_⟩
      obtain ⟨γ, goal⟩ := members i here
      exact later'.resolved later.good goal (closed i here)
    | inr last =>
      cases List.mem_singleton.1 last
      exact ⟨known', resolved'⟩
  rw [processQueue, ensures_bind, ensures_get, ensures_bind]
  apply all.mono
  intro sound g' h
  refine ⟨h.1, h.2.1, fun i mem => ?_⟩
  obtain ⟨batch, there, here⟩ := Settings.exists_mem_batches (s := g.settings) mem
  exact (h.2.2 batch there).2 i here

theorem round_ensures {p : Progress} (good : Good t interest feasible g) (known : ∀ i ∈ p.queue, ∃ γ, t.goals.get? i = some γ)
    (distinct : p.queue.Nodup) (sound : p.sound = true) : Ensures T (round analysis fuel p) g fun r g' =>
      match r with
      | .inl _ => False
      | .inr p' => Later t interest feasible g g' ∧ p'.sound = true ∧ ∀ i ∈ p.queue, g'.suite.resolved i = true := by
  rw [round, ensures_bind]
  apply (processQueue_ensures fair judges good known distinct).mono
  intro all_sound g' h
  obtain ⟨later, rfl, resolved⟩ := h
  have final : ∀ rounds, g'.retries rounds = false := by
    intro rounds
    rw [retries, later.good.timedOut]
    rfl
  rw [ensures_bind, ensures_get]
  dsimp only
  rw [if_neg (by simp [final])]
  exact ⟨later, by simp [sound], resolved⟩

end Schedule

/-- Goals of a generator, in the order in which they are first processed. -/
theorem goalIds_spec (good : Good t interest feasible g) : g.suite.goalIds.Nodup ∧
    ∀ i, i ∈ g.suite.goalIds ↔ ∃ γ, t.goals.get? i = some γ := by
  refine ⟨?_, fun i => ?_⟩
  · exact g.suite.goals.keys.increasing.imp Nat.ne_of_lt
  · rw [Suite.goalIds, IdSet.mem_toList, IdMap.mem_keys]
    constructor
    · intro h
      obtain ⟨γ, now⟩ := h
      obtain ⟨γ₀, first, _⟩ := good.kept i γ now
      exact ⟨γ₀, first⟩
    · intro h
      obtain ⟨γ, first⟩ := h
      exact good.known i γ first

theorem generate_ensures (fair : t.Fair T) (judges : t.Judges interest feasible) (good : Good t interest feasible g) :
    Ensures T (generate analysis fuel) g fun report g' => Later t interest feasible g g' ∧ report.sound = true ∧
      ∀ i γ, t.goals.get? i = some γ → g'.suite.resolved i = true := by
  obtain ⟨distinct, members⟩ := goalIds_spec good
  have processed : Ensures T (repeatUntil (round analysis fuel) fuel { rounds := [], sound := true, queue := g.suite.goalIds })
      g fun p g' => Later t interest feasible g g' ∧ p.sound = true ∧
        ∀ i ∈ g.suite.goalIds, g'.suite.resolved i = true := by
    apply Ensures.repeatUntil (I := fun p g' => g' = g ∧ p = { rounds := [], sound := true, queue := g.suite.goalIds })
      fair.exhausted _ fuel ⟨rfl, rfl⟩
    intro p g' holds
    obtain ⟨rfl, rfl⟩ := holds
    apply (round_ensures fair judges good (fun i mem => (members i).1 mem) distinct rfl).mono
    intro r g' spec
    cases r with
    | inl _ => exact spec.elim
    | inr p' => exact spec
  have reported : ∀ (p : Progress) (g' : Explored), Later t interest feasible g g' → p.sound = true →
      (∀ i ∈ g.suite.goalIds, g'.suite.resolved i = true) → Ensures T (do
        let g ← get
        let statistics ← onRegions g.suite.statistics
        return ({ sound := p.sound, processed := g.processed, rounds := p.rounds, statistics } : Report)) g'
        fun report g' => Later t interest feasible g g' ∧ report.sound = true ∧
          ∀ i γ, t.goals.get? i = some γ → g'.suite.resolved i = true := by
    intro p g' later sound resolved
    rw [ensures_bind, ensures_get, ensures_bind]
    have tracks := later.good.variability
    apply ensures_onRegions (Suite.statistics_delivers (tracks ▸ id) later.good.sane.charted later.good.ready)
    intro statistics d ext ready _
    exact ⟨later.trans (later.good.grown ext ready), sound, fun i γ here => resolved i ((members i).2 ⟨γ, here⟩)⟩
  rw [generate, ensures_bind, ensures_get, ensures_bind]
  apply processed.mono
  intro p g' h
  obtain ⟨later, sound, resolved⟩ := h
  rw [ensures_bind, ensures_get]
  split
  next =>
    rw [ensures_bind]
    have replayed : Ensures T (g.suite.goalIds.forM replay) g' fun _ g'' => Later t interest feasible g' g'' := by
      apply Ensures.forM (I := fun _ g'' => Later t interest feasible g' g'') _ (.refl later.good)
      intro i done rest g₁ whole later₁
      obtain ⟨γ, here⟩ := (members i).1 (by simp [whole])
      apply (replay_ensures fair judges later₁.good here).mono
      intro _ g₂ later₂
      exact later₁.trans later₂
    apply replayed.mono
    intro _ g'' later'
    refine reported p g'' (later.trans later') sound fun i mem => ?_
    obtain ⟨γ, here⟩ := (members i).1 mem
    exact later'.resolved later.good here (resolved i mem)
  next => exact reported p g' later sound resolved

end Generator

end GoalCoverage
