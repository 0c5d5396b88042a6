import GoalCoverage.Proofs.Explorer.Expansion
import GoalCoverage.Proofs.Explorer.Routes

/-!
Runs of the explorer. Whatever ends a run, the exploration is in order again (`run_ensures`). Without a token
and without a limit on the nodes a run only ends with targets or with an empty frontier.
-/

namespace GoalCoverage.Explorer

open Diagram StateGraph Procedure

variable {x : Explorer} {d : Diagram} {g : StateGraph State} {b b' b'' : Desk} {n root : NodeId}
  {busy : Option NodeId} {waiting waiting' : List NodeId} {disabled : IdSet} {T : Failure → Prop}
  {observers : List Observer} {components : List Component}

theorem Sound.explained (sound : x.Sound d g root) (cs : IdMap Counterexample) :
    Sound { x with counterexamples := cs } d g root where
  tree := sound.tree
  fit := ⟨sound.fit.ready, sound.fit.program, sound.fit.constraint, sound.fit.opened⟩
  proper n v here :=
    have proper := sound.proper n v here
    ⟨proper.length, ⟨proper.presence.isSome, proper.presence.knows⟩, proper.accepted⟩
  start := sound.start
  follows p w n e v here link there :=
    have follows := sound.follows p w n e v here link there
    ⟨follows.edge, follows.observers, follows.presence, follows.possible⟩

theorem Complete.explained (complete : x.Complete d g root waiting disabled busy) (cs : IdMap Counterexample) :
    Complete { x with counterexamples := cs } d g root waiting disabled busy where
  start := complete.start
  credits := complete.credits
  cover := complete.cover
  expanded := complete.expanded

theorem Steady.explained (steady : Steady root busy b) (cs : IdMap Counterexample) :
    Steady root busy { b with engine := { b.engine with counterexamples := cs } } where
  free := steady.free
  sound := steady.sound.explained cs
  complete := steady.complete.explained cs
  queued := steady.queued

/-- Another frontier is as good if it has all the nodes but the one that is busy. -/
theorem Steady.rewait (steady : Steady root none b)
    (sub : ∀ m ∈ b.reached.waiting, m ∈ waiting' ∨ busy = some m)
    (only : ∀ m ∈ waiting', m ∈ b.reached.waiting) :
    Steady root busy { b with reached := { b.reached with waiting := waiting' } } where
  free := steady.free
  sound := steady.sound
  complete :=
    { start := steady.complete.start
      credits := steady.complete.credits
      cover := steady.complete.cover
      expanded := fun m v here attached uncovered plain free idle => by
        have rested : m ∉ b.reached.waiting := fun mem => (sub m mem).elim free idle
        exact steady.complete.expanded m v here attached uncovered plain rested (by simp) }
  queued m mem := steady.queued m (only m mem)

/-- Every live target is credited with goals that are enabled and open. -/
def RipeTargets (b : Desk) : Prop :=
  ∀ n v, b.reached.graph.node? n = some v → b.reached.graph.Attached n →
    AbstractState.isTarget v.state = true → b.engine.Ripe b.diagram b.reached.disabled v.state

/-- A counterexample for a live target. -/
structure Explained (b : Desk) (root t : NodeId) (c : Counterexample) : Prop where
  asked : b.engine.explains = true
  live : t ∈ b.reached.targets
  target : c.target = t
  genuine : c.spurious = false
  branch : b.reached.graph.Branch root c.route.nodes c.route.edges t

/-- What becomes of a desk in a run. -/
structure Ran (root : NodeId) (b b' : Desk) : Prop where
  steady : Steady root none b'
  engine : b'.engine = { b.engine with counterexamples := b'.engine.counterexamples }
  surroundings : b'.surroundings = b.surroundings
  disabled : b'.reached.disabled = b.reached.disabled
  diagram : b.diagram.Extends b'.diagram
  ripe : RipeTargets b → RipeTargets b'
  explained : ∀ t c, b'.engine.counterexamples.get? t = some c → Explained b' root t c

theorem RipeTargets.grown (ripe : RipeTargets b) (sound : b.engine.Sound b.diagram b.reached.graph root)
    (grown : Grown root busy b b') : RipeTargets b' := by
  intro n v here attached target
  obtain ⟨u, old⟩ | fresh := grown.fresh n v here
  · obtain ⟨v', here', kept⟩ := grown.graph n u old
    rw [here] at here'
    cases here'
    have attached' : b.reached.graph.Attached n := by
      rw [sound.tree.attached_iff old, ← kept.parents]
      exact (grown.steady.sound.tree.attached_iff here).1 attached
    rw [kept.state] at target ⊢
    rw [grown.engine, grown.disabled]
    exact (ripe n u old attached' target).extends sound.fit grown.diagram (sound.proper n u old).presence
  · exact fresh

theorem Ran.grown (ran : Ran root b b') (none : b'.engine.counterexamples = ∅)
    (grown : Grown root Option.none { b' with reached := { b'.reached with waiting } } b'') : Ran root b b'' where
  steady := grown.steady
  engine := by rw [grown.engine, ← ran.engine]
  surroundings := grown.surroundings.trans ran.surroundings
  disabled := grown.disabled.trans ran.disabled
  diagram := ran.diagram.trans grown.diagram
  ripe ripe :=
    have popped : RipeTargets { b' with reached := { b'.reached with waiting } } := ran.ripe ripe
    popped.grown ran.steady.sound grown
  explained t c known := by
    rw [grown.engine, none, IdMap.get?_empty] at known
    cases known

theorem Ran.rewait (ran : Ran root b b') (none : b'.engine.counterexamples = ∅)
    (same : ∀ m, m ∈ waiting' ↔ m ∈ b'.reached.waiting) :
    Ran root b { b' with reached := { b'.reached with waiting := waiting' } } where
  steady := ran.steady.rewait (fun m mem => .inl ((same m).2 mem)) fun m => (same m).1
  engine := ran.engine
  surroundings := ran.surroundings
  disabled := ran.disabled
  diagram := ran.diagram
  ripe := ran.ripe
  explained t c known := by
    rw [none, IdMap.get?_empty] at known
    cases known

theorem Ran.explains (ran : Ran root b b') {t : NodeId} {c : Counterexample} (explained : Explained b' root t c) :
    Ran root b { b' with engine := { b'.engine with
      counterexamples := b'.engine.counterexamples.insert t c } } where
  steady := ran.steady.explained _
  engine := by rw [ran.engine]
  surroundings := ran.surroundings
  disabled := ran.disabled
  diagram := ran.diagram
  ripe := ran.ripe
  explained u c' known := by
    rw [IdMap.get?_insert] at known
    split at known
    next same =>
      cases known
      subst same
      exact ⟨explained.asked, explained.live, explained.target, explained.genuine, explained.branch⟩
    next =>
      have old := ran.explained u c' known
      exact ⟨old.asked, old.live, old.target, old.genuine, old.branch⟩

theorem record_ensures (ran : Ran root b b') (targets : List NodeId) (live : ∀ t ∈ targets, t ∈ b'.reached.targets) :
    Ensures T (record targets) b' fun _ b'' => Ran root b b'' ∧ b''.reached = b'.reached := by
  rw [record, ensures_bind, ensures_get]
  split
  next asked =>
    apply Ensures.forM (I := fun _ b'' => Ran root b b'' ∧ b''.reached = b'.reached) _ ⟨ran, rfl⟩
    intro t done rest b'' whole holds
    obtain ⟨ran', same⟩ := holds
    have target : t ∈ b''.reached.targets := by
      rw [same]
      exact live t (by simp [whole])
    obtain ⟨v, here, attached, _⟩ := Exploration.mem_targets.1 target
    obtain ⟨route, model, _, branch, ok⟩ := explain_eq ran'.steady.sound attached
    have asked' : b''.engine.explains = true := by rw [ran'.engine, ← asked, ran.engine]
    simp only [ensures_bind, ensures_get, ok, ensures_set]
    exact ⟨ran'.explains ⟨asked', target, rfl, rfl, branch⟩, same⟩
  next => exact ⟨ran, rfl⟩

theorem pushFront_eq (y : Exploration State) (n : NodeId) : y.pushFront n =
    { y with waiting := if n ∈ y.waiting then y.waiting else n :: y.waiting } := by
  rw [Exploration.pushFront]
  split <;> rfl

/-- How a run may end. -/
structure Ending (b b' : Desk) (token : Token) (ending : RunEnd) : Prop where
  verdict : b.engine.maxNodes = none → ending.verdict = .sound
  idle : b.engine.maxNodes = none → token = none → b'.reached.waiting = [] ∨ b'.reached.targets ≠ []

theorem turn_ensures {token start : Token} (ran : Ran root b b') (none : b'.engine.counterexamples = ∅)
    (same : start = Option.none → token = Option.none) :
    Ensures T (turn token) b' fun r b'' =>
      match r with
      | .inl token => Ran root b b'' ∧ b''.engine.counterexamples = ∅ ∧ (start = Option.none → token = Option.none)
      | .inr ending => Ran root b b'' ∧ Ending b b'' start ending := by
  have limit : b'.engine.maxNodes = b.engine.maxNodes := by rw [ran.engine]
  rw [turn, ensures_bind, ensures_get]
  cases queue : b'.reached.waiting with
  | nil =>
    simp only [Exploration.pop, queue]
    exact ⟨ran, fun _ => rfl, fun _ _ => .inl queue⟩
  | cons n rest =>
    have back : ∀ m, m ∈ (if n ∈ rest then rest else n :: rest) ↔ m ∈ b'.reached.waiting := by
      intro m
      rw [queue, List.mem_cons]
      split
      next old =>
        refine ⟨.inr, fun mem => ?_⟩
        cases mem with
        | inl is => exact is ▸ old
        | inr mem => exact mem
      next => exact List.mem_cons
    simp only [Exploration.pop, queue, pushFront_eq]
    split
    next fired =>
      refine ⟨ran.rewait none back, fun _ => rfl, fun _ unlimited => ?_⟩
      rw [same unlimited] at fired
      cases fired
    next =>
      split
      next full =>
        refine ⟨ran.rewait none back, fun unlimited => ?_, fun unlimited _ => ?_⟩
        · rw [limit, unlimited] at full
          cases full
        · rw [limit, unlimited] at full
          cases full
      next =>
        rw [ensures_bind, ensures_set, ensures_bind]
        have popped : Steady root (some n) { b' with reached := { b'.reached with waiting := rest } } := by
          apply ran.steady.rewait
          · rw [queue]
            intro m mem
            cases List.mem_cons.1 mem with
            | inl is => exact .inr (congrArg some is.symm)
            | inr mem => exact .inl mem
          · rw [queue]
            exact fun m => List.mem_cons_of_mem n
        apply (visit_ensures popped).mono
        intro targets b'' spec
        obtain ⟨grown, live⟩ := spec
        have ran' := ran.grown none grown
        have none' : b''.engine.counterexamples = ∅ := by
          rw [grown.engine]
          exact none
        split
        next =>
          refine ⟨ran', none', fun unlimited => ?_⟩
          rw [same unlimited]
          rfl
        next some_target =>
          rw [ensures_bind]
          apply (record_ensures ran' targets live).mono
          intro _ b₃ spec
          obtain ⟨ran₃, reached⟩ := spec
          refine ⟨ran₃, fun _ => rfl, fun _ _ => .inr ?_⟩
          rw [reached]
          intro no_target
          cases targets with
          | nil => simp at some_target
          | cons t _ =>
            have target := live t (by simp)
            rw [no_target] at target
            cases target

theorem run_ensures (exhausted : T .exhausted) (steady : Steady root none b) (fuel : Nat) (token : Token) :
    Ensures T (run fuel token) b fun ending b' => Ran root b b' ∧ Ending b b' token ending := by
  have start : Ran root b { b with engine := { b.engine with counterexamples := ∅ } } :=
    { steady := steady.explained ∅
      engine := rfl
      surroundings := rfl
      disabled := rfl
      diagram := .refl _
      ripe := id
      explained := fun t c known => by
        rw [IdMap.get?_empty] at known
        cases known }
  rw [run, ensures_bind, ensures_modify]
  apply Ensures.repeatUntil (I := fun t b' => Ran root b b' ∧ b'.engine.counterexamples = ∅ ∧
    (token = none → t = none)) exhausted _ fuel ⟨start, rfl, id⟩
  intro t b' holds
  apply (turn_ensures holds.1 holds.2.1 holds.2.2).mono
  intro r b'' spec
  cases r with
  | inl t => exact spec
  | inr ending => exact spec

/-- No goal is accepted before the first edge. -/
theorem not_accepts_starts (watches : Watches components observers)
    (unfinished : ∀ c ∈ components, c.automaton.isFinal c.automaton.initial = false) (g : Nat) :
    ¬Observer.Accepts observers (Observer.starts observers) g := by
  intro accepts
  obtain ⟨c, mem, _, q, run, final⟩ := watches.sound_of_follow Observer.follow_starts accepts
  cases (run : c.automaton.initial = q)
  rw [unfinished c mem] at final
  cases final

/-- A goal that is enabled, and open for the configuration, is not reached. -/
theorem Steady.refutes {c : Configuration} {trace : List EdgeId} {comp : Component} (steady : Steady root none b)
    (watches : Watches components b.engine.observers) (runs : ∀ c ∈ components, ∃ q, c.automaton.Run trace q)
    (idle : b.reached.waiting = []) (spent : b.reached.targets = []) (path : b.engine.program.IsPath trace)
    (mem : comp ∈ components) (enabled : comp.goal ∉ b.reached.disabled)
    (admits : b.engine.Admits b.diagram c) (opens : b.engine.Opens b.diagram comp.goal c)
    (passes : ∀ e ∈ trace, b.engine.Passes b.diagram c e) : ¬comp.automaton.Recognizes trace := by
  intro recognizes
  obtain ⟨q, run, final⟩ := recognizes
  obtain ⟨start, finish, entry, walk⟩ := path
  obtain ⟨sets, leads, accepts⟩ := watches.complete mem run final runs
  have complete := steady.complete
  rw [idle] at complete
  refine complete.refutes steady.sound ?_ entry walk admits passes leads enabled opens accepts
  intro n v here attached
  rw [← Bool.not_eq_true]
  intro target
  have live : n ∈ b.reached.targets := Exploration.mem_targets.2 ⟨v, here, attached, target⟩
  rw [spent] at live
  cases live

end GoalCoverage.Explorer
