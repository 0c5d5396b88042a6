import GoalCoverage.Proofs.Ending
import GoalCoverage.Proofs.Explorer.Order
import GoalCoverage.Proofs.Explorer.Runs

/-!
Runs of explorers with guarded observers. Nothing goes wrong in a run, whatever ends it, and afterwards the
exploration is in order and the recorded counterexamples are branches to live targets (`run_works`).
-/

namespace GoalCoverage.Explorer

open Diagram StateGraph Procedure

variable {x y : Explorer} {d : Diagram} {g : StateGraph State} {b b' b'' : Desk} {first : State} {n root : NodeId}
  {waiting : List NodeId} {T : Failure → Prop}

/-- Only the program, the observers and whether configurations are tracked matter to the order of a graph. -/
theorem Orderly.altered (orderly : x.Orderly first d g root) (program : y.program = x.program) (tracks : y.tracks = x.tracks)
    (observers : y.observers = x.observers) (fit : y.Fit d) : y.Orderly first d g root := by
  obtain ⟨program', tracks', observers', _⟩ := y
  cases program
  cases tracks
  cases observers
  have sound := orderly.sound
  exact
    { sound :=
        { tree := sound.tree
          fit
          proper := fun n v here =>
            have proper := sound.proper n v here
            ⟨proper.length, ⟨proper.presence.isSome, proper.presence.knows⟩, proper.accepted⟩
          start := sound.start
          follows := fun p w n e v here link there =>
            have follows := sound.follows p w n e v here link there
            ⟨follows.edge, follows.observers, follows.presence, follows.possible⟩ }
      known := orderly.known
      possible := orderly.possible
      guided := orderly.guided
      cover := orderly.cover }

theorem Ordered.explained (ordered : Ordered first root b) (cs : IdMap Counterexample) :
    Ordered first root { b with engine := { b.engine with counterexamples := cs } } where
  graph := ordered.graph.altered rfl rfl rfl
    ⟨ordered.graph.sound.fit.ready, ordered.graph.sound.fit.program, ordered.graph.sound.fit.constraint,
      ordered.graph.sound.fit.opened⟩
  queue := ordered.queue

/-- What becomes of an ordered desk in a run. -/
structure Worked (first : State) (root : NodeId) (b b' : Desk) : Prop where
  ordered : Ordered first root b'
  engine : b'.engine = { b.engine with counterexamples := b'.engine.counterexamples }
  surroundings : b'.surroundings = b.surroundings
  disabled : b'.reached.disabled = b.reached.disabled
  diagram : b.diagram.Extends b'.diagram
  inherits : b.reached.graph.Inherits b'.reached.graph
  explained : ∀ t c, b'.engine.counterexamples.get? t = some c → Explained b' root t c

/-- Where every run begins. -/
theorem Ordered.cleared (ordered : Ordered first root b) :
    Worked first root b { b with engine := { b.engine with counterexamples := ∅ } } where
  ordered := ordered.explained ∅
  engine := rfl
  surroundings := rfl
  disabled := rfl
  diagram := .refl _
  inherits := .refl _
  explained t c known := by
    rw [IdMap.get?_empty] at known
    cases known

theorem Worked.enlarged (worked : Worked first root b b') (none : b'.engine.counterexamples = ∅)
    (enlarged : Enlarged first root n { b' with reached := { b'.reached with waiting } } b'') : Worked first root b b'' where
  ordered := enlarged.ordered
  engine := by rw [enlarged.engine, ← worked.engine]
  surroundings := enlarged.surroundings.trans worked.surroundings
  disabled := enlarged.disabled.trans worked.disabled
  diagram := worked.diagram.trans enlarged.diagram
  inherits := worked.inherits.trans enlarged.inherits
  explained t c known := by
    rw [enlarged.engine, none, IdMap.get?_empty] at known
    cases known

theorem Worked.explains (worked : Worked first root b b') {t : NodeId} {c : Counterexample}
    (explained : Explained b' root t c) :
    Worked first root b { b' with engine := { b'.engine with
      counterexamples := b'.engine.counterexamples.insert t c } } where
  ordered := worked.ordered.explained _
  engine := by rw [worked.engine]
  surroundings := worked.surroundings
  disabled := worked.disabled
  diagram := worked.diagram
  inherits := worked.inherits
  explained u c' known := by
    rw [IdMap.get?_insert] at known
    split at known
    next same =>
      cases known
      subst same
      exact ⟨explained.asked, explained.live, explained.target, explained.genuine, explained.branch⟩
    next =>
      have old := worked.explained u c' known
      exact ⟨old.asked, old.live, old.target, old.genuine, old.branch⟩

theorem record_orders (worked : Worked first root b b') (targets : List NodeId)
    (live : ∀ t ∈ targets, t ∈ b'.reached.targets) :
    Ensures T (record targets) b' fun _ b'' => Worked first root b b'' := by
  rw [record, ensures_bind, ensures_get]
  split
  next asked =>
    apply (Ensures.forM (I := fun _ b'' => Worked first root b b'' ∧ b''.reached = b'.reached) _ ⟨worked, rfl⟩).mono
    · exact fun _ b'' holds => holds.1
    intro t done rest b'' whole holds
    obtain ⟨worked', same⟩ := holds
    have target : t ∈ b''.reached.targets := by
      rw [same]
      exact live t (by simp [whole])
    obtain ⟨v, here, attached, _⟩ := Exploration.mem_targets.1 target
    obtain ⟨route, model, _, branch, ok⟩ := explain_eq worked'.ordered.graph.sound attached
    have asked' : b''.engine.explains = true := by rw [worked'.engine, ← asked, worked.engine]
    simp only [ensures_bind, ensures_get, ok, ensures_set]
    exact ⟨worked'.explains ⟨asked', target, rfl, rfl, branch⟩, same⟩
  next => exact worked

theorem turn_orders {token : Token} (worked : Worked first root b b') (none : b'.engine.counterexamples = ∅) :
    Ensures T (turn token) b' fun r b'' =>
      match r with
      | .inl _ => Worked first root b b'' ∧ b''.engine.counterexamples = ∅
      | .inr _ => Worked first root b b'' := by
  rw [turn, ensures_bind, ensures_get]
  cases queue : b'.reached.waiting with
  | nil =>
    simp only [Exploration.pop, queue]
    exact worked
  | cons n rest =>
    have nodup := worked.ordered.queue.nodup
    rw [queue, List.nodup_cons] at nodup
    -- A node that is put back to the front is where it was.
    have back : { b'.reached with waiting := n :: rest } = b'.reached := by rw [← queue]
    simp only [Exploration.pop, queue, pushFront_eq, if_neg nodup.1, back]
    split
    next => exact worked
    next =>
      split
      next => exact worked
      next =>
        rw [ensures_bind, ensures_set, ensures_bind]
        have popped : Ordered first root { b' with reached := { b'.reached with waiting := rest } } := by
          refine ⟨worked.ordered.graph, worked.ordered.queue.sublist ?_⟩
          rw [queue]
          exact List.sublist_cons_self n rest
        apply (visit_orders popped).mono
        intro targets b'' spec
        obtain ⟨enlarged, _, live⟩ := spec
        have worked' := worked.enlarged none enlarged
        split
        next => exact ⟨worked', by rw [enlarged.engine, none]⟩
        next =>
          rw [ensures_bind]
          apply (record_orders worked' targets live).mono
          exact fun _ b₃ worked₃ => worked₃

/-- A run that is stopped for want of fuel leaves the desk in order as well. -/
theorem run_works (ordered : Ordered first root b) (fuel : Nat) (token : Token) :
    Moves (· = .exhausted) (Worked first root) (run fuel token) b := by
  rw [run]
  apply (moves_modify ordered.cleared).bind_of
  intro _ b₁ ok _
  cases ok
  apply Moves.repeatUntil_of (T := (· = .exhausted)) (R := fun _ => Worked first root b)
    (J := fun _ b' => Worked first root b b' ∧ b'.engine.counterexamples = ∅) rfl (fun _ _ holds => holds.1) _ fuel ⟨ordered.cleared, rfl⟩
  intro t b' holds
  have goes : Ensures (fun _ => False) (turn t) b' _ := turn_orders holds.1 holds.2
  refine ⟨goes.moves fun r b'' spec => ?_, fun t' b'' out => goes.of_eq_ok out⟩
  cases r with
  | inl _ => exact spec.1
  | inr _ => exact spec

theorem run_orders (exhausted : T .exhausted) (ordered : Ordered first root b) (fuel : Nat) (token : Token) :
    Ensures T (run fuel token) b fun _ b' => Worked first root b b' := by
  apply ((run_works ordered fuel token).mono _ fun _ worked => worked).ensures
  exact fun e is => is ▸ exhausted

end GoalCoverage.Explorer
