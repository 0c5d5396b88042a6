import GoalCoverage.Proofs.Ending
import GoalCoverage.Proofs.Explorer.Actions

/-!
Cancelled runs. A run may be cancelled at any of its polls; it then leaves the exploration as it is when the poll
comes, the node that it had taken at the front of the queue again. A run that follows goes on from there and ends
like a run that was not cancelled (`resumes_of_history`).
-/

namespace GoalCoverage.Explorer

open Diagram StateGraph Procedure

variable {x : Explorer} {d d' : Diagram} {b b' p : Desk} {s : State} {factory : ExplorerFactory}
  {observers : List Observer} {constraint : Option Region} {covering : Option IdSet} {token : Token} {k fuel : Nat}
  {n : NodeId} {y : Exploration State}

/-- The desk when a run begins, without the counterexamples of the run before. -/
def begun (b : Desk) : Desk := { b with engine := { b.engine with counterexamples := ∅ } }

theorem run_eq (fuel : Nat) (token : Token) (b : Desk) : run fuel token b = repeatUntil turn fuel token (begun b) := rfl

theorem begun_eq (none : b.engine.counterexamples = ∅) : begun b = b := by
  rw [begun, ← none]

/-- A turn goes on if it visits a node without finding a target. -/
theorem turn_eq_inl_iff {token' : Token} :
    turn token b = .ok (.inl token') b' ↔ token' = token.polled ∧ token.fired = false ∧
      ∃ n y, b.reached.pop = some (n, y) ∧ b.engine.maxNodes.any (· ≤ y.graph.live) = false ∧
        visit n { b with reached := y } = .ok [] b' := by
  rw [turn, get_bind_eq]
  cases popped : b.reached.pop with
  | none => simp [pure, EStateM.pure]
  | some taken =>
    obtain ⟨n, y⟩ := taken
    simp only [Option.some.injEq, Prod.mk.injEq]
    cases fired : token.fired with
    | true =>
      rw [if_pos rfl, set_bind_eq]
      simp [pure, EStateM.pure]
    | false =>
      rw [if_neg Bool.false_ne_true]
      cases full : b.engine.maxNodes.any (· ≤ y.graph.live) with
      | true =>
        rw [if_pos rfl, set_bind_eq]
        simp [pure, EStateM.pure, full]
      | false =>
        rw [if_neg Bool.false_ne_true, set_bind_eq]
        cases visited : visit n { b with reached := y } with
        | error e t => simp [bind_eq_of_error visited, full, visited]
        | ok targets t =>
          rw [bind_eq_of_ok visited]
          cases targets with
          | nil => simp [pure, EStateM.pure, full, visited, eq_comm]
          | cons m targets =>
            -- A target ends the run, whether or not its counterexample can be recorded.
            cases recorded : record (m :: targets) t with
            | ok _ _ => simp [bind_eq_of_ok recorded, pure, EStateM.pure, full, visited]
            | error _ _ => simp [bind_eq_of_error recorded, full, visited]

/-- A turn that goes on goes on with any token that has not fired, which it polls once. -/
theorem turn_of_inl {token' : Token} (going : turn none b = .ok (.inl token') b') :
    token' = none ∧ turn (some (k + 1)) b = .ok (.inl (some k)) b' := by
  obtain ⟨rfl, _, visited⟩ := turn_eq_inl_iff.1 going
  exact ⟨rfl, turn_eq_inl_iff.2 ⟨rfl, rfl, visited⟩⟩

/-- A cancelled turn puts back the node that it took. -/
theorem turn_cancelled (popped : b.reached.pop = some (n, y)) (once : b.reached.waiting.Nodup) :
    b.reached = { y with waiting := n :: y.waiting } ∧ turn (some 0) b = .ok (.inr ⟨.sound, true⟩) b := by
  cases queue : b.reached.waiting with
  | nil =>
    rw [Exploration.pop, queue] at popped
    cases popped
  | cons m rest =>
    have is := popped
    rw [Exploration.pop, queue] at is
    cases is
    rw [queue, List.nodup_cons] at once
    have back : { b.reached with waiting := n :: rest } = b.reached := by rw [← queue]
    have front : Exploration.pushFront { b.reached with waiting := rest } n = b.reached := by
      rw [pushFront_eq]
      simp only [if_neg once.1, back]
    refine ⟨back.symm, ?_⟩
    rw [turn, get_bind_eq, popped]
    change EStateM.Result.ok _ { b with reached := Exploration.pushFront { b.reached with waiting := rest } n } = _
    rw [front]

/-- An exploration in order, in the middle of a run. -/
def Running (s : State) (b : Desk) : Prop := InOrder s b ∧ b.engine.counterexamples = ∅

theorem InOrder.begun (order : InOrder s b) : Running s (begun b) := by
  refine ⟨?_, rfl⟩
  obtain ordered | barren := order
  · exact .inl (ordered.explained ∅)
  · exact .inr ⟨barren.bare, ⟨barren.fit.ready, barren.fit.program, barren.fit.constraint, barren.fit.opened⟩,
      barren.tracked.isSome, barren.tracked.knows⟩

theorem Ordered.worked {root : NodeId} (ordered : Ordered s root b) (none : b.engine.counterexamples = ∅) : Worked s root b b := by
  have cleared := ordered.cleared
  rwa [show ({ b with engine := { b.engine with counterexamples := ∅ } } : Desk) = b from begun_eq none] at cleared

/-- A turn that goes on records nothing. -/
theorem Running.turn {token' : Token} (running : Running s b) (going : turn token b = .ok (.inl token') b') :
    Running s b' := by
  obtain ⟨order, none⟩ := running
  obtain ordered | barren := order
  · obtain ⟨worked', none'⟩ := (turn_orders (T := anything) (ordered.worked none) none).of_eq_ok going
    exact ⟨.inl worked'.ordered, none'⟩
  · obtain ⟨barren', same, _⟩ := (Barren.turn (T := anything) barren).of_eq_ok going
    exact ⟨.inr barren', by rw [same, none]⟩

theorem InOrder.nodup (order : InOrder s b) : b.reached.waiting.Nodup := by
  obtain ordered | barren := order
  · exact ordered.queue.nodup
  · obtain ⟨_, idle⟩ | ⟨_, _, sub⟩ := barren.bare.place
    · rw [idle]
      exact List.nodup_nil
    · exact (List.nodup_singleton 0).sublist sub

/-- With a token that fires at one of its turns, a run gets there as well. -/
theorem turns_of_token {b : Desk} (reached : (turns turn fuel none b)[k]? = some (token, p)) :
    token = none ∧ (turns turn fuel (some k) b)[k]? = some (some 0, p) := by
  induction k generalizing fuel b with
  | zero =>
    obtain ⟨some_fuel, is⟩ := turns_getElem?_zero.1 reached
    cases is
    exact ⟨rfl, turns_getElem?_zero.2 ⟨some_fuel, rfl⟩⟩
  | succ k ih =>
    obtain ⟨fuel, token', b', rfl, going, rest⟩ := turns_getElem?_succ.1 reached
    obtain ⟨rfl, going'⟩ := turn_of_inl going (k := k)
    obtain ⟨same, rest'⟩ := ih rest
    exact ⟨same, turns_getElem?_succ.2 ⟨fuel, some k, b', rfl, going', rest'⟩⟩

/-- A run from `b` that nothing cancels polls at `p`, after `k` other polls; it has taken `n` and left `y`. -/
structure Polls (b : Desk) (k : Nat) (p : Desk) (n : NodeId) (y : Exploration State) : Prop where
  reached : ∃ fuel, (turns turn fuel none (begun b))[k]? = some (none, p)
  popped : p.reached.pop = some (n, y)

/-- To cancel the run from `b` at that poll makes no difference to the runs that follow. -/
structure Resumes (b : Desk) (k : Nat) (p : Desk) (n : NodeId) (y : Exploration State) : Prop where
  /-- The cancelled run returns there. -/
  cancelled : ∀ fuel, k < fuel → run fuel (some k) b = .ok ⟨.sound, true⟩ p
  front : p.reached = { y with waiting := n :: y.waiting }
  resumed : ∀ fuel, run fuel none p = run (k + fuel) none b
  /-- Whatever a run that is not cancelled ends with, the second run ends with the same. -/
  ends : ∀ fuel ending b', run fuel none b = .ok ending b' → ∀ enough, fuel ≤ enough → run enough none p = .ok ending b'

theorem InOrder.resumes (order : InOrder s b) (poll : Polls b k p n y) : Resumes b k p n y := by
  obtain ⟨fuel, reached⟩ := poll.reached
  obtain ⟨_, cancelled⟩ := turns_of_token reached
  have running : Running s p := turns_keep (I := fun _ => Running s) (fun _ _ _ _ => Running.turn) order.begun reached
  obtain ⟨front, turned⟩ := turn_cancelled poll.popped running.1.nodup
  have resumed : ∀ left, run left none p = run (k + left) none b := by
    intro left
    rw [run_eq, run_eq, begun_eq running.2, repeatUntil_of_turns reached]
  refine ⟨fun fuel' enough => ?_, front, resumed, fun fuel' ending b' ok enough le => ?_⟩
  · obtain ⟨left, rfl⟩ := Nat.exists_eq_add_of_lt enough
    rw [run_eq, Nat.add_assoc, repeatUntil_of_turns cancelled]
    exact repeatUntil_of_inr turned
  · rw [resumed]
    exact repeatUntil_of_le (Nat.le_trans le (Nat.le_add_left enough k)) ok

/-- After anything that may have been done, a run can be cancelled at any of its polls. -/
theorem resumes_of_history (managed : factory.tracks = true → Managed factory observers constraint d)
    (composed : compose factory observers constraint covering = .ok x) (started : x.initialState d = .ok s d')
    (history : Relation.ReflTransGen Action
      { diagram := d', surroundings := factory, engine := x, reached := .start s } b) (poll : Polls b k p n y) :
    Resumes b k p n y := by
  obtain ⟨_, _, start⟩ := inOrder_of_start managed composed started
  exact (inOrder_of_history history start).1.resumes poll

theorem resumes_of_history_gate : ∃ p y, y.waiting = [3] ∧ Polls (gateRestricted gateObservers) 1 p 2 y ∧
    Resumes (gateRestricted gateObservers) 1 p 2 y := by
  have has : (gateLeft gateObservers).diagram.Has ⟨2⟩ := by
    rw [Has]
    decide +kernel
  have history := history_gate (by decide +kernel) (by decide +kernel) (by decide +kernel) has (by decide +kernel)
  have second : ((turns turn 2 none (begun (gateRestricted gateObservers)))[1]?.bind fun q =>
      q.2.reached.pop.map fun taken => (taken.1, taken.2.waiting)) = some (2, [3]) := by
    decide +kernel
  obtain ⟨⟨token, p⟩, reached, popped⟩ := Option.bind_eq_some_iff.1 second
  obtain ⟨⟨n, y⟩, popped, is⟩ := Option.map_eq_some_iff.1 popped
  cases (Prod.mk.inj is).1
  cases (turns_of_token reached).1
  have poll : Polls (gateRestricted gateObservers) 1 p 2 y := ⟨⟨2, reached⟩, popped⟩
  exact ⟨p, y, (Prod.mk.inj is).2, poll,
    resumes_of_history (fun _ => managed_gate) composed_gate started_gate history poll⟩

end GoalCoverage.Explorer
