import GoalCoverage.Proofs.Diagram.Features
import GoalCoverage.Proofs.Ending
import GoalCoverage.Proofs.Explorer.Placement
import GoalCoverage.Proofs.StateGraph.Retention
import Mathlib.Data.Prod.Lex

/-!
Runs under a bound on the nodes. A run adds nodes or takes them out of the queue, so it ends (`run_ends`), and unless
it gives up at the bound, it has emptied the queue or added a node. Nothing is asked of the observers and the graph.
-/

namespace GoalCoverage

namespace StateGraph

variable {S : Type} {g g' : StateGraph S} {n m p : NodeId}

theorem live_link {label : Option EdgeId} (ok : g.link n p label = .ok g') : g'.live = g.live := by
  rw [link] at ok
  split at ok
  next => cases ok
  next =>
    obtain ⟨c, _, ok⟩ := Except.bind_eq_ok.1 ok
    obtain ⟨v, _, ok⟩ := Except.bind_eq_ok.1 ok
    dsimp only at ok
    split at ok
    next => cases ok
    next =>
      split at ok
      next =>
        cases ok
        rfl
      next =>
        cases ok
        rfl

theorem live_addChild {s : S} {label : Option EdgeId} (ok : g.addChild p s label = .ok (n, g')) : g'.live = g.live + 1 := by
  rw [addChild, Except.bind_eq_ok] at ok
  obtain ⟨linked, done, same⟩ := ok
  cases same
  exact live_link done

theorem live_cover (ok : g.cover n m = .ok g') : g'.live = g.live := by
  rw [cover] at ok
  split at ok
  next => cases ok
  next =>
    dsimp only at ok
    split at ok
    next => cases ok
    next =>
      obtain ⟨_, _, ok⟩ := Except.bind_eq_ok.1 ok
      cases ok
      rfl

theorem live_setBottom (ok : g.setBottom n = .ok g') : g'.live = g.live := by
  rw [setBottom, Except.bind_eq_ok] at ok
  obtain ⟨_, _, same⟩ := ok
  cases same
  rfl

end StateGraph

namespace Explorer

open Diagram Procedure

section Stable

variable {x : Explorer} {presence : Option Region} {r : Region} {s : State} {edge : Edge} {e : EdgeId} {o : Observer}
  {g : StateGraph State} {n : NodeId} {a b : Option Region} {disabled : IdSet}

theorem conjoin_stable : Stable (x.conjoin presence r) := by
  unfold conjoin
  split
  next => exact (meet_stable _ _).bind fun _ => stable_pure _
  next => exact stable_pure _

theorem discharge_stable (guards : List Guard) : Stable (x.discharge presence guards) := by
  induction guards generalizing presence with
  | nil => exact stable_pure _
  | cons guard rest ih =>
    cases guard with
    | predicate text => exact ih
    | presence r =>
      apply conjoin_stable.bind
      intro narrowed
      split
      next => exact stable_pure _
      next => exact ih

theorem isOpen_stable {p : Region} (goal : Nat) : Stable (x.isOpen p goal) := by
  unfold isOpen
  split
  next => exact stable_pure _
  next => exact (disjoint_stable _ _).bind fun _ => stable_pure _

theorem accepted_stable (states : List IdSet) : Stable (x.accepted states presence disabled) := by
  unfold accepted
  split
  next => exact (Stable.filterMapM fun goal => (isOpen_stable goal).bind fun _ => stable_pure _).bind fun _ => stable_pure _
  next => exact stable_pure _

theorem advance_stable (states : IdSet) (partials : List Partial) : Stable (x.advance o states e partials) := by
  unfold advance
  apply Stable.flatMapM
  intro p
  obtain ⟨sets, presence⟩ := p
  dsimp only
  split
  next =>
    refine Stable.bind (Stable.filterMapM fun move => ?_) fun _ => stable_pure _
    exact (discharge_stable move.2).bind fun _ => stable_pure _
  next => exact Stable.filterMapM fun move => (discharge_stable move.2).bind fun _ => stable_pure _

theorem constrained_stable (presence : Option Region) : Stable (match x.constraint with
    | some r => x.conjoin presence r
    | none => return presence) := by
  split
  next => exact conjoin_stable
  next => exact stable_pure _

theorem crossing_stable : Stable (x.crossing s edge) := by
  rw [crossing]
  cases edge.presence with
  | some r => exact conjoin_stable.bind constrained_stable
  | none => exact (stable_pure s.presence).bind constrained_stable

theorem successors_stable : Stable (x.successors s e edge disabled) := by
  unfold successors
  apply crossing_stable.bind
  intro presence
  split
  next => exact stable_pure _
  next =>
    apply Stable.bind
    · apply Stable.foldlM
      exact fun partials pair => advance_stable pair.2 partials
    intro partials
    apply Stable.bind
    · apply Stable.mapM
      exact fun known => (accepted_stable known.1).bind fun _ => stable_pure _
    exact fun found => stable_pure _

theorem subsumes_stable : Stable (x.subsumes a b) := by
  unfold subsumes
  split
  next => exact implies_stable _ _
  next => exact stable_pure _

theorem isDuplicate_stable : Stable (x.isDuplicate g n e s) := by
  rw [isDuplicate]
  apply Stable.anyM
  intro c
  split
  next =>
    split
    next => exact subsumes_stable
    next => exact stable_pure _
  next => exact stable_pure _

theorem findCover_stable : Stable (x.findCover g s) := by
  rw [findCover]
  apply Stable.findM?
  intro m
  split
  next =>
    split
    next => exact subsumes_stable
    next => exact stable_pure _
  next => exact stable_pure _

theorem isRelevant_stable : Stable (x.isRelevant s) := by
  unfold isRelevant
  split
  next => exact (disjoint_stable _ _).bind fun _ => stable_pure _
  next => exact stable_pure _

end Stable

section Expansions

variable {T : Failure → Prop} {R : Desk → Desk → Prop}

/-- Along `R` go the operations of which the expansion of a node consists. -/
structure Carries (T : Failure → Prop) (R : Desk → Desk → Prop) : Prop where
  works : ∀ {α : Type} {m : StateM Diagram α} {b : Desk}, Stable m → Moves T R (onDiagram m) b
  settles : ∀ {b : Desk} (n : NodeId) (e : EdgeId) (s : State) (cover : Option NodeId), Moves T R (settle n e s cover) b
  marks : ∀ {b : Desk} (n : NodeId), Moves T R (changeGraph (·.setBottom n)) b

variable [IsPreorder Desk R] {b : Desk} (carries : Carries T R)

include carries

theorem Carries.place (n : NodeId) (e : EdgeId) (s : State) : Moves T R (Explorer.place n e s) b := by
  rw [Explorer.place, moves_get_bind]
  apply (carries.works isDuplicate_stable).bind
  intro duplicate b₁ _ _
  split
  next => exact moves_pure
  next =>
    dsimp only
    split
    next => exact (carries.works findCover_stable).bind fun cover _ _ _ => carries.settles n e s cover
    next => exact carries.settles n e s none

theorem Carries.follow (n : NodeId) (s : State) (e : EdgeId) : Moves T R (Explorer.follow n s e) b := by
  rw [Explorer.follow, moves_get_bind]
  split
  next => exact moves_pure
  next =>
    apply (carries.works successors_stable).bind
    intro found b₁ _ _
    exact (Moves.filterMapM fun t _ _ _ => carries.place n e t).bind fun _ _ _ _ => moves_pure

theorem Carries.expand (n : NodeId) (s : State) : Moves T R (Explorer.expand n s) b := by
  rw [Explorer.expand, moves_get_bind]
  apply (Moves.mapM fun e _ _ _ => carries.follow n s e).bind
  intro results b₁ _ _
  split
  next => exact (carries.marks n).bind fun _ _ _ _ => moves_pure
  next => exact moves_pure

theorem Carries.visit (n : NodeId) : Moves T R (Explorer.visit n) b := by
  rw [Explorer.visit, moves_get_bind]
  split
  next => exact moves_pure
  next v _ =>
    split
    next => exact moves_pure
    next =>
      apply (carries.works isRelevant_stable).bind
      intro relevant b₁ _ _
      split
      next => exact carries.expand n v.state
      next => exact moves_pure

end Expansions

section Steps

variable {α : Type} {b b' b'' : Desk} {k : Nat}

/-- A broken contract. -/
def violation : Failure → Prop := fun e => ∃ v, e = .violated v

/-- `b'` is a desk after some work that removed no nodes. -/
structure Widens (b b' : Desk) : Prop where
  maxNodes : b'.engine.maxNodes = b.engine.maxNodes
  surroundings : b'.surroundings = b.surroundings
  features : b'.diagram.features = b.diagram.features
  live : b.reached.graph.live ≤ b'.reached.graph.live

/-- Moreover, if it added none, then the same nodes wait. -/
structure Swells (b b' : Desk) : Prop extends Widens b b' where
  waiting : b'.reached.graph.live = b.reached.graph.live → b'.reached.waiting = b.reached.waiting

instance : IsPreorder Desk Widens where
  refl _ := ⟨rfl, rfl, rfl, Nat.le_refl _⟩
  trans _ _ _ first second :=
    ⟨second.maxNodes.trans first.maxNodes, second.surroundings.trans first.surroundings,
      second.features.trans first.features, Nat.le_trans first.live second.live⟩

instance : IsPreorder Desk Swells where
  refl b := ⟨refl b, fun _ => rfl⟩
  trans a b c first second := by
    have live := second.live
    have live' := first.live
    refine ⟨IsTrans.trans _ _ _ first.toWidens second.toWidens, fun same => ?_⟩
    exact (second.waiting (by omega)).trans (first.waiting (by omega))

theorem moves_onDiagram {m : StateM Diagram α} (stable : Stable m) : Moves violation Swells (onDiagram m) b :=
  ⟨⟨⟨rfl, rfl, stable b.diagram, Nat.le_refl _⟩, fun _ => rfl⟩, trivial⟩

theorem moves_onReached {R : Desk → Desk → Prop} {f : Exploration State → Except Violation (α × Exploration State)}
    (still : R b b) (step : ∀ a y, f b.reached = .ok (a, y) → R b { b with reached := y }) :
    Moves violation R (onReached f) b := by
  have moved : Moves violation (fun x y => R { b with reached := x } { b with reached := y }) (attempt f) b.reached :=
    moves_attempt (fun v => ⟨v, rfl⟩) still step
  exact moved.within fun _ moved => moved

theorem moves_changeGraph {f : StateGraph State → Except Violation (StateGraph State)}
    (step : ∀ g, f b.reached.graph = .ok g → g.live = b.reached.graph.live) : Moves violation Swells (changeGraph f) b := by
  apply moves_onReached (refl b)
  intro a y ok
  obtain ⟨g, changed, same⟩ := Except.bind_eq_ok.1 ok
  cases same
  have live := step g changed
  exact ⟨⟨rfl, rfl, rfl, Nat.le_of_eq live.symm⟩, fun _ => rfl⟩

theorem moves_changeReached {f : Exploration State → Exploration State} (same : (f b.reached).graph = b.reached.graph) :
    Moves violation Widens (changeReached f) b :=
  moves_modify ⟨rfl, rfl, rfl, Nat.le_of_eq (congrArg StateGraph.live same.symm)⟩

/-- Adding a node, whatever becomes of it. -/
theorem settle_swells (n : NodeId) (e : EdgeId) (s : State) (cover : Option NodeId) :
    Moves violation Swells (settle n e s cover) b := by
  have one_more : ∀ child y, b.reached.add n s (some e) = .ok (child, y) → y.graph.live = b.reached.graph.live + 1 := by
    intro child y ok
    obtain ⟨_, grown, same⟩ := Except.bind_eq_ok.1 ok
    cases same
    exact StateGraph.live_addChild grown
  have added : Moves violation Swells (onReached (·.add n s (some e))) b := by
    apply moves_onReached (refl b)
    intro child y ok
    have live := one_more child y ok
    exact ⟨⟨rfl, rfl, rfl, by simp [live]⟩, by simp [live]⟩
  rw [settle]
  apply added.bind_of
  intro child b₁ out moved
  have larger : b.reached.graph.live < b₁.reached.graph.live := by
    have grown : Ensures anything (onReached (·.add n s (some e))) b fun _ b' =>
        b'.reached.graph.live = b.reached.graph.live + 1 := by
      rw [onReached, ensures_within]
      exact ensures_attempt_iff.2 one_more
    have live := grown.of_eq_ok out
    omega
  have widens : ∀ b₂, Widens b₁ b₂ → Swells b b₂ := by
    intro b₂ wider
    refine ⟨IsTrans.trans _ _ _ moved.toWidens wider, fun same => ?_⟩
    have live := wider.live
    omega
  refine Moves.mono ?_ (fun _ h => h) widens
  cases cover with
  | some c =>
    apply (moves_changeReached rfl).bind
    intro _ b₂ _ _
    have covered : Moves violation Swells (changeGraph (·.cover child c)) b₂ :=
      moves_changeGraph fun g ok => StateGraph.live_cover ok
    exact (covered.mono (fun _ h => h) fun _ moved => moved.toWidens).bind fun _ _ _ _ => moves_pure
  | none =>
    dsimp only
    split
    next => exact moves_pure
    next => exact (moves_changeReached rfl).bind fun _ _ _ _ => moves_pure

theorem swells : Carries violation Swells where
  works := moves_onDiagram
  settles := settle_swells
  marks _ := moves_changeGraph fun _ ok => StateGraph.live_setBottom ok

theorem visit_swells (n : NodeId) : Moves violation Swells (visit n) b := swells.visit n

theorem record_swells (targets : List NodeId) : Moves violation Swells (record targets) b := by
  rw [record, moves_get_bind]
  split
  next =>
    apply Moves.forM
    intro t _ b₁ _
    rw [moves_get_bind]
    split
    next v _ => exact moves_violate ⟨v, rfl⟩
    next => exact moves_set ⟨⟨rfl, rfl, rfl, Nat.le_refl _⟩, fun _ => rfl⟩
  next => exact moves_pure

/-- The nodes that may still be added under a bound, and then the nodes that wait. -/
def effort (k : Nat) (y : Exploration State) : Nat ×ₗ Nat := toLex (k - y.graph.live, y.waiting.length)

/-- `b'` is a desk after a run under the bound `k`, or after a part of it. -/
structure Spends (k : Nat) (b b' : Desk) : Prop extends Widens b b' where
  room : b.reached.graph.live < b'.reached.graph.live → b.reached.graph.live < k
  waiting : b'.reached.graph.live = b.reached.graph.live → b'.reached.waiting.length ≤ b.reached.waiting.length

instance : IsPreorder Desk (Spends k) where
  refl b := ⟨refl b, fun h => absurd h (Nat.lt_irrefl _), fun _ => Nat.le_refl _⟩
  trans a b c first second := by
    have live := second.live
    have live' := first.live
    refine ⟨IsTrans.trans _ _ _ first.toWidens second.toWidens, fun more => ?_, fun same => ?_⟩
    · by_cases early : a.reached.graph.live < b.reached.graph.live
      · exact first.room early
      · have room := second.room (by omega)
        omega
    · exact Nat.le_trans (second.waiting (by omega)) (first.waiting (by omega))

/-- Unless the desk is as large as before, less is left to do. -/
theorem Spends.effort_lt (spends : Spends k b b') (changed : b'.reached.graph.live ≠ b.reached.graph.live ∨
    b'.reached.waiting.length ≠ b.reached.waiting.length) : effort k b'.reached < effort k b.reached := by
  rw [effort, effort, Prod.Lex.toLex_lt_toLex]
  have live := spends.live
  have room := spends.room
  have waiting := spends.waiting
  dsimp only
  omega

theorem Spends.effort_le (spends : Spends k b b') : effort k b'.reached ≤ effort k b.reached := by
  by_cases changed : b'.reached.graph.live ≠ b.reached.graph.live ∨
      b'.reached.waiting.length ≠ b.reached.waiting.length
  · exact le_of_lt (spends.effort_lt changed)
  · rw [not_or, not_not, not_not] at changed
    rw [effort, effort, changed.1, changed.2]

/-- How a run under a bound ends: unless it gives up, it has emptied the queue or got on. -/
structure Stops (k : Nat) (b b' : Desk) (ending : RunEnd) : Prop where
  timely : ending.expired = false
  sound : ending.verdict = .sound → b'.reached.waiting = [] ∨ effort k b'.reached < effort k b.reached

/-- A turn gives up, or it takes a node out of the queue. -/
theorem turn_spends (bound : b.engine.maxNodes = some k) : Ensures violation (turn none) b fun r b' => Spends k b b' ∧
    match r with
    | .inl token => token = none ∧ effort k b'.reached < effort k b.reached
    | .inr ending => Stops k b b' ending := by
  rw [turn, ensures_bind, ensures_get]
  cases queue : b.reached.waiting with
  | nil =>
    simp only [Exploration.pop, queue]
    exact ⟨refl b, rfl, fun _ => .inl queue⟩
  | cons n rest =>
    have unlimited : Token.fired none = false := rfl
    simp only [Exploration.pop, queue, unlimited, Bool.false_eq_true, if_false]
    split
    next full =>
      have enough : k ≤ b.reached.graph.live := by simpa [bound] using full
      have back : (Exploration.pushFront { b.reached with waiting := rest } n).waiting.length ≤
          b.reached.waiting.length := by
        rw [queue, Exploration.pushFront]
        split <;> simp
      have graph := Exploration.graph_pushFront (x := { b.reached with waiting := rest }) (n := n)
      refine ⟨⟨⟨rfl, rfl, rfl, ?_⟩, fun more => ?_, fun _ => back⟩, rfl, fun gave_up => by cases gave_up⟩
      · rw [graph]
      · rw [graph] at more
        exact absurd more (Nat.lt_irrefl _)
    next space =>
      have room : b.reached.graph.live < k := by simpa [bound] using space
      let popped : Desk := { b with reached := { b.reached with waiting := rest } }
      -- Without a new node, there is one node less in the queue.
      have taken : ∀ b', Swells popped b' → Spends k b b' ∧ effort k b'.reached < effort k b.reached := by
        intro b' swells
        have live : b.reached.graph.live ≤ b'.reached.graph.live := swells.live
        have shorter : b'.reached.graph.live = b.reached.graph.live → b'.reached.waiting.length < b.reached.waiting.length := by
          intro same
          rw [queue, swells.waiting same]
          exact Nat.lt_succ_self _
        have spends : Spends k b b' :=
          ⟨⟨swells.maxNodes, swells.surroundings, swells.features, live⟩, fun _ => room, fun same => Nat.le_of_lt (shorter same)⟩
        refine ⟨spends, spends.effort_lt ?_⟩
        omega
      rw [ensures_bind, ensures_set, ensures_bind]
      apply (visit_swells n).ensures.mono
      intro targets b₁ visited
      split
      next =>
        obtain ⟨spends, less⟩ := taken b₁ visited
        exact ⟨spends, rfl, less⟩
      next =>
        rw [ensures_bind]
        apply (record_swells targets).ensures.mono
        intro _ b₂ recorded
        obtain ⟨spends, less⟩ := taken b₂ (IsTrans.trans _ _ _ visited recorded)
        exact ⟨spends, rfl, fun _ => .inr less⟩

theorem run_ends (bound : b.engine.maxNodes = some k) : Ends violation (fun fuel => run fuel none) b
    fun ending b' => Spends k b b' ∧ Stops k b b' ending := by
  let start : Desk := { b with engine := { b.engine with counterexamples := ∅ } }
  have begun : Spends k b start := ⟨⟨rfl, rfl, rfl, Nat.le_refl _⟩, fun h => absurd h (Nat.lt_irrefl _), fun _ => Nat.le_refl _⟩
  have wf : WellFounded fun p q : Token × Desk => effort k p.2.reached < effort k q.2.reached :=
    InvImage.wf (fun p : Token × Desk => effort k p.2.reached) wellFounded_lt
  apply Ends.after (m := modify fun b : Desk => { b with engine := { b.engine with counterexamples := ∅ } })
    (P := fun _ b' => b' = start) rfl
  intro _ _ same
  subst same
  apply Ends.repeatUntil (I := fun token b' => token = none ∧ Spends k b b') wf _ ⟨rfl, begun⟩
  intro token b' holds
  obtain ⟨rfl, spends⟩ := holds
  apply Ends.of_ensures
  apply (turn_spends (spends.maxNodes.trans bound)).mono
  intro r b'' spec
  obtain ⟨more, spec⟩ := spec
  have whole : Spends k b b'' := IsTrans.trans _ _ _ spends more
  cases r with
  | inl token => exact ⟨⟨spec.1, whole⟩, spec.2⟩
  | inr ending =>
    exact ⟨whole, spec.timely, fun sound => (spec.sound sound).imp_right fun less => lt_of_lt_of_le less spends.effort_le⟩

end Steps

end Explorer

end GoalCoverage
