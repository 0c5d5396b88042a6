import GoalCoverage.Proofs.Cycle
import GoalCoverage.Proofs.Explorer.Bound
import GoalCoverage.Proofs.Explorer.Resumption
import GoalCoverage.Proofs.Explorer.Forms
import Mathlib.Data.Multiset.DershowitzManna

/-!
Runs without a bound. Where states may be covered, a node that waits takes a form that was free; elsewhere its way to the
next such place is shorter than that of its parent, as long as no cycle avoids them all (`turn_shortens`). So a run
ends if the joins of the program cut the cycles through its entry (`run_ends_of_history`).
-/

namespace GoalCoverage.Explorer

open Diagram StateGraph Procedure

variable {x : Explorer} {d d' : Diagram} {b b' : Desk} {s first : State} {n m root : NodeId} {k : Nat} {y : Exploration State}
  {rest new : List NodeId} {token : Token} {factory : ExplorerFactory} {observers : List Observer} {constraint : Option Region}
  {covering : Option IdSet} {l : Location}

section Prospects

def locationOf (g : StateGraph State) (n : NodeId) : Location := ((g.node? n).map (·.state.location)).getD 0

theorem locationOf_eq {g : StateGraph State} {v : GraphNode State} (here : g.node? n = some v) : locationOf g n = v.state.location := by
  rw [locationOf, here]
  rfl

/-- How many forms are free, and how many locations each node that waits has before it until states may be covered. -/
noncomputable def prospect (x : Explorer) (k : Nat) (b : Desk) : Nat × Multiset Nat :=
  ((x.taken k b.diagram b.reached.graph)ᶜ.ncard,
    b.reached.waiting.map fun n => x.program.reach x.covering (locationOf b.reached.graph n))

/-- Fewer forms are free, or as many and the ways to be explored are shorter. -/
def Shorter : Nat × Multiset Nat → Nat × Multiset Nat → Prop := Prod.Lex (· < ·) Multiset.IsDershowitzMannaLT

theorem wellFounded_shorter : WellFounded Shorter :=
  (Prod.lex ⟨_, wellFounded_lt⟩ ⟨_, Multiset.wellFounded_isDershowitzMannaLT⟩).wf

/-- A node was taken from the queue, and each of the new ones has taken a free form or has a shorter way. -/
theorem shorter_of_waiting (before : b.reached.waiting = n :: rest) (after : b'.reached.waiting = rest ++ new)
    (kept : ∀ m ∈ rest, locationOf b'.reached.graph m = locationOf b.reached.graph m)
    (sub : x.taken k b.diagram b.reached.graph ⊆ x.taken k b'.diagram b'.reached.graph)
    (nearer : ∀ m ∈ new, (∃ σ ∈ x.taken k b'.diagram b'.reached.graph, σ ∉ x.taken k b.diagram b.reached.graph) ∨
      x.program.reach x.covering (locationOf b'.reached.graph m) < x.program.reach x.covering (locationOf b.reached.graph n)) :
    Shorter (x.prospect k b') (x.prospect k b) := by
  let far (b : Desk) (m : NodeId) : Nat := x.program.reach x.covering (locationOf b.reached.graph m)
  by_cases grown : ∃ σ ∈ x.taken k b'.diagram b'.reached.graph, σ ∉ x.taken k b.diagram b.reached.graph
  · obtain ⟨σ, taken, free⟩ := grown
    exact .left _ _ (Set.ncard_lt_ncard ⟨Set.compl_subset_compl.2 sub, fun all => all free taken⟩ (Set.toFinite _))
  · have same : x.taken k b.diagram b.reached.graph = x.taken k b'.diagram b'.reached.graph := by
      refine Set.Subset.antisymm sub fun σ taken => ?_
      by_contra free
      exact grown ⟨σ, taken, free⟩
    have ways : Multiset.IsDershowitzMannaLT (b'.reached.waiting.map (far b') : Multiset Nat) (b.reached.waiting.map (far b)) := by
      refine ⟨rest.map (far b), new.map (far b'), {far b n}, Multiset.singleton_ne_zero _, ?_, ?_, fun y mem => ?_⟩
      · have old : rest.map (far b') = rest.map (far b) := List.map_congr_left fun m mem => by
          simp only [far, kept m mem]
        rw [after, List.map_append, old, Multiset.coe_add]
      · rw [before, List.map_cons, ← Multiset.cons_coe, ← Multiset.singleton_add, add_comm]
      · obtain ⟨m, here, rfl⟩ := List.mem_map.1 (Multiset.mem_coe.1 mem)
        exact ⟨_, Multiset.mem_singleton_self _, (nearer m here).resolve_left grown⟩
    rw [prospect, prospect, same]
    exact .right _ ways

end Prospects

section Turns

/-- What a visit to the first node of the queue does that finds no target. -/
structure Shortens (k : Nat) (b b' : Desk) : Prop where
  engine : b'.engine = b.engine
  features : b'.diagram.features = b.diagram.features
  shorter : Shorter (b.engine.prospect k b') (b.engine.prospect k b)

theorem Ordered.shortens (ordered : Ordered first root b) (queue : b.reached.waiting = n :: rest)
    (cuts : b.engine.program.Cuts b.engine.covering) (few : b.diagram.features.length ≤ k)
    (visited : visit n { b with reached := { b.reached with waiting := rest } } = .ok [] b') : Shortens k b b' := by
  have popped : Ordered first root { b with reached := { b.reached with waiting := rest } } :=
    ⟨ordered.graph, ordered.queue.sublist (queue ▸ List.sublist_cons_self n rest)⟩
  obtain ⟨enlarged, _, _⟩ := (visit_orders (T := anything) popped).of_eq_ok visited
  have features : b'.diagram.features = b.diagram.features := ((visit_swells n).ensures.of_eq_ok visited).features
  obtain ⟨new, waiting, sprouts⟩ := enlarged.waiting
  have stays : ∀ m ∈ b.reached.waiting, locationOf b'.reached.graph m = locationOf b.reached.graph m := by
    intro m mem
    obtain ⟨v, here, _⟩ := ordered.queue.waits m mem
    obtain ⟨v', here', kept⟩ := enlarged.graph m v here
    rw [locationOf_eq here, locationOf_eq here', kept.state]
  have nearer : ∀ m ∈ new, (∃ σ ∈ b.engine.taken k b'.diagram b'.reached.graph, σ ∉ b.engine.taken k b.diagram b.reached.graph) ∨
      b.engine.program.reach b.engine.covering (locationOf b'.reached.graph m) <
        b.engine.program.reach b.engine.covering (locationOf b.reached.graph n) := by
    intro m mem
    have sprout := sprouts m mem
    obtain ⟨e, w, known, child⟩ := sprout.link
    obtain ⟨v, here, _⟩ := sprout.node
    by_cases allowed : v.state.location ∈ b.engine.covering
    · exact .inl (enlarged.exists_taken (features ▸ few) (waiting ▸ List.mem_append_right _ mem) sprout here allowed)
    · have sound := enlarged.ordered.graph.sound
      obtain ⟨nodes, edges, branch⟩ := sound.tree.exists_branch (sound.tree.attached_of_child known child)
      obtain ⟨start, entry, walk⟩ := (sound.journey branch here).walk
      obtain ⟨edge, there, source, target⟩ := (sound.follows n w m e v known child here).edge
      rw [enlarged.engine] at entry walk there
      rw [← stays n (queue ▸ List.mem_cons_self), locationOf_eq here, locationOf_eq known]
      exact .inr (Program.reach_lt ⟨allowed, e, edge, there, source, target⟩ (cuts start edges _ entry walk))
  refine ⟨enlarged.engine, features, shorter_of_waiting queue waiting (fun m mem => ?_) enlarged.taken_subset nearer⟩
  exact stays m (queue ▸ List.mem_cons_of_mem n mem)

theorem Barren.shortens (barren : Barren s b) (queue : b.reached.waiting = n :: rest)
    (visited : Explorer.visit n { b with reached := { b.reached with waiting := rest } } = .ok [] b') : Shortens k b b' := by
  obtain ⟨rfl, _, here⟩ := barren.bare.node (n := n) (queue ▸ List.mem_cons_self)
  obtain ⟨_, rfl⟩ := (Barren.visit (T := anything) (b := { b with reached := { b.reached with waiting := rest } }) here
    barren.bare.target).of_eq_ok visited
  exact ⟨rfl, rfl, shorter_of_waiting queue (List.append_nil rest).symm (fun _ _ => rfl) subset_rfl fun m mem => nomatch mem⟩

theorem turn_shortens (order : InOrder s b) (cuts : b.engine.program.Cuts b.engine.covering)
    (few : b.diagram.features.length ≤ k) (going : turn none b = .ok (.inl token) b') : Shortens k b b' := by
  obtain ⟨_, _, n, y, popped, _, visited⟩ := turn_eq_inl_iff.1 going
  cases queue : b.reached.waiting with
  | nil =>
    rw [Exploration.pop, queue] at popped
    cases popped
  | cons m rest =>
    rw [Exploration.pop, queue] at popped
    cases popped
    exact order.elim (fun ordered => ordered.shortens queue cuts few visited) fun barren => barren.shortens queue visited

theorem turn_ending {ending : RunEnd} (unbounded : b.engine.maxNodes = none) (ended : turn none b = .ok (.inr ending) b') :
    ending = ⟨.sound, false⟩ := by
  have spec : Ensures anything (turn none) b fun r _ => ∀ ending, r = .inr ending → ending = ⟨.sound, false⟩ := by
    have on_time : Token.fired none = false := rfl
    rw [turn, ensures_bind, ensures_get]
    split
    next =>
      intro _ is
      exact (Sum.inr.inj is).symm
    next n y _ =>
      simp only [on_time, unbounded, Option.any_none, Bool.false_eq_true, if_false]
      rw [ensures_bind, ensures_set, ensures_bind, ensures_anything_iff]
      intro targets b₁ _
      split
      next =>
        intro _ is
        cases is
      next =>
        rw [ensures_bind, ensures_anything_iff]
        intro _ b₂ _ _ is
        exact (Sum.inr.inj is).symm
  exact spec.of_eq_ok ended ending rfl

theorem Running.exists_turn (running : Running s b) (token : Token) : ∃ r b', Explorer.turn token b = .ok r b' := by
  have goes : Ensures (fun _ => False) (Explorer.turn token) b fun _ _ => True := by
    obtain ⟨ordered | barren, none⟩ := running
    · exact (turn_orders (ordered.worked none) none).mono fun _ _ _ => trivial
    · exact (Barren.turn barren).mono fun _ _ _ => trivial
  obtain ⟨r, b', out, _⟩ := goes.exists_result
  exact ⟨r, b', out⟩

end Turns

section Runs

/-- Without a bound, and with nobody to cancel it, a run ends where no cycle avoids the locations at which states may be covered. -/
theorem InOrder.ends (order : InOrder s b) (unbounded : b.engine.maxNodes = none)
    (cuts : b.engine.program.Cuts b.engine.covering) :
    Ends (fun _ => False) (fun fuel => run fuel none) b fun ending _ => ending = ⟨.sound, false⟩ := by
  let x := (Explorer.begun b).engine
  let k := b.diagram.features.length
  have wf : WellFounded fun p q : Token × Desk => Shorter (x.prospect k p.2) (x.prospect k q.2) :=
    InvImage.wf (fun p : Token × Desk => x.prospect k p.2) wellFounded_shorter
  apply Ends.after (m := modify Explorer.begun) (P := fun _ b' => b' = Explorer.begun b) rfl
  intro _ _ same
  subst same
  apply Ends.repeatUntil (I := fun token b' => token = none ∧ Running s b' ∧ b'.engine = x ∧ b'.diagram.features.length = k) wf _
    ⟨rfl, order.begun, rfl, rfl⟩
  intro token b' holds
  obtain ⟨rfl, running, engine, features⟩ := holds
  obtain ⟨r, b'', out⟩ := running.exists_turn none
  apply Ends.of_ensures
  rw [Ensures, out]
  cases r with
  | inl token =>
    obtain ⟨rfl, _⟩ := turn_eq_inl_iff.1 out
    have shortens := turn_shortens running.1 (engine ▸ cuts) (Nat.le_of_eq features) out
    rw [← engine]
    exact ⟨⟨rfl, running.turn out, shortens.engine, (congrArg _ shortens.features).trans features⟩, shortens.shorter⟩
  | inr ending => exact turn_ending (engine ▸ unbounded) out

/-- After anything that may have been done, a run ends that nothing limits. -/
theorem run_ends_of_history (managed : factory.tracks = true → Managed factory observers constraint d)
    (unbounded : factory.maxNodes = none) (precise : ∀ l, covering = some l → l = factory.program.joins)
    (cut : ∀ n, factory.program.entry = .ok n → factory.program.CutAt factory.program.joins n)
    (composed : compose factory observers constraint covering = .ok x) (started : x.initialState d = .ok s d')
    (history : Relation.ReflTransGen Action
      { diagram := d', surroundings := factory, engine := x, reached := .start s } b) :
    Ends (fun _ => False) (fun fuel => run fuel none) b fun ending _ => ending = ⟨.sound, false⟩ := by
  obtain ⟨_, _, start⟩ := inOrder_of_start managed composed started
  obtain ⟨order, same⟩ := inOrder_of_history history start
  have shape := compose_eq_ok composed
  have joins : x.covering = factory.program.joins := by
    rw [shape]
    cases is : covering with
    | none => rfl
    | some l => exact precise l is
  have program : x.program = factory.program := by rw [shape]
  have bound : x.maxNodes = factory.maxNodes := by rw [shape]
  apply order.ends (same.maxNodes.trans (bound.trans unbounded))
  rw [same.program, same.covering, joins, program]
  exact Program.cuts_joins cut

end Runs

section Loops

/-- An exploration of a program for one of its edges. -/
def loopDesk (p : Program) (e : EdgeId) : Desk :=
  let observers := [.plain 1 (.reaching "G1" e)]
  { diagram := .fresh
    surroundings := { program := p, tracks := false, maxNodes := none, explains := false }
    engine :=
      { program := p, tracks := false, observers, covering := p.joins, constraint := none, opened := ∅
        maxNodes := none, explains := false, counterexamples := ∅ }
    reached := .start ⟨0, Observer.starts observers, none, ∅⟩ }

/-- A loop that passes the entry and another one, and an edge that cannot be reached. -/
def twoLoops : Program := .ofArrows 4 [(0, 1), (1, 2), (2, 1), (1, 0), (3, 4)]

theorem run_ends_of_history_twoLoops : (finish (run 9 (some 1)) (loopDesk twoLoops 4)).reached.waiting = [1] ∧
    Ends (fun _ => False) (fun fuel => run fuel none) (finish (run 9 (some 1)) (loopDesk twoLoops 4)) fun ending _ =>
      ending = ⟨.sound, false⟩ := by
  obtain ⟨_, cancelled⟩ := exists_eq_ok (m := run 9 (some 1)) (s := loopDesk twoLoops 4) (by decide +kernel)
  have cut : ∀ n, twoLoops.entry = .ok n → twoLoops.CutAt twoLoops.joins n := by
    intro n entry
    cases entry
    exact Program.cutAt_of_edges (by decide +kernel)
  have untracked : (loopDesk twoLoops 4).surroundings.tracks ≠ true := by decide
  have composed : compose (loopDesk twoLoops 4).surroundings (loopDesk twoLoops 4).engine.observers none none =
      .ok (loopDesk twoLoops 4).engine := rfl
  refine ⟨by decide +kernel, ?_⟩
  exact run_ends_of_history (fun h => absurd h untracked) rfl (fun _ none => by cases none) cut composed rfl
    (.single (.run cancelled))

/-- A loop that passes the entry, with no other way into it, and an edge that cannot be reached. -/
def ring : Program := .ofArrows 3 [(0, 1), (1, 0), (2, 3)]

/-- A state on that loop. -/
def onRing (l : Location) : State := ⟨l, [.singleton 0], none, ∅⟩

/-- A run has come around the loop to the node `n`. -/
structure Circling (b : Desk) (waiting : List NodeId) (n : NodeId) (l : Location) : Prop where
  engine : b.engine = (loopDesk ring 2).engine
  disabled : b.reached.disabled = ∅
  tree : b.reached.graph.Tree 0
  waiting : b.reached.waiting = waiting
  side : l = 0 ∨ l = 1
  expandable : Expandable b.reached.graph n (onRing l)
  leaf : b.reached.graph.childList n = []

theorem ring_next (side : l = 0 ∨ l = 1) : ring.leaving l = [l] ∧ ∃ edge, ring.edges[l]? = some edge ∧
    ∀ d, (loopDesk ring 2).engine.successors (onRing l) l edge ∅ d = ([onRing (1 - l)], d) := by
  obtain rfl | rfl := side
  · exact ⟨rfl, _, rfl, fun _ => rfl⟩
  · exact ⟨rfl, _, rfl, fun _ => rfl⟩

/-- What is added and is no target is not yielded as one. -/
theorem settle_plain {e : EdgeId} {out : Option NodeId} (plain : AbstractState.isTarget s = false)
    (ok : settle n e s none b = .ok out b') : out = none := by
  obtain ⟨_, _, _, ok⟩ := exists_of_bind_eq_ok ok
  simp only [plain, Bool.not_false, if_true] at ok
  cases ok
  rfl

theorem Circling.place (circling : Circling b [] n l) :
    Ensures (fun _ => False) (Explorer.place n l (onRing (1 - l))) b fun out b' =>
      out = none ∧ ∃ m, Circling b' [m] m (1 - l) := by
  obtain ⟨w, here, same, _⟩ := circling.expandable.node
  have covering : b.engine.covering = ∅ := by rw [circling.engine]; rfl
  have plain : AbstractState.isTarget (onRing (1 - l)) = false := rfl
  rw [Explorer.place, ensures_bind, ensures_get, ensures_bind]
  apply ensures_onDiagram_same (a := false)
  · rw [isDuplicate, circling.leaf]
    rfl
  simp only [Bool.false_eq_true, if_false, covering]
  change Ensures _ (settle n l (onRing (1 - l)) none) b _
  have settles := settle_spec (T := fun _ => False) (e := l) (s := onRing (1 - l)) none circling.tree circling.expandable here same
    fun m is => by cases is
  obtain ⟨out, b', ok, g', waiting', last, rfl, settled, _⟩ := settles.exists_result
  obtain ⟨_, child⟩ := link_of_placed here settled.placed
  have waits : waiting' = [b.reached.graph.nodes.size] := by
    have sub := settled.sublist
    rw [circling.waiting] at sub
    exact (List.sublist_singleton.1 sub).resolve_left fun none => by simpa [none, plain] using settled.waits
  rw [Ensures, ok]
  refine ⟨settle_plain plain ok, b.reached.graph.nodes.size, circling.engine, circling.disabled, settled.placed.tree, waits, ?_, ?_, ?_⟩
  · obtain rfl | rfl := circling.side
    · exact .inr rfl
    · exact .inl rfl
  · exact ⟨⟨_, child, rfl, rfl⟩, ⟨_, child, .inr ⟨n, IdSet.mem_singleton.2 rfl⟩⟩, plain⟩
  · simp only [childList, child]
    rfl

theorem Circling.expand (circling : Circling b [] n l) :
    Ensures (fun _ => False) (Explorer.expand n (onRing l)) b fun targets b' => targets = [] ∧ ∃ m, Circling b' [m] m (1 - l) := by
  obtain ⟨leaving, edge, there, found⟩ := ring_next circling.side
  have program : b.engine.program = ring := by rw [circling.engine]; rfl
  have location : (onRing l).location = l := rfl
  rw [Explorer.expand, ensures_bind, ensures_get, program]
  simp only [location, leaving, List.mapM_cons, List.mapM_nil, ensures_bind, follow, ensures_get, program, there, circling.disabled]
  apply ensures_onDiagram_same (circling.engine ▸ found b.diagram)
  simp only [List.filterMapM_cons, List.filterMapM_nil, ensures_bind]
  apply circling.place.mono
  intro out b' spec
  obtain ⟨rfl, next⟩ := spec
  exact ⟨rfl, next⟩

theorem Circling.turn (circling : Circling b [n] n l) :
    Ensures (fun _ => False) (Explorer.turn none) b fun r b' => r = .inl none ∧ ∃ m, Circling b' [m] m (1 - l) := by
  obtain ⟨v, here, state, uncovered⟩ := circling.expandable.node
  have able : canCover b.reached.graph n = true :=
    (canCover_iff circling.tree).2 ⟨circling.expandable.attached, fun w known => by cases here.symm.trans known; exact uncovered⟩
  have on_time : Token.fired none = false := rfl
  have unbounded : b.engine.maxNodes = none := by rw [circling.engine]; rfl
  have relevant : b.engine.isRelevant v.state b.diagram = (true, b.diagram) := by
    rw [circling.engine]
    rfl
  have plain : AbstractState.isTarget v.state = false := state ▸ rfl
  rw [Explorer.turn, ensures_bind, ensures_get]
  simp only [Exploration.pop, circling.waiting, on_time, unbounded, Option.any_none, Bool.false_eq_true, if_false]
  rw [ensures_bind, ensures_set, ensures_bind, visit, ensures_bind, ensures_get]
  simp only [here, able, plain, Bool.not_true, Bool.or_false, Bool.false_eq_true, if_false, ensures_bind]
  have popped : Circling { b with reached := { b.reached with waiting := [] } } [] n l := { circling with waiting := rfl }
  refine ensures_onDiagram_same (b := { b with reached := { b.reached with waiting := [] } }) relevant ?_
  simp only [if_true, state]
  apply popped.expand.mono
  intro targets b' spec
  obtain ⟨rfl, next⟩ := spec
  exact ⟨rfl, next⟩

theorem Circling.exhausted (circling : Circling b [n] n l) (fuel : Nat) :
    ∃ b', repeatUntil Explorer.turn fuel none b = .error .exhausted b' := by
  induction fuel generalizing b n l with
  | zero => exact ⟨b, rfl⟩
  | succ fuel ih =>
    obtain ⟨_, b', ok, rfl, m, next⟩ := circling.turn.exists_result
    rw [repeatUntil_of_inl ok]
    exact ih next

/-- The entry is no join, although the loop is entered there: a run goes on for ever. -/
theorem exhausted_ring : compose (loopDesk ring 2).surroundings (loopDesk ring 2).engine.observers none none =
      .ok (loopDesk ring 2).engine ∧
    (loopDesk ring 2).engine.initialState .fresh = .ok (onRing 0) .fresh ∧
    (loopDesk ring 2).reached = .start (onRing 0) ∧
    ∀ fuel, ∃ b', run fuel none (loopDesk ring 2) = .error .exhausted b' := by
  refine ⟨rfl, rfl, rfl, fun fuel => ?_⟩
  have root : (loopDesk ring 2).reached.graph.node? 0 = some ⟨onRing 0, ∅, ∅, none, false⟩ := rfl
  have start : Circling (loopDesk ring 2) [0] 0 0 :=
    { engine := rfl
      disabled := rfl
      tree := tree_start rfl
      waiting := rfl
      side := .inl rfl
      expandable := ⟨⟨_, root, rfl, rfl⟩, ⟨_, root, .inl rfl⟩, rfl⟩
      leaf := rfl }
  rw [run_eq, begun_eq rfl]
  exact start.exhausted fuel

end Loops

end GoalCoverage.Explorer
