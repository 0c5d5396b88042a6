import GoalCoverage.Generation.Harvest
import GoalCoverage.Proofs.StateGraph.Nodes

/-!
Removal from any graph. Whatever is cut out and swept, the nodes that are left are nodes of the graph before, with
their states.
-/

namespace GoalCoverage

theorem Except.bind_eq_ok {ε α β : Type} {e : Except ε α} {k : α → Except ε β} {b : β} :
    (e >>= k) = .ok b ↔ ∃ a, e = .ok a ∧ k a = .ok b := by
  cases e with
  | ok a => simp [bind, Except.bind]
  | error v => simp [bind, Except.bind]

theorem Except.eq_ok_getD {ε α : Type} {e : Except ε α} (succeeds : e.isOk = true) (a : α) : e = .ok (e.toOption.getD a) := by
  cases e with
  | ok a => rfl
  | error v => cases succeeds

/-- A fold that may fail follows a preorder if every step does. -/
theorem foldlM_follows {α β : Type} {R : β → β → Prop} {f : β → α → Except Violation β} (refl : ∀ b, R b b)
    (trans : ∀ a b c, R a b → R b c → R a c) (step : ∀ b x b', f b x = .ok b' → R b b') (l : List α) {b b' : β}
    (ok : l.foldlM f b = .ok b') : R b b' := by
  induction l generalizing b with
  | nil =>
    cases ok
    exact refl _
  | cons x rest ih =>
    rw [List.foldlM_cons, Except.bind_eq_ok] at ok
    obtain ⟨b₁, first, others⟩ := ok
    exact trans b b₁ b' (step b x b₁ first) (ih others)

namespace StateGraph

variable {S : Type} {g g' g'' : StateGraph S} {n m : NodeId} {v : GraphNode S} {f : GraphNode S → GraphNode S}

/-- Nodes are only lost, and states are kept. -/
def Retains (g g' : StateGraph S) : Prop :=
  ∀ n v', g'.node? n = some v' → ∃ v, g.node? n = some v ∧ v.state = v'.state

theorem Retains.refl (g : StateGraph S) : g.Retains g := fun _ v here => ⟨v, here, rfl⟩

theorem Retains.trans (first : g.Retains g') (second : g'.Retains g'') : g.Retains g'' := by
  intro n v'' here''
  obtain ⟨v', here', same'⟩ := second n v'' here''
  obtain ⟨v, here, same⟩ := first n v' here'
  exact ⟨v, here, same.trans same'⟩

theorem retains_update (keeps : ∀ v, (f v).state = v.state) : g.Retains (g.update n f) := by
  intro m v' here
  rw [node?_update] at here
  split at here
  next is =>
    obtain ⟨v, old, rfl⟩ := Option.map_eq_some_iff.1 here
    exact ⟨v, is ▸ old, (keeps v).symm⟩
  next => exact ⟨v', here, rfl⟩

theorem retains_dropFromChildren {children : List NodeId} (ok : g.dropFromChildren n children = .ok g') : g.Retains g' := by
  apply foldlM_follows Retains.refl (fun _ _ _ => Retains.trans) _ children ok
  intro g c g' ok
  simp only [Except.bind_eq_ok] at ok
  obtain ⟨v, _, ok⟩ := ok
  split at ok
  next => cases ok
  next =>
    cases ok
    exact retains_update fun _ => rfl

theorem retains_dropFromParents {parents : List NodeId} (ok : g.dropFromParents n parents = .ok g') : g.Retains g' := by
  apply foldlM_follows Retains.refl (fun _ _ _ => Retains.trans) _ parents ok
  intro g p g' ok
  simp only [Except.bind_eq_ok] at ok
  obtain ⟨v, _, ok⟩ := ok
  split at ok
  next => cases ok
  next =>
    cases ok
    exact retains_update fun _ => rfl

theorem retains_uncover (ok : g.uncover n = .ok g') : g.Retains g' := by
  simp only [uncover, Except.bind_eq_ok] at ok
  obtain ⟨v, _, ok⟩ := ok
  cases ok
  exact retains_update (f := fun v => { v with coveredBy := none }) fun _ => rfl

theorem retains_detach {released : List NodeId} (ok : g.detach n = .ok (released, g')) : g.Retains g' := by
  rw [detach] at ok
  obtain ⟨v, _, ok⟩ := Except.bind_eq_ok.1 ok
  obtain ⟨g₁, fromChildren, ok⟩ := Except.bind_eq_ok.1 ok
  obtain ⟨w, _, ok⟩ := Except.bind_eq_ok.1 ok
  obtain ⟨g₂, fromParents, ok⟩ := Except.bind_eq_ok.1 ok
  obtain ⟨g₃, uncovered, ok⟩ := Except.bind_eq_ok.1 ok
  obtain ⟨g₄, freed, ok⟩ := Except.bind_eq_ok.1 ok
  have rest : (g.update n fun v => { v with children := ∅ }).Retains g₄ := by
    apply (retains_dropFromChildren fromChildren).trans
    have bare : g₁.Retains (g₁.update n fun v => { v with parents := ∅ }) := retains_update fun _ => rfl
    apply bare.trans
    apply (retains_dropFromParents fromParents).trans
    apply (retains_uncover uncovered).trans
    exact foldlM_follows Retains.refl (fun _ _ _ => Retains.trans) (fun _ _ _ => retains_uncover) _ freed
  have bare : g.Retains (g.update n fun v => { v with children := ∅ }) := retains_update fun _ => rfl
  have whole : g.Retains g₄ := bare.trans rest
  have same : (if g₄.root = some n then { g₄ with root := none } else g₄) = g' := congrArg Prod.snd (Except.ok.inj ok)
  rw [← same]
  split
  next => exact whole
  next => exact whole

theorem retains_sweep : g.Retains g.sweep.2 := by
  rw [sweep]
  dsimp only
  split
  next => exact .refl g
  next =>
    intro m v' here
    simp only [node?, Array.getElem?_mapIdx, Option.join_eq_some_iff, Option.map_eq_some_iff] at here
    obtain ⟨slot, there, kept⟩ := here
    split at kept
    next =>
      obtain ⟨v, rfl, rfl⟩ := Option.map_eq_some_iff.1 kept
      exact ⟨v, by rw [node?, there, Option.join_some], rfl⟩
    next => cases kept

end StateGraph

namespace Exploration

variable {S : Type} {x x' : Exploration S} {n : NodeId} {targets : List NodeId}

theorem graph_foldl {f : Exploration S → NodeId → Exploration S} (same : ∀ x n, (f x n).graph = x.graph) (l : List NodeId)
    (x : Exploration S) : (l.foldl f x).graph = x.graph := by
  induction l generalizing x with
  | nil => rfl
  | cons n rest ih => rw [List.foldl_cons, ih, same]

theorem graph_push : (x.push n).graph = x.graph := by
  rw [push]
  split <;> rfl

theorem graph_pushFront : (x.pushFront n).graph = x.graph := by
  rw [pushFront]
  split <;> rfl

/-- All that pruning does to the graph is to detach nodes. -/
theorem prune_follows {R : StateGraph S → StateGraph S → Prop} (refl : ∀ g, R g g)
    (trans : ∀ g g' g'', R g g' → R g' g'' → R g g'') (detach : ∀ g m r, g.detach m = .ok r → R g r.2)
    (ok : x.prune n = .ok x') : R x.graph x'.graph := by
  rw [prune] at ok
  obtain ⟨pruned, _, ok⟩ := Except.bind_eq_ok.1 ok
  obtain ⟨parents, _, ok⟩ := Except.bind_eq_ok.1 ok
  obtain ⟨r, cut, ok⟩ := Except.bind_eq_ok.1 ok
  obtain ⟨resumed, _, ok⟩ := Except.bind_eq_ok.1 ok
  have followed : R x.graph r.2 := by
    apply foldlM_follows (R := fun a b : List NodeId × StateGraph S => R a.2 b.2) (fun _ => refl _) (fun _ _ _ => trans _ _ _)
      _ _ cut
    intro a m b ok
    obtain ⟨d, detached, ok⟩ := Except.bind_eq_ok.1 ok
    cases ok
    exact detach a.2 m d detached
  have same : x'.graph = r.2 := by
    rw [← Except.ok.inj ok, graph_foldl (fun _ _ => graph_pushFront), graph_foldl fun _ _ => graph_push]
  rw [same]
  exact followed

theorem retains_prune (ok : x.prune n = .ok x') : x.graph.Retains x'.graph :=
  prune_follows .refl (fun _ _ _ => .trans) (fun _ _ _ => StateGraph.retains_detach) ok

theorem retains_consume [AbstractState S] (ok : x.consume targets = .ok x') : x.graph.Retains x'.graph := by
  rw [consume] at ok
  obtain ⟨y, pruned, ok⟩ := Except.bind_eq_ok.1 ok
  have kept : x.graph.Retains y.graph := by
    apply foldlM_follows (R := fun a b : Exploration S => a.graph.Retains b.graph) (fun _ => .refl _)
      (fun _ _ _ => StateGraph.Retains.trans) _ _ pruned
    intro a t b ok
    split at ok
    next => exact retains_prune ok
    next =>
      cases ok
      exact .refl _
  have same : x'.graph = y.graph.sweep.2 := by
    rw [← Except.ok.inj ok, sweep, graph_foldl fun _ _ => graph_push]
  rw [same]
  exact kept.trans StateGraph.retains_sweep

end Exploration

end GoalCoverage
