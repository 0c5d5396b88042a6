import GoalCoverage.Proofs.StateGraph.Refinement
import GoalCoverage.Proofs.StateGraph.Retention

/-!
The frontier of an exploration beside any graph. It is orderly if it lists existing nodes only, each of them once.
Sweeping keeps it so, and a node that loses its cover to it waits again.
-/

namespace GoalCoverage

/-- A filter whose test succeeds, though it might have failed. -/
theorem filterMapM_guard {α : Type} [DecidableEq α] {f : α → Except Violation (Option α)} {keep : α → Bool} {l : List α}
    (each : ∀ a ∈ l, f a = .ok (if keep a then some a else none)) : l.filterMapM f = .ok (l.filter keep) := by
  induction l with
  | nil => rfl
  | cons a rest ih =>
    rw [List.filterMapM_cons, each a List.mem_cons_self, ih fun b mem => each b (List.mem_cons_of_mem a mem),
      List.filter_cons]
    cases keep a <;> rfl

namespace Exploration

open StateGraph

variable {S : Type} {x x' : Exploration S} {sh : Shape} {n m p c : NodeId}

/-- Waiting nodes and the last one exist, and no node waits twice. -/
structure Orderly (x : Exploration S) : Prop where
  nodup : x.waiting.Nodup
  waiting : ∀ n ∈ x.waiting, x.graph.contains n = true
  last : ∀ n, x.last = some n → x.graph.contains n = true

/-- `x'` is `x` with the given nodes on the frontier, besides those that wait already. -/
structure Queued (x x' : Exploration S) (l : List NodeId) : Prop where
  graph : x'.graph = x.graph
  last : x'.last = x.last
  nodup : x.waiting.Nodup → x'.waiting.Nodup
  mem : ∀ m, m ∈ x'.waiting ↔ m ∈ l ∨ m ∈ x.waiting

theorem queued_push (x : Exploration S) (n : NodeId) : x.Queued (x.push n) [n] := by
  rw [push]
  split
  next here => exact ⟨rfl, rfl, id, fun m => by simpa using fun same => same ▸ here⟩
  next new =>
    refine ⟨rfl, rfl, fun nodup => ?_, fun m => by simp [or_comm]⟩
    rw [List.nodup_append_comm]
    exact List.nodup_cons.2 ⟨new, nodup⟩

theorem queued_pushFront (x : Exploration S) (n : NodeId) : x.Queued (x.pushFront n) [n] := by
  rw [pushFront]
  split
  next here => exact ⟨rfl, rfl, id, fun m => by simpa using fun same => same ▸ here⟩
  next new => exact ⟨rfl, rfl, fun nodup => List.nodup_cons.2 ⟨new, nodup⟩, fun m => by simp⟩

theorem Queued.foldl {f : Exploration S → NodeId → Exploration S} (each : ∀ x n, Queued x (f x n) [n]) (l : List NodeId)
    (x : Exploration S) : x.Queued (l.foldl f x) l := by
  induction l generalizing x with
  | nil => exact ⟨rfl, rfl, id, by simp⟩
  | cons n rest ih =>
    have first := each x n
    have others := ih (f x n)
    refine ⟨others.graph.trans first.graph, others.last.trans first.last, fun nodup => others.nodup (first.nodup nodup),
      fun m => ?_⟩
    rw [List.foldl_cons, others.mem, first.mem, List.mem_singleton, List.mem_cons]
    tauto

theorem Queued.orderly {l : List NodeId} (queued : x.Queued x' l) (orderly : x.Orderly)
    (known : ∀ n ∈ l, x.graph.contains n = true) : x'.Orderly where
  nodup := queued.nodup orderly.nodup
  waiting m mem := by
    rw [queued.graph]
    exact ((queued.mem m).1 mem).elim (known m) (orderly.waiting m)
  last m is_last := by
    rw [queued.graph]
    exact orderly.last m (queued.last ▸ is_last)

/-- Nodes may be taken from the frontier, and the graph may change below it, as long as what is left of it exists. -/
theorem Orderly.lessen (orderly : x.Orderly) (sub : x'.waiting.Sublist x.waiting)
    (waiting : ∀ n ∈ x'.waiting, x.graph.contains n = true → x'.graph.contains n = true)
    (last : ∀ n, x'.last = some n → x.last = some n ∧ (x.graph.contains n = true → x'.graph.contains n = true)) :
    x'.Orderly where
  nodup := orderly.nodup.sublist sub
  waiting n mem := waiting n mem (orderly.waiting n (sub.subset mem))
  last n is_last := (last n is_last).2 (orderly.last n (last n is_last).1)

theorem Orderly.withGraph {g' : StateGraph S} (orderly : x.Orderly)
    (stays : ∀ n, x.graph.contains n = true → g'.contains n = true) : Orderly { x with graph := g' } :=
  orderly.lessen (.refl _) (fun n _ => stays n) fun n is_last => ⟨is_last, stays n⟩

theorem retainWaiting_eq (orderly : x.Orderly) (keep : S → Bool) : x.retainWaiting keep =
    .ok { x with waiting := x.waiting.filter fun n => (x.graph.node? n).any fun v => keep v.state } := by
  have kept : (x.waiting.filterMapM fun n => do
      let s ← x.graph.state n
      return if keep s then some n else none) =
      .ok (x.waiting.filter fun n => (x.graph.node? n).any fun v => keep v.state) := by
    apply filterMapM_guard
    intro n mem
    obtain ⟨v, here⟩ := contains_iff.1 (orderly.waiting n mem)
    rw [state, node_eq_ok here, here]
    rfl
  rw [retainWaiting, kept]
  rfl

theorem Orderly.sweep (orderly : x.Orderly) (shape : x.graph.HasShape sh) (sound : sh.Sound) :
    x.sweep.2.graph.HasShape sh.swept ∧ x.sweep.2.Orderly ∧
      ∀ m, x.sweep.2.graph.contains m = true → m ∈ x.graph.covered → m ∉ x.sweep.2.graph.covered →
        m ∈ x.sweep.2.waiting := by
  obtain ⟨shape', _, freed⟩ := shape.sweep sound
  let y : Exploration S :=
    { x with
      graph := x.graph.sweep.2
      waiting := x.waiting.filter x.graph.sweep.2.contains
      last := x.last.filter x.graph.sweep.2.contains }
  have orderly_y : y.Orderly := by
    apply orderly.lessen List.filter_sublist
    · exact fun m mem _ => (List.mem_filter.1 mem).2
    · exact fun m is_last => ⟨(Option.filter_eq_some_iff.1 is_last).1, fun _ => (Option.filter_eq_some_iff.1 is_last).2⟩
  have queued : y.Queued x.sweep.2 x.graph.sweep.1.uncovered := .foldl queued_push _ y
  have existing : ∀ m ∈ x.graph.sweep.1.uncovered, y.graph.contains m = true := by
    intro m mem
    obtain ⟨reached, b, by_b, _⟩ := (freed m).1 mem
    exact shape'.contains_iff.2 ⟨(sound.cover m b by_b).1, reached⟩
  refine ⟨queued.graph ▸ shape', queued.orderly orderly_y existing, fun m known covered lost => ?_⟩
  rw [queued.graph, shape'.contains_iff] at known
  rw [queued.graph, shape'.covered] at lost
  obtain ⟨b, by_b⟩ := (shape.covered m).1 covered
  rw [queued.mem, freed]
  exact .inl ⟨known.2, b, by_b, fun reached => lost ⟨b, by_b, known.2, reached⟩⟩

end Exploration

end GoalCoverage
