import GoalCoverage.Proofs.Diagram.Features
import GoalCoverage.Proofs.Explorer.Offers
import GoalCoverage.Proofs.Hunt
import Mathlib.Data.Fintype.Powerset
import Mathlib.Data.Set.Card

/-!
The forms of states. To what may cover it, a state is its location, the states of its observers and its configurations,
as far as they differ in declared features. There are finitely many such forms, so finitely many states can be
added one after the other without being covered by an older one (`Novel.not_mem_taken`).
-/

namespace GoalCoverage

namespace Observer

variable {o : Observer} {q q' : StateId} {e : EdgeId} {trace : List EdgeId}

theorem follow_lt (lt : q < o.automaton.size) (mem : q' ∈ o.follow q e) : q' < o.automaton.size := by
  rw [mem_follow_iff] at mem
  cases done : o.isDone q with
  | true => exact (steps_of_isDone done).1 mem ▸ lt
  | false =>
    obtain ⟨t, here, _, _, rfl⟩ := (steps_of_not_isDone done).1 mem
    exact (o.automaton.transitions_lt t here).2

theorem Run.lt (run : o.Run trace q) : q < o.automaton.size := by
  induction trace using List.reverseRecOn generalizing q with
  | nil => exact Eq.subst (motive := (· < o.automaton.size)) run o.automaton.initial_lt
  | append_singleton trace e ih =>
    obtain ⟨_, before, move⟩ := leads_concat.1 run
    exact follow_lt (ih before) move

end Observer

namespace Explorer

open Diagram StateGraph

variable {x : Explorer} {d d' : Diagram} {s t first : State} {c c' : Configuration} {presence : Option Region}
  {edges : List EdgeId} {g : StateGraph State} {b b' : Desk} {n m root : NodeId} {k : Nat}

section Form

/-- What a state may look like, if the first `k` features are all that matter. -/
structure Form (x : Explorer) (k : Nat) where
  location : Set (Fin x.program.locations.size)
  observers : (i : Fin x.observers.length) → Set (Fin x.observers[i].automaton.size)
  presence : Set (Fin (k + 1) → Bool)

instance : Finite (x.Form k) := by
  apply Finite.of_injective fun σ : x.Form k => (σ.location, σ.observers, σ.presence)
  intro σ τ same
  cases σ
  cases τ
  cases same
  rfl

/-- A configuration that the first levels decide, with no feature after them. -/
def padded (a : Fin (k + 1) → Bool) : Configuration := fun l => if below : l < k + 1 then a ⟨l, below⟩ else false

def form (x : Explorer) (k : Nat) (d : Diagram) (s : State) : x.Form k where
  location := {i | i = s.location}
  observers i := {q | ∃ S, s.observers[i]? = some S ∧ q.val ∈ S}
  presence := {a | d.Within s.presence (padded a)}

theorem Tracked.within_congr (tracked : x.Tracked d presence) (ready : d.Ready x.tracks)
    (same : ∀ l, l ≤ d.features.length → c l = c' l) : d.Within presence c ↔ d.Within presence c' := by
  obtain ⟨tracks, p, rfl, has⟩ | ⟨_, rfl⟩ := tracked.cases
  · rw [within_some, within_some, (ready tracks).holds_congr_le has same]
  · simp

theorem form_extends (tracked : x.Tracked d s.presence) (ready : d.Ready x.tracks) (ext : d.Extends d') :
    x.form k d' s = x.form k d s := by
  simp only [form, tracked.within_iff ready ext]

/-- A location of the program, and states that the automata have. -/
structure Bounded (x : Explorer) (s : State) : Prop where
  location : s.location < x.program.locations.size
  observers : List.Forall₂ (fun o S => ∀ q ∈ S, q < o.automaton.size) x.observers s.observers

theorem Journey.bounded (journey : x.Journey d edges s) : x.Bounded s where
  location := by
    obtain ⟨start, entry, walk⟩ := journey.walk
    refine walk.finish_lt ?_
    rw [Program.entry] at entry
    split at entry
    next => cases entry
    next some_location =>
      cases entry
      exact Array.size_pos_iff.2 fun none => some_location (by simp [none])
  observers := journey.follow.imp fun _ _ runs q mem => (runs q mem).lt

theorem Sound.bounded (sound : x.Sound d g root) (attached : g.Attached n) {v : GraphNode State}
    (here : g.node? n = some v) : x.Bounded v.state := by
  obtain ⟨_, _, branch⟩ := sound.tree.exists_branch attached
  exact (sound.journey branch here).bounded

/-- States of one form are in the same place for the same configurations. -/
theorem subsumes_of_form_eq (bs : x.Bounded s) (bt : x.Bounded t) (ps : x.Tracked d s.presence) (pt : x.Tracked d t.presence)
    (ready : d.Ready x.tracks) (few : d.features.length ≤ k) (accepted : t.accepted = s.accepted)
    (same : x.form k d t = x.form k d s) : Subsumes d t s := by
  have location : ∀ i, (x.form k d t).location i ↔ (x.form k d s).location i := by simp [same]
  have observers : ∀ i q, (x.form k d t).observers i q ↔ (x.form k d s).observers i q := by simp [same]
  have presence : ∀ a, (x.form k d t).presence a ↔ (x.form k d s).presence a := by simp [same]
  refine ⟨(location ⟨t.location, bt.location⟩).1 rfl, ?_, accepted, fun c within => ?_⟩
  · refine List.ext_getElem (bt.observers.length_eq.symm.trans bs.observers.length_eq) fun i it is => IdSet.ext_mem fun q => ?_
    have bound : i < x.observers.length := bs.observers.length_eq ▸ is
    have below : q < x.observers[i].automaton.size → (q ∈ t.observers[i] ↔ q ∈ s.observers[i]) := by
      intro lt
      have alike : (∃ S, t.observers[i]? = some S ∧ q ∈ S) ↔ ∃ S, s.observers[i]? = some S ∧ q ∈ S :=
        observers ⟨i, bound⟩ ⟨q, lt⟩
      simpa [it, is] using alike
    exact ⟨fun mem => (below (bt.observers.get bound it q mem)).1 mem, fun mem => (below (bs.observers.get bound is q mem)).2 mem⟩
  · let a : Fin (k + 1) → Bool := fun l => c l
    have alike : ∀ l, l ≤ d.features.length → padded a l = c l := by
      intro l le
      have below : l < k + 1 := by omega
      simp [padded, a, below]
    have narrow := (presence a).2 ((ps.within_congr ready alike).2 within)
    exact (pt.within_congr ready alike).1 narrow

end Form

section Taken

/-- The forms of the nodes that may cover others. -/
def taken (x : Explorer) (k : Nat) (d : Diagram) (g : StateGraph State) : Set (x.Form k) :=
  {σ | ∃ n v, g.node? n = some v ∧ g.Attached n ∧ v.coveredBy = none ∧ NoTarget v.state ∧ x.form k d v.state = σ}

/-- A state that no node has all of has a form of its own. -/
theorem Novel.not_mem_taken (novel : Novel d g s) (sound : x.Sound d g root) (few : d.features.length ≤ k)
    (bounded : x.Bounded s) (tracked : x.Tracked d s.presence) (plain : NoTarget s) :
    x.form k d s ∉ x.taken k d g := by
  intro mem
  obtain ⟨n, v, here, attached, uncovered, plain', same⟩ := mem
  apply novel n v here attached uncovered
  apply subsumes_of_form_eq bounded (sound.bounded attached here) tracked (sound.proper n v here).presence sound.fit.ready few
    _ same
  rw [accepted_eq_empty plain, accepted_eq_empty plain']

theorem Sound.taken_extends (sound : x.Sound d g root) (ext : d.Extends d') : x.taken k d' g = x.taken k d g := by
  have same : ∀ n v, g.node? n = some v → x.form k d' v.state = x.form k d v.state := fun n v here =>
    form_extends (sound.proper n v here).presence sound.fit.ready ext
  ext σ
  constructor
  · intro mem
    obtain ⟨n, v, here, attached, uncovered, plain, rfl⟩ := mem
    exact ⟨n, v, here, attached, uncovered, plain, (same n v here).symm⟩
  · intro mem
    obtain ⟨n, v, here, attached, uncovered, plain, rfl⟩ := mem
    exact ⟨n, v, here, attached, uncovered, plain, same n v here⟩

theorem Enlarged.taken_subset (enlarged : Enlarged first root n b b') :
    b.engine.taken k b.diagram b.reached.graph ⊆ b.engine.taken k b'.diagram b'.reached.graph := by
  intro σ mem
  obtain ⟨m, v, here, attached, uncovered, plain, rfl⟩ := mem
  obtain ⟨v', here', attached', uncovered', same⟩ := enlarged.coverer here attached uncovered
  have sound := enlarged.before.graph.sound
  refine ⟨m, v', here', attached', uncovered', same ▸ plain, ?_⟩
  rw [same]
  exact form_extends (sound.proper m v here).presence sound.fit.ready enlarged.diagram

/-- Where states may be covered, a node that was added and waits has taken a form that was free. -/
theorem Enlarged.exists_taken (enlarged : Enlarged first root n b b') (few : b'.diagram.features.length ≤ k)
    (mem : m ∈ b'.reached.waiting) (sprout : Sprout b b' n m) {v : GraphNode State} (here : b'.reached.graph.node? m = some v)
    (allowed : v.state.location ∈ b.engine.covering) : ∃ σ ∈ b.engine.taken k b'.diagram b'.reached.graph,
      σ ∉ b.engine.taken k b.diagram b.reached.graph := by
  obtain ⟨u, known, plain, novel⟩ := sprout.node
  cases here.symm.trans known
  obtain ⟨u, known, attached, uncovered⟩ := enlarged.ordered.queue.waits m mem
  cases here.symm.trans known
  have sound := enlarged.before.graph.sound
  have sound' := enlarged.ordered.graph.sound
  rw [enlarged.engine] at sound' novel
  have new : b.engine.form k b'.diagram v.state ∉ b.engine.taken k b'.diagram b.reached.graph :=
    (novel allowed).not_mem_taken (sound.extends enlarged.diagram sound'.fit.ready) few (sound'.bounded attached here)
      (sound'.proper m v here).presence plain
  rw [sound.taken_extends enlarged.diagram] at new
  exact ⟨_, ⟨m, v, here, attached, uncovered, plain, rfl⟩, new⟩

end Taken

end Explorer

end GoalCoverage
