import GoalCoverage.Proofs.Exploration
import GoalCoverage.Proofs.Explorer.Covering

/-!
The invariant of explorations. The graph is a tree whose links follow program edges (`Sound`), and every
attached node that is neither covered nor a target nor waiting has all its children (`Complete`). So when
nothing waits and no target is left, no goal that is wanted is accepted along any allowed walk
(`Complete.refutes`).
-/

namespace GoalCoverage.Explorer

open Diagram StateGraph

variable {x : Explorer} {d d' : Diagram} {s t : State} {n m p root : NodeId} {e : EdgeId} {c : Configuration}
  {g g' : StateGraph State} {v w : GraphNode State} {waiting waiting' : List NodeId} {disabled : IdSet}
  {busy cov : Option NodeId}

structure Sound (x : Explorer) (d : Diagram) (g : StateGraph State) (root : NodeId) : Prop where
  tree : g.Tree root
  fit : x.Fit d
  proper : ∀ n v, g.node? n = some v → x.Proper d v.state
  start : ∀ v, g.node? root = some v → x.program.entry = .ok v.state.location ∧
    v.state.observers = Observer.starts x.observers ∧ AbstractState.isTarget v.state = false
  follows : ∀ p w n e v, g.node? p = some w → w.children.get? n = some (some e) → g.node? n = some v →
    x.Follows d w.state e v.state

/-- There is a child for every joint move on an edge that may be taken. -/
def Served (x : Explorer) (d : Diagram) (g : StateGraph State) (n : NodeId) (s : State) (e : EdgeId) : Prop :=
  ∀ c edge, x.Admits d c → d.Within s.presence c → x.Passes d c e → x.program.edges[e]? = some edge →
    edge.source = s.location → ∀ sets ∈ Observer.joint x.observers s.observers e,
      ∃ m w, g.Link n e m ∧ g.node? m = some w ∧ w.state.location = edge.target ∧ w.state.observers = sets ∧
        d.Within w.state.presence c

def Expanded (x : Explorer) (d : Diagram) (g : StateGraph State) (n : NodeId) (s : State) : Prop :=
  ∀ e, x.Served d g n s e

/-- Nothing is lost, but for what is still to be done at the waiting nodes and at the busy one. -/
structure Complete (x : Explorer) (d : Diagram) (g : StateGraph State) (root : NodeId) (waiting : List NodeId)
    (disabled : IdSet) (busy : Option NodeId) : Prop where
  start : ∀ v c, g.node? root = some v → x.Admits d c → d.Within v.state.presence c
  credits : ∀ n v, g.node? n = some v → x.Credits d disabled v.state
  cover : ∀ n v m w, g.node? n = some v → v.coveredBy = some m → g.node? m = some w →
    Subsumes d w.state v.state
  expanded : ∀ n v, g.node? n = some v → g.Attached n → v.coveredBy = none →
    AbstractState.isTarget v.state = false → n ∉ waiting → busy ≠ some n → x.Expanded d g n v.state

theorem Sound.extends (sound : x.Sound d g root) (ext : d.Extends d') (ready : d'.Ready x.tracks) :
    x.Sound d' g root where
  tree := sound.tree
  fit := sound.fit.extends ext ready
  proper n v here := (sound.proper n v here).extends ext
  start := sound.start
  follows p w n e v here link there := (sound.follows p w n e v here link there).extends sound.fit ext
    (sound.proper p w here).presence (sound.proper n v there).presence

theorem Served.extends (served : x.Served d g n s e) (sound : x.Sound d g root) (ext : d.Extends d')
    (tracked : x.Tracked d s.presence) : x.Served d' g n s e := by
  intro c edge admits within passes there leaving sets joint
  rw [sound.fit.admits_iff ext] at admits
  rw [tracked.within_iff sound.fit.ready ext] at within
  rw [sound.fit.passes_iff ext] at passes
  obtain ⟨m, w, link, known, location, observers, holds⟩ :=
    served c edge admits within passes there leaving sets joint
  refine ⟨m, w, link, known, location, observers, ?_⟩
  rwa [(sound.proper m w known).presence.within_iff sound.fit.ready ext]

theorem Complete.extends (complete : x.Complete d g root waiting disabled busy) (sound : x.Sound d g root)
    (ext : d.Extends d') : x.Complete d' g root waiting disabled busy where
  start v c here admits := by
    rw [(sound.proper root v here).presence.within_iff sound.fit.ready ext]
    exact complete.start v c here ((sound.fit.admits_iff ext).1 admits)
  credits n v here := (complete.credits n v here).extends sound.fit ext (sound.proper n v here).presence
  cover n v m w here by_m there := (complete.cover n v m w here by_m there).extends sound.fit ext
    (sound.proper m w there).presence (sound.proper n v here).presence
  expanded n v here attached uncovered plain free idle := fun e => (complete.expanded n v here attached uncovered plain free idle e).extends sound ext
      (sound.proper n v here).presence

theorem Sound.shrinks (sound : x.Sound d g root) (tree : g'.Tree root) (shrinks : g.Shrinks g') :
    x.Sound d g' root where
  tree := tree
  fit := sound.fit
  proper n v known := by
    obtain ⟨u, old, less⟩ := shrinks n v known
    rw [less.state]
    exact sound.proper n u old
  start v known := by
    obtain ⟨u, old, less⟩ := shrinks root v known
    rw [less.state]
    exact sound.start u old
  follows p w n e v known link there := by
    obtain ⟨u, old, less⟩ := shrinks p w known
    obtain ⟨u', old', less'⟩ := shrinks n v there
    rw [less.state, less'.state]
    exact sound.follows p u n e u' old (less.children n _ link) old'

/-- Where links are lost, the nodes have to wait. -/
theorem Complete.shrinks (complete : x.Complete d g root waiting disabled busy) (shrinks : g.Shrinks g')
    (expanded : ∀ n v u, g.node? n = some v → g'.node? n = some u → g'.Attached n → u.coveredBy = none →
      AbstractState.isTarget v.state = false → n ∉ waiting' → busy ≠ some n → x.Expanded d g' n v.state) :
    x.Complete d g' root waiting' disabled busy where
  start v c known := by
    obtain ⟨u, old, less⟩ := shrinks root v known
    rw [less.state]
    exact complete.start u c old
  credits n v known := by
    obtain ⟨u, old, less⟩ := shrinks n v known
    rw [less.state]
    exact complete.credits n u old
  cover n v m w known by_m there := by
    obtain ⟨u, old, less⟩ := shrinks n v known
    obtain ⟨u', old', less'⟩ := shrinks m w there
    rw [less.state, less'.state]
    exact complete.cover n u m u' old (less.coveredBy m by_m) old'
  expanded n v known attached uncovered plain free idle := by
    obtain ⟨u, old, less⟩ := shrinks n v known
    rw [less.state] at plain ⊢
    exact expanded n u v old known attached uncovered plain free idle

/-- Every walk that may be taken, with every joint way of the observers, leads to a node that can be expanded. -/
theorem Complete.exists_node (complete : x.Complete d g root [] disabled none) (sound : x.Sound d g root)
    (none : ∀ n v, g.node? n = some v → g.Attached n → AbstractState.isTarget v.state = false)
    {start finish : Location} {trace : List EdgeId} {sets : List IdSet} (entry : x.program.entry = .ok start)
    (walk : x.program.Walk start trace finish) (admits : x.Admits d c) (passes : ∀ e ∈ trace, x.Passes d c e)
    (leads : Leads (Observer.joint x.observers) trace (Observer.starts x.observers) sets) :
    ∃ n v, g.node? n = some v ∧ g.Attached n ∧ v.coveredBy = Option.none ∧ v.state.location = finish ∧
      v.state.observers = sets ∧ d.Within v.state.presence c := by
  induction walk generalizing sets with
  | stay =>
    obtain ⟨v, here⟩ := sound.tree.root_mem
    obtain ⟨located, observers, _⟩ := sound.start v here
    rw [located] at entry
    refine ⟨root, v, here, sound.tree.attached_root, ?_, Except.ok.inj entry, ?_, complete.start v c here admits⟩
    · -- A covered node hangs below a parent.
      rw [Option.eq_none_iff_forall_ne_some]
      intro m by_m
      obtain ⟨p, mem⟩ := sound.tree.hanging_of_covered here by_m
      exact sound.tree.orphan v p here mem
    · rw [observers]
      exact leads
  | @step trace middle e edge walk there source ih =>
    obtain ⟨before, way, joint⟩ := leads_concat.1 leads
    obtain ⟨n, v, here, attached, uncovered, located, observers, within⟩ :=
      ih (fun e mem => passes e (List.mem_append_left _ mem)) way
    have pass := passes e (List.mem_append_right _ (List.mem_singleton.2 rfl))
    have plain := none n v here attached
    rw [← observers] at joint
    obtain ⟨m, w, link, known, target, after, holds⟩ :=
      complete.expanded n v here attached uncovered plain (by simp) (by simp) e c edge admits within pass there
        (source.trans located.symm) sets joint
    obtain ⟨u, this, child⟩ := link
    have hanging := sound.tree.attached_of_child this child
    cases covered : w.coveredBy with
    | none => exact ⟨m, w, known, hanging, covered, target, after, holds⟩
    | some k =>
      obtain ⟨_, _, y, there', place, open', _⟩ := sound.tree.cover m w k known covered
      have same := complete.cover m w k y known covered there'
      refine ⟨k, y, there', (sound.tree.attached_iff there').2 place, open', ?_, ?_, same.presence c holds⟩
      · rw [same.location, target]
      · rw [same.observers, after]

/-- A goal that is enabled, and open for the configuration, is not accepted along the walk. -/
theorem Complete.refutes (complete : x.Complete d g root [] disabled none) (sound : x.Sound d g root)
    (none : ∀ n v, g.node? n = some v → g.Attached n → AbstractState.isTarget v.state = false)
    {start finish : Location} {trace : List EdgeId} {sets : List IdSet} {goal : Nat}
    (entry : x.program.entry = .ok start) (walk : x.program.Walk start trace finish) (admits : x.Admits d c)
    (passes : ∀ e ∈ trace, x.Passes d c e)
    (leads : Leads (Observer.joint x.observers) trace (Observer.starts x.observers) sets)
    (enabled : goal ∉ disabled) (opens : x.Opens d goal c) : ¬Observer.Accepts x.observers sets goal := by
  intro accepts
  obtain ⟨n, v, here, attached, _, _, rfl, within⟩ :=
    complete.exists_node sound none entry walk admits passes leads
  have credited := complete.credits n v here goal c accepts enabled within opens
  have target : AbstractState.isTarget v.state = true := by
    have inhabited : v.state.accepted.isEmpty = false := IdSet.isEmpty_eq_false_iff.2 ⟨goal, credited⟩
    exact Bool.not_eq_true' _ ▸ inhabited
  rw [none n v here attached] at target
  cases target

end GoalCoverage.Explorer
