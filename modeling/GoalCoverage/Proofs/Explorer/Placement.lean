import GoalCoverage.Proofs.Explorer.Invariant
import GoalCoverage.Proofs.Procedure

/-!
Placing a successor below a node that is being expanded. The invariant is kept, what was in the graph stays,
and the node gets a child that has all of the successor (`place_ensures`).
-/

namespace GoalCoverage.Explorer

open Diagram StateGraph Procedure

variable {x : Explorer} {d d' : Diagram} {s t : State} {n m p root : NodeId} {e : EdgeId} {c : Configuration}
  {g g' : StateGraph State} {v w : GraphNode State} {waiting waiting' : List NodeId} {disabled : IdSet}
  {busy cov : Option NodeId}

/-- What is done with a successor once it is known what covers it. -/
def settle (n : NodeId) (e : EdgeId) (s : State) (cover : Option NodeId) : Procedure Desk (Option NodeId) := do
  let child ← onReached (·.add n s (some e))
  match cover with
  | some c => do
    changeReached (·.removeWaiting child)
    changeGraph (·.cover child c)
    return none
  | none => do
    if !AbstractState.isTarget s then return none
    changeReached (·.removeWaiting child)
    return some child

/-- `g'` is `g` with a new node for `s` below `p`, which `cov` covers. -/
structure Placed (g g' : StateGraph State) (root p : NodeId) (w : GraphNode State) (s : State) (e : EdgeId)
    (cov : Option NodeId) : Prop where
  node : ∀ m, g'.node? m =
    if m = g.nodes.size then some ⟨s, .singleton p, ∅, cov, false⟩
    else if m = p then some { w with children := w.children.insert g.nodes.size (some e) }
    else g.node? m
  tree : g'.Tree root

theorem Placed.grows (placed : Placed g g' root p w s e cov) (here : g.node? p = some w)
    (fresh : w.children.get? g.nodes.size = none) : g.Grows g' := by
  intro n v known
  have lt := lt_of_node? known
  rw [placed.node, if_neg (Nat.ne_of_lt lt)]
  split_ifs with same
  · subst same
    rw [here] at known
    cases known
    refine ⟨_, rfl, rfl, rfl, rfl, fun c l h => ?_⟩
    have other : c ≠ g.nodes.size := by
      intro e
      rw [e, fresh] at h
      cases h
    rw [IdMap.get?_insert, if_neg other, h]
  · exact ⟨v, known, .refl v⟩

theorem Placed.inherits (placed : Placed g g' root p w s e cov) (here : g.node? p = some w) : g.Inherits g' := by
  have new : g'.node? g.nodes.size = some ⟨s, .singleton p, ∅, cov, false⟩ := by
    rw [placed.node, if_pos rfl]
  refine ⟨Nat.le_of_lt (lt_of_node? new), fun m u known lt => ?_⟩
  rw [placed.node, if_neg (Nat.ne_of_lt lt)] at known
  split_ifs at known with same
  · cases known
    exact ⟨w, same ▸ here, rfl⟩
  · exact ⟨u, known, rfl⟩

/-- A node of the new graph is new or was there before, with the same children but for the new one. -/
theorem Placed.cases (placed : Placed g g' root p w s e cov) (here : g.node? p = some w)
    (known : g'.node? n = some v) :
    (n = g.nodes.size ∧ v.state = s ∧ v.coveredBy = cov ∧ v.children = ∅) ∨
      (n ≠ g.nodes.size ∧ ∃ u, g.node? n = some u ∧ v.state = u.state ∧ v.parents = u.parents ∧
        v.coveredBy = u.coveredBy ∧
        ∀ c l, v.children.get? c = some l → u.children.get? c = some l ∨
          n = p ∧ c = g.nodes.size ∧ l = some e) := by
  rw [placed.node] at known
  split_ifs at known with new same
  · cases known
    exact .inl ⟨new, rfl, rfl, rfl⟩
  · subst same
    cases known
    refine .inr ⟨new, w, here, rfl, rfl, rfl, fun c l h => ?_⟩
    rw [IdMap.get?_insert] at h
    split_ifs at h with last
    · exact .inr ⟨rfl, last, (Option.some.inj h).symm⟩
    · exact .inl h
  · exact .inr ⟨new, v, known, rfl, rfl, rfl, fun c l h => .inl h⟩

/-- A link of the new graph is the new one or was there before. -/
theorem Placed.link_cases {q : NodeId} {u : GraphNode State} {f : EdgeId} (placed : Placed g g' root p w s e cov)
    (tree : g.Tree root) (here : g.node? p = some w) (known : g'.node? q = some u)
    (link : u.children.get? n = some (some f)) (child : g'.node? n = some v) :
    (f = e ∧ u.state = w.state ∧ v.state = s) ∨ ∃ u' v', g.node? q = some u' ∧
      u'.children.get? n = some (some f) ∧ g.node? n = some v' ∧ u.state = u'.state ∧ v.state = v'.state := by
  obtain ⟨_, _, _, leaf⟩ | ⟨_, u', old, same, _, _, children⟩ := placed.cases here known
  · rw [leaf, IdMap.get?_empty] at link
    cases link
  · obtain link' | ⟨is_p, last, label⟩ := children n (some f) link
    · obtain ⟨y, known', _⟩ := tree.child q u' n _ old link'
      obtain ⟨new, _⟩ | ⟨_, y', old', same', _⟩ := placed.cases here child
      · exact absurd new (Nat.ne_of_lt (lt_of_node? known'))
      · exact .inr ⟨u', y', old, link', old', same, same'⟩
    · cases label
      subst is_p
      rw [here] at old
      cases old
      obtain ⟨_, same', _⟩ | ⟨other, _⟩ := placed.cases here child
      · exact .inl ⟨rfl, same, same'⟩
      · exact absurd last other

/-- A cover of the new graph is the one of the new node or was there before. -/
theorem Placed.cover_cases {u : GraphNode State} (placed : Placed g g' root p w s e cov) (tree : g.Tree root)
    (here : g.node? p = some w) (known : g'.node? n = some v) (by_m : v.coveredBy = some m)
    (there : g'.node? m = some u) :
    (v.state = s ∧ cov = some m ∧ ∃ y, g.node? m = some y ∧ u.state = y.state) ∨ ∃ v' y, g.node? n = some v' ∧
      v'.coveredBy = some m ∧ g.node? m = some y ∧ v.state = v'.state ∧ u.state = y.state := by
  have grows := placed.grows here (tree.fresh_not_child here)
  have coverer : ∀ y, g.node? m = some y → u.state = y.state := by
    intro y is
    obtain ⟨y', there', kept'⟩ := grows m y is
    rw [there] at there'
    cases there'
    exact kept'.state
  obtain ⟨_, same, covered, _⟩ | ⟨_, u', old, same, _, covered, _⟩ := placed.cases here known
  · have exists_m : ∃ y, g.node? m = some y := by
      obtain ⟨new, _, cov', _⟩ | ⟨_, y, old, _⟩ := placed.cases here there
      · obtain ⟨_, _, y, known', _, open', _⟩ := placed.tree.cover n v m known by_m
        rw [there] at known'
        cases known'
        rw [by_m] at covered
        rw [open', ← covered] at cov'
        cases cov'
      · exact ⟨y, old⟩
    obtain ⟨y, is⟩ := exists_m
    exact .inl ⟨same, covered.symm.trans by_m, y, is, coverer y is⟩
  · rw [covered] at by_m
    obtain ⟨_, _, y, is, _⟩ := tree.cover n u' m old by_m
    exact .inr ⟨u', y, old, by_m, is, same, coverer y is⟩

theorem Sound.placed (sound : x.Sound d g root) (here : g.node? p = some w) (follows : x.Follows d w.state e s)
    (proper : x.Proper d s) (placed : Placed g g' root p w s e cov) : x.Sound d g' root := by
  have known : ∀ n v, g'.node? n = some v → x.Proper d v.state := by
    intro n v there
    obtain ⟨_, same, _⟩ | ⟨_, u, old, same, _⟩ := placed.cases here there
    · rw [same]
      exact proper
    · rw [same]
      exact sound.proper n u old
  refine ⟨placed.tree, sound.fit, known, fun v there => ?_, fun q u n f v there link child => ?_⟩
  · obtain ⟨new, _⟩ | ⟨_, u, old, same, _⟩ := placed.cases here there
    · obtain ⟨r, is⟩ := sound.tree.root_mem
      exact absurd new (Nat.ne_of_lt (lt_of_node? is))
    · rw [same]
      exact sound.start u old
  · obtain ⟨rfl, source, target⟩ | ⟨u', v', old, link', old', source, target⟩ :=
      placed.link_cases sound.tree here there link child
    · rw [source, target]
      exact follows
    · rw [source, target]
      exact sound.follows q u' n f v' old link' old'

theorem Served.grows (served : x.Served d g n s e) (grows : g.Grows g') : x.Served d g' n s e := by
  intro c edge admits within passes there leaving sets joint
  obtain ⟨m, w, link, known, location, observers, holds⟩ :=
    served c edge admits within passes there leaving sets joint
  obtain ⟨u, before, child⟩ := link
  obtain ⟨u', after, kept⟩ := grows n u before
  obtain ⟨w', known', kept'⟩ := grows m w known
  refine ⟨m, w', ⟨u', after, kept.children m _ child⟩, known', ?_, ?_, ?_⟩
  · rw [kept'.state, location]
  · rw [kept'.state, observers]
  · rw [kept'.state]
    exact holds

theorem Complete.placed (complete : x.Complete d g root waiting disabled busy) (sound : x.Sound d g root)
    (here : g.node? p = some w) (credits : x.Credits d disabled s)
    (placed : Placed g g' root p w s e cov)
    (covers : ∀ m u, cov = some m → g.node? m = some u → Subsumes d u.state s)
    (kept : ∀ n ∈ waiting, n ≠ g.nodes.size → n ∈ waiting')
    (idle : cov = none → AbstractState.isTarget s = false → g.nodes.size ∈ waiting') :
    x.Complete d g' root waiting' disabled busy := by
  have grows := placed.grows here (sound.tree.fresh_not_child here)
  refine ⟨fun v c there admits => ?_, fun n v there => ?_, fun n v m u there by_m known => ?_, ?_⟩
  · obtain ⟨new, _⟩ | ⟨_, u, old, same, _⟩ := placed.cases here there
    · obtain ⟨r, is⟩ := sound.tree.root_mem
      exact absurd new (Nat.ne_of_lt (lt_of_node? is))
    · rw [same]
      exact complete.start u c old admits
  · obtain ⟨_, same, _⟩ | ⟨_, u, old, same, _⟩ := placed.cases here there
    · rw [same]
      exact credits
    · rw [same]
      exact complete.credits n u old
  · obtain ⟨same, covered, y, is, state⟩ | ⟨u', y, old, by_m', is, same, state⟩ :=
      placed.cover_cases sound.tree here there by_m known
    · rw [same, state]
      exact covers m y covered is
    · rw [same, state]
      exact complete.cover n u' m y old by_m' is
  · intro n v there attached uncovered plain free waits
    obtain ⟨new, same, covered, _⟩ | ⟨old', u, old, same, parents, covered, _⟩ := placed.cases here there
    · rw [new] at free
      exact absurd (idle (covered.symm.trans uncovered) (same ▸ plain)) free
    · rw [same]
      have attached' : g.Attached n := by
        rw [sound.tree.attached_iff old, ← parents]
        exact (placed.tree.attached_iff there).1 attached
      rw [covered] at uncovered
      rw [same] at plain
      have resting : n ∉ waiting := fun mem => free (kept n mem old')
      exact fun e => (complete.expanded n u old attached' uncovered plain resting waits e).grows grows

end GoalCoverage.Explorer
