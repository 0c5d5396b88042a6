import GoalCoverage.Proofs.StateGraph.Refinement

/-!
Removal from trees. A tree has a sound shape, so removal does to it what it does to the shape. Cutting off a live target
leaves a tree, and sweeping deletes exactly the detached nodes (`sweep_spec`).
-/

namespace GoalCoverage.StateGraph

variable {S : Type} [AbstractState S] {g g' : StateGraph S} {root n m p : NodeId} {v w : GraphNode S}

theorem Tree.cutOff (tree : g.Tree root) (here : g.node? n = some v) (there : g.node? p = some w)
    (ne : p ≠ n) (parent : v.parents = .singleton p) (target : AbstractState.isTarget v.state = true)
    (cut : g.CutOff g' n v p w) : g'.Tree root := by
  have node := cut.node
  have inner : n ≠ root := by
    intro same
    subst same
    exact tree.orphan v p here (parent ▸ IdSet.mem_singleton.2 rfl)
  have unlinked : ∀ k, (w.children.erase n).get? k = if k = n then none else w.children.get? k :=
    fun k => IdMap.get?_erase
  have kept : g'.ids = g.ids := by
    apply ids_eq_of_contains cut.size
    intro k
    rw [contains, contains, node]
    split_ifs with same same'
    · rw [same, here]
      rfl
    · rw [same', there]
      rfl
    · rfl
  have alone : ∀ k u, g.node? k = some u → u.coveredBy ≠ some n := by
    have := tree.cover
    grind
  have link : ∃ e, w.children.get? n = some (some e) := by
    obtain ⟨_, _, u, e, known, link⟩ := tree.parent n v p here (parent ▸ IdSet.mem_singleton.2 rfl)
    rw [there] at known
    cases known
    exact ⟨e, link⟩
  obtain ⟨e, link⟩ := link
  obtain ⟨place, uncovered, plain⟩ := tree.of_child there link
  refine ⟨?_, ?_, ?_, ?_, ?_, ?_, ?_, ?_, ?_, ?_⟩
  · rw [cut.root, tree.root_eq]
  · have := tree.root_mem
    grind
  · have := tree.orphan
    grind [IdSet.not_mem_empty]
  · have := tree.parent
    have := tree.target
    grind [IdSet.not_mem_empty, IdSet.mem_singleton]
  · have lost : ∀ q u k l, g'.node? q = some u → u.children.get? k = some l →
        k ≠ n ∧ ∃ u', g.node? q = some u' ∧ u'.children.get? k = some l := by
      have := tree.child
      have := tree.parent
      grind [IdSet.mem_singleton, IdMap.get?_empty]
    intro q u k l h link
    obtain ⟨other, u', there', link'⟩ := lost q u k l h link
    obtain ⟨x, known, mem⟩ := tree.child q u' k l there' link'
    rw [node, if_neg other]
    split_ifs with same
    · subst same
      rw [there] at known
      cases known
      exact ⟨_, rfl, mem⟩
    · exact ⟨x, known, mem⟩
  · have := tree.loose
    grind
  · have := tree.target
    grind
  · have := tree.cover
    grind
  · intro k
    rw [cut.covered, IdSet.mem_erase, tree.covered]
    grind
  · rw [cut.live, tree.live, kept]

namespace Tree

variable (tree : g.Tree root)

include tree

theorem hasShape : g.HasShape g.toShape where
  node n := Iff.rfl
  fits n v here := by
    refine ⟨fun c => ⟨fun mem => ⟨v, here, mem⟩, fun h => ?_⟩, fun p => ⟨fun mem => ?_, fun h => ?_⟩,
      fun m => ⟨fun by_m => ⟨v, here, by_m⟩, fun h => ?_⟩⟩
    · obtain ⟨w, known, mem⟩ := h
      cases here.symm.trans known
      exact mem
    · obtain ⟨_, _, w, e, known, link⟩ := tree.parent n v p here mem
      exact ⟨w, known, IdMap.mem_keys.2 ⟨_, link⟩⟩
    · obtain ⟨w, known, mem⟩ := h
      obtain ⟨l, link⟩ := IdMap.mem_keys.1 mem
      obtain ⟨u, there, mem⟩ := tree.child p w n l known link
      cases here.symm.trans there
      exact mem
    · obtain ⟨w, known, by_m⟩ := h
      cases here.symm.trans known
      exact by_m
  covered n := by rw [tree.covered, exists_comm]; rfl
  root := rfl
  live := tree.live

theorem sound : g.toShape.Sound where
  link p c h := by
    obtain ⟨w, known, mem⟩ := h
    obtain ⟨l, link⟩ := IdMap.mem_keys.1 mem
    obtain ⟨u, there, _⟩ := tree.child p w c l known link
    exact ⟨⟨w, known⟩, ⟨u, there⟩, Nat.ne_of_lt (tree.child_lt known link)⟩
  cover n m h := by
    obtain ⟨v, here, by_m⟩ := h
    obtain ⟨_, _, w, known, _⟩ := tree.cover n v m here by_m
    exact ⟨⟨v, here⟩, ⟨w, known⟩⟩
  root r h := by
    cases h.symm.trans tree.root_eq
    exact tree.root_mem
  other n h := by
    obtain ⟨v, here, by_n⟩ := h
    obtain ⟨_, _, w, known, _, uncovered, _⟩ := tree.cover n v n here by_n
    cases here.symm.trans known
    rw [uncovered] at by_n
    cases by_n

theorem attached_root : g.Attached root := by
  obtain ⟨v, here⟩ := tree.root_mem
  exact ⟨v, here, .inl tree.root_eq⟩

theorem attached_of_child (here : g.node? n = some v) {l : Option EdgeId} (link : v.children.get? m = some l) :
    g.Attached m := by
  obtain ⟨u, known, mem⟩ := tree.child n v m l here link
  exact ⟨u, known, .inr ⟨n, mem⟩⟩

theorem attached_parent (here : g.node? n = some v) (mem : p ∈ v.parents) : g.Attached p := by
  obtain ⟨_, _, w, e, known, link⟩ := tree.parent n v p here mem
  exact (tree.attached_iff known).2 (tree.of_child known link).1

theorem hanging_of_covered (here : g.node? n = some v) (by_m : v.coveredBy = some m) : ∃ p, p ∈ v.parents :=
  (tree.cover n v m here by_m).2.1

theorem attached_of_covered (here : g.node? n = some v) (by_m : v.coveredBy = some m) : g.Attached n :=
  (tree.attached_iff here).2 (.inr (tree.hanging_of_covered here by_m))

theorem reached_iff : g.toShape.Reached n ↔ g.Attached n := by
  have from_root : ∀ m, g.toShape.Reached m ↔ Relation.ReflTransGen g.HasChild root m := by
    simp [Shape.Reached, toShape, tree.root_eq]
  rw [from_root n]
  constructor
  · intro path
    induction path with
    | refl => exact tree.attached_root
    | tail _ step _ =>
      obtain ⟨w, here, mem⟩ := step
      obtain ⟨l, link⟩ := IdMap.mem_keys.1 mem
      exact tree.attached_of_child here link
  · -- Parents are older, so the induction is on the number of the node.
    induction n using Nat.strong_induction_on with
    | _ n ih =>
      intro attached
      obtain ⟨v, here, _⟩ := id attached
      cases (tree.attached_iff here).1 attached with
      | inl same => rw [same]
      | inr hanging =>
        obtain ⟨p, mem⟩ := hanging
        obtain ⟨_, lt, w, e, known, link⟩ := tree.parent n v p here mem
        exact (ih p lt (tree.attached_parent here mem)).tail ⟨w, known, IdMap.mem_keys.2 ⟨_, link⟩⟩

theorem mem_reached : g.reached.contains n = true ↔ g.Attached n :=
  (tree.hasShape.mem_reached tree.sound).trans tree.reached_iff

end Tree

/-- `g'` is `g` without its detached nodes. -/
structure Cleaned (g g' : StateGraph S) : Prop where
  stays : ∀ n, g.Attached n → g'.node? n = g.node? n
  goes : ∀ n, ¬g.Attached n → g'.node? n = none
  size : g'.nodes.size = g.nodes.size
  root : g'.root = g.root

omit [AbstractState S] in
theorem Cleaned.node?_eq_some (cleaned : g.Cleaned g') :
    g'.node? n = some v ↔ g.node? n = some v ∧ g.Attached n := by
  by_cases attached : g.Attached n
  · rw [cleaned.stays n attached]
    exact ⟨fun h => ⟨h, attached⟩, fun h => h.1⟩
  · rw [cleaned.goes n attached]
    exact ⟨fun h => (nomatch h), fun h => absurd h.2 attached⟩

omit [AbstractState S] in
theorem Cleaned.shrinks (cleaned : g.Cleaned g') : g.Shrinks g' := fun _ v known =>
  ⟨v, (cleaned.node?_eq_some.1 known).1, rfl, fun _ _ h => h, fun _ h => h⟩

theorem Tree.cleaned (tree : g.Tree root) (cleaned : g.Cleaned g') (covered : g'.covered = g.covered)
    (live : g'.live = g'.ids.length) : g'.Tree root := by
  have node := fun n v => cleaned.node?_eq_some (n := n) (v := v)
  refine ⟨?_, ?_, ?_, ?_, ?_, ?_, ?_, ?_, ?_, live⟩
  · rw [cleaned.root, tree.root_eq]
  · obtain ⟨v, here⟩ := tree.root_mem
    exact ⟨v, (node _ _).2 ⟨here, tree.attached_root⟩⟩
  · intro v p here
    exact tree.orphan v p ((node _ _).1 here).1
  · intro n v p here mem
    obtain ⟨single, lt, w, e, known, link⟩ := tree.parent n v p ((node _ _).1 here).1 mem
    exact ⟨single, lt, w, e, (node _ _).2 ⟨known, tree.attached_parent ((node _ _).1 here).1 mem⟩, link⟩
  · intro p w n l here link
    obtain ⟨v, known, mem⟩ := tree.child p w n l ((node _ _).1 here).1 link
    exact ⟨v, (node _ _).2 ⟨known, tree.attached_of_child ((node _ _).1 here).1 link⟩, mem⟩
  · intro n v here
    exact tree.loose n v ((node _ _).1 here).1
  · intro n v here
    exact tree.target n v ((node _ _).1 here).1
  · intro n v m here by_m
    obtain ⟨leaf, hanging, w, known, place, uncovered, plain⟩ := tree.cover n v m ((node _ _).1 here).1 by_m
    exact ⟨leaf, hanging, w, (node _ _).2 ⟨known, (tree.attached_iff known).2 place⟩, place, uncovered, plain⟩
  · intro n
    rw [covered, tree.covered]
    constructor
    · intro h
      obtain ⟨v, m, here, by_m⟩ := h
      exact ⟨v, m, (node _ _).2 ⟨here, tree.attached_of_covered here by_m⟩, by_m⟩
    · intro h
      obtain ⟨v, m, here, by_m⟩ := h
      exact ⟨v, m, ((node _ _).1 here).1, by_m⟩

/-- Sweeping deletes the detached nodes and releases no cover. -/
theorem sweep_spec (tree : g.Tree root) :
    g.Cleaned g.sweep.2 ∧ g.sweep.1.uncovered = [] ∧ g.sweep.2.covered = g.covered := by
  have left := tree.hasShape.collected tree.sound
  have kept : ∀ n, g.reached.contains n = true ↔ g.Attached n := fun n => tree.mem_reached
  have covers : ∀ n v m, g.node? n = some v → v.coveredBy = some m → g.Attached m := by
    intro n v m here by_m
    obtain ⟨_, _, w, known, place, _⟩ := tree.cover n v m here by_m
    exact (tree.attached_iff known).2 place
  have none_opened : g.sweep.1.uncovered = [] := by
    rw [List.eq_nil_iff_forall_not_mem]
    intro n mem
    obtain ⟨v, here, lost⟩ := (Option.any_eq_true _ _).1 ((left.uncovered n).1 mem).2.2
    obtain ⟨m, by_m, outside⟩ := (Option.any_eq_true _ _).1 lost
    rw [(kept m).2 (covers n v m here by_m)] at outside
    cases outside
  refine ⟨⟨fun n attached => ?_, fun n detached => ?_, left.size, left.root⟩, none_opened, ?_⟩
  · obtain ⟨v, here, _⟩ := id attached
    have whole : survivor g.reached.contains v = v := survivor_eq
      (fun p mem => (kept p).2 (tree.attached_parent here mem)) fun m by_m => (kept m).2 (covers n v m here by_m)
    rw [left.node, if_pos ((kept n).2 attached), here, Option.map_some, whole]
  · rw [left.node, if_neg fun h => detached ((kept n).1 h)]
  · apply IdSet.ext_mem
    intro n
    rw [left.covered, none_opened]
    refine ⟨fun h => h.1, fun mem => ⟨mem, (kept n).2 ?_, List.not_mem_nil⟩⟩
    obtain ⟨v, m, here, by_m⟩ := (tree.covered n).1 mem
    exact tree.attached_of_covered here by_m

theorem Tree.sweep (tree : g.Tree root) : g.sweep.2.Tree root := by
  obtain ⟨cleaned, _, covered⟩ := sweep_spec tree
  exact tree.cleaned cleaned covered (tree.hasShape.sweep tree.sound).1.live

section Target

variable (tree : g.Tree root) (here : g.node? n = some v) (target : AbstractState.isTarget v.state = true)

include tree here target

theorem Tree.not_hasCover_of_target (m : NodeId) : ¬g.HasCover m n := by
  intro h
  obtain ⟨u, known, by_n⟩ := h
  obtain ⟨_, _, v', here', _, _, plain⟩ := tree.cover m u n known by_n
  cases here.symm.trans here'
  rw [target] at plain
  cases plain

theorem Tree.erase_of_target {u : GraphNode S} (known : g.node? m = some u) : u.parents.erase n = u.parents := by
  apply IdSet.erase_of_not_mem
  intro mem
  obtain ⟨_, _, v', l, here', link⟩ := tree.parent m u n known mem
  cases here.symm.trans here'
  rw [(tree.target n v here target).1, IdMap.get?_empty] at link
  cases link

/-- A target is nobody's parent and covers nothing, so detaching it changes only the target and its own parent. -/
theorem detach_spec (there : g.node? p = some w) (parent : v.parents = .singleton p) :
    ∃ g', g.detach n = .ok ([], g') ∧ g.CutOff g' n v p w := by
  obtain ⟨released, g', ok, mapped, covered, freed, _⟩ := tree.hasShape.detach_mapped tree.sound ⟨v, here⟩
  have alone := tree.not_hasCover_of_target here target
  have inner : g.root ≠ some n := by
    intro same
    cases same.symm.trans tree.root_eq
    exact tree.orphan v p here (parent ▸ IdSet.mem_singleton.2 rfl)
  have none_freed : released = [] := by
    rw [List.eq_nil_iff_forall_not_mem]
    exact fun m mem => alone m ((freed m).1 mem).1
  rw [none_freed, if_neg inner] at ok
  refine ⟨g', ok, fun m => ?_, mapped.size, mapped.live, mapped.root, ?_⟩
  · rw [mapped.node]
    by_cases own : m = n
    · rw [if_pos own, own, here, Option.map_some, severed, if_pos rfl]
    · rw [if_neg own]
      cases known : g.node? m with
      | none =>
        have other : m ≠ p := by
          intro upper
          rw [← upper, known] at there
          cases there
        rw [if_neg other]
        rfl
      | some u =>
        have uncovered : u.coveredBy ≠ some n := fun by_n => alone m ⟨u, known, by_n⟩
        rw [Option.map_some, severed, if_neg own, tree.erase_of_target here target known, if_neg uncovered]
        split_ifs with upper
        · subst upper
          cases known.symm.trans there
          rfl
        · have stranger : n ∉ u.children.keys := by
            intro mem
            obtain ⟨l, link⟩ := IdMap.mem_keys.1 mem
            obtain ⟨v', here', mem'⟩ := tree.child m u n l known link
            cases here.symm.trans here'
            exact upper (IdSet.mem_singleton.1 (parent ▸ mem'))
          rw [IdMap.erase_of_not_mem stranger]
  · apply IdSet.ext_mem
    intro m
    rw [covered, IdSet.mem_erase]
    exact ⟨fun h => ⟨h.1, h.2.2⟩, fun h => ⟨h.1, alone m, h.2⟩⟩

end Target

end GoalCoverage.StateGraph
