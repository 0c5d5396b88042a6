import GoalCoverage.Proofs.StateGraph.Shape

/-!
What the operations on state graphs do to the shapes of the graphs, one lemma for each operation. Apart from
arguments that are no nodes, an operation can fail only where a link is missing at one of its ends, so none does.
-/

namespace GoalCoverage.StateGraph

variable {S : Type} {g g' : StateGraph S} {sh : Shape} {n m p c : NodeId} {v w : GraphNode S}

/-- The node `m` after `n` was detached. -/
def severed (n m : NodeId) (v : GraphNode S) : GraphNode S :=
  if m = n then { v with parents := ∅, children := ∅, coveredBy := none }
  else
    { v with
      parents := v.parents.erase n
      children := v.children.erase n
      coveredBy := if v.coveredBy = some n then none else v.coveredBy }

/-- The changes that detaching makes to a node, in their order. -/
theorem severed_eq {children parents released : List NodeId} (parent : n ∉ children) (child : n ∉ parents)
    (below : m ∉ children → n ∉ v.parents) (above : m ∉ parents → n ∉ v.children.keys)
    (freed : m ∈ released ↔ v.coveredBy = some n ∧ m ≠ n) :
    let v₁ := if m = n then { v with children := ∅ } else v
    let v₂ := if m ∈ children then { v₁ with parents := v₁.parents.erase n } else v₁
    let v₃ := if m = n then { v₂ with parents := ∅ } else v₂
    let v₄ := if m ∈ parents then { v₃ with children := v₃.children.erase n } else v₃
    let v₅ := if m = n then { v₄ with coveredBy := none } else v₄
    (if m ∈ released then { v₅ with coveredBy := none } else v₅) = severed n m v := by
  have kept : m ∉ children → v.parents.erase n = v.parents := fun other => IdSet.erase_of_not_mem (below other)
  have kept' : m ∉ parents → v.children.erase n = v.children := fun other => IdMap.erase_of_not_mem (above other)
  simp only [severed]
  by_cases own : m = n
  · subst own
    simp [parent, child, freed]
  · have by_n : m ∈ released ↔ v.coveredBy = some n := by rw [freed, and_iff_left own]
    simp only [if_neg own, by_n]
    split_ifs <;> simp_all

/-- A node with what is left of its parents and its cover when the given nodes are kept. -/
def survivor (kept : NodeId → Bool) (v : GraphNode S) : GraphNode S :=
  { v with
    parents := v.parents.filter kept
    coveredBy := if v.coveredBy.any fun c => !kept c then none else v.coveredBy }

/-- `g'` is what is left of `g` when the given nodes are kept, with the nodes of `g'` that lost their cover. -/
structure Collected (g g' : StateGraph S) (kept : NodeId → Bool) (opened : List NodeId) : Prop where
  node : ∀ n, g'.node? n = if kept n then (g.node? n).map (survivor kept) else none
  uncovered : ∀ n, n ∈ opened ↔
    n ∈ g.covered ∧ kept n = true ∧ (g.node? n).any (fun v => v.coveredBy.any fun c => !kept c) = true
  covered : ∀ n, n ∈ g'.covered ↔ n ∈ g.covered ∧ kept n = true ∧ n ∉ opened
  size : g'.nodes.size = g.nodes.size
  live : g'.live = g.live - (g.ids.filter fun n => !kept n).length
  root : g'.root = g.root

theorem coveredBy_survivor {kept : NodeId → Bool} :
    (survivor kept v).coveredBy = some m ↔ v.coveredBy = some m ∧ kept m = true := by
  simp only [survivor]
  cases v.coveredBy with
  | none => simp
  | some b => grind

/-- Nothing is lost of a node whose parents and cover are kept. -/
theorem survivor_eq {kept : NodeId → Bool} (parents : ∀ p ∈ v.parents, kept p = true)
    (cover : ∀ m, v.coveredBy = some m → kept m = true) : survivor kept v = v := by
  have all : v.parents.filter kept = v.parents := by
    apply IdSet.ext_mem
    intro p
    rw [IdSet.mem_filter]
    exact ⟨fun h => h.1, fun mem => ⟨mem, parents p mem⟩⟩
  have safe : v.coveredBy.any (fun m => !kept m) = false := by
    rw [Option.any_eq_false]
    intro m by_m
    simp [cover m by_m]
  rw [survivor, all, safe, if_neg Bool.false_ne_true]

/-- Without garbage there is nothing to do. -/
theorem sweep_eq_self (clean : g.ids.filter (fun n => !g.reached.contains n) = []) : g.sweep = (⟨0, []⟩, g) := by
  rw [sweep]
  simp only [clean, List.isEmpty_nil, if_true]

/-- If there is garbage, the arena is rebuilt. -/
theorem sweep_collects (garbage : (g.ids.filter fun n => !g.reached.contains n) ≠ []) :
    g.Collected g.sweep.2 g.reached.contains g.sweep.1.uncovered := by
  rw [sweep]
  simp only [List.isEmpty_iff, if_neg garbage]
  refine ⟨fun n => ?_, fun n => ?_, fun n => ?_, by simp, rfl, rfl⟩
  · simp only [node?, Array.getElem?_mapIdx]
    cases g.nodes[n]? with
    | none => simp
    | some v =>
      simp only [Option.map_some, Option.join_some]
      rfl
  · simp [and_assoc]
  · simp only [IdSet.mem_diff, IdSet.mem_filter, IdSet.mem_toList]
    tauto

namespace HasShape

variable (shape : g.HasShape sh)

include shape

theorem lt (known : sh.node n) : n < g.nodes.size := by
  obtain ⟨v, here⟩ := (shape.node n).2 known
  exact lt_of_node? here

theorem contains_iff : g.contains n = true ↔ sh.node n := by
  rw [StateGraph.contains_iff, shape.node]

theorem cover_unique {m' : NodeId} (sound : sh.Sound) (first : sh.cover n m) (second : sh.cover n m') : m = m' := by
  obtain ⟨v, here⟩ := (shape.node n).2 (sound.cover n m first).1
  have stored := ((shape.fits n v here).cover m).2 first
  rw [((shape.fits n v here).cover m').2 second] at stored
  exact (Option.some.inj stored).symm

theorem withRoot (r : Option NodeId) : HasShape { g with root := r } (sh.withRoot r) where
  node := shape.node
  fits n v here := ⟨(shape.fits n v here).children, (shape.fits n v here).parents, (shape.fits n v here).cover⟩
  covered := shape.covered
  root := rfl
  live := shape.live

theorem allocate (sound : sh.Sound) (s : S) : (g.allocate s).2.HasShape (sh.withNode g.nodes.size) := by
  have new : ∀ m, sh.node m → m ≠ g.nodes.size := fun m known => Nat.ne_of_lt (shape.lt known)
  refine ⟨fun m => ?_, fun m v here => ?_, shape.covered, shape.root, ?_⟩
  · have old := shape.node m
    rw [node?_allocate]
    simp only [Shape.withNode]
    by_cases same : m = g.nodes.size
    · simp [same]
    · simp [same, old]
  · rw [node?_allocate] at here
    split_ifs at here with same
    · cases here
      refine ⟨fun c => ⟨fun h => absurd h IdMap.not_mem_keys_empty, fun h => ?_⟩,
        fun p => ⟨fun h => absurd h (IdSet.not_mem_empty p), fun h => ?_⟩, fun b => ⟨fun h => (nomatch h), fun h => ?_⟩⟩
      · exact absurd same (new m (sound.link m c h).1)
      · exact absurd same (new m (sound.link p m h).2.1)
      · exact absurd same (new m (sound.cover m b h).1)
    · exact ⟨(shape.fits m v here).children, (shape.fits m v here).parents, (shape.fits m v here).cover⟩
  · have old : (List.range g.nodes.size).filter (g.allocate s).2.contains = g.ids := by
      apply List.filter_congr
      intro m mem
      rw [contains, contains, node?_allocate, if_neg (Nat.ne_of_lt (List.mem_range.1 mem))]
    have last : (g.allocate s).2.contains g.nodes.size = true := by
      rw [contains, node?_allocate, if_pos rfl, Option.isSome_some]
    have size : (g.allocate s).2.nodes.size = g.nodes.size + 1 := Array.size_push ..
    rw [ids, size, List.range_succ, List.filter_append, old, List.filter_cons, if_pos last, List.filter_nil,
      List.length_append, List.length_singleton, ← shape.live]
    rfl

theorem addRoot (sound : sh.Sound) (s : S) (rootless : g.root = none) :
    ∃ g', g.addRoot s = .ok (g.nodes.size, g') ∧
      g'.HasShape ((sh.withNode g.nodes.size).withRoot (some g.nodes.size)) ∧ g'.nodes.size = g.nodes.size + 1 := by
  refine ⟨{ (g.allocate s).2 with root := some g.nodes.size }, ?_, (shape.allocate sound s).withRoot _,
    Array.size_push ..⟩
  rw [StateGraph.addRoot, rootless]
  rfl

/-- Linking again changes nothing. -/
theorem link (label : Option EdgeId) (above : sh.node p) (below : sh.node c) (ne : c ≠ p) :
    ∃ g', g.link c p label = .ok g' ∧ g'.HasShape (sh.withLink p c) ∧ g'.nodes.size = g.nodes.size := by
  obtain ⟨v, here⟩ := (shape.node c).2 below
  obtain ⟨w, there⟩ := (shape.node p).2 above
  have fits := shape.fits
  have upper := (fits c v here).parents p
  have lower := (fits p w there).children c
  have both : v.parents.contains p = w.children.contains c := by
    rw [Bool.eq_iff_iff, IdSet.contains_iff, IdMap.contains_iff, upper, lower]
  by_cases linked : sh.link p c
  · refine ⟨g, ?_, ⟨shape.node, fun n u known => ?_, shape.covered, shape.root, shape.live⟩, rfl⟩
    · have known : v.parents.contains p = true := IdSet.contains_iff.2 (upper.2 linked)
      have known' : w.children.contains c = true := both ▸ known
      simp only [StateGraph.link, node_eq_ok here, node_eq_ok there, if_neg ne, known, known', bind, Except.bind,
        pure, Except.pure]
      rfl
    · refine ⟨fun d => ((fits n u known).children d).trans ?_, fun q => ((fits n u known).parents q).trans ?_,
        (fits n u known).cover⟩
      · grind [Shape.withLink]
      · grind [Shape.withLink]
  · have free : v.parents.contains p = false := by
      rw [IdSet.contains_eq_false_iff, upper]
      exact linked
    refine ⟨_, link_eq_ok ne here there free (both ▸ free), ?_, ?_⟩
    · refine ((mapped_update c _).trans (mapped_update p _)).hasShape (sh.withLink p c) shape rfl rfl
        (fun n u known => ?_) shape.covered
      obtain ⟨children, parents, cover⟩ := fits n u known
      refine ⟨fun d => ?_, fun q => ?_, ?_⟩
      · grind [Shape.withLink, IdMap.mem_keys_insert]
      · grind [Shape.withLink, IdSet.mem_insert]
      · intro b
        have := cover b
        grind [Shape.withLink]
    · rw [size_update, size_update]

theorem addChild (sound : sh.Sound) (s : S) (label : Option EdgeId) (above : sh.node p) :
    ∃ g', g.addChild p s label = .ok (g.nodes.size, g') ∧
      g'.HasShape ((sh.withNode g.nodes.size).withLink p g.nodes.size) ∧ g'.nodes.size = g.nodes.size + 1 := by
  have ne : g.nodes.size ≠ p := (Nat.ne_of_lt (shape.lt above)).symm
  have allocated : (g.allocate s).2.HasShape (sh.withNode g.nodes.size) := shape.allocate sound s
  obtain ⟨g', ok, shape', size⟩ := allocated.link label (.inr above) (.inl rfl) ne
  refine ⟨g', ?_, shape', size.trans (Array.size_push ..)⟩
  simp only [StateGraph.addChild, bind, Except.bind, pure, Except.pure]
  rw [show (g.allocate s).1 = g.nodes.size from rfl, ok]

theorem cover (known : sh.node n) (covers : sh.node m) (ne : n ≠ m) :
    ∃ g', g.cover n m = .ok g' ∧ g'.HasShape (sh.withCover n m) ∧ g'.nodes.size = g.nodes.size := by
  obtain ⟨v, here⟩ := (shape.node n).2 known
  obtain ⟨w, there⟩ := (shape.node m).2 covers
  obtain ⟨g', ok, covered⟩ := cover_spec here there ne
  have mapped : g.Mapped g' fun k u => if k = n then { u with coveredBy := some m } else u := by
    refine ⟨fun k => ?_, covered.size, covered.live, covered.root⟩
    rw [covered.node]
    split_ifs with same
    · rw [same, here]
      rfl
    · simp
  refine ⟨g', ok, mapped.hasShape (sh.withCover n m) shape rfl rfl (fun k u old => ?_) (fun k => ?_),
    covered.size⟩
  · obtain ⟨children, parents, cover⟩ := shape.fits k u old
    refine ⟨?_, ?_, fun b => ?_⟩
    · grind [Shape.withCover]
    · grind [Shape.withCover]
    · have := cover b
      grind [Shape.withCover]
  · rw [covered.covered, IdSet.mem_insert, shape.covered]
    simp only [Shape.withCover]
    by_cases same : k = n <;> simp [same]

theorem uncover (known : sh.node n) :
    ∃ g', g.uncover n = .ok g' ∧ g'.HasShape (sh.withoutCover n) ∧ g'.nodes.size = g.nodes.size := by
  obtain ⟨v, here⟩ := (shape.node n).2 known
  obtain ⟨g', ok, mapped, covered⟩ := uncover_mapped here
  refine ⟨g', ok, mapped.hasShape (sh.withoutCover n) shape rfl rfl (fun k u old => ?_) (fun k => ?_),
    mapped.size⟩
  · obtain ⟨children, parents, cover⟩ := shape.fits k u old
    refine ⟨?_, ?_, fun b => ?_⟩
    · grind [Shape.withoutCover]
    · grind [Shape.withoutCover]
    · have := cover b
      grind [Shape.withoutCover]
  · rw [covered, IdSet.mem_erase, shape.covered]
    simp only [Shape.withoutCover, exists_and_right]

theorem setBottom (known : sh.node n) :
    ∃ g', g.setBottom n = .ok g' ∧ g'.HasShape sh ∧ g'.nodes.size = g.nodes.size := by
  obtain ⟨v, here⟩ := (shape.node n).2 known
  refine ⟨g.update n fun v => { v with bottom := true }, ?_, ?_, size_update⟩
  · simp only [StateGraph.setBottom, node_eq_ok here, bind, Except.bind, pure, Except.pure]
  · refine (mapped_update n _).hasShape _ shape rfl rfl (fun k u old => ?_) shape.covered
    obtain ⟨children, parents, cover⟩ := shape.fits k u old
    split
    · exact ⟨children, parents, cover⟩
    · exact ⟨children, parents, cover⟩

/-- Detaching cuts all links and coverings of a node and reports the nodes that it covered. -/
theorem detach_mapped (sound : sh.Sound) (known : sh.node n) :
    ∃ released g', g.detach n = .ok (released, if g.root = some n then { g' with root := none } else g') ∧
      g.Mapped g' (severed n) ∧ (∀ m, m ∈ g'.covered ↔ m ∈ g.covered ∧ ¬sh.cover m n ∧ m ≠ n) ∧
      (∀ m, m ∈ released ↔ sh.cover m n ∧ m ≠ n) ∧ released.Pairwise (· < ·) := by
  obtain ⟨v, here⟩ := (shape.node n).2 known
  have fits := shape.fits
  have loopless : ¬sh.link n n := fun h => (sound.link n n h).2.2 rfl
  have child : ∀ c, c ∈ v.children.keys.toList ↔ sh.link n c := (fits n v here).children
  have parent : ∀ p, p ∈ v.parents.toList ↔ sh.link p n := (fits n v here).parents
  have step₁ := mapped_update (g := g) n fun v => { v with children := ∅ }
  obtain ⟨g₂, ok₂, step₂, covered₂⟩ := foldlM_update (g := g.update n _) (fun v => v.parents.contains n)
    (fun v => { v with parents := v.parents.erase n }) (Violation.notParentOf n) v.children.keys.nodup
    fun c mem => by
      obtain ⟨_, exists_c, ne⟩ := sound.link n c ((child c).1 mem)
      obtain ⟨u, there⟩ := (shape.node c).2 exists_c
      have lists := IdSet.contains_iff.2 (((fits c u there).parents n).2 ((child c).1 mem))
      refine ⟨_, step₁.node?_of there, ?_⟩
      rw [if_neg ne.symm]
      exact lists
  have here₂ := (step₁.trans step₂).node?_of here
  rw [if_pos rfl, if_neg fun mem => loopless ((child n).1 mem)] at here₂
  have step₃ := (step₁.trans step₂).trans (mapped_update n fun v => { v with parents := ∅ })
  obtain ⟨g₄, ok₄, step₄, covered₄⟩ := foldlM_update (g := g₂.update n _) (fun v => v.children.contains n)
    (fun v => { v with children := v.children.erase n }) (Violation.notChildOf n) v.parents.nodup
    fun p mem => by
      obtain ⟨exists_p, _, ne⟩ := sound.link p n ((parent p).1 mem)
      obtain ⟨u, there⟩ := (shape.node p).2 exists_p
      have lists := IdMap.contains_iff.2 (((fits p u there).children n).2 ((parent p).1 mem))
      refine ⟨_, step₃.node?_of there, ?_⟩
      grind
  have step₄ := step₃.trans step₄
  obtain ⟨g₅, ok₅, step₅, covered₅⟩ := uncover_mapped (step₄.node?_of here)
  have step₅ := step₄.trans step₅
  let released := g₅.covered.toList.filter fun m => decide ((g₅.node? m).bind (·.coveredBy) = some n)
  have open_covered : ∀ m, m ∈ g₅.covered ↔ m ∈ g.covered ∧ m ≠ n := by
    intro m
    rw [covered₅, IdSet.mem_erase, covered₄, covered_update, covered₂, covered_update]
  have mem_released : ∀ m, m ∈ released ↔ sh.cover m n ∧ m ≠ n := by
    intro m
    rw [List.mem_filter, IdSet.mem_toList, open_covered, decide_eq_true_eq]
    constructor
    · intro h
      obtain ⟨⟨_, ne⟩, by_n⟩ := h
      obtain ⟨u, there, by_n⟩ := Option.bind_eq_some_iff.1 by_n
      rw [step₅.node, Option.map_eq_some_iff] at there
      obtain ⟨u, old, rfl⟩ := there
      refine ⟨((fits m u old).cover n).1 ?_, ne⟩
      grind
    · intro h
      obtain ⟨by_n, ne⟩ := h
      obtain ⟨u, old⟩ := (shape.node m).2 (sound.cover m n by_n).1
      refine ⟨⟨(shape.covered m).2 ⟨n, by_n⟩, ne⟩, ?_⟩
      have stored := ((fits m u old).cover n).2 by_n
      rw [step₅.node?_of old]
      grind
  obtain ⟨g₆, ok₆, step₆, covered₆⟩ := foldlM_uncover (g := g₅) (l := released) fun m mem => by
    obtain ⟨u, there⟩ := (shape.node m).2 (sound.cover m n ((mem_released m).1 mem).1).1
    exact ⟨_, step₅.node?_of there⟩
  have rising : released.Pairwise (· < ·) := g₅.covered.increasing.filter _
  refine ⟨released, g₆, ?_, (step₅.trans step₆).congr fun m u old => ?_, fun m => ?_, mem_released, rising⟩
  · have root : g₆.root = g.root := (step₅.trans step₆).root
    have dropped : dropFromChildren _ n v.children.keys.toList = .ok g₂ := ok₂
    have dropped' : dropFromParents _ n v.parents.toList = .ok g₄ := ok₄
    simp only [StateGraph.detach, node_eq_ok here, dropped, node_eq_ok here₂, dropped', ok₅, bind, Except.bind, pure,
      Except.pure]
    rw [ok₆]
    simp only [root]
    rfl
  · obtain ⟨children, parents, cover⟩ := fits m u old
    apply severed_eq
    · exact fun mem => loopless ((child n).1 mem)
    · exact fun mem => loopless ((parent n).1 mem)
    · exact fun other mem => other ((child m).2 ((parents n).1 mem))
    · exact fun other mem => other ((parent m).2 ((children n).1 mem))
    · rw [mem_released, cover]
  · rw [covered₆, open_covered, mem_released]
    tauto

theorem detach (sound : sh.Sound) (known : sh.node n) :
    ∃ released g', g.detach n = .ok (released, g') ∧ g'.HasShape (sh.cutOff n) ∧ g'.nodes.size = g.nodes.size ∧
      ∀ m, m ∈ released ↔ sh.cover m n ∧ m ≠ n := by
  obtain ⟨released, g', ok, mapped, covered, freed, _⟩ := shape.detach_mapped sound known
  have cut : g'.HasShape { sh.cutOff n with root := sh.root } := by
    refine mapped.hasShape { sh.cutOff n with root := sh.root } shape rfl rfl (fun m v here => ?_) fun m => ?_
    · obtain ⟨children, parents, cover⟩ := shape.fits m v here
      by_cases same : m = n
      · rw [severed, if_pos same]
        refine ⟨fun c => ?_, fun p => ?_, fun b => ?_⟩
        · simp [IdMap.not_mem_keys_empty, same, Shape.cutOff]
        · simp [same, Shape.cutOff]
        · simp [same, Shape.cutOff]
      · rw [severed, if_neg same]
        refine ⟨fun c => ?_, fun p => ?_, fun b => ?_⟩
        · simp [IdMap.mem_keys_erase, children, same, Shape.cutOff]
        · simp [parents, same, Shape.cutOff]
        · have := cover b
          simp only [Shape.cutOff]
          grind
    · rw [covered, shape.covered]
      have unique : ∀ a b, sh.cover m a → sh.cover m b → a = b := fun _ _ => shape.cover_unique sound
      simp only [Shape.cutOff]
      grind
  refine ⟨released, _, ok, ?_, ?_, freed⟩
  · rw [shape.root]
    split_ifs with inner
    · have bare := cut.withRoot none
      simpa only [Shape.withRoot, Shape.cutOff, if_pos inner] using bare
    · simpa only [Shape.cutOff, if_neg inner] using cut
  · split_ifs
    · exact mapped.size
    · exact mapped.size

theorem mem_childList (sound : sh.Sound) : c ∈ g.childList p ↔ sh.link p c := by
  rw [childList]
  split
  next v here => exact (shape.fits p v here).children c
  next none =>
    refine ⟨fun mem => (nomatch mem), fun h => ?_⟩
    obtain ⟨v, here⟩ := (shape.node p).2 (sound.link p c h).1
    rw [none] at here
    cases here

/-- The search along the lists of children finds what the links lead to. -/
theorem mem_reach (sound : sh.Sound) (known : sh.node n) :
    m ∈ Closure.reach g.childList g.nodes.size [n] ↔ Relation.ReflTransGen sh.link n m := by
  have links : (fun x y => y ∈ g.childList x) = sh.link := by
    funext x y
    exact propext (shape.mem_childList sound)
  rw [Closure.mem_reach_iff fun x y mem => shape.lt (sound.link x y ((shape.mem_childList sound).1 mem)).2.1]
  · rw [Closure.Reaches, links]
    simp
  · intro x mem
    rw [List.mem_singleton.1 mem]
    exact shape.lt known

theorem subtree (sound : sh.Sound) (known : sh.node n) :
    ∃ t, g.subtree n = .ok t ∧ ∀ m, m ∈ t ↔ Relation.ReflTransGen sh.link n m := by
  obtain ⟨v, here⟩ := (shape.node n).2 known
  refine ⟨_, ?_, fun m => shape.mem_reach sound known⟩
  rw [StateGraph.subtree, node_eq_ok here]
  rfl

theorem mem_reached (sound : sh.Sound) : g.reached.contains n = true ↔ sh.Reached n := by
  rw [reached, Shape.Reached, shape.root]
  cases root : sh.root with
  | none => simp
  | some r =>
    rw [← Std.TreeSet.mem_iff_contains, shape.mem_reach sound (sound.root r root)]
    simp

theorem fits_survivor {kept : NodeId → Bool} (reached : ∀ n, kept n = true ↔ sh.Reached n) (here : g.node? n = some v)
    (stays : sh.Reached n) : Fits sh.swept n (survivor kept v) := by
  obtain ⟨children, parents, cover⟩ := shape.fits n v here
  refine ⟨fun c => ?_, fun p => ?_, fun b => ?_⟩
  · rw [survivor, children, Shape.swept]
    exact ⟨fun link => ⟨link, stays, stays.below link⟩, fun h => h.1⟩
  · rw [survivor, IdSet.mem_filter, parents, reached, Shape.swept]
    simp [stays]
  · rw [coveredBy_survivor, cover, reached, Shape.swept]
    simp [stays]

/-- Without garbage nothing is lost, so the arena may as well be rebuilt. -/
theorem collected (sound : sh.Sound) : g.Collected g.sweep.2 g.reached.contains g.sweep.1.uncovered := by
  by_cases garbage : (g.ids.filter fun n => !g.reached.contains n) = []
  · have all : ∀ n, sh.node n → g.reached.contains n = true := by
      intro n known
      rw [List.filter_eq_nil_iff] at garbage
      simpa using garbage n (mem_ids.2 ((shape.node n).2 known))
    have covered_node : ∀ n, n ∈ g.covered → sh.node n := by
      intro n mem
      obtain ⟨m, by_m⟩ := (shape.covered n).1 mem
      exact (sound.cover n m by_m).1
    rw [sweep_eq_self garbage]
    refine ⟨fun n => ?_, fun n => ?_, fun n => ?_, rfl, by rw [garbage]; rfl, rfl⟩
    · cases here : g.node? n with
      | none => simp
      | some v =>
        obtain ⟨_, parents, cover⟩ := shape.fits n v here
        have whole : survivor g.reached.contains v = v := survivor_eq
          (fun p mem => all p (sound.link p n ((parents p).1 mem)).1) fun m by_m => all m (sound.cover n m ((cover m).1 by_m)).2
        rw [if_pos (all n ((shape.node n).1 ⟨v, here⟩)), Option.map_some, whole]
    · refine iff_of_false List.not_mem_nil fun h => ?_
      obtain ⟨v, here, lost⟩ := (Option.any_eq_true _ _).1 h.2.2
      obtain ⟨m, by_m, outside⟩ := (Option.any_eq_true _ _).1 lost
      rw [all m (sound.cover n m (((shape.fits n v here).cover m).1 by_m)).2] at outside
      cases outside
    · exact ⟨fun mem => ⟨mem, all n (covered_node n mem), List.not_mem_nil⟩, fun h => h.1⟩
  · exact sweep_collects garbage

/-- Sweeping leaves the part below the root and reports the nodes of that part whose cover was outside. -/
theorem sweep (sound : sh.Sound) :
    g.sweep.2.HasShape sh.swept ∧ g.sweep.2.nodes.size = g.nodes.size ∧
      ∀ m, m ∈ g.sweep.1.uncovered ↔ sh.Reached m ∧ ∃ b, sh.cover m b ∧ ¬sh.Reached b := by
  have kept : ∀ n, g.reached.contains n = true ↔ sh.Reached n := fun n => shape.mem_reached sound
  have left := shape.collected sound
  have loses : ∀ n, (g.node? n).any (fun v => v.coveredBy.any fun c => !g.reached.contains c) = true ↔
      ∃ b, sh.cover n b ∧ ¬sh.Reached b := by
    intro n
    simp only [Option.any_eq_true, Bool.not_eq_true', ← Bool.not_eq_true, kept]
    constructor
    · intro h
      obtain ⟨v, here, b, by_b, outside⟩ := h
      exact ⟨b, ((shape.fits n v here).cover b).1 by_b, outside⟩
    · intro h
      obtain ⟨b, by_b, outside⟩ := h
      obtain ⟨v, here⟩ := (shape.node n).2 (sound.cover n b by_b).1
      exact ⟨v, here, b, ((shape.fits n v here).cover b).2 by_b, outside⟩
  have freed : ∀ n, n ∈ g.sweep.1.uncovered ↔ sh.Reached n ∧ ∃ b, sh.cover n b ∧ ¬sh.Reached b := by
    intro n
    rw [left.uncovered, shape.covered, kept, loses]
    exact ⟨fun h => h.2, fun h => ⟨h.2.imp fun _ by_b => by_b.1, h⟩⟩
  have survives : ∀ n, (∃ v, g.sweep.2.node? n = some v) ↔ (∃ v, g.node? n = some v) ∧ sh.Reached n := by
    intro n
    rw [left.node, ← kept]
    split_ifs with stays
    · simp [stays]
    · simp [stays]
  refine ⟨⟨fun n => ?_, fun n v here => ?_, fun n => ?_, left.root.trans shape.root, ?_⟩, left.size, freed⟩
  · rw [survives, shape.node, Shape.swept]
  · rw [left.node] at here
    split_ifs at here with stays
    obtain ⟨u, old, rfl⟩ := Option.map_eq_some_iff.1 here
    exact shape.fits_survivor kept old ((kept n).1 stays)
  · have unique : ∀ a b, sh.cover n a → sh.cover n b → a = b := fun _ _ => shape.cover_unique sound
    rw [left.covered, freed, shape.covered, kept, Shape.swept]
    grind
  · have ids : g.sweep.2.ids = g.ids.filter g.reached.contains := by
      rw [StateGraph.ids, StateGraph.ids, left.size, List.filter_filter]
      apply List.filter_congr
      intro n _
      rw [Bool.eq_iff_iff, Bool.and_eq_true, StateGraph.contains_iff, survives, kept, StateGraph.contains_iff, and_comm]
    have counted := List.length_eq_length_filter_add (l := g.ids) g.reached.contains
    have all := shape.live
    rw [left.live, ids]
    omega

end HasShape

end GoalCoverage.StateGraph
