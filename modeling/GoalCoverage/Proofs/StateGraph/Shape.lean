import GoalCoverage.Proofs.Closure
import GoalCoverage.Proofs.StateGraph.Tree

/-!
State graphs as relations. A graph keeps each link at both of its ends, and beside the nodes it keeps the set of the
covered ones and their number. A `Shape` states each of these facts once, for graphs with joins, cycles and detached
parts alike. On a graph that has a sound shape no operation fails but for its arguments, and it does to the arena what
its counterpart does to the shape.
-/

namespace GoalCoverage

variable {α : Type} {m : IdMap α} {k a : Nat} {v : α}

theorem IdMap.mem_keys_insert : a ∈ (m.insert k v).keys ↔ a = k ∨ a ∈ m.keys := by
  simp only [IdMap.mem_keys, IdMap.get?_insert]
  by_cases same : a = k <;> simp [same]

theorem IdMap.mem_keys_erase : a ∈ (m.erase k).keys ↔ a ∈ m.keys ∧ a ≠ k := by
  simp only [IdMap.mem_keys, IdMap.get?_erase]
  by_cases same : a = k <;> simp [same]

theorem IdMap.not_mem_keys_empty : a ∉ (∅ : IdMap α).keys := by
  simp [IdMap.mem_keys]

theorem IdMap.eq_empty_of_forall (none : ∀ k, k ∉ m.keys) : m = ∅ := by
  apply IdMap.ext_get?
  intro k
  rw [IdMap.get?_empty, Option.eq_none_iff_forall_ne_some]
  exact fun v here => none k (IdMap.mem_keys.2 ⟨v, here⟩)

theorem IdMap.contains_iff : m.contains k = true ↔ k ∈ m.keys := by
  rw [IdMap.contains, Option.isSome_iff_exists, IdMap.mem_keys]

theorem IdMap.erase_of_not_mem (new : k ∉ m.keys) : m.erase k = m := by
  apply IdMap.ext_get?
  intro a
  rw [IdMap.get?_erase]
  split_ifs with same
  · rw [same, eq_comm, Option.eq_none_iff_forall_ne_some]
    exact fun v here => new (IdMap.mem_keys.2 ⟨v, here⟩)
  · rfl

theorem IdSet.erase_of_not_mem {s : IdSet} (new : k ∉ s) : s.erase k = s := by
  apply IdSet.ext_mem
  intro a
  rw [IdSet.mem_erase]
  exact ⟨fun h => h.1, fun h => ⟨h, fun same => new (same ▸ h)⟩⟩

theorem IdSet.eq_empty_of_forall {s : IdSet} (none : ∀ k, k ∉ s) : s = ∅ := by
  apply IdSet.ext_mem
  intro k
  exact iff_of_false (none k) (IdSet.not_mem_empty k)

theorem IdSet.nodup (s : IdSet) : s.toList.Nodup := s.increasing.imp fun lt => Nat.ne_of_lt lt

namespace StateGraph

/-- Which nodes there are, which are linked, parent first, which are covered, cover last, and which is the root. -/
structure Shape where
  node : NodeId → Prop
  link : NodeId → NodeId → Prop
  cover : NodeId → NodeId → Prop
  root : Option NodeId

namespace Shape

/-- Nothing is said of nodes that do not exist, and no node is linked to itself or covers itself. -/
structure Sound (sh : Shape) : Prop where
  link : ∀ p c, sh.link p c → sh.node p ∧ sh.node c ∧ p ≠ c
  cover : ∀ n m, sh.cover n m → sh.node n ∧ sh.node m
  root : ∀ r, sh.root = some r → sh.node r
  other : ∀ n, ¬sh.cover n n

def empty : Shape := ⟨fun _ => False, fun _ _ => False, fun _ _ => False, none⟩

def withNode (sh : Shape) (n : NodeId) : Shape := { sh with node := fun m => m = n ∨ sh.node m }

def withRoot (sh : Shape) (root : Option NodeId) : Shape := { sh with root }

def withLink (sh : Shape) (p c : NodeId) : Shape := { sh with link := fun q d => sh.link q d ∨ q = p ∧ d = c }

def withCover (sh : Shape) (n m : NodeId) : Shape :=
  { sh with cover := fun a b => if a = n then b = m else sh.cover a b }

def withoutCover (sh : Shape) (n : NodeId) : Shape := { sh with cover := fun a b => sh.cover a b ∧ a ≠ n }

/-- Cuts the links and the coverings of a node, in both directions. -/
def cutOff (sh : Shape) (n : NodeId) : Shape :=
  { sh with
    link := fun p c => sh.link p c ∧ p ≠ n ∧ c ≠ n
    cover := fun a b => sh.cover a b ∧ a ≠ n ∧ b ≠ n
    root := if sh.root = some n then none else sh.root }

/-- Is the node the root, or below it? -/
def Reached (sh : Shape) (n : NodeId) : Prop := ∃ r, sh.root = some r ∧ Relation.ReflTransGen sh.link r n

/-- The part below the root. -/
def swept (sh : Shape) : Shape :=
  { sh with
    node := fun n => sh.node n ∧ sh.Reached n
    link := fun p c => sh.link p c ∧ sh.Reached p ∧ sh.Reached c
    cover := fun a b => sh.cover a b ∧ sh.Reached a ∧ sh.Reached b }

variable {sh : Shape} {n m p c : NodeId}

theorem Reached.below (above : sh.Reached p) (link : sh.link p c) : sh.Reached c := by
  obtain ⟨r, root, path⟩ := above
  exact ⟨r, root, path.tail link⟩

theorem sound_empty : empty.Sound :=
  ⟨fun _ _ h => h.elim, fun _ _ h => h.elim, fun _ h => (nomatch h), fun _ h => h⟩

namespace Sound

variable (sound : sh.Sound)

include sound

/-- Links lead to nodes. -/
theorem node_of_path (known : sh.node n) (path : Relation.ReflTransGen sh.link n m) : sh.node m := by
  cases path with
  | refl => exact known
  | tail _ link => exact (sound.link _ m link).2.1

theorem withNode (n : NodeId) : (sh.withNode n).Sound where
  link p c h := ⟨.inr (sound.link p c h).1, .inr (sound.link p c h).2.1, (sound.link p c h).2.2⟩
  cover n m h := ⟨.inr (sound.cover n m h).1, .inr (sound.cover n m h).2⟩
  root r h := .inr (sound.root r h)
  other := sound.other

theorem withRoot (known : sh.node n) : (sh.withRoot (some n)).Sound where
  link := sound.link
  cover := sound.cover
  root r h := by
    cases h
    exact known
  other := sound.other

theorem withLink (above : sh.node p) (below : sh.node c) (ne : p ≠ c) : (sh.withLink p c).Sound where
  link q d h := by
    cases h with
    | inl old => exact sound.link q d old
    | inr new =>
      obtain ⟨rfl, rfl⟩ := new
      exact ⟨above, below, ne⟩
  cover := sound.cover
  root := sound.root
  other := sound.other

theorem withCover (known : sh.node n) (covers : sh.node m) (ne : n ≠ m) : (sh.withCover n m).Sound where
  link := sound.link
  cover a b h := by
    have := sound.cover a b
    grind [Shape.withCover]
  root := sound.root
  other a h := by
    have := sound.other a
    grind [Shape.withCover]

theorem withoutCover (n : NodeId) : (sh.withoutCover n).Sound where
  link := sound.link
  cover a b h := sound.cover a b h.1
  root := sound.root
  other a h := sound.other a h.1

theorem cutOff (n : NodeId) : (sh.cutOff n).Sound where
  link p c h := sound.link p c h.1
  cover a b h := sound.cover a b h.1
  root r h := by
    have := sound.root r
    grind [Shape.cutOff]
  other a h := sound.other a h.1

theorem swept : sh.swept.Sound where
  link p c h := ⟨⟨(sound.link p c h.1).1, h.2.1⟩, ⟨(sound.link p c h.1).2.1, h.2.2⟩, (sound.link p c h.1).2.2⟩
  cover a b h := ⟨⟨(sound.cover a b h.1).1, h.2.1⟩, ⟨(sound.cover a b h.1).2, h.2.2⟩⟩
  root r h := ⟨sound.root r h, r, h, .refl⟩
  other a h := sound.other a h.1

end Sound

end Shape

variable {S : Type} {g g' : StateGraph S} {sh sh' : Shape} {n m p c : NodeId} {v w : GraphNode S}
  {f : GraphNode S → GraphNode S}

/-- The node `n` stores what the shape says of it. -/
structure Fits (sh : Shape) (n : NodeId) (v : GraphNode S) : Prop where
  children : ∀ c, c ∈ v.children.keys ↔ sh.link n c
  parents : ∀ p, p ∈ v.parents ↔ sh.link p n
  cover : ∀ m, v.coveredBy = some m ↔ sh.cover n m

/-- The graph stores what the shape says, wherever it has a place for it. -/
structure HasShape (g : StateGraph S) (sh : Shape) : Prop where
  node : ∀ n, (∃ v, g.node? n = some v) ↔ sh.node n
  fits : ∀ n v, g.node? n = some v → Fits sh n v
  covered : ∀ n, n ∈ g.covered ↔ ∃ m, sh.cover n m
  root : g.root = sh.root
  live : g.live = g.ids.length

/-- `p` lists `c` as a child. -/
def HasChild (g : StateGraph S) (p c : NodeId) : Prop := ∃ w, g.node? p = some w ∧ c ∈ w.children.keys

/-- `c` lists `p` as a parent. -/
def HasParent (g : StateGraph S) (c p : NodeId) : Prop := ∃ v, g.node? c = some v ∧ p ∈ v.parents

/-- `n` exists and is marked as covered by `m`. -/
def HasCover (g : StateGraph S) (n m : NodeId) : Prop := ∃ v, g.node? n = some v ∧ v.coveredBy = some m

/-- The node `n`, and the nodes that lists of children lead to from there. -/
def Below (g : StateGraph S) (n : NodeId) : NodeId → Prop := Relation.ReflTransGen g.HasChild n

theorem HasCover.unique {m' : NodeId} (first : g.HasCover n m) (second : g.HasCover n m') : m = m' := by
  obtain ⟨v, here, by_m⟩ := first
  obtain ⟨v', here', by_m'⟩ := second
  cases here.symm.trans here'
  exact Option.some.inj (by_m.symm.trans by_m')

/-- What a graph says of the children and the covers of its nodes. -/
def toShape (g : StateGraph S) : Shape := ⟨fun n => ∃ v, g.node? n = some v, g.HasChild, g.HasCover, g.root⟩

theorem hasShape_empty : (empty : StateGraph S).HasShape .empty where
  node n := by simp [StateGraph.empty, StateGraph.node?, Shape.empty]
  fits n v here := by simp [StateGraph.empty, StateGraph.node?] at here
  covered n := by simp [StateGraph.empty, Shape.empty]
  root := rfl
  live := rfl

/-- `g'` is `g` with each node changed by `f`, according to its number. -/
structure Mapped (g g' : StateGraph S) (f : NodeId → GraphNode S → GraphNode S) : Prop where
  node : ∀ m, g'.node? m = (g.node? m).map (f m)
  size : g'.nodes.size = g.nodes.size
  live : g'.live = g.live
  root : g'.root = g.root

theorem Mapped.refl (g : StateGraph S) : g.Mapped g fun _ v => v := ⟨fun _ => by simp, rfl, rfl, rfl⟩

theorem Mapped.trans {g'' : StateGraph S} {f₁ f₂ : NodeId → GraphNode S → GraphNode S} (first : g.Mapped g' f₁)
    (second : g'.Mapped g'' f₂) : g.Mapped g'' fun m v => f₂ m (f₁ m v) where
  node m := by
    rw [second.node, first.node, Option.map_map]
    rfl
  size := second.size.trans first.size
  live := second.live.trans first.live
  root := second.root.trans first.root

theorem Mapped.congr {f f' : NodeId → GraphNode S → GraphNode S} (mapped : g.Mapped g' f)
    (same : ∀ m v, g.node? m = some v → f m v = f' m v) : g.Mapped g' f' where
  node m := by
    rw [mapped.node]
    exact Option.map_congr fun v here => same m v here
  size := mapped.size
  live := mapped.live
  root := mapped.root

theorem Mapped.node?_of {f : NodeId → GraphNode S → GraphNode S} (mapped : g.Mapped g' f) (here : g.node? n = some v) :
    g'.node? n = some (f n v) := by
  rw [mapped.node, here, Option.map_some]

theorem Mapped.ids {f : NodeId → GraphNode S → GraphNode S} (mapped : g.Mapped g' f) : g'.ids = g.ids := by
  apply ids_eq_of_contains mapped.size
  intro m
  rw [contains, contains, mapped.node, Option.isSome_map]

theorem mapped_update (n : NodeId) (f : GraphNode S → GraphNode S) :
    g.Mapped (g.update n f) fun m v => if m = n then f v else v where
  node m := by
    rw [node?_update]
    split_ifs with same
    · rw [same]
    · simp
  size := size_update
  live := rfl
  root := rfl

/-- A graph whose nodes are changed has the shape that the changed nodes fit. -/
theorem Mapped.hasShape (sh' : Shape) {f : NodeId → GraphNode S → GraphNode S} (mapped : g.Mapped g' f) (shape : g.HasShape sh)
    (same : sh'.node = sh.node) (root : sh'.root = sh.root)
    (fits : ∀ n v, g.node? n = some v → Fits sh' n (f n v)) (covered : ∀ n, n ∈ g'.covered ↔ ∃ m, sh'.cover n m) :
    g'.HasShape sh' where
  node n := by
    rw [mapped.node, same, ← shape.node n]
    simp
  fits n v here := by
    rw [mapped.node, Option.map_eq_some_iff] at here
    obtain ⟨u, old, rfl⟩ := here
    exact fits n u old
  covered := covered
  root := mapped.root.trans (shape.root.trans root.symm)
  live := by rw [mapped.live, mapped.ids, shape.live]

/-- A change of several nodes, one after the other, each of which is checked first. -/
theorem foldlM_update (check : GraphNode S → Bool) (f : GraphNode S → GraphNode S) (fault : NodeId → Violation)
    {l : List NodeId} (nodup : l.Nodup) (passes : ∀ n ∈ l, ∃ v, g.node? n = some v ∧ check v = true) :
    ∃ g', l.foldlM (fun g n => do
        let v ← g.node n
        if !check v then throw (fault n)
        return g.update n f) g = .ok g' ∧
      g.Mapped g' (fun m v => if m ∈ l then f v else v) ∧ g'.covered = g.covered := by
  induction l generalizing g with
  | nil => exact ⟨g, rfl, by simpa using .refl g, rfl⟩
  | cons n rest ih =>
    obtain ⟨new, nodup⟩ := List.nodup_cons.1 nodup
    obtain ⟨v, here, checked⟩ := passes n List.mem_cons_self
    obtain ⟨g', ok, mapped, covered⟩ := ih (g := g.update n f) nodup fun m mem => by
      obtain ⟨u, there, checked⟩ := passes m (List.mem_cons_of_mem _ mem)
      have other : m ≠ n := fun same => new (same ▸ mem)
      exact ⟨u, by rw [node?_update, if_neg other, there], checked⟩
    refine ⟨g', ?_, ?_, covered⟩
    · rw [List.foldlM_cons]
      simp only [node_eq_ok here, checked, bind, Except.bind, pure, Except.pure]
      exact ok
    · refine ⟨fun m => ?_, mapped.size.trans size_update, mapped.live, mapped.root⟩
      rw [((mapped_update n f).trans mapped).node m]
      congr 1
      funext u
      grind

theorem uncover_mapped (here : g.node? n = some v) :
    ∃ g', g.uncover n = .ok g' ∧ g.Mapped g' (fun m v => if m = n then { v with coveredBy := none } else v) ∧
      g'.covered = g.covered.erase n := by
  let opened := g.update n fun v => { v with coveredBy := none }
  refine ⟨{ opened with covered := g.covered.erase n }, ?_, ⟨(mapped_update n _).node, size_update, rfl, rfl⟩, rfl⟩
  simp only [uncover, node_eq_ok here, bind, Except.bind, pure, Except.pure]
  rfl

theorem foldlM_uncover {l : List NodeId} (known : ∀ n ∈ l, ∃ v, g.node? n = some v) :
    ∃ g', l.foldlM uncover g = .ok g' ∧
      g.Mapped g' (fun m v => if m ∈ l then { v with coveredBy := none } else v) ∧
      ∀ m, m ∈ g'.covered ↔ m ∈ g.covered ∧ m ∉ l := by
  induction l generalizing g with
  | nil => exact ⟨g, rfl, by simpa using .refl g, by simp⟩
  | cons n rest ih =>
    obtain ⟨v, here⟩ := known n List.mem_cons_self
    obtain ⟨opened, one, step, erased⟩ := uncover_mapped here
    obtain ⟨g', ok, mapped, covered⟩ := ih (g := opened) fun m mem => by
      obtain ⟨u, there⟩ := known m (List.mem_cons_of_mem _ mem)
      exact ⟨_, step.node?_of there⟩
    refine ⟨g', ?_, ?_, fun m => ?_⟩
    · rw [List.foldlM_cons, one]
      exact ok
    · refine ⟨fun m => ?_, mapped.size.trans step.size, mapped.live.trans step.live, mapped.root.trans step.root⟩
      rw [(step.trans mapped).node m]
      congr 1
      funext u
      grind
    · rw [covered, erased, IdSet.mem_erase, List.mem_cons]
      grind

end StateGraph

end GoalCoverage
