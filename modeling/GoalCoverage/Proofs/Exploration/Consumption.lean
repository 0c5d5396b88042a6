import GoalCoverage.Proofs.Exploration
import GoalCoverage.Proofs.Exploration.Pruning
import GoalCoverage.Proofs.StateGraph.Reclamation

/-!
Consuming targets in any graph. Targets are pruned one after the other, if an earlier one did not take them along, and a
sweep follows. What is left is what the root led to and what is not below a target, and no node that is left lost its place
on the frontier (`exists_consumed`).
-/

namespace GoalCoverage

namespace StateGraph

variable {S : Type} {g g' : StateGraph S} {sh : Shape} {n p : NodeId} {cut : NodeId → Prop}

theorem Consistent.hasShape (consistent : g.Consistent) : g.HasShape g.toShape where
  node _ := Iff.rfl
  fits n v here := by
    have parents : ∀ p, p ∈ v.parents ↔ g.HasParent n p := fun p => by simp [HasParent, here]
    refine ⟨fun c => ?_, fun p => (parents p).trans (consistent.links p n), fun m => ?_⟩
    · simp [toShape, HasChild, here]
    · simp [toShape, HasCover, here]
  covered := consistent.covered
  root := rfl
  live := consistent.live

/-- A consistent graph without loops has a sound shape. -/
theorem Consistent.sound (consistent : g.Consistent) (links : ∀ n, ¬g.HasParent n n) (covers : ∀ n, ¬g.HasCover n n) :
    g.toShape.Sound where
  link p c link := by
    obtain ⟨above, below⟩ := consistent.ends p c link
    refine ⟨contains_iff.1 above, contains_iff.1 below, fun same => ?_⟩
    exact links c ((consistent.links c c).2 (same ▸ link))
  cover n m by_m := by
    obtain ⟨v, here, _⟩ := id by_m
    exact ⟨⟨v, here⟩, contains_iff.1 (consistent.covers n m by_m)⟩
  root r root := contains_iff.1 (consistent.root r root)
  other := covers

theorem isAttached_iff (known : g.contains n = true) : g.isAttached n = .ok true ↔ g.Attached n := by
  obtain ⟨v, here⟩ := contains_iff.1 known
  simp [isAttached_eq here, Attached, here, IdSet.isEmpty_eq_false_iff]

/-- The root, or a node with a parent. -/
theorem attached_iff (known : g.contains n = true) : g.Attached n ↔ g.root = some n ∨ ∃ p, g.HasParent n p := by
  obtain ⟨v, here⟩ := contains_iff.1 known
  simp [Attached, HasParent, here]

theorem Attached.contains (attached : g.Attached n) : g.contains n = true := by
  obtain ⟨v, here, _⟩ := attached
  exact contains_iff.2 ⟨v, here⟩

/-- Isolating nodes detaches them, and attaches none. -/
theorem Isolated.attached (isolated : g.Isolated g' cut) (attached : g'.Attached n) : g.Attached n ∧ ¬cut n := by
  have known' := attached.contains
  have known := (isolated.contains_eq n).symm.trans known'
  rw [attached_iff known]
  cases (attached_iff known').1 attached with
  | inl root =>
    obtain ⟨old, kept⟩ := (isolated.root n).1 root
    exact ⟨.inl old, kept⟩
  | inr above =>
    obtain ⟨p, parent⟩ := above
    obtain ⟨old, _, kept⟩ := (isolated.parents p n).1 parent
    exact ⟨.inr ⟨p, old⟩, kept⟩

theorem Isolated.below (isolated : g.Isolated g' cut) (path : g'.Below p n) : g.Below p n :=
  Relation.ReflTransGen.mono (fun p c link => ((isolated.children p c).1 link).1) _ _ path

theorem Isolated.retains (isolated : g.Isolated g' cut) : g.Retains g' := by
  intro n v' here
  have marks := isolated.marks n
  rw [here, Option.map_some, eq_comm, Option.map_eq_some_iff] at marks
  obtain ⟨v, old, same⟩ := marks
  exact ⟨v, old, congrArg Prod.fst same⟩

namespace HasShape

variable (shape : g.HasShape sh) (sound : sh.Sound)

include shape sound

theorem reached_iff : sh.Reached n ↔ g.Rooted n := by
  rw [shape.eq_toShape sound]
  exact Iff.rfl

theorem contains_of_rooted (rooted : g.Rooted n) : g.contains n = true := by
  obtain ⟨r, root, path⟩ := (shape.reached_iff sound).2 rooted
  exact shape.contains_iff.2 (sound.node_of_path (sound.root r root) path)

theorem attached_of_rooted (rooted : g.Rooted n) : g.Attached n := by
  rw [attached_iff (shape.contains_of_rooted sound rooted)]
  obtain ⟨r, root, path⟩ := rooted
  cases path with
  | refl => exact .inl root
  | tail _ link => exact .inr ⟨_, (shape.hasParent_iff sound).2 ((shape.hasChild_iff sound).1 link)⟩

/-- A sweep leaves what the root leads to. -/
theorem contains_sweep : g.sweep.2.contains n = true ↔ g.Rooted n := by
  obtain ⟨swept, _⟩ := shape.sweep sound
  rw [swept.contains_iff, ← shape.reached_iff sound]
  exact and_iff_right_of_imp fun reached =>
    shape.contains_iff.1 (shape.contains_of_rooted sound ((shape.reached_iff sound).1 reached))

/-- The root still leads there. -/
theorem rooted_sweep : g.sweep.2.Rooted n ↔ g.Rooted n := by
  obtain ⟨swept, _⟩ := shape.sweep sound
  rw [← swept.reached_iff sound.swept, Shape.reached_swept, shape.reached_iff sound]

end HasShape

end StateGraph

namespace Exploration

open StateGraph

variable {S : Type} {x x' x'' : Exploration S} {sh : Shape} {n t : NodeId} {l l' : List NodeId} {cut cut' : NodeId → Prop}

/--
`x'` is what is left of `x` after a part of its graph was cut out, which has everything below its nodes and nothing but what
is below nodes of the list. Only nodes of that part lost their places.
-/
structure Cropped (x x' : Exploration S) (l : List NodeId) (cut : NodeId → Prop) : Prop where
  graph : x.graph.Isolated x'.graph cut
  closed : ∀ p c, cut p → x.graph.HasChild p c → cut c
  below : ∀ n, cut n → ∃ t ∈ l, x.graph.Below t n
  waiting : ∀ n ∈ x.waiting, ¬cut n → n ∈ x'.waiting

namespace Cropped

theorem refl (shape : x.graph.HasShape sh) (sound : sh.Sound) (l : List NodeId) : x.Cropped x l fun _ => False :=
  ⟨.refl shape sound fun _ none => none, fun _ _ none _ => none, fun _ none => none.elim, fun _ mem _ => mem⟩

theorem trans (first : x.Cropped x' l cut) (second : x'.Cropped x'' l' cut') :
    x.Cropped x'' (l ++ l') fun n => cut n ∨ cut' n where
  graph := first.graph.trans second.graph fun _ => Iff.rfl
  closed p c inside link := by
    by_cases early : cut p ∨ cut c
    · exact .inl (early.elim (fun above => first.closed p c above link) id)
    · rw [not_or] at early
      exact .inr (second.closed p c (inside.resolve_left early.1) ((first.graph.children p c).2 ⟨link, early⟩))
  below n inside := by
    cases inside with
    | inl early =>
      obtain ⟨t, mem, path⟩ := first.below n early
      exact ⟨t, List.mem_append_left l' mem, path⟩
    | inr late =>
      obtain ⟨t, mem, path⟩ := second.below n late
      exact ⟨t, List.mem_append_right l mem, first.graph.below path⟩
  waiting n mem kept := second.waiting n (first.waiting n mem fun h => kept (.inl h)) fun h => kept (.inr h)

variable (cropped : x.Cropped x' l cut)

include cropped

theorem cut_of_below {m : NodeId} (inside : cut m) (path : x.graph.Below m n) : cut n := by
  induction path with
  | refl => exact inside
  | tail _ link ih => exact cropped.closed _ _ ih link

/-- What is detached by the cut is in the part. -/
theorem cut_of_detached (consistent : x.graph.Consistent) (before : x.graph.Attached n) (after : ¬x'.graph.Attached n) :
    cut n := by
  by_contra outside
  have known' := (cropped.graph.contains_eq n).trans before.contains
  rw [attached_iff known', not_or] at after
  cases (attached_iff before.contains).1 before with
  | inl root => exact after.1 ((cropped.graph.root n).2 ⟨root, outside⟩)
  | inr above =>
    obtain ⟨p, parent⟩ := above
    by_cases higher : cut p
    · exact outside (cropped.closed p n higher ((consistent.links p n).1 parent))
    · exact after.2 ⟨p, (cropped.graph.parents p n).2 ⟨parent, higher, outside⟩⟩

/-- The root still leads to what is not in the part. -/
theorem rooted_iff : x'.graph.Rooted n ↔ x.graph.Rooted n ∧ ¬cut n := by
  constructor
  · intro rooted
    obtain ⟨r, root, path⟩ := rooted
    obtain ⟨root, outside⟩ := (cropped.graph.root r).1 root
    refine ⟨⟨r, root, cropped.graph.below path⟩, ?_⟩
    cases path with
    | refl => exact outside
    | tail _ link => exact ((cropped.graph.children _ n).1 link).2.2
  · intro h
    obtain ⟨⟨r, root, path⟩, outside⟩ := h
    have higher : ∀ m, x.graph.Below m n → ¬cut m := fun m path inside => outside (cropped.cut_of_below inside path)
    refine ⟨r, (cropped.graph.root r).2 ⟨root, higher r path⟩, ?_⟩
    clear root
    induction path using Relation.ReflTransGen.head_induction_on with
    | refl => exact .refl
    | head link path ih => exact .head ((cropped.graph.children _ _).2 ⟨link, higher _ (.head link path), higher _ path⟩) ih

end Cropped

theorem queued_sweep (x : Exploration S) :
    Queued { x with
      graph := x.graph.sweep.2
      waiting := x.waiting.filter x.graph.sweep.2.contains
      last := x.last.filter x.graph.sweep.2.contains } x.sweep.2 x.graph.sweep.1.uncovered := .foldl queued_push _ _

/-- What is done to one target: it is pruned unless it is detached. -/
def crop (x : Exploration S) (t : NodeId) : Except Violation (Exploration S) :=
  match x.graph.isAttached t with
  | .ok true => x.prune t
  | _ => .ok x

theorem exists_cropped (orderly : x.Orderly) (shape : x.graph.HasShape sh) (sound : sh.Sound)
    (known : x.graph.contains t = true) :
    ∃ x' sh' cut, x.crop t = .ok x' ∧ x'.graph.HasShape sh' ∧ sh'.Sound ∧ x'.Orderly ∧ x.Cropped x' [t] cut ∧
      ¬x'.graph.Attached t := by
  rw [crop]
  by_cases attached : x.graph.isAttached t = .ok true
  · obtain ⟨part, x', _, mem_part, ok, shape', cleared⟩ := exists_cleared shape sound (shape.contains_iff.1 known)
    have link_iff : ∀ p c, sh.link p c ↔ x.graph.HasChild p c := fun p c => (shape.hasChild_iff sound).symm
    have cropped : x.Cropped x' [t] (· ∈ part) := by
      refine ⟨cleared.graph, fun p c inside link => ?_, fun n inside => ⟨t, List.mem_singleton.2 rfl, ?_⟩,
        fun n mem kept => (cleared.waiting n).2 ⟨kept, .inl mem⟩⟩
      · exact (mem_part c).2 (((mem_part p).1 inside).tail ((link_iff p c).2 link))
      · exact Relation.ReflTransGen.mono (fun p c => (link_iff p c).1) _ _ ((mem_part n).1 inside)
    refine ⟨x', _, _, ?_, shape', sound.cutAll, cleared.orderly orderly shape sound, cropped, fun still => ?_⟩
    · rw [attached]
      exact ok
    · exact (cleared.graph.attached still).2 ((mem_part t).2 .refl)
  · refine ⟨x, sh, _, ?_, shape, sound, orderly, .refl shape sound [t], mt (isAttached_iff known).2 attached⟩
    split
    next yes => exact absurd yes attached
    next => rfl

/-- Existing targets are pruned one after the other. Each is detached then. -/
theorem exists_foldlM_cropped (l : List NodeId) (orderly : x.Orderly) (shape : x.graph.HasShape sh) (sound : sh.Sound)
    (known : ∀ t ∈ l, x.graph.contains t = true) :
    ∃ x' sh' cut, l.foldlM crop x = .ok x' ∧ x'.graph.HasShape sh' ∧ sh'.Sound ∧ x'.Orderly ∧ x.Cropped x' l cut ∧
      ∀ t ∈ l, ¬x'.graph.Attached t := by
  induction l generalizing x sh with
  | nil => exact ⟨x, sh, _, rfl, shape, sound, orderly, .refl shape sound [], by simp⟩
  | cons t rest ih =>
    obtain ⟨y, sh₁, cut₁, first, shape₁, sound₁, orderly₁, cropped₁, gone⟩ :=
      exists_cropped orderly shape sound (known t List.mem_cons_self)
    have others : ∀ n ∈ rest, y.graph.contains n = true := fun n mem =>
      (cropped₁.graph.contains_eq n).trans (known n (List.mem_cons_of_mem t mem))
    obtain ⟨x', sh', cut₂, more, shape', sound', orderly', cropped₂, spent⟩ := ih orderly₁ shape₁ sound₁ others
    refine ⟨x', sh', _, ?_, shape', sound', orderly', cropped₁.trans cropped₂, fun n mem => ?_⟩
    · rw [List.foldlM_cons, first]
      exact more
    · cases mem with
      | head => exact fun still => gone (cropped₂.graph.attached still).1
      | tail _ mem => exact spent n mem

theorem consume_eq {y : Exploration S} {l : List NodeId} (ok : l.foldlM crop x = .ok y) : x.consume l = .ok y.sweep.2 := by
  have folded : x.consume l = (do return (← l.foldlM crop x).sweep.2) := rfl
  rw [folded, ok]
  rfl

variable [AbstractState S]

/-- `y` is what the consumption of all targets has to leave of `x`. -/
structure Consumed (x y : Exploration S) : Prop where
  spent : y.targets = []
  /-- Nothing is lost but the targets, what is below them, and what the root did not lead to before. -/
  left : ∀ n, y.graph.contains n = true ↔ x.graph.Rooted n ∧ ∀ t ∈ x.targets, ¬x.graph.Below t n
  rooted : ∀ n, y.graph.contains n = true → y.graph.Rooted n
  /-- A root that is a target takes everything with it. -/
  rootless : ∀ r, x.graph.root = some r → r ∈ x.targets → y.graph.ids = []
  orderly : y.Orderly
  waiting : ∀ n ∈ x.waiting, y.graph.contains n = true → n ∈ y.waiting
  consistent : y.graph.Consistent

/-- The part that is cut out when all targets are detached. -/
theorem Cropped.cut_iff {x' : Exploration S} (cropped : x.Cropped x' x.targets cut) (consistent : x.graph.Consistent)
    (gone : ∀ t ∈ x.targets, ¬x'.graph.Attached t) : cut n ↔ ∃ t ∈ x.targets, x.graph.Below t n := by
  refine ⟨cropped.below n, fun h => ?_⟩
  obtain ⟨t, live, path⟩ := h
  obtain ⟨_, _, attached, _⟩ := mem_targets.1 live
  exact cropped.cut_of_below (cropped.cut_of_detached consistent attached (gone t live)) path

/-- Sweeping finishes the consumption of targets that are detached. -/
theorem Cropped.consumed {x' : Exploration S} (cropped : x.Cropped x' x.targets cut) (consistent : x.graph.Consistent)
    (orderly : x'.Orderly) (shape : x'.graph.HasShape sh) (sound : sh.Sound) (gone : ∀ t ∈ x.targets, ¬x'.graph.Attached t) :
    x.Consumed x'.sweep.2 := by
  obtain ⟨swept, ordered, _⟩ := orderly.sweep shape sound
  have queued := queued_sweep x'
  have same : x'.sweep.2.graph = x'.graph.sweep.2 := queued.graph
  have stays : ∀ n, x'.sweep.2.graph.contains n = true ↔ x'.graph.Rooted n := fun n => same ▸ shape.contains_sweep sound
  refine ⟨?spent, fun n => ?left, fun n known => ?rooted, fun r root target => ?rootless, ordered,
    fun n waits known => ?waiting, swept.consistent sound.swept⟩
  case spent =>
    rw [List.eq_nil_iff_forall_not_mem]
    intro n live
    obtain ⟨v, here, _, target⟩ := mem_targets.1 live
    have still := shape.attached_of_rooted sound ((stays n).1 (contains_iff.2 ⟨v, here⟩))
    rw [same] at here
    obtain ⟨u, old, state⟩ := cropped.graph.retains.trans retains_sweep n v here
    -- A target that is left would have been one before.
    exact gone n (mem_targets.2 ⟨u, old, (cropped.graph.attached still).1, state ▸ target⟩) still
  case left =>
    rw [stays, cropped.rooted_iff, cropped.cut_iff consistent gone]
    simp only [not_exists, not_and]
  case rooted =>
    rw [same]
    exact (shape.rooted_sweep sound).2 ((stays n).1 known)
  case rootless =>
    rw [List.eq_nil_iff_forall_not_mem]
    intro n mem
    obtain ⟨r', root', _⟩ := (stays n).1 (contains_iff.2 (mem_ids.1 mem))
    have before := ((cropped.graph.root r').1 root').1
    cases before.symm.trans root
    exact gone r target (shape.attached_of_rooted sound ⟨r, root', .refl⟩)
  case waiting =>
    have kept := cropped.waiting n waits (cropped.rooted_iff.1 ((stays n).1 known)).2
    rw [same] at known
    exact (queued.mem n).2 (.inr (List.mem_filter.2 ⟨kept, known⟩))

/-- All targets are consumed, whatever links there are between them. -/
theorem exists_consumed (orderly : x.Orderly) (shape : x.graph.HasShape sh) (sound : sh.Sound) :
    ∃ y, x.consume x.targets = .ok y ∧ x.Consumed y := by
  have known : ∀ t ∈ x.targets, x.graph.contains t = true := by
    intro t live
    obtain ⟨v, here, _⟩ := mem_targets.1 live
    exact contains_iff.2 ⟨v, here⟩
  obtain ⟨x', sh', cut, ok, shape', sound', orderly', cropped, gone⟩ :=
    exists_foldlM_cropped x.targets orderly shape sound known
  exact ⟨x'.sweep.2, consume_eq ok, cropped.consumed (shape.consistent sound) orderly' shape' sound' gone⟩

end Exploration

end GoalCoverage
