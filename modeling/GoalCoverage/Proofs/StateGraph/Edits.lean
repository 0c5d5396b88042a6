import GoalCoverage.Proofs.StateGraph.Refinement

/-!
Histories of a state graph. Whatever is done to an empty graph, with nodes that exist, none its own parent or cover,
and with one root at a time, no operation fails: the graph stays consistent, and its nodes are numbered upwards
(`edit_consistent`).
-/

namespace GoalCoverage.StateGraph

variable {S : Type} {g g' : StateGraph S} {sh : Shape} {n m p c : NodeId} {v w : GraphNode S}

/-- What is stored twice is stored alike, and whatever is referred to exists. -/
structure Consistent (g : StateGraph S) : Prop where
  links : ∀ p c, g.HasParent c p ↔ g.HasChild p c
  ends : ∀ p c, g.HasChild p c → g.contains p = true ∧ g.contains c = true
  labels : ∀ p c e, g.edgeLabel p c = some e → g.HasChild p c
  covered : ∀ n, n ∈ g.covered ↔ ∃ m, g.HasCover n m
  covers : ∀ n m, g.HasCover n m → g.contains m = true
  root : ∀ r, g.root = some r → g.contains r = true
  live : g.live = g.ids.length

namespace HasShape

variable (shape : g.HasShape sh)

include shape

theorem hasChild_iff (sound : sh.Sound) : g.HasChild p c ↔ sh.link p c := by
  constructor
  · intro h
    obtain ⟨w, here, mem⟩ := h
    exact ((shape.fits p w here).children c).1 mem
  · intro h
    obtain ⟨w, here⟩ := (shape.node p).2 (sound.link p c h).1
    exact ⟨w, here, ((shape.fits p w here).children c).2 h⟩

theorem hasParent_iff (sound : sh.Sound) : g.HasParent c p ↔ sh.link p c := by
  constructor
  · intro h
    obtain ⟨v, here, mem⟩ := h
    exact ((shape.fits c v here).parents p).1 mem
  · intro h
    obtain ⟨v, here⟩ := (shape.node c).2 (sound.link p c h).2.1
    exact ⟨v, here, ((shape.fits c v here).parents p).2 h⟩

theorem hasCover_iff (sound : sh.Sound) : g.HasCover n m ↔ sh.cover n m := by
  constructor
  · intro h
    obtain ⟨v, here, by_m⟩ := h
    exact ((shape.fits n v here).cover m).1 by_m
  · intro h
    obtain ⟨v, here⟩ := (shape.node n).2 (sound.cover n m h).1
    exact ⟨v, here, ((shape.fits n v here).cover m).2 h⟩

theorem consistent (sound : sh.Sound) : g.Consistent where
  links p c := (shape.hasParent_iff sound).trans (shape.hasChild_iff sound).symm
  ends p c h := by
    obtain ⟨above, below, _⟩ := sound.link p c ((shape.hasChild_iff sound).1 h)
    exact ⟨shape.contains_iff.2 above, shape.contains_iff.2 below⟩
  labels p c e h := by
    obtain ⟨w, here, label⟩ := Option.bind_eq_some_iff.1 h
    exact ⟨w, here, IdMap.mem_keys.2 ⟨_, Option.join_eq_some_iff.1 label⟩⟩
  covered n := by
    simp only [shape.covered, shape.hasCover_iff sound]
  covers n m h := shape.contains_iff.2 (sound.cover n m ((shape.hasCover_iff sound).1 h)).2
  root r h := shape.contains_iff.2 (sound.root r (shape.root ▸ h))
  live := shape.live

end HasShape

theorem forM_eq_ok {α : Type} {f : α → Except Violation Unit} {l : List α} (each : ∀ a ∈ l, f a = .ok ()) :
    l.forM f = .ok () := by
  induction l with
  | nil => rfl
  | cons a rest ih =>
    rw [List.forM_eq_forM, List.forM_cons, each a List.mem_cons_self]
    exact ih fun b mem => each b (List.mem_cons_of_mem a mem)

/-- The check of the links passes. -/
theorem Consistent.checkLinks (consistent : g.Consistent) : g.checkLinks = .ok () := by
  apply forM_eq_ok
  intro n mem
  obtain ⟨v, here⟩ := mem_ids.1 mem
  rw [node_eq_ok here]
  have above : v.parents.toList.forM (fun p => do
      if !(← g.node p).children.contains n then throw (Violation.asymmetricParent n p)) = .ok () := by
    apply forM_eq_ok
    intro p mem
    obtain ⟨w, there, lists⟩ := (consistent.links p n).1 ⟨v, here, mem⟩
    rw [node_eq_ok there]
    simp [bind, Except.bind, IdMap.contains_iff.2 lists]
    rfl
  have below : v.children.keys.toList.forM (fun c => do
      if !(← g.node c).parents.contains n then throw (Violation.asymmetricChild n c)) = .ok () := by
    apply forM_eq_ok
    intro c mem
    obtain ⟨w, there, lists⟩ := (consistent.links n c).2 ⟨v, here, mem⟩
    rw [node_eq_ok there]
    simp [bind, Except.bind, IdSet.contains_iff.2 lists]
    rfl
  simp only [bind, Except.bind] at above below ⊢
  rw [above]
  exact below

/-- What can be done to a graph. -/
inductive Edit (S : Type) where
  | addRoot (state : S)
  | addChild (parent : NodeId) (state : S) (label : Option EdgeId)
  | link (child parent : NodeId) (label : Option EdgeId)
  | cover (n cover : NodeId)
  | uncover (n : NodeId)
  | setBottom (n : NodeId)
  | detach (n : NodeId)
  | sweep

namespace Edit

/-- Carries out an edit and yields the number of the new node, if there is one. -/
def run : Edit S → StateGraph S → Except Violation (Option NodeId × StateGraph S)
  | .addRoot s, g => do
    let (n, g) ← g.addRoot s
    return (some n, g)
  | .addChild p s label, g => do
    let (n, g) ← g.addChild p s label
    return (some n, g)
  | .link c p label, g => return (none, ← g.link c p label)
  | .cover n m, g => return (none, ← g.cover n m)
  | .uncover n, g => return (none, ← g.uncover n)
  | .setBottom n, g => return (none, ← g.setBottom n)
  | .detach n, g => return (none, (← g.detach n).2)
  | .sweep, g => return (none, g.sweep.2)

/-- The caller's part: the nodes exist, none becomes its own parent or cover, and there is no other root. -/
def permitted : Edit S → StateGraph S → Bool
  | .addRoot _, g => g.root.isNone
  | .addChild p _ _, g => g.contains p
  | .link c p _, g => c != p && g.contains c && g.contains p
  | .cover n m, g => n != m && g.contains n && g.contains m
  | .uncover n, g | .setBottom n, g | .detach n, g => g.contains n
  | .sweep, _ => true

end Edit

theorem link_eq_error (label : Option EdgeId) (refused : c = p ∨ g.contains c = false ∨ g.contains p = false) :
    ∃ fault, g.link c p label = .error fault := by
  rw [StateGraph.link]
  by_cases same : c = p
  · exact ⟨.ownParent c, by rw [if_pos same]; rfl⟩
  rw [if_neg same]
  cases known : g.contains c with
  | false => exact ⟨.unknownNode c, by rw [node_eq_error known]; rfl⟩
  | true =>
    obtain ⟨v, here⟩ := contains_iff.1 known
    have missing : g.contains p = false := by simpa [same, known] using refused
    exact ⟨.unknownNode p, by rw [node_eq_ok here, node_eq_error missing]; rfl⟩

/-- An edit that is not permitted fails, so `permitted` asks for no more than it has to. -/
theorem Edit.run_eq_error (e : Edit S) (refused : e.permitted g = false) : ∃ fault, e.run g = .error fault := by
  cases e with
  | addRoot s =>
    obtain ⟨r, root⟩ := Option.isSome_iff_exists.1 (Option.isNone_eq_false_iff.1 refused)
    exact ⟨.secondRoot, by rw [run, StateGraph.addRoot, root]; rfl⟩
  | addChild p s label =>
    have missing : g.nodes.size = p ∨ (g.allocate s).2.contains p = false := by
      by_cases same : g.nodes.size = p
      · exact .inl same
      · rw [contains, node?_allocate, if_neg (Ne.symm same)]
        exact .inr refused
    obtain ⟨fault, failed⟩ := link_eq_error label (missing.imp_right .inr)
    refine ⟨fault, ?_⟩
    rw [run, StateGraph.addChild]
    simp only [bind, Except.bind]
    rw [show (g.allocate s).1 = g.nodes.size from rfl, failed]
  | link c p label =>
    simp only [Edit.permitted, Bool.and_eq_false_iff, bne_eq_false_iff_eq] at refused
    obtain ⟨fault, failed⟩ := link_eq_error label (or_assoc.1 refused)
    exact ⟨fault, by rw [run, failed]; rfl⟩
  | cover n m =>
    simp only [Edit.permitted, Bool.and_eq_false_iff, bne_eq_false_iff_eq] at refused
    rw [run, StateGraph.cover]
    by_cases same : n = m
    · exact ⟨.ownCover n, by rw [if_pos same]; rfl⟩
    rw [if_neg same]
    cases known : g.contains m with
    | false => exact ⟨.unknownCover m, rfl⟩
    | true =>
      have missing : g.contains n = false := by simpa [same, known] using refused
      exact ⟨.unknownNode n, by rw [node_eq_error missing]; rfl⟩
  | uncover n => exact ⟨.unknownNode n, by rw [run, StateGraph.uncover, node_eq_error refused]; rfl⟩
  | setBottom n => exact ⟨.unknownNode n, by rw [run, StateGraph.setBottom, node_eq_error refused]; rfl⟩
  | detach n => exact ⟨.unknownNode n, by rw [run, StateGraph.detach, node_eq_error refused]; rfl⟩
  | sweep => cases refused

/-- Carries out edits and yields the numbers of the new nodes, in the order of their creation. -/
def edit : List (Edit S) → StateGraph S → Except Violation (List NodeId × StateGraph S)
  | [], g => return ([], g)
  | e :: rest, g => do
    let (n, g) ← e.run g
    let (ns, g) ← edit rest g
    return (n.toList ++ ns, g)

/-- Does the caller do its part, for as long as no edit fails? -/
def permits : List (Edit S) → StateGraph S → Bool
  | [], _ => true
  | e :: rest, g => e.permitted g && match e.run g with
    | .ok (_, g) => permits rest g
    | .error _ => true

/-- A permitted edit leads from one sound shape to another one, and gives the next number to a new node. -/
theorem Edit.run_hasShape (e : Edit S) (shape : g.HasShape sh) (sound : sh.Sound) (permitted : e.permitted g = true) :
    ∃ n g' sh', e.run g = .ok (n, g') ∧ g'.HasShape sh' ∧ sh'.Sound ∧
      g'.nodes.size = g.nodes.size + n.toList.length ∧ ∀ k ∈ n.toList, k = g.nodes.size := by
  cases e with
  | addRoot s =>
    obtain ⟨g', ok, shape', size⟩ := shape.addRoot sound s (Option.isNone_iff_eq_none.1 permitted)
    refine ⟨some g.nodes.size, g', _, ?_, shape', (sound.withNode _).withRoot (.inl rfl), size, by simp⟩
    rw [run, ok]
    rfl
  | addChild p s label =>
    have above := shape.contains_iff.1 permitted
    obtain ⟨g', ok, shape', size⟩ := shape.addChild sound s label above
    have ne : p ≠ g.nodes.size := Nat.ne_of_lt (shape.lt above)
    refine ⟨some g.nodes.size, g', _, ?_, shape', (sound.withNode _).withLink (.inr above) (.inl rfl) ne, size,
      by simp⟩
    rw [run, ok]
    rfl
  | link c p label =>
    simp only [Edit.permitted, Bool.and_eq_true, bne_iff_ne, shape.contains_iff] at permitted
    obtain ⟨⟨ne, below⟩, above⟩ := permitted
    obtain ⟨g', ok, shape', size⟩ := shape.link label above below ne
    refine ⟨none, g', _, ?_, shape', sound.withLink above below ne.symm, size, by simp⟩
    rw [run, ok]
    rfl
  | cover n m =>
    simp only [Edit.permitted, Bool.and_eq_true, bne_iff_ne, shape.contains_iff] at permitted
    obtain ⟨⟨ne, known⟩, covers⟩ := permitted
    obtain ⟨g', ok, shape', size⟩ := shape.cover known covers ne
    refine ⟨none, g', _, ?_, shape', sound.withCover known covers ne, size, by simp⟩
    rw [run, ok]
    rfl
  | uncover n =>
    obtain ⟨g', ok, shape', size⟩ := shape.uncover (shape.contains_iff.1 permitted)
    refine ⟨none, g', _, ?_, shape', sound.withoutCover n, size, by simp⟩
    rw [run, ok]
    rfl
  | setBottom n =>
    obtain ⟨g', ok, shape', size⟩ := shape.setBottom (shape.contains_iff.1 permitted)
    refine ⟨none, g', sh, ?_, shape', sound, size, by simp⟩
    rw [run, ok]
    rfl
  | detach n =>
    obtain ⟨released, g', ok, shape', size, _⟩ := shape.detach sound (shape.contains_iff.1 permitted)
    refine ⟨none, g', _, ?_, shape', sound.cutOff n, size, by simp⟩
    rw [run, ok]
    rfl
  | sweep =>
    obtain ⟨shape', size, _⟩ := shape.sweep sound
    exact ⟨none, g.sweep.2, sh.swept, rfl, shape', sound.swept, size, by simp⟩

/-- Numbers are given out upwards, from the next number of the first graph to that of the last one. -/
theorem edit_hasShape (edits : List (Edit S)) (shape : g.HasShape sh) (sound : sh.Sound)
    (permitted : permits edits g = true) :
    ∃ ids g' sh', edit edits g = .ok (ids, g') ∧ g'.HasShape sh' ∧ sh'.Sound ∧
      g'.nodes.size = g.nodes.size + ids.length ∧ ids = List.range' g.nodes.size ids.length := by
  induction edits generalizing g sh with
  | nil => exact ⟨[], g, sh, rfl, shape, sound, rfl, rfl⟩
  | cons e rest ih =>
    rw [permits, Bool.and_eq_true] at permitted
    obtain ⟨n, g₁, sh₁, ok, shape₁, sound₁, size₁, next⟩ := e.run_hasShape shape sound permitted.1
    have others := permitted.2
    rw [ok] at others
    obtain ⟨ids, g', sh', ok', shape', sound', size', range⟩ := ih shape₁ sound₁ others
    refine ⟨n.toList ++ ids, g', sh', ?_, shape', sound', ?_, ?_⟩
    · rw [edit, ok]
      simp only [bind, Except.bind, ok']
      rfl
    · rw [size', size₁, List.length_append]
      omega
    · have first : n.toList = List.range' g.nodes.size n.toList.length := by
        cases n with
        | none => rfl
        | some k => rw [next k (by simp)]; rfl
      rw [List.length_append, ← List.range'_append_1, ← first, ← size₁, ← range]

/-- The graph is what edits have made of an empty one. -/
def Built (g : StateGraph S) : Prop := ∃ edits ids, edit edits empty = .ok (ids, g)

/-- The graph that edits make of an empty one; if one of them fails, it is empty. -/
def made (edits : List (Edit S)) : StateGraph S := ((edit edits empty).toOption.map (·.2)).getD empty

theorem built_made (edits : List (Edit S)) : (made edits).Built := by
  rw [made]
  cases ok : edit edits (empty : StateGraph S) with
  | error fault => exact ⟨[], [], rfl⟩
  | ok r => exact ⟨edits, r.1, ok⟩

theorem edit_append (edits more : List (Edit S)) : edit (edits ++ more) g = (do
    let (ids, g) ← edit edits g
    let (others, g) ← edit more g
    return (ids ++ others, g)) := by
  induction edits generalizing g with
  | nil => simp [edit]
  | cons e rest ih => simp [edit, ih, List.append_assoc]

theorem Built.run {e : Edit S} {r : Option NodeId × StateGraph S} (built : g.Built) (ok : e.run g = .ok r) : r.2.Built := by
  obtain ⟨edits, ids, done⟩ := built
  refine ⟨edits ++ [e], ids ++ r.1.toList, ?_⟩
  have last : edit [e] g = .ok (r.1.toList, r.2) := by
    rw [edit, ok]
    simp only [edit, bind, Except.bind, pure, Except.pure, List.append_nil]
  rw [edit_append, done]
  simp only [bind, Except.bind, last]
  rfl

/-- Edits that succeed were permitted. -/
theorem permits_of_eq_ok {edits : List (Edit S)} {r : List NodeId × StateGraph S} (ok : edit edits g = .ok r) :
    permits edits g = true := by
  induction edits generalizing g r with
  | nil => rfl
  | cons e rest ih =>
    rw [edit] at ok
    rw [permits, Bool.and_eq_true]
    cases first : e.run g with
    | error fault =>
      rw [first] at ok
      cases ok
    | ok next =>
      refine ⟨?_, ?_⟩
      · rw [← Bool.not_eq_false]
        intro refused
        obtain ⟨fault, failed⟩ := e.run_eq_error refused
        rw [first] at failed
        cases failed
      · cases others : edit rest next.2 with
        | error fault =>
          rw [first] at ok
          simp only [bind, Except.bind, others] at ok
          cases ok
        | ok r => exact ih others

/-- A graph has no other shape than what it says of its nodes. -/
theorem HasShape.eq_toShape (shape : g.HasShape sh) (sound : sh.Sound) : sh = g.toShape := by
  have node : sh.node = g.toShape.node := funext fun n => propext (shape.node n).symm
  have link : sh.link = g.toShape.link := funext fun p => funext fun c => propext (shape.hasChild_iff sound).symm
  have cover : sh.cover = g.toShape.cover := funext fun n => funext fun m => propext (shape.hasCover_iff sound).symm
  have root : sh.root = g.toShape.root := shape.root.symm
  cases sh
  simp only at node link cover root
  rw [node, link, cover, root]

theorem Built.shaped (built : g.Built) : g.HasShape g.toShape ∧ g.toShape.Sound := by
  obtain ⟨edits, ids, ok⟩ := built
  obtain ⟨_, g', sh, ok', shape, sound, _⟩ := edit_hasShape edits hasShape_empty Shape.sound_empty (permits_of_eq_ok ok)
  cases ok.symm.trans ok'
  rw [← shape.eq_toShape sound]
  exact ⟨shape, sound⟩

section Example

/-- A join, a cycle, and a cover that is cut out and swept away before a last node is added. -/
def tangle : List (Edit Unit) :=
  [.addRoot (), .addChild 0 () (some 0), .addChild 0 () none, .addChild 1 () (some 1), .link 3 2 (some 2),
    .link 0 3 none, .addChild 1 () none, .cover 3 1, .cover 2 4, .detach 1, .sweep, .addChild 2 () none]

/-- The third node outlives its cover. -/
example : (edit tangle empty).toOption.map (fun r => (r.1, r.2.ids, r.2.covered.toList, r.2.live)) =
    some ([0, 1, 2, 3, 4, 5], [0, 2, 3, 5], [], 4) := by decide +kernel

end Example

end GoalCoverage.StateGraph
