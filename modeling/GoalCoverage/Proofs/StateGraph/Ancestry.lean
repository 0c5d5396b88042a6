import GoalCoverage.Proofs.StateGraph.Edits

/-!
Routes through graphs with joins and cycles. The walk back along oldest parents ends with a route from a node without
parents, which meets no node twice, or shows that the chain of oldest parents is a cycle, and it does so in no more
turns than there are nodes, and one (`routeTo_ascends`).
-/

namespace GoalCoverage.StateGraph

variable {S : Type} {g : StateGraph S} {sh : Shape} {n m p c q t top : NodeId} {route : Route} {left : Nat}

/-- The oldest parent of `c` is `p`. -/
def Climbs (g : StateGraph S) (c p : NodeId) : Prop := g.HasParent c p ∧ ∀ q, g.HasParent c q → p ≤ q

/-- The chain of oldest parents from `n` comes back to a node that it has left. -/
def Circles (g : StateGraph S) (n : NodeId) : Prop :=
  ∃ m, Relation.ReflTransGen g.Climbs n m ∧ Relation.TransGen g.Climbs m m

theorem firstParent_eq {v : GraphNode S} (here : g.node? n = some v) :
    g.firstParent n = .ok v.parents.toList.head? := by
  rw [firstParent, node_eq_ok here]
  rfl

theorem exists_firstParent (known : g.contains n = true) : ∃ parent, g.firstParent n = .ok parent := by
  obtain ⟨v, here⟩ := contains_iff.1 known
  exact ⟨_, firstParent_eq here⟩

theorem exists_node_of_firstParent {parent : Option NodeId} (first : g.firstParent n = .ok parent) :
    ∃ v, g.node? n = some v ∧ v.parents.toList.head? = parent := by
  cases here : g.node? n with
  | none =>
    rw [firstParent, node, here] at first
    cases first
  | some v => exact ⟨v, rfl, Except.ok.inj ((firstParent_eq here).symm.trans first)⟩

theorem parentless_of_firstParent (stop : g.firstParent n = .ok none) (p : NodeId) : ¬g.HasParent n p := by
  intro above
  obtain ⟨v, here, empty⟩ := exists_node_of_firstParent stop
  obtain ⟨w, there, mem⟩ := above
  cases here.symm.trans there
  rw [← IdSet.mem_toList, List.head?_eq_none_iff.1 empty] at mem
  cases mem

/-- The first of the parents, which are kept in increasing order, is the oldest one. -/
theorem climbs_of_firstParent (first : g.firstParent c = .ok (some p)) : g.Climbs c p := by
  obtain ⟨v, here, head⟩ := exists_node_of_firstParent first
  obtain ⟨rest, parents⟩ := List.head?_eq_some_iff.1 head
  refine ⟨⟨v, here, List.mem_of_head? head⟩, fun q above => ?_⟩
  obtain ⟨w, there, mem⟩ := above
  cases here.symm.trans there
  have increasing := v.parents.increasing
  rw [parents] at increasing
  rw [← IdSet.mem_toList, parents] at mem
  cases mem with
  | head => exact Nat.le_refl p
  | tail _ later => exact Nat.le_of_lt (List.rel_of_pairwise_cons increasing later)

theorem Climbs.unique (first : g.Climbs c p) (second : g.Climbs c q) : p = q :=
  Nat.le_antisymm (first.2 q second.1) (second.2 p first.1)

/-- A chain that runs into a circle does not leave it. -/
theorem circle_of_path (circle : Relation.TransGen g.Climbs m m) (path : Relation.ReflTransGen g.Climbs m n) :
    Relation.TransGen g.Climbs n n := by
  induction path with
  | refl => exact circle
  | tail _ climb ih =>
    obtain ⟨next, first, back⟩ := Relation.TransGen.head'_iff.1 ih
    rw [first.unique climb] at back
    exact .tail' back climb

/-- A chain that ends does not circle. -/
theorem not_circles_of_end (stop : ∀ p, ¬g.HasParent top p) (path : Relation.ReflTransGen g.Climbs n top) :
    ¬g.Circles n := by
  intro circles
  obtain ⟨m, reach, circle⟩ := circles
  have stuck : ∀ {k}, ¬g.Climbs top k := fun climb => stop _ climb.1
  have circle_top : Relation.TransGen g.Climbs top top := by
    have unique : Relator.RightUnique g.Climbs := fun _ _ _ => Climbs.unique
    cases Relation.ReflTransGen.total_of_right_unique unique path reach with
    | inl up =>
      cases up.cases_head with
      | inl same => exact same ▸ circle
      | inr more =>
        obtain ⟨_, climb, _⟩ := more
        exact absurd climb stuck
    | inr down => exact circle_of_path circle down
  obtain ⟨_, climb, _⟩ := Relation.TransGen.head'_iff.1 circle_top
  exact stuck climb

/-- Where no node is its own ancestor, no chain of oldest parents circles. -/
theorem not_circles_of_acyclic (acyclic : ∀ n, ¬Relation.TransGen g.HasParent n n) : ¬g.Circles n := by
  intro circles
  obtain ⟨m, _, circle⟩ := circles
  have mono : g.Climbs ≤ g.HasParent := fun _ _ climb => climb.1
  exact acyclic m (Relation.TransGen.mono mono m m circle)

/-- The nodes of the route are a chain of oldest parents, from `top` down to `t`. -/
structure Ascends (g : StateGraph S) (t top : NodeId) (route : Route) : Prop where
  head : route.nodes.head? = some top
  last : route.nodes.getLast? = some t
  climbs : route.nodes.IsChain fun p c => g.Climbs c p
  reach : ∀ n ∈ route.nodes, Relation.ReflTransGen g.Climbs t n

namespace Ascends

theorem start (t : NodeId) : g.Ascends t t ⟨[t], []⟩ where
  head := rfl
  last := rfl
  climbs := .singleton t
  reach n mem := by
    rw [List.mem_singleton.1 mem]

variable (ascends : g.Ascends t top route)

include ascends

theorem reach_top : Relation.ReflTransGen g.Climbs t top := ascends.reach top (List.mem_of_head? ascends.head)

theorem step (climb : g.Climbs top p) : g.Ascends t p (g.stepBack p route) := by
  obtain ⟨rest, nodes⟩ := List.head?_eq_some_iff.1 ascends.head
  refine ⟨rfl, ?_, ?_, fun n mem => ?_⟩
  · rw [stepBack, List.getLast?_cons, ascends.last]
    rfl
  · rw [stepBack, nodes, List.isChain_cons_cons, ← nodes]
    exact ⟨climb, ascends.climbs⟩
  · cases mem with
    | head => exact ascends.reach_top.tail climb
    | tail _ old => exact ascends.reach n old

theorem nodup (straight : ¬g.Circles t) : route.nodes.Nodup := by
  have ordered : route.nodes.Pairwise fun p c => Relation.TransGen g.Climbs c p := by
    have trans : IsTrans NodeId fun p c => Relation.TransGen g.Climbs c p := ⟨fun _ _ _ up more => more.trans up⟩
    exact (ascends.climbs.imp fun _ _ climb => .single climb).pairwise
  refine ordered.imp_of_mem fun {p c} above _ path same => ?_
  rw [same] at path above
  exact straight ⟨c, ascends.reach c above, path⟩

end Ascends

theorem walkBack_of_error {fault : Violation} (failed : g.firstParent n = .error fault) :
    g.walkBack t left n route = .error fault := by
  cases left <;> rw [walkBack, failed] <;> rfl

theorem walkBack_of_end (stop : g.firstParent n = .ok none) : g.walkBack t left n route = .ok route := by
  cases left <;> rw [walkBack, stop] <;> rfl

theorem walkBack_zero (climb : g.firstParent n = .ok (some p)) : g.walkBack t 0 n route = .error (.cyclicParents t) := by
  rw [walkBack, climb]
  rfl

theorem walkBack_succ (climb : g.firstParent n = .ok (some p)) :
    g.walkBack t (left + 1) n route = g.walkBack t left p (g.stepBack p route) := by
  rw [walkBack, climb]
  rfl

/-- Ancestors exist. -/
theorem HasShape.contains_of_path (shape : g.HasShape sh) (sound : sh.Sound) (known : g.contains t = true)
    (path : Relation.ReflTransGen g.Climbs t n) : g.contains n = true := by
  cases path with
  | refl => exact known
  | tail _ climb => exact shape.contains_iff.2 (sound.link n _ ((shape.hasParent_iff sound).1 climb.1)).1

/-- The walk ends at a node without parents, or has gone up as many links as it was allowed. -/
theorem HasShape.walkBack_ascends (shape : g.HasShape sh) (sound : sh.Sound) (known : g.contains t = true)
    (left : Nat) {top : NodeId} {route : Route} (ascends : g.Ascends t top route) :
    (∃ top' route', g.walkBack t left top route = .ok route' ∧ g.Ascends t top' route' ∧ ∀ p, ¬g.HasParent top' p) ∨
      g.walkBack t left top route = .error (.cyclicParents t) ∧
        ∃ top' route', g.Ascends t top' route' ∧ route'.nodes.length = route.nodes.length + left := by
  obtain ⟨parent, first⟩ := exists_firstParent (shape.contains_of_path sound known ascends.reach_top)
  cases parent with
  | none => exact .inl ⟨top, route, walkBack_of_end first, ascends, parentless_of_firstParent first⟩
  | some p =>
    cases left with
    | zero => exact .inr ⟨walkBack_zero first, top, route, ascends, rfl⟩
    | succ left =>
      rw [walkBack_succ first]
      refine (shape.walkBack_ascends sound known left (ascends.step (climbs_of_firstParent first))).imp_right
        fun failed => ⟨failed.1, ?_⟩
      obtain ⟨top', route', up, length⟩ := failed.2
      refine ⟨top', route', up, ?_⟩
      rw [length, stepBack, List.length_cons]
      omega

/-- A chain of oldest parents that does not circle has a route. -/
theorem HasShape.exists_route (shape : g.HasShape sh) (sound : sh.Sound) (known : g.contains t = true)
    (straight : ¬g.Circles t) :
    ∃ top route, g.routeTo t = .ok route ∧ g.Ascends t top route ∧ ∀ p, ¬g.HasParent top p := by
  cases shape.walkBack_ascends sound known g.live (Ascends.start t) with
  | inl found => exact found
  | inr failed =>
    obtain ⟨_, top, route, ascends, length⟩ := failed
    have exist : ∀ n ∈ route.nodes, n ∈ g.ids := fun n mem =>
      mem_ids.2 (StateGraph.contains_iff.1 (shape.contains_of_path sound known (ascends.reach n mem)))
    have fits := ((ascends.nodup straight).subperm exist).length_le
    rw [length, ← shape.live, List.length_singleton] at fits
    omega

theorem HasShape.routeTo_of_circles (shape : g.HasShape sh) (sound : sh.Sound) (known : g.contains t = true)
    (circles : g.Circles t) : g.routeTo t = .error (.cyclicParents t) := by
  cases shape.walkBack_ascends sound known g.live (Ascends.start t) with
  | inl found =>
    obtain ⟨top, route, _, ascends, stop⟩ := found
    exact absurd circles (not_circles_of_end stop ascends.reach_top)
  | inr failed => exact failed.1

/-- What a turn of the walk comes to. -/
inductive Turn where
  | ends (outcome : Except Violation Route)
  | goesOn (n : NodeId) (route : Route)

/--
A turn of a walk to `t` that is not given a number of turns: it looks for a parent, compares the length of the route with
the number of existing nodes, and only then goes up.
-/
def turn (g : StateGraph S) (t n : NodeId) (route : Route) : Turn :=
  match g.firstParent n with
  | .error fault => .ends (.error fault)
  | .ok none => .ends (.ok route)
  | .ok (some p) =>
    if route.nodes.length ≤ g.live then .goesOn p (g.stepBack p route) else .ends (.error (.cyclicParents t))

/-- The walk to `t` goes on from `n` for so many turns, and comes to `outcome` in the last one. -/
inductive Walks (g : StateGraph S) (t : NodeId) : Nat → NodeId → Route → Except Violation Route → Prop
  | ends {n : NodeId} {route : Route} {outcome : Except Violation Route} :
    g.turn t n route = .ends outcome → Walks g t 1 n route outcome
  | goesOn {turns : Nat} {n p : NodeId} {route route' : Route} {outcome : Except Violation Route} :
    g.turn t n route = .goesOn p route' → Walks g t turns p route' outcome → Walks g t (turns + 1) n route outcome

/-- The number of turns that are left makes up for the comparison that a turn makes. -/
theorem walks_walkBack (left : Nat) (n : NodeId) (route : Route) (length : route.nodes.length + left = g.live + 1) :
    ∃ turns ≤ left + 1, g.Walks t turns n route (g.walkBack t left n route) := by
  cases first : g.firstParent n with
  | error fault =>
    rw [walkBack_of_error first]
    exact ⟨1, Nat.le_add_left 1 left, .ends (by rw [turn, first])⟩
  | ok parent =>
    cases parent with
    | none =>
      rw [walkBack_of_end first]
      exact ⟨1, Nat.le_add_left 1 left, .ends (by rw [turn, first])⟩
    | some p =>
      cases left with
      | zero =>
        have long : ¬route.nodes.length ≤ g.live := by omega
        rw [walkBack_zero first]
        exact ⟨1, Nat.le_refl 1, .ends (by rw [turn, first]; exact if_neg long)⟩
      | succ left =>
        have short : route.nodes.length ≤ g.live := by omega
        have onward : (g.stepBack p route).nodes.length + left = g.live + 1 := by
          rw [stepBack, List.length_cons]
          omega
        obtain ⟨turns, few, walks⟩ := walks_walkBack left p _ onward
        rw [walkBack_succ first]
        exact ⟨turns + 1, Nat.succ_le_succ few, .goesOn (by rw [turn, first]; exact if_pos short) walks⟩

/--
The walk back from an existing node fails if and only if its chain of oldest parents circles. Otherwise it finds the whole
chain. A walk that is not given a number of turns comes to the same.
-/
theorem routeTo_ascends (built : g.Built) (known : g.contains t = true) :
    (¬g.Circles t → ∃ top route, g.routeTo t = .ok route ∧ route.nodes.head? = some top ∧ (∀ p, ¬g.HasParent top p) ∧
      route.nodes.getLast? = some t ∧ route.nodes.Nodup ∧ route.nodes.IsChain fun p c => g.Climbs c p) ∧
    (g.Circles t → g.routeTo t = .error (.cyclicParents t)) ∧
    ∃ turns ≤ g.ids.length + 1, g.Walks t turns t ⟨[t], []⟩ (g.routeTo t) := by
  obtain ⟨shape, sound⟩ := built.shaped
  refine ⟨fun straight => ?_, shape.routeTo_of_circles sound known, ?_⟩
  · obtain ⟨top, route, ok, ascends, stop⟩ := shape.exists_route sound known straight
    exact ⟨top, route, ok, ascends.head, stop, ascends.last, ascends.nodup straight, ascends.climbs⟩
  · rw [← shape.live]
    exact walks_walkBack g.live t _ (Nat.add_comm 1 g.live)

section Example

/-- A cycle with a way in from the root, on which one link has no label, and a pair of nodes that hang below each other. -/
def coil : StateGraph Unit :=
  made [.addRoot (), .addChild 0 () (some 0), .addChild 1 () none, .addChild 2 () (some 1), .link 1 3 (some 2),
    .addChild 3 () (some 3), .addChild 4 () (some 4), .detach 4, .link 4 5 none, .link 5 4 none]

theorem straight_coil : ¬coil.Circles 3 := by
  have third : coil.Climbs 3 2 := climbs_of_firstParent (by decide +kernel)
  have second : coil.Climbs 2 1 := climbs_of_firstParent (by decide +kernel)
  have first : coil.Climbs 1 0 := climbs_of_firstParent (by decide +kernel)
  have path : Relation.ReflTransGen coil.Climbs 3 0 := .head third (.head second (.single first))
  exact not_circles_of_end (parentless_of_firstParent (by decide +kernel)) path

theorem circles_coil : coil.Circles 5 := by
  have up : coil.Climbs 5 4 := climbs_of_firstParent (by decide +kernel)
  have back : coil.Climbs 4 5 := climbs_of_firstParent (by decide +kernel)
  exact ⟨5, .refl, .tail (.single up) back⟩

theorem routeTo_ascends_coil : coil.Built ∧ (coil.contains 3 = true ∧ ¬coil.Circles 3 ∧
      ∃ top route, coil.routeTo 3 = .ok route ∧ route.nodes.head? = some top ∧ (∀ p, ¬coil.HasParent top p) ∧
        route.nodes.getLast? = some 3 ∧ route.nodes.Nodup ∧ route.nodes.IsChain fun p c => coil.Climbs c p) ∧
    (coil.contains 5 = true ∧ coil.Circles 5 ∧ coil.routeTo 5 = .error (.cyclicParents 5) ∧
      ∃ turns ≤ coil.ids.length + 1, coil.Walks 5 turns 5 ⟨[5], []⟩ (coil.routeTo 5)) := by
  have known_3 : coil.contains 3 = true := by decide +kernel
  have known_5 : coil.contains 5 = true := by decide +kernel
  have spec_3 := routeTo_ascends (built_made _) known_3
  have spec_5 := routeTo_ascends (built_made _) known_5
  exact ⟨built_made _, ⟨known_3, straight_coil, spec_3.1 straight_coil⟩, known_5, circles_coil, spec_5.2.1 circles_coil,
    spec_5.2.2⟩

/-- The way around does not keep the walk from the root, since 0 is an older parent of 1 than 3. -/
example : (coil.routeTo 3).toOption = some ⟨[0, 1, 2, 3], [0, 1]⟩ ∧ (coil.routeTo 4).toOption = none := by decide +kernel

end Example

end GoalCoverage.StateGraph
