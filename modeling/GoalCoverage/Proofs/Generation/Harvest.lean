import GoalCoverage.Generation.Harvest
import GoalCoverage.Proofs.Explorer.Upkeep
import GoalCoverage.Proofs.Generation.Progress

/-!
The harvest of a run. The route to a target is an execution for all configurations of its states, so the test
cases made from it are right; and a target that shows an open goal yields one (`harvest_ensures`).
-/

namespace GoalCoverage.Generator

open Procedure Diagram StateGraph Explorer

variable {t : Task} {interest : Nat → Prop} {feasible : Nat → Configuration → Prop} {g g' g'' : Explored}
  {T : Failure → Prop} {i k n root : Nat} {c : Configuration} {d d' : Diagram} {γ : Goal} {r : Region}
  {components : List Component} {x : Explorer} {y : Exploration State} {route : Route} {v : GraphNode State}
  {presence : List (Option Region)} {batch : List Nat} {last : Option Region}

/-- An engine for some goals. -/
structure Serves (t : Task) (components : List Component) (x : Explorer) : Prop where
  program : x.program = t.factory.program
  tracks : x.tracks = t.factory.tracks
  watches : Watches components x.observers
  goals : ∀ comp ∈ components, ∃ γ, t.goals.get? comp.goal = some γ ∧ γ.automaton = comp.automaton

theorem Serves.unfinished (serves : Serves t components x) (crosses : t.Crosses) :
    ∀ comp ∈ components, comp.automaton.isFinal comp.automaton.initial = false := by
  intro comp mem
  obtain ⟨γ, here, automaton⟩ := serves.goals comp mem
  rw [← Bool.not_eq_true]
  intro final
  have recognizes : γ.automaton.Recognizes [] := ⟨γ.automaton.initial, rfl, automaton ▸ final⟩
  cases crosses comp.goal γ [] here recognizes

theorem Serves.unguarded (serves : Serves t components x) (fair : t.Fair T) :
    ∀ o ∈ x.observers, o.automaton.isGuarded = false := by
  intro o mem
  refine serves.watches.not_guarded (fun comp here => ?_) mem
  obtain ⟨γ, goal, automaton⟩ := serves.goals comp here
  exact automaton ▸ fair.free comp.goal γ goal

/-- The edges of a path with the regions of its states, of which the last lies in all others. -/
structure Trail (t : Task) (d : Diagram) (edges : List EdgeId) (presence : List (Option Region)) (last : Option Region) :
    Prop where
  path : t.factory.program.IsPath edges
  ended : presence.length = edges.length + 1
  regions : ∀ (k : Nat) p, presence[k]? = some p → d.Knows p ∧ p.isSome = t.factory.tracks ∧
    (∀ c, d.Within p c → ∀ e ∈ edges.take k, t.Passes c e) ∧ ∀ c, d.Within last c → d.Within p c

theorem known_of_branch (sound : x.Sound d y.graph root) (branch : y.graph.Branch root route.nodes route.edges n) :
    ∀ n ∈ route.nodes, ∃ v, y.graph.node? n = some v := by
  intro m mem
  obtain ⟨k, there⟩ := List.mem_iff_getElem?.1 mem
  have le : k ≤ route.edges.length := by
    have length := branch.length
    have lt := (List.getElem?_eq_some_iff.1 there).1
    omega
  obtain ⟨m', there', part⟩ := branch.take le
  rw [there] at there'
  cases there'
  obtain ⟨w, found, _⟩ := part.attached sound.tree
  exact ⟨w, found⟩

/-- The trace of a route is that of an execution. -/
theorem trail_of_branch {states : List State} (manager : t.Managed) (serves : Serves t components x)
    (diagram : t.diagram.Extends d) (sound : x.Sound d y.graph root)
    (branch : y.graph.Branch root route.nodes route.edges n) (here : y.graph.node? n = some v)
    (along : States y route.nodes states) : Trail t d route.edges (states.map AbstractState.presence) v.state.presence where
  path := by
    obtain ⟨start, entry, walk⟩ := (sound.journey branch here).walk
    rw [serves.program] at entry walk
    exact ⟨start, _, entry, walk⟩
  ended := by
    have same := congrArg List.length along
    have length := branch.length
    simp only [List.length_map] at same ⊢
    omega
  regions k p there := by
    rw [List.getElem?_map] at there
    obtain ⟨s, at_k, rfl⟩ := Option.map_eq_some_iff.1 there
    have reached : (route.nodes[k]?).map (fun n => (y.graph.node? n).map (·.state)) = some (some s) := by
      rw [← List.getElem?_map, ← along, List.getElem?_map, at_k]
      rfl
    obtain ⟨m, node, found⟩ := Option.map_eq_some_iff.1 reached
    obtain ⟨w, known, rfl⟩ := Option.map_eq_some_iff.1 found
    have le : k ≤ route.edges.length := by
      have length := branch.length
      have lt := (List.getElem?_eq_some_iff.1 node).1
      omega
    obtain ⟨m', node', part⟩ := branch.take le
    rw [node] at node'
    cases node'
    have tracked := (sound.proper m w known).presence
    refine ⟨tracked.knows, tracked.isSome.trans serves.tracks, fun c within e mem tracks => ?_, fun c within => ?_⟩
    · have allows := (sound.journey part known).passes c within e mem (serves.tracks.trans tracks)
      rw [serves.program] at allows
      exact ((manager tracks).2.allows_iff (manager tracks).1 diagram).1 allows
    · exact sound.within_of_branch branch here within (List.mem_of_getElem? node) known

theorem Trail.genuine {tc : TestCase} (trail : Trail t d tc.trace tc.presence last) : t.Genuine d tc where
  path := trail.path
  regions _ k r after := by
    have there : (tc.presence)[k]? = some (some r) := by
      rw [TestCase.presenceAfter] at after
      exact Option.join_eq_some_iff.1 after
    obtain ⟨knows, _, passes, _⟩ := trail.regions k (some r) there
    exact ⟨knows_some.1 knows, fun c holds => passes c (within_some.2 holds)⟩

/-- The region at the first crossing of an edge. -/
theorem Trail.crossing {edge : EdgeId} (trail : Trail t d route.edges presence last) (mem : edge ∈ route.edges) :
    ∃ k, route.edges[k]? = some edge ∧ presence[k + 1]? = some (regionAt route presence edge) := by
  have crossed : (route.edges.idxOf? edge).isSome := List.isSome_idxOf?.2 mem
  obtain ⟨k, first⟩ := Option.isSome_iff_exists.1 crossed
  obtain ⟨lt, there, _⟩ := List.idxOf?_eq_some_iff.1 first
  have ended := trail.ended
  have lt' : k + 1 < presence.length := by omega
  refine ⟨k, List.getElem?_eq_some_iff.2 ⟨lt, there⟩, ?_⟩
  rw [regionAt, first]
  simp [List.getElem?_eq_getElem lt']

theorem Trail.credit (trail : Trail t d route.edges presence last) (critical : γ.criticalEdge ∈ route.edges)
    (recognized : t.factory.explains = false → γ.automaton.Recognizes route.edges) :
    t.Credit γ route.edges d (regionAt route presence γ.criticalEdge) := by
  obtain ⟨k, there, region⟩ := trail.crossing critical
  obtain ⟨knows, tracked, passes, _⟩ := trail.regions (k + 1) _ region
  refine ⟨fun _ => knows, recognized, critical, fun c within => ⟨k, there, ?_⟩⟩
  cases tracks : t.factory.tracks with
  | true => exact passes c (within tracks)
  | false =>
    intro e _ tracked
    rw [tracks] at tracked
    cases tracked

/-- A goal with a region that a path covers it for. -/
def Credited (t : Task) (d : Diagram) (path : List EdgeId) (entry : Nat × Option Region) : Prop :=
  ∃ γ, t.goals.get? entry.1 = some γ ∧ t.Credit γ path d entry.2

/-- A goal is open somewhere in a region. -/
def OpenIn (g : Explored) (region : Option Region) (i : Nat) : Prop :=
  ∃ c, g.suite.Leaves g.diagram i c ∧ g.diagram.Within region c

theorem isOpenFor_ensures (good : Good t interest feasible g) (now : g.suite.goals.get? i = some γ) {region : Option Region}
    (known : t.factory.tracks = true → g.diagram.Knows region) :
    Ensures T (isOpenFor γ region) g fun opened g' => Later t interest feasible g g' ∧ g'.suite = g.suite ∧
      g'.nextTestCase = g.nextTestCase ∧ (OpenIn g region i → opened = true) := by
  rw [isOpenFor, ensures_bind, ensures_get]
  have variability := good.variability
  split
  next r tracks =>
    have tracked := variability.symm.trans tracks
    obtain ⟨r₁, left, has⟩ := good.sane.remaining tracks i γ now
    have opened : γ.openRegion = r₁ := by rw [Goal.openRegion, left, Option.getD_some]
    rw [opened, ensures_bind]
    apply ensures_onRegions (disjoint_yields (good.ready tracked) has (knows_some.1 (known tracked))).delivers
    intro apart d' ext ready spec
    refine ⟨good.grown ext (tracked.symm ▸ ready), rfl, rfl, fun isOpen => ?_⟩
    obtain ⟨c, leaves, within⟩ := isOpen
    rw [Bool.not_eq_true', ← Bool.not_eq_true, spec]
    intro none
    refine none c ⟨?_, within_some.1 within⟩
    simpa [Suite.Leaves, tracks, now, opened] using leaves
  next => exact ⟨.refl good, rfl, rfl, fun _ => rfl⟩

/-- The state of the suite while test case `tc` is being recorded. -/
structure Recording (t : Task) (interest : Nat → Prop) (feasible : Nat → Configuration → Prop) (g : Explored)
    (tc : TestCase) (done : List (Nat × Option Region)) (g' : Explored) : Prop where
  later : Later t interest feasible g g'
  genuine : t.Genuine g'.diagram tc
  id : tc.id < g'.nextTestCase
  alone : ∀ tc' ∈ g'.suite.testCases, tc'.id = tc.id → tc' = tc
  fresh : ∀ j ∉ done.map (·.1), ¬g'.suite.Lists j tc.id
  stored : done ≠ [] → tc ∈ g'.suite.testCases

theorem Recording.step (judges : t.Judges interest feasible) {tc : TestCase} {done : List (Nat × Option Region)}
    {region : Option Region} (recording : Recording t interest feasible g tc done g') (new : i ∉ done.map (·.1))
    (credited : Credited t g'.diagram tc.trace (i, region)) :
    Ensures T (changeSuite (·.addTestCase tc i region)) g' fun _ g'' =>
      Recording t interest feasible g tc (done ++ [(i, region)]) g'' := by
  obtain ⟨γ, here, credit⟩ := credited
  have later := recording.later.good.stored recording.genuine recording.id
  have mem := Suite.alone_stored recording.alone
  have lists := Suite.lists_stored g'.suite tc
  have fresh : ¬(g'.suite.stored tc).Lists i tc.id := by
    rw [lists]
    exact recording.fresh i new
  apply ensures_addTestCase
  apply (credit_ensures judges later.good here mem.1 (fun _ => fresh) credit).mono
  intro _ g'' h
  obtain ⟨later', booked, testCases, next⟩ := h
  refine ⟨recording.later.trans (later.trans later'), recording.genuine.extends recording.later.good.ready later'.diagram,
    next.symm ▸ recording.id, testCases.symm ▸ mem.2, fun j out listed => ?_, fun _ => testCases.symm ▸ mem.1⟩
  rw [List.map_append, List.mem_append, not_or] at out
  cases (booked j tc.id).1 listed with
  | inl old => exact recording.fresh j out.1 ((lists j tc.id).1 old)
  | inr now => exact out.2 (by simp [now.1])

theorem Credited.extends {path : List EdgeId} {entry : Nat × Option Region} (credited : Credited t d path entry)
    (ready : d.Ready t.factory.tracks) (ext : d.Extends d') : Credited t d' path entry := by
  obtain ⟨γ, here, credit⟩ := credited
  exact ⟨γ, here, credit.extends ready ext⟩

theorem recordAll_ensures (judges : t.Judges interest feasible) (good : Good t interest feasible g) {tc : TestCase}
    {entries : List (Nat × Option Region)} (recording : Recording t interest feasible g tc [] g')
    (distinct : (entries.map (·.1)).Nodup) (credited : ∀ entry ∈ entries, Credited t g.diagram tc.trace entry) :
    Ensures T (entries.forM fun (goal, region) => changeSuite (·.addTestCase tc goal region)) g' fun _ g'' =>
      Recording t interest feasible g tc entries g'' := by
  apply Ensures.forM _ recording
  intro entry done rest g'' whole recording'
  have new : entry.1 ∉ done.map (·.1) := by
    intro old
    rw [whole, List.map_append, List.map_cons, List.nodup_append] at distinct
    exact distinct.2.2 entry.1 old entry.1 List.mem_cons_self rfl
  have credited' := (credited entry (by simp [whole])).extends good.ready recording'.later.diagram
  exact recording'.step judges new credited'

/-- Something of a test case is new. -/
theorem Recording.grows {tc : TestCase} {done : List (Nat × Option Region)}
    (recording : Recording t interest feasible g tc done g') (good : Good t interest feasible g)
    (some_entry : done ≠ []) (new : g.nextTestCase ≤ tc.id) :
    g.suite.testCases.length < g'.suite.testCases.length := by
  have stored := recording.stored some_entry
  obtain ⟨more, whole⟩ := recording.later.testCases
  have unknown : tc ∉ g.suite.testCases := by
    intro old
    have lt := good.ids tc old
    omega
  rw [← whole, List.mem_append] at stored
  have inhabited := List.length_pos_of_mem (stored.resolve_left unknown)
  rw [← whole, List.length_append]
  omega

/-- A goal that a path may be recorded for. -/
def Wanted (t : Task) (path : List EdgeId) (i : Nat) : Prop :=
  ∃ γ, t.goals.get? i = some γ ∧ γ.criticalEdge ∈ path ∧
    (t.factory.explains = false → γ.automaton.Recognizes path)

/-- Goals picked from `done` that are open where a path covers them. -/
structure Picked (t : Task) (interest : Nat → Prop) (feasible : Nat → Configuration → Prop) (g : Explored)
    (path : List EdgeId) (last : Option Region) (done : List Nat) (entries : List (Nat × Option Region)) (g' : Explored) :
    Prop where
  later : Later t interest feasible g g'
  suite : g'.suite = g.suite
  next : g'.nextTestCase = g.nextTestCase
  sublist : (entries.map (·.1)).Sublist done
  credited : ∀ entry ∈ entries, Credited t g.diagram path entry
  complete : ∀ i ∈ done, OpenIn g last i → entries ≠ []

theorem OpenIn.widened {region : Option Region} (openIn : OpenIn g last i) (good : Good t interest feasible g)
    (suite : g'.suite = g.suite) (ext : g.diagram.Extends g'.diagram)
    (known : t.factory.tracks = true → g.diagram.Knows region) (plain : t.factory.tracks = false → region = none)
    (sub : ∀ c, g.diagram.Within last c → g.diagram.Within region c) : OpenIn g' region i := by
  obtain ⟨c, leaves, within⟩ := openIn
  refine ⟨c, ?_, ?_⟩
  · rw [suite]
    exact (good.sane.leaves_iff good.ready' ext).2 leaves
  · cases tracks : t.factory.tracks with
    | true => exact (ext.within_iff (good.ready tracks) (known tracks)).2 (sub c within)
    | false =>
      rw [plain tracks]
      exact within_none

theorem pick_ensures (good : Good t interest feasible g) (trail : Trail t g.diagram route.edges presence last)
    {goals : List Nat} (wanted : ∀ i ∈ goals, Wanted t route.edges i) :
    Ensures T (goals.filterMapM fun index => do
      let goal ← Generator.goal index
      let region := regionAt route presence goal.criticalEdge
      return if ← isOpenFor goal region then some (index, region) else none) g
      (Picked t interest feasible g route.edges last goals) := by
  have start : Picked t interest feasible g route.edges last [] [] g :=
    ⟨.refl good, rfl, rfl, .slnil, by simp, by simp⟩
  apply Ensures.filterMapM _ start
  intro i done entries g' mem picked
  obtain ⟨γ₀, here, critical, recognized⟩ := wanted i mem
  obtain ⟨γ, now⟩ := picked.later.good.known i γ₀ here
  obtain ⟨γ₁, first, same⟩ := picked.later.good.kept i γ now
  rw [here] at first
  cases first
  rw [ensures_bind, ensures_goal now, same.criticalEdge, ensures_bind]
  obtain ⟨k, there, region⟩ := trail.crossing critical
  obtain ⟨knows, tracked, _, sub⟩ := trail.regions (k + 1) _ region
  have ext := picked.later.diagram
  apply (isOpenFor_ensures picked.later.good now fun _ => ext.knows knows).mono
  intro opened g'' h
  obtain ⟨later, suite, next, complete⟩ := h
  refine ⟨picked.later.trans later, suite.trans picked.suite, next.trans picked.next, ?_, ?_, ?_⟩
  · rw [List.map_append]
    apply picked.sublist.append
    cases opened <;> simp
  · intro entry mem
    cases List.mem_append.1 mem with
    | inl old => exact picked.credited entry old
    | inr new =>
      have last : entry = (i, regionAt route presence γ₀.criticalEdge) := by
        cases opened with
        | false => simp at new
        | true => simpa using new
      rw [last]
      exact ⟨γ₀, here, trail.credit critical recognized⟩
  · intro j mem openIn
    cases List.mem_append.1 mem with
    | inl old =>
      intro none
      exact picked.complete j old openIn (List.append_eq_nil_iff.1 none).1
    | inr new =>
      cases List.mem_singleton.1 new
      have isOpen : OpenIn g' (regionAt route presence γ₀.criticalEdge) i := by
        refine openIn.widened good picked.suite ext (fun _ => knows) (fun plain => ?_) sub
        rw [plain] at tracked
        exact Option.isNone_iff_eq_none.1 (Option.isSome_eq_false_iff.1 tracked)
      rw [complete isOpen]
      simp

theorem addTestCase_ensures (fair : t.Fair T) (judges : t.Judges interest feasible) (good : Good t interest feasible g)
    (serves : Serves t components x) (sound : x.Sound g.diagram y.graph root)
    (branch : y.graph.Branch root route.nodes route.edges n) (here : y.graph.node? n = some v) {goals : List Nat}
    (distinct : goals.Nodup) (wanted : ∀ i ∈ goals, Wanted t route.edges i) (inputs : List Int) :
    Ensures T (addTestCase goals route inputs y) g fun _ g' => Later t interest feasible g g' ∧
      ((∃ i ∈ goals, OpenIn g v.state.presence i) → g.suite.testCases.length < g'.suite.testCases.length) := by
  rw [addTestCase, ensures_bind]
  apply (ensures_states (known_of_branch sound branch)).mono
  intro states g' h
  obtain ⟨same, along⟩ := h
  rw [same, ensures_bind]
  have trail := trail_of_branch fair.manager serves good.diagram sound branch here along
  apply (pick_ensures good trail wanted).mono
  intro entries g₁ picked
  cases entries with
  | nil => exact ⟨picked.later, fun h => by
      obtain ⟨i, mem, openIn⟩ := h
      exact absurd rfl (picked.complete i mem openIn)⟩
  | cons entry rest =>
    rw [ensures_bind, ensures_get, ensures_bind, ensures_set]
    let tc : TestCase :=
      { id := g₁.nextTestCase
        inputs
        path := route.nodes
        trace := route.edges
        region := if g₁.suite.variability then entry.2.or (states.map AbstractState.presence).getLast?.join else none
        presence := states.map AbstractState.presence
        time := g₁.clock g₁.nextTestCase }
    have good₁ := picked.later.good
    have later : Later t interest feasible g₁ { g₁ with nextTestCase := g₁.nextTestCase + 1 } :=
      ⟨{ good₁ with ids := fun tc mem => Nat.lt_succ_of_lt (good₁.ids tc mem) }, rfl, .refl _, fun _ _ h => h,
        List.prefix_refl _⟩
    have genuine : t.Genuine g.diagram tc := Trail.genuine trail
    have recording : Recording t interest feasible g tc [] { g₁ with nextTestCase := g₁.nextTestCase + 1 } := by
      refine ⟨picked.later.trans later, genuine.extends good.ready picked.later.diagram, Nat.lt_succ_self _, ?_, ?_, by simp⟩
      · intro tc' mem same
        exact absurd same (Nat.ne_of_lt (good₁.ids tc' mem))
      · intro j _ listed
        obtain ⟨_, _, tc', mem, same⟩ := good₁.listed j g₁.nextTestCase listed
        exact absurd same.1 (Nat.ne_of_lt (good₁.ids tc' mem))
    apply (recordAll_ensures judges good recording (picked.sublist.nodup distinct) picked.credited).mono
    intro _ g₂ recording
    exact ⟨recording.later, fun _ => recording.grows good (by simp) (Nat.le_of_eq picked.next.symm)⟩

/-- What a generator and an engine work on. -/
def desk (g : Explored) (x : Explorer) (y : Exploration State) : Desk :=
  { diagram := g.diagram, surroundings := g.surroundings, engine := x, reached := y }

theorem Later.steady {busy : Option NodeId} (later : Later t interest feasible g g') (tracks : x.tracks = t.factory.tracks)
    (steady : Steady root busy (desk g x y)) : Steady root busy (desk g' x y) := by
  have ready : g'.diagram.Ready x.tracks := tracks ▸ later.good.ready
  have grown := (steady.onDiagram later.diagram ready).steady
  exact ⟨grown.free, grown.sound, grown.complete, grown.queued⟩

/-- A state that accepts a goal of the batch which is open there. -/
def Shows (g : Explored) (batch : List Nat) (s : State) : Prop :=
  ∃ i ∈ batch, i ∈ s.accepted ∧ OpenIn g s.presence i

section Targets

variable (fair : t.Fair T) (judges : t.Judges interest feasible) (serves : Serves t components x)
  (known : ∀ i ∈ batch, ∃ γ, t.goals.get? i = some γ) (distinct : batch.Nodup)

include serves in
/-- What is accepted in a state is recognized along the way to it. -/
theorem recognizes_of_accepted (crosses : t.Crosses) (sound : x.Sound d y.graph root)
    (branch : y.graph.Branch root route.nodes route.edges n) (here : y.graph.node? n = some v)
    (mem : i ∈ v.state.accepted) :
    ∃ γ, t.goals.get? i = some γ ∧ γ.criticalEdge ∈ route.edges ∧ γ.automaton.Recognizes route.edges := by
  have follow := (sound.journey branch here).follow
  obtain ⟨comp, watched, same, recognizes⟩ :=
    serves.watches.sound_of_follow follow ((sound.proper n v here).accepted i mem)
  obtain ⟨γ, goal, automaton⟩ := serves.goals comp watched
  rw [same] at goal
  rw [← automaton] at recognizes
  exact ⟨γ, goal, crosses i γ route.edges goal recognizes, recognizes⟩

include known in
theorem known_of_good (good : Good t interest feasible g) : ∀ i ∈ batch, ∃ γ, g.suite.goals.get? i = some γ := by
  intro i mem
  obtain ⟨γ, here⟩ := known i mem
  exact good.known i γ here

theorem Good.unresolved_of_openIn (good : Good t interest feasible g) (here : t.goals.get? i = some γ)
    (openIn : OpenIn g last i) : g.suite.resolved i = false := by
  obtain ⟨γ', now⟩ := good.known i γ here
  obtain ⟨c, leaves, _⟩ := openIn
  rw [← Bool.not_eq_true, good.sane.resolved_iff good.ready' now]
  exact fun none => none c leaves

include fair judges serves known distinct

theorem addReconstructed_ensures (good : Good t interest feasible g) (sound : x.Sound g.diagram y.graph root)
    (live : n ∈ y.targets) : Ensures T (addReconstructed batch y n) g fun _ g' => Later t interest feasible g g' ∧
      ((∀ v, y.graph.node? n = some v → Shows g batch v.state) →
        g.suite.testCases.length < g'.suite.testCases.length) := by
  obtain ⟨v, here, attached, _⟩ := Exploration.mem_targets.1 live
  obtain ⟨route, found, branch⟩ := routeTo_spec sound.tree attached
  have state : y.graph.state n = .ok v.state := by
    rw [StateGraph.state, node_eq_ok here]
    rfl
  rw [addReconstructed, ensures_bind, ensures_attempt (a := route) (t := g), ensures_bind,
    ensures_attempt (a := v.state) (t := g), ensures_bind, ensures_unresolved (known_of_good known good)]
  · refine (addTestCase_ensures fair judges good serves sound branch here ((distinct.filter _).filter _) ?_ []).mono ?_
    · intro i mem
      obtain ⟨γ, goal, critical, recognizes⟩ :=
        recognizes_of_accepted serves fair.crosses sound branch here (IdSet.contains_iff.1 (List.mem_filter.1 mem).2)
      exact ⟨γ, goal, critical, fun _ => recognizes⟩
    · intro _ g' h
      refine ⟨h.1, fun shows => h.2 ?_⟩
      obtain ⟨i, mem, accepted, openIn⟩ := shows v here
      obtain ⟨γ, goal⟩ := known i mem
      have left := good.unresolved_of_openIn goal openIn
      exact ⟨i, List.mem_filter.2 ⟨List.mem_filter.2 ⟨mem, by simp [left]⟩, IdSet.contains_iff.2 accepted⟩, openIn⟩
  · simp only [state, bind, Except.bind, pure, Except.pure]
  · simp only [found, bind, Except.bind, pure, Except.pure]

theorem addExplained_ensures (good : Good t interest feasible g) {b : Desk} {ce : Counterexample}
    (sound : x.Sound g.diagram b.reached.graph root) (explains : b.engine.explains = t.factory.explains)
    (explained : Explained b root n ce) : Ensures T (addExplained batch b.reached ce) g fun _ g' =>
      Later t interest feasible g g' ∧ ((∀ v, b.reached.graph.node? n = some v → Shows g batch v.state) →
        g.suite.testCases.length < g'.suite.testCases.length) := by
  obtain ⟨v, here, attached, _⟩ := Exploration.mem_targets.1 explained.live
  have kept : (ce.spurious || !b.reached.graph.contains ce.target) = false := by
    rw [explained.genuine, explained.target, contains_iff.2 ⟨v, here⟩]
    rfl
  have branch := explained.branch
  have unresolved := known_of_good known good
  have critical : ∀ i, Wanted t ce.route.edges i ↔ ∃ γ, g.suite.goals.get? i = some γ ∧
      ce.route.edges.contains γ.criticalEdge = true := by
    intro i
    constructor
    · intro wanted
      obtain ⟨γ, here, crosses, _⟩ := wanted
      obtain ⟨γ', now⟩ := good.known i γ here
      obtain ⟨γ₀, first, same⟩ := good.kept i γ' now
      rw [here] at first
      cases first
      exact ⟨γ', now, by simpa [same.criticalEdge] using crosses⟩
    · intro h
      obtain ⟨γ, now, crosses⟩ := h
      obtain ⟨γ₀, here, same⟩ := good.kept i γ now
      refine ⟨γ₀, here, ?_, fun plain => ?_⟩
      · simpa [same.criticalEdge] using crosses
      · rw [← explains, explained.asked] at plain
        cases plain
  classical
  rw [addExplained, kept]
  simp only [Bool.false_eq_true, if_false, ensures_bind]
  rw [ensures_unresolved unresolved]
  have picks := Ensures.filterM (T := T) (s := g) (l := batch.filter fun i => !g.suite.resolved i)
    (f := fun g => return ce.route.edges.contains (← goal g).criticalEdge)
    (p := fun i => decide (Wanted t ce.route.edges i)) fun i mem => by
      obtain ⟨γ, now⟩ := unresolved i (List.mem_filter.1 mem).1
      rw [ensures_bind, ensures_goal now]
      refine ⟨rfl, ?_⟩
      rw [Bool.eq_iff_iff, decide_eq_true_eq, critical]
      simp [now]
  apply picks.mono
  intro goals g' h
  obtain ⟨same, rfl⟩ := h
  rw [same]
  refine (addTestCase_ensures fair judges good serves sound branch here ((distinct.filter _).filter _) ?_ _).mono ?_
  · intro i mem
    exact of_decide_eq_true (List.mem_filter.1 mem).2
  · intro _ g' h
    refine ⟨h.1, fun shows => h.2 ?_⟩
    obtain ⟨i, mem, accepted, openIn⟩ := shows v here
    obtain ⟨γ, goal, crosses, recognizes⟩ := recognizes_of_accepted serves fair.crosses sound branch here accepted
    have left := good.unresolved_of_openIn goal openIn
    have wanted : Wanted t ce.route.edges i := ⟨γ, goal, crosses, fun _ => recognizes⟩
    exact ⟨i, List.mem_filter.2 ⟨List.mem_filter.2 ⟨mem, by simp [left]⟩, decide_eq_true wanted⟩, openIn⟩

end Targets

/-- The first step of a loop yields a test case if it can, and the others lose none. -/
theorem forM_grows {β : Type} {f : β → Procedure Explored PUnit} {l : List β} {shows : Prop}
    (good : Good t interest feasible g)
    (step : ∀ a ∈ l, ∀ g', Later t interest feasible g g' → Ensures T (f a) g' fun _ g'' =>
      Later t interest feasible g' g'' ∧
        (g' = g → shows → g'.suite.testCases.length < g''.suite.testCases.length)) :
    Ensures T (l.forM f) g fun _ g' => Later t interest feasible g g' ∧
      (shows → l ≠ [] → g.suite.testCases.length < g'.suite.testCases.length) := by
  let Done (done : List β) (g' : Explored) : Prop := Later t interest feasible g g' ∧ (done = [] → g' = g) ∧
    (shows → done ≠ [] → g.suite.testCases.length < g'.suite.testCases.length)
  have all : Ensures T (l.forM f) g fun _ g' => Done l g' := by
    apply Ensures.forM _ ⟨.refl good, fun _ => rfl, fun _ none => absurd rfl none⟩
    intro a done rest g' whole holds
    obtain ⟨later, first, grows⟩ := holds
    apply (step a (by simp [whole]) g' later).mono
    intro _ g'' h
    refine ⟨later.trans h.1, by simp, fun shown _ => ?_⟩
    have before := h.1.testCases.length_le
    by_cases start : done = []
    · have same := first start
      have more := h.2 same shown
      rwa [same] at more
    · exact Nat.lt_of_lt_of_le (grows shown start) before
  exact all.mono fun _ g' h => ⟨h.1, h.2.2⟩

/-- What is left after a harvest. -/
structure Harvested (t : Task) (interest : Nat → Prop) (feasible : Nat → Configuration → Prop) (root : NodeId)
    (x : Explorer) (y : Exploration State) (batch : List Nat) (g : Explored) (h : Harvest State) (g' : Explored) :
    Prop where
  later : Later t interest feasible g g'
  steady : Steady root none (desk g' x h.reached)
  disabled : h.reached.disabled = y.disabled
  spent : h.reached.targets = []
  created : (∀ n ∈ y.targets, ∀ v, y.graph.node? n = some v → Shows g batch v.state) → 0 < h.targets → 0 < h.created

theorem harvest_ensures (fair : t.Fair T) (judges : t.Judges interest feasible) (serves : Serves t components x)
    (known : ∀ i ∈ batch, ∃ γ, t.goals.get? i = some γ) (distinct : batch.Nodup) (good : Good t interest feasible g)
    (steady : Steady root none (desk g x y)) (explains : x.explains = t.factory.explains)
    (counterexamples : IdMap Counterexample)
    (explained : ∀ n ce, counterexamples.get? n = some ce → Explained (desk g x y) root n ce) :
    Ensures T (harvest batch counterexamples y) g (Harvested t interest feasible root x y batch g) := by
  have sound : ∀ g', Later t interest feasible g g' → x.Sound g'.diagram y.graph root := fun g' later =>
    (later.steady serves.tracks steady).sound
  let Shown : Prop := ∀ n ∈ y.targets, ∀ v, y.graph.node? n = some v → Shows g batch v.state
  have made : Ensures T (if counterexamples.isEmpty then y.targets.forM (addReconstructed batch y)
      else counterexamples.values.forM (addExplained batch y)) g fun _ g' => Later t interest feasible g g' ∧
      (Shown → y.targets ≠ [] → g.suite.testCases.length < g'.suite.testCases.length) := by
    split
    next =>
      apply forM_grows good
      intro n live g' later
      apply (addReconstructed_ensures fair judges serves known distinct later.good (sound g' later) live).mono
      intro _ g'' h
      exact ⟨h.1, fun same shown => h.2 fun v here => same ▸ shown n live v here⟩
    next some_ce =>
      have inhabited : counterexamples.values ≠ [] := by
        intro none
        have empty : counterexamples.entries = [] := List.map_eq_nil_iff.1 none
        rw [IdMap.isEmpty, empty] at some_ce
        exact some_ce rfl
      have whole : Ensures T (counterexamples.values.forM (addExplained batch y)) g fun _ g' =>
          Later t interest feasible g g' ∧ (Shown → counterexamples.values ≠ [] →
            g.suite.testCases.length < g'.suite.testCases.length) := by
        apply forM_grows good
        intro ce mem g' later
        obtain ⟨entry, there, same⟩ := List.mem_map.1 mem
        have found := explained entry.1 ce (IdMap.get?_eq_some_iff.2 (same ▸ there))
        have added := addExplained_ensures fair judges serves known distinct later.good (b := desk g x y)
          (sound g' later) explains found
        apply added.mono
        intro _ g'' h
        exact ⟨h.1, fun same shown => h.2 fun v here => same ▸ shown entry.1 found.live v here⟩
      apply whole.mono
      intro _ g' h
      exact ⟨h.1, fun shown _ => h.2 shown inhabited⟩
  rw [harvest]
  split
  next none =>
    refine ⟨.refl good, steady, rfl, List.isEmpty_iff.1 none, fun _ some_target => ?_⟩
    exact absurd some_target (Nat.lt_irrefl 0)
  next some_target =>
    rw [ensures_bind, ensures_get]
    have rest : ∀ g', Later t interest feasible g g' ∧
        (Shown → y.targets ≠ [] → g.suite.testCases.length < g'.suite.testCases.length) →
        Ensures T (do
          let created := (← get).suite.testCases.length - g.suite.testCases.length
          let reached ← attempt fun g : Explored => return (← y.consume y.targets, g)
          return (⟨y.targets.length, created, reached⟩ : Harvest State)) g'
          (Harvested t interest feasible root x y batch g) := by
      intro g' h
      obtain ⟨later, grows⟩ := h
      obtain ⟨z, consumed, steady', disabled, spent⟩ := (later.steady serves.tracks steady).consume
      have consumed : y.consume y.targets = .ok z := consumed
      rw [ensures_bind, ensures_get, ensures_bind, ensures_attempt (a := z) (t := g')]
      · refine ⟨later, steady', disabled, spent, fun shown _ => ?_⟩
        have more := grows shown (by simpa using some_target)
        exact Nat.sub_pos_of_lt more
      · simp only [consumed, bind, Except.bind, pure, Except.pure]
    have whole := made.bind fun _ g' h => rest g' h
    split at whole
    next empty =>
      simp only [empty, if_true]
      exact whole
    next more =>
      simp only [more]
      exact whole

end GoalCoverage.Generator
