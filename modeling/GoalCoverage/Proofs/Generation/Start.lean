import GoalCoverage.Goal.Criterion
import GoalCoverage.Proofs.Automaton.Reaching
import GoalCoverage.Proofs.Explorer.Composition
import GoalCoverage.Proofs.Generation.Progress

/-!
Generators before their first step. The invariant holds when nothing is recorded of the goals yet (`good_ofGoals`).
The goals of a criterion may be processed, and what the program reaches is what searches for them find.
-/

namespace GoalCoverage

namespace Goal

variable {γ : Goal}

/-- Nothing is recorded of the goal. -/
structure Fresh (γ : Goal) : Prop where
  remaining : γ.remaining = none
  infeasible : γ.infeasible = none
  covering : γ.covering = ∅

/-- The goal as a suite takes it in. -/
def enlisted (γ : Goal) (tracks : Bool) : Goal :=
  if tracks && γ.remaining.isNone then { γ with remaining := some .all } else γ

theorem sameAs_enlisted (γ : Goal) (tracks : Bool) : γ.SameAs (γ.enlisted tracks) := by
  rw [enlisted]
  split
  next => exact ⟨rfl, rfl, rfl, rfl, rfl⟩
  next => exact .refl γ

theorem Fresh.enlisted_eq (fresh : γ.Fresh) : γ.enlisted true = { γ with remaining := some .all } := by
  simp [enlisted, fresh.remaining]

/-- A goal of a program that the automaton for its edge observes. -/
structure Canonical (γ : Goal) (p : Program) : Prop where
  automaton : γ.automaton = .reaching γ.name γ.criticalEdge
  edge : γ.criticalEdge < p.edges.size
  entry : p.known γ.entry = true

theorem Canonical.enlisted {p : Program} (canonical : γ.Canonical p) (tracks : Bool) : (γ.enlisted tracks).Canonical p := by
  rw [Goal.enlisted]
  split
  next => exact ⟨canonical.automaton, canonical.edge, canonical.entry⟩
  next => exact canonical

end Goal

namespace Program

variable {p : Program} {c : Criterion} {trimmed : Bool} {γ γ' : Goal} {e : EdgeId}

theorem exists_entry (edge : e < p.edges.size) : p.entry = .ok 0 := by
  have bound := (p.ends_known p.edges[e] (Array.getElem_mem edge)).1
  have inhabited : p.locations.isEmpty = false := by
    rw [Array.isEmpty_eq_false_iff]
    intro none
    rw [none] at bound
    cases bound
  rw [entry, inhabited]
  rfl

theorem known_functionEntry (edge : e < p.edges.size) (function : String) :
    p.known ((p.functionEntry? function).getD 0) = true := by
  have bound := (p.ends_known p.edges[e] (Array.getElem_mem edge)).1
  rw [known, decide_eq_true_eq]
  cases found : p.functionEntry? function with
  | none => exact Nat.lt_of_le_of_lt (Nat.zero_le _) bound
  | some entry =>
    obtain ⟨before, after, whole, _⟩ := List.lookup_eq_some_iff.1 found
    have mem : (function, entry) ∈ p.entries := by simp [whole]
    exact p.entries_known _ mem

/-- Trimming leaves the goals of a criterion as they are. -/
theorem goals_eq (p : Program) (c : Criterion) (trimmed : Bool) : p.goals c trimmed = (p.selected c).mapIdx fun i e =>
    .forEdge (i + 1) e ((Distinct.ofList ((p.selected c).map p.functionOfEdge)).idxOf (p.functionOfEdge e))
      ((p.functionEntry? (p.functionOfEdge e)).getD 0) := by
  rw [goals]
  congr 1
  funext i e
  dsimp only
  split
  next => simp only [Goal.forEdge, Automaton.trim_reaching]
  next => rfl

theorem canonical_of_mem_goals (mem : γ ∈ p.goals c trimmed) : γ.Canonical p := by
  rw [goals_eq] at mem
  obtain ⟨i, bound, rfl⟩ := List.mem_mapIdx.1 mem
  have edge : (p.selected c)[i] < p.edges.size := List.mem_range.1 (List.mem_filter.1 (List.getElem_mem bound)).1
  exact ⟨rfl, edge, known_functionEntry edge _⟩

theorem fresh_of_mem_goals (mem : γ ∈ p.goals c trimmed) : γ.Fresh := by
  rw [goals_eq] at mem
  obtain ⟨i, bound, rfl⟩ := List.mem_mapIdx.1 mem
  exact ⟨rfl, rfl, rfl⟩

/-- Goals of a criterion have indices of their own. -/
theorem eq_of_mem_goals (mem : γ ∈ p.goals c trimmed) (mem' : γ' ∈ p.goals c trimmed) (same : γ.index = γ'.index) :
    γ = γ' := by
  rw [goals_eq] at mem mem'
  obtain ⟨i, bound, rfl⟩ := List.mem_mapIdx.1 mem
  obtain ⟨j, bound', rfl⟩ := List.mem_mapIdx.1 mem'
  cases Nat.succ.inj same
  rfl

end Program

namespace Suite

variable {tracks : Bool} {goals : List Goal} {i : Nat} {γ : Goal} {d : Diagram} {c : Configuration}

theorem addGoals_eq (s : Suite) (goals : List Goal) : ∃ predictions, s.addGoals goals =
    { s with
      predictions
      goals := (goals.map fun γ => (γ.index, γ.enlisted s.variability)).foldl (fun m e => m.insert e.1 e.2) s.goals } := by
  induction goals generalizing s with
  | nil => exact ⟨s.predictions, rfl⟩
  | cons γ rest ih =>
    obtain ⟨predictions, same⟩ := ih (s.addGoal γ)
    have index : (γ.enlisted s.variability).index = γ.index := (γ.sameAs_enlisted _).index
    refine ⟨predictions, ?_⟩
    rw [List.map_cons, List.foldl_cons, ← index]
    exact same

theorem of_get?_addGoals (known : (addGoals { variability := tracks } goals).goals.get? i = some γ) :
    ∃ γ₀ ∈ goals, γ₀.index = i ∧ γ = γ₀.enlisted tracks := by
  obtain ⟨predictions, same⟩ := addGoals_eq { variability := tracks } goals
  rw [same] at known
  obtain ⟨γ₀, mem, is⟩ := List.mem_map.1 (IdMap.mem_of_get?_ofList known)
  cases is
  exact ⟨γ₀, mem, rfl, rfl⟩

theorem exists_get?_addGoals (tracks : Bool) (mem : γ ∈ goals) :
    ∃ γ', (addGoals { variability := tracks } goals).goals.get? γ.index = some γ' := by
  obtain ⟨predictions, same⟩ := addGoals_eq { variability := tracks } goals
  rw [same]
  exact IdMap.exists_get?_ofList (List.mem_map_of_mem mem)

/-- A goal that the list does not contradict is taken in. -/
theorem get?_addGoals (mem : γ ∈ goals) (only : ∀ γ' ∈ goals, γ'.index = γ.index → γ' = γ) :
    (addGoals { variability := tracks } goals).goals.get? γ.index = some (γ.enlisted tracks) := by
  obtain ⟨γ', known⟩ := exists_get?_addGoals tracks mem
  obtain ⟨γ₀, mem₀, index, rfl⟩ := of_get?_addGoals known
  rw [known, only γ₀ mem₀ index]

theorem not_lists_addGoals {n : Nat} : ¬(addGoals { variability := tracks } goals).Lists i n := by
  obtain ⟨predictions, same⟩ := addGoals_eq { variability := tracks } goals
  rw [same]
  intro lists
  obtain ⟨ids, known, _⟩ := lists
  cases known

/-- What is known of a goal that was taken in while configurations are tracked. -/
theorem opened_addGoals (fresh : ∀ γ ∈ goals, γ.Fresh)
    (known : (addGoals { variability := true } goals).goals.get? i = some γ) :
    γ.remaining = some .all ∧ γ.infeasible = none ∧ γ.covering = ∅ := by
  obtain ⟨γ₀, mem, _, rfl⟩ := of_get?_addGoals known
  have new := fresh γ₀ mem
  rw [new.enlisted_eq]
  exact ⟨rfl, new.infeasible, new.covering⟩

theorem unaccounted_addGoals (fresh : tracks = true → ∀ γ ∈ goals, γ.Fresh) :
    ¬(addGoals { variability := tracks } goals).Covers d i c ∧
      ¬(addGoals { variability := tracks } goals).Excludes d i c := by
  obtain ⟨predictions, same⟩ := addGoals_eq { variability := tracks } goals
  have variability : (addGoals { variability := tracks } goals).variability = tracks := by rw [same]
  have infeasible : (addGoals { variability := tracks } goals).infeasible = ∅ := by rw [same]
  simp only [Covers, Excludes, variability, infeasible]
  cases tracks with
  | false => simp [not_lists_addGoals]
  | true =>
    simp only [if_true]
    constructor
    · intro covers
      obtain ⟨γ, known, n, r, entry, _⟩ := covers
      rw [(opened_addGoals (fresh rfl) known).2.2] at entry
      cases entry
    · intro excludes
      obtain ⟨γ, known, r, region, _⟩ := excludes
      rw [(opened_addGoals (fresh rfl) known).2.1] at region
      cases region

theorem sane_addGoals (fresh : tracks = true → d.WellFormed ∧ ∀ γ ∈ goals, γ.Fresh) :
    (addGoals { variability := tracks } goals).Sane d := by
  obtain ⟨predictions, same⟩ := addGoals_eq { variability := tracks } goals
  have variability : (addGoals { variability := tracks } goals).variability = tracks := by rw [same]
  have infeasible : (addGoals { variability := tracks } goals).infeasible = ∅ := by rw [same]
  have leaves : ∀ i γ c, (addGoals { variability := tracks } goals).goals.get? i = some γ →
      (addGoals { variability := tracks } goals).Leaves d i c := by
    intro i γ c known
    cases tracks with
    | false =>
      rw [leaves_iff_of_not_tracks variability]
      simp [not_lists_addGoals, infeasible]
    | true =>
      rw [Leaves, variability, if_pos rfl]
      refine ⟨γ, known, ?_⟩
      rw [Goal.openRegion, (opened_addGoals (fresh rfl).2 known).1]
      exact Diagram.holds_all
  refine ⟨fun i γ known => ?_, fun on i γ known => ?_, fun on i γ r known region => ?_, fun on i γ n o known entry => ?_,
    fun _ i _ n _ lists => absurd lists not_lists_addGoals, fun i γ c known => ?_⟩
  · obtain ⟨γ₀, _, index, rfl⟩ := of_get?_addGoals known
    exact (γ₀.sameAs_enlisted tracks).index.trans index
  · cases variability.symm.trans on
    exact ⟨.all, (opened_addGoals (fresh rfl).2 known).1, (fresh rfl).1.has_all⟩
  · cases variability.symm.trans on
    rw [(opened_addGoals (fresh rfl).2 known).2.1] at region
    cases region
  · cases variability.symm.trans on
    rw [(opened_addGoals (fresh rfl).2 known).2.2] at entry
    cases entry
  · have open' := leaves i γ c known
    have free := unaccounted_addGoals (d := d) (i := i) (c := c) fun on => (fresh on).2
    exact ⟨fun _ => free, fun _ => open'⟩

end Suite

namespace Generator

variable {settings : Settings} {program : Program} {goals : List Goal} {managed : Bool} {diagram : Diagram}
  {factory : ExplorerFactory} {clock : Nat → Duration} {g : Explored} {interest : Nat → Prop}
  {feasible : Nat → Configuration → Prop}

theorem ofGoals_eq_ok {F P : Type} {surroundings : F} {g : Generator F P}
    (made : ofGoals settings program goals managed diagram surroundings clock = .ok g) :
    g =
      { settings
        program
        diagram
        surroundings
        suite := Suite.addGoals { variability := settings.presenceConditions } goals
        order := .ofList (goals.mapIdx fun i γ => (γ.index, i))
        clock
        timeLimit := settings.timeLimit } := by
  rw [ofGoals] at made
  split at made
  next => cases made
  next => exact (Except.ok.inj made).symm

/-- What a generator works on, if it is made for these surroundings. -/
def task (g : Explored) : Task := ⟨g.diagram, g.surroundings, g.suite.goals⟩

theorem good_ofGoals (made : ofGoals settings factory.program goals managed diagram factory clock = .ok g)
    (tracks : settings.presenceConditions = factory.tracks) (unlimited : settings.timeLimit = none)
    (fresh : factory.tracks = true → diagram.WellFormed ∧ ∀ γ ∈ goals, γ.Fresh) : Good g.task interest feasible g := by
  have parts := ofGoals_eq_ok made
  obtain ⟨predictions, suite⟩ := Suite.addGoals_eq { variability := settings.presenceConditions } goals
  have none_listed : ∀ i n, ¬g.suite.Lists i n := by
    rw [parts]
    exact fun _ _ => Suite.not_lists_addGoals
  have unaccounted : ∀ i c, ¬g.suite.Covers g.diagram i c ∧ ¬g.suite.Excludes g.diagram i c := by
    rw [parts]
    exact fun _ _ => Suite.unaccounted_addGoals fun on => (fresh (tracks ▸ on)).2
  have sane : g.suite.Sane g.diagram := by
    rw [parts]
    exact Suite.sane_addGoals fun on => fresh (tracks ▸ on)
  have none_stored : g.suite.testCases = [] := by rw [parts, suite]
  have surroundings : g.surroundings = factory := by rw [parts]
  refine ⟨?_, rfl, ?_, ?_, .refl _, ?_, sane, fun i γ known => ⟨γ, known, .refl γ⟩, fun i γ known => ⟨γ, known⟩, ?_, ?_, ?_,
    fun i n lists => absurd lists (none_listed i n), fun i γ n o known entry => .inr ⟨γ, o, known, entry⟩, ?_,
    fun i c _ covers => absurd covers (unaccounted i c).1, fun i c _ excludes => absurd excludes (unaccounted i c).2⟩
  · rw [task, surroundings, parts]
  · rw [task, surroundings, parts, suite]
    exact tracks
  · rw [parts]
    exact unlimited
  · rw [task, surroundings, parts]
    exact fun on => (fresh on).1
  · simp [none_stored]
  · simp [none_stored]
  · simp [none_stored]
  · rw [parts, suite]

end Generator

end GoalCoverage
