import GoalCoverage.Proofs.Diagram.Built
import GoalCoverage.Proofs.Generation.Schedule
import GoalCoverage.Proofs.Generation.Start
import GoalCoverage.Proofs.Suite.Coverings

/-!
Verdicts on the goals of a criterion. Whenever generation without limits ends, a goal is covered just where the program
reaches its edge, and infeasible everywhere else.
-/

namespace GoalCoverage

open Procedure Diagram

namespace Program

variable {p : Program} {e : EdgeId}

/-- Some path from the entry ends with the edge and may be taken in the configuration. -/
def Reaches (p : Program) (d : Diagram) (e : EdgeId) (c : Configuration) : Prop :=
  ∃ path, p.IsPath (path ++ [e]) ∧ ∀ x ∈ path ++ [e], p.Allows d c x

theorem exists_path_iff : (∃ path, p.IsPath path ∧ e ∈ path) ↔ ∃ path, p.IsPath (path ++ [e]) := by
  constructor
  · intro h
    obtain ⟨path, isPath, mem⟩ := h
    obtain ⟨before, after, rfl⟩ := List.append_of_mem mem
    rw [← List.singleton_append, ← List.append_assoc] at isPath
    exact ⟨before, isPath.of_append⟩
  · intro h
    obtain ⟨path, isPath⟩ := h
    exact ⟨path ++ [e], isPath, by simp⟩

end Program

namespace Task

variable {t : Task} {i : Nat} {c : Configuration}

/-- Some path leads over the edge of the goal. -/
def Reaches (t : Task) (i : Nat) (c : Configuration) : Prop := ∃ γ path, t.goals.get? i = some γ ∧
  t.factory.program.IsPath (path ++ [γ.criticalEdge]) ∧ ∀ e ∈ path ++ [γ.criticalEdge], t.Passes c e

theorem reaches_iff {γ : Goal} (here : t.goals.get? i = some γ) : t.Reaches i c ↔ ∃ path,
    t.factory.program.IsPath (path ++ [γ.criticalEdge]) ∧ ∀ e ∈ path ++ [γ.criticalEdge], t.Passes c e := by
  simp [Reaches, here]

section Canonical

variable (canonical : ∀ i γ, t.goals.get? i = some γ → γ.Canonical t.factory.program)

include canonical

theorem fair_of_canonical (unlimited : t.factory.maxNodes = none)
    (manager : t.factory.tracks = true → t.diagram.WellFormed ∧ t.factory.program.Over t.diagram) :
    t.Fair (· = .exhausted) where
  exhausted := rfl
  unlimited := unlimited
  manager := manager
  free i γ here := by
    rw [(canonical i γ here).automaton]
    exact Automaton.not_guarded_reaching _ _
  crosses i γ trace here recognizes := by
    rw [(canonical i γ here).automaton, Automaton.recognizes_reaching] at recognizes
    exact recognizes
  known := by
    refine .inr fun i γ here => ?_
    have goal := canonical i γ here
    refine ⟨⟨0, Program.exists_entry goal.edge⟩, goal.entry, ?_⟩
    rw [goal.automaton, Explorer.unknownEdge?_eq_none]
    intro u mem e named
    have labels : u.label = .any ∨ u.label = .single γ.criticalEdge := by
      simp only [Automaton.reaching, List.mem_cons, List.not_mem_nil, or_false] at mem
      cases mem with
      | inl stays => exact .inl (congrArg Transition.label stays)
      | inr crosses => exact .inr (congrArg Transition.label crosses)
    cases labels with
    | inl any =>
      rw [any] at named
      exact absurd named (IdSet.not_mem_empty e)
    | inr single =>
      rw [single] at named
      rw [IdSet.mem_singleton.1 named]
      exact goal.edge

theorem judges_of_canonical : t.Judges (fun _ => True) t.Reaches where
  credited i γ path k c _ here isPath _ there passes := by
    obtain ⟨bound, is⟩ := List.getElem?_eq_some_iff.1 there
    have part : path.take (k + 1) = path.take k ++ [γ.criticalEdge] := by
      rw [← is]
      exact List.take_succ_eq_append_getElem bound
    rw [part] at passes
    refine ⟨γ, path.take k, here, ?_, passes⟩
    rw [← part]
    rw [← List.take_append_drop (k + 1) path] at isPath
    exact isPath.of_append
  found i γ c _ here can := by
    obtain ⟨γ', path, here', isPath, passes⟩ := can
    cases here.symm.trans here'
    refine ⟨path ++ [γ.criticalEdge], isPath, ?_, passes, fun j γ' there => ?_⟩
    · rw [(canonical i γ here).automaton, Automaton.recognizes_reaching]
      exact List.mem_append_right _ (List.mem_singleton_self _)
    · rw [(canonical j γ' there).automaton]
      obtain ⟨_, _, _, walk⟩ := isPath
      exact (Automaton.total_reaching _ _ _).exists_run fun e mem => walk.lt mem

end Canonical

end Task

namespace Suite

/-- The test case is recorded as covering the goal, by the suite or by the goal. -/
def Records (s : Suite) (i n : Nat) : Prop :=
  i ∈ s.goalsCoveredBy n ∨ ∃ γ o, s.goals.get? i = some γ ∧ γ.covering.get? n = some o

end Suite

namespace Generator

variable {t : Task} {interest : Nat → Prop} {feasible : Nat → Configuration → Prop} {g : Explored} {i n : Nat}
  {γ : Goal} {c : Configuration}

/-- Of a goal of interest that is resolved, everything is known. -/
theorem Good.decides (good : Good t interest feasible g) (here : t.goals.get? i = some γ) (wanted : interest i)
    (resolved : g.suite.resolved i = true) :
    (g.suite.Covers g.diagram i c ↔ feasible i c) ∧ (g.suite.Excludes g.diagram i c ↔ ¬feasible i c) := by
  obtain ⟨γ', now⟩ := good.known i γ here
  have closed := (good.sane.resolved_iff good.ready' now).1 resolved c
  have covered := good.covered i c wanted
  have excluded := good.excluded i c wanted
  rw [good.sane.balance i γ' c now] at closed
  tauto

/-- A test case that is recorded as covering a goal shows it. -/
theorem Good.shows (good : Good t interest feasible g) (here : t.goals.get? i = some γ) (fresh : γ.covering = ∅)
    (records : g.suite.Records i n) : ∃ tc, g.suite.testCase? n = some tc ∧ t.factory.program.IsPath tc.trace ∧
      γ.criticalEdge ∈ tc.trace := by
  have lists : g.suite.Lists i n := by
    cases records with
    | inl listed => exact Suite.mem_goalsCoveredBy.1 listed
    | inr entry =>
      obtain ⟨γ', o, now, entry⟩ := entry
      refine (good.entries i γ' n o now entry).resolve_right fun old => ?_
      obtain ⟨γ₀, o', first, entry'⟩ := old
      cases here.symm.trans first
      rw [fresh] at entry'
      cases entry'
  obtain ⟨γ', first, tc, mem, rfl, crosses⟩ := good.listed i n lists
  cases here.symm.trans first
  exact ⟨tc, Suite.testCase?_eq_of_mem good.distinct mem, (good.genuine tc mem).path, crosses⟩

section Criterion

variable {settings : Settings} {managed : Bool} {diagram : Diagram} {factory : ExplorerFactory} {clock : Nat → Duration}

theorem surroundings_eq (made : ofCriterion settings factory.program managed diagram factory clock = .ok g) :
    g.task.factory = factory ∧ g.task.diagram = diagram := by
  rw [task, ofGoals_eq_ok made]
  exact ⟨rfl, rfl⟩

theorem canonical_of_criterion (made : ofCriterion settings factory.program managed diagram factory clock = .ok g) :
    ∀ i γ, g.task.goals.get? i = some γ → γ.Canonical g.task.factory.program := by
  intro i γ here
  rw [(surroundings_eq made).1]
  rw [task, ofGoals_eq_ok made] at here
  obtain ⟨γ₀, mem, _, rfl⟩ := Suite.of_get?_addGoals here
  exact (Program.canonical_of_mem_goals mem).enlisted _

theorem get?_of_criterion (made : ofCriterion settings factory.program managed diagram factory clock = .ok g)
    (mem : γ ∈ factory.program.goals settings.criterion settings.optimizeGoalAutomata) :
    g.task.goals.get? γ.index = some (γ.enlisted settings.presenceConditions) := by
  rw [task, ofGoals_eq_ok made]
  exact Suite.get?_addGoals mem fun γ' mem' same => Program.eq_of_mem_goals mem' mem same

/-- Without configurations, a goal is covered if a path leads over its edge, and infeasible otherwise. -/
theorem generate_decides (made : ofCriterion settings factory.program managed diagram factory clock = .ok g)
    (untracked : settings.presenceConditions = false) (unlimited : settings.timeLimit = none)
    (unmanaged : factory.tracks = false) (unbounded : factory.maxNodes = none) {fuel : Nat} :
    Ensures (· = .exhausted) (generate Explorer.analysis fuel) g fun report g' =>
      report.sound = true ∧ g'.suite.timedOut = ∅ ∧
      ∀ γ ∈ factory.program.goals settings.criterion settings.optimizeGoalAutomata,
        (∃ covered, g'.suite.isCovered γ.index g'.diagram = .ok (covered, g'.diagram) ∧
          (covered = true ↔ ∃ path, factory.program.IsPath path ∧ γ.criticalEdge ∈ path)) ∧
        (g'.suite.isInfeasible γ.index = true ↔ ¬∃ path, factory.program.IsPath path ∧ γ.criticalEdge ∈ path) ∧
        ∀ n, g'.suite.Records γ.index n → ∃ tc, g'.suite.testCase? n = some tc ∧
          factory.program.IsPath tc.trace ∧ γ.criticalEdge ∈ tc.trace := by
  have canonical := canonical_of_criterion made
  have off : factory.tracks ≠ true := by simp [unmanaged]
  have same := (surroundings_eq made).1
  have fair : g.task.Fair (· = .exhausted) :=
    Task.fair_of_canonical canonical (same ▸ unbounded) fun on => absurd (same ▸ on) off
  have good : Good g.task (fun _ => True) g.task.Reaches g :=
    good_ofGoals made (untracked.trans unmanaged.symm) unlimited fun on => absurd on off
  apply (generate_ensures fair (Task.judges_of_canonical canonical) good).mono
  intro report g' h
  obtain ⟨later, sound, resolved⟩ := h
  refine ⟨sound, later.good.timedOut, fun γ mem => ?_⟩
  have here : g.task.goals.get? γ.index = some γ := by
    have enlisted := get?_of_criterion made mem
    rwa [untracked] at enlisted
  have variability : g'.suite.variability = false := by
    rw [later.good.variability, same, unmanaged]
  have reaches : ∀ c, g.task.Reaches γ.index c ↔ ∃ path, factory.program.IsPath path ∧ γ.criticalEdge ∈ path := by
    intro c
    rw [Task.reaches_iff here, same, Program.exists_path_iff]
    simp [Task.Passes, same, unmanaged]
  obtain ⟨covers, excludes⟩ := later.good.decides (c := fun _ => false) here trivial (resolved γ.index γ here)
  rw [reaches] at covers excludes
  simp only [Suite.Covers, Suite.Excludes, variability, Bool.false_eq_true, if_false] at covers excludes
  refine ⟨⟨_, Suite.isCovered_of_not_tracks variability, ?_⟩, ?_, fun n records => ?_⟩
  · rw [Suite.isPartiallyCovered_iff]
    exact covers
  · rw [Suite.isInfeasible, IdSet.contains_iff]
    exact excludes
  · have shown := later.good.shows here (Program.fresh_of_mem_goals mem).covering records
    rwa [same] at shown

section Detour

/-- A loop after the entry, and an edge that cannot be reached. -/
def detour : Program := .ofArrows 2 [(0, 1), (1, 1), (2, 1)]

def detourFactory : ExplorerFactory := { program := detour, tracks := false, maxNodes := none, explains := true }

def detourGenerator : Explored :=
  { settings := { goalsPerRun := 0 }
    program := detour
    diagram := .fresh
    surroundings := detourFactory
    suite := Suite.addGoals { variability := false } (detour.goals .edges true)
    order := .ofList ((detour.goals .edges true).mapIdx fun i γ => (γ.index, i))
    clock := fun _ => 0
    timeLimit := none }

theorem generate_decides_detour : ¬∃ path, detour.IsPath path ∧ 2 ∈ path := by
  have made : ofCriterion { goalsPerRun := 0 } detourFactory.program false .fresh detourFactory (fun _ => 0) =
      .ok detourGenerator := rfl
  have known : 2 < (detour.goals .edges true).length := by decide +kernel
  have index : ((detour.goals .edges true).get ⟨2, by decide +kernel⟩).index = 3 := by decide +kernel
  have edge : ((detour.goals .edges true).get ⟨2, by decide +kernel⟩).criticalEdge = 2 := by decide +kernel
  have marked : (finish (generate Explorer.analysis 20) detourGenerator).suite.isInfeasible 3 = true := by decide +kernel
  obtain ⟨_, done⟩ := exists_eq_ok (m := generate Explorer.analysis 20) (s := detourGenerator) (by decide +kernel)
  have ensured := (generate_decides made rfl rfl rfl rfl).of_eq_ok done
  have verdict := (ensured.2.2 _ (List.get_mem _ ⟨_, known⟩)).2.1
  rw [index, edge] at verdict
  exact verdict.1 marked

end Detour

/--
When configurations are tracked, the covering regions of a goal make up the configurations for which the program reaches
its edge, and the infeasible region is the rest.
-/
theorem generate_attributes (made : ofCriterion settings factory.program managed diagram factory clock = .ok g)
    (tracked : settings.presenceConditions = true) (unlimited : settings.timeLimit = none)
    (manager : factory.tracks = true) (unbounded : factory.maxNodes = none) (built : Built diagram)
    (presences : factory.program.Over diagram) {fuel : Nat} :
    Ensures (· = .exhausted) (generate Explorer.analysis fuel) g fun report g' =>
      report.sound = true ∧
      ∀ γ ∈ factory.program.goals settings.criterion settings.optimizeGoalAutomata,
        ∃ γ', g'.suite.goals.get? γ.index = some γ' ∧ γ'.remaining = some .empty ∧
          (∀ n o, γ'.covering.get? n = some o → ∃ r, o = some r ∧ g'.diagram.Has r) ∧
          (∀ c, γ'.Covers g'.diagram c ↔ factory.program.Reaches diagram γ.criticalEdge c) ∧
          (γ'.infeasible = none ↔ ∀ c, factory.program.Reaches diagram γ.criticalEdge c) ∧
          ∀ r, γ'.infeasible = some r → g'.diagram.Has r ∧
            ∀ c, g'.diagram.holds r c = true ↔ ¬factory.program.Reaches diagram γ.criticalEdge c := by
  have canonical := canonical_of_criterion made
  obtain ⟨same, shared⟩ := surroundings_eq made
  have fair : g.task.Fair (· = .exhausted) :=
    Task.fair_of_canonical canonical (same ▸ unbounded) fun _ => by
      rw [same, shared]
      exact ⟨built.wellFormed, presences⟩
  have good : Good g.task (fun _ => True) g.task.Reaches g :=
    good_ofGoals made (tracked.trans manager.symm) unlimited fun _ =>
      ⟨built.wellFormed, fun γ mem => Program.fresh_of_mem_goals mem⟩
  apply (generate_ensures fair (Task.judges_of_canonical canonical) good).mono
  intro report g' h
  obtain ⟨later, sound, resolved⟩ := h
  refine ⟨sound, fun γ mem => ?_⟩
  have here := get?_of_criterion made mem
  have edge : (γ.enlisted settings.presenceConditions).criticalEdge = γ.criticalEdge := (γ.sameAs_enlisted _).criticalEdge
  have variability : g'.suite.variability = true := by
    rw [later.good.variability, same, manager]
  have reaches : ∀ c, g.task.Reaches γ.index c ↔ factory.program.Reaches diagram γ.criticalEdge c := by
    intro c
    rw [Task.reaches_iff here, same, edge, Program.Reaches]
    simp [Task.Passes, same, shared, manager]
  obtain ⟨γ', now⟩ := later.good.known γ.index _ here
  obtain ⟨r, left, _⟩ := later.good.sane.remaining variability γ.index γ' now
  have closed := resolved γ.index _ here
  have decides := fun c => later.good.decides (c := c) here trivial closed
  simp only [reaches, Suite.Covers, Suite.Excludes, variability, if_true, now, Option.some.injEq, exists_eq_left'] at decides
  have sane := later.good.sane
  refine ⟨γ', now, ?_, fun n o entry => ?_, fun c => (decides c).1, ?_, fun u region => ?_⟩
  · have nothing : r.isEmpty = true := by simpa [Suite.resolved, variability, now, left] using closed
    rw [left, Region.isEmpty_iff.1 nothing]
  · exact (sane.covering variability γ.index γ' n o now entry).2
  · constructor
    · intro none c
      by_contra never
      obtain ⟨u, region, _⟩ := (decides c).2.2 never
      rw [none] at region
      cases region
    · intro always
      rw [Option.eq_none_iff_forall_ne_some]
      intro u region
      obtain ⟨has, inhabited⟩ := sane.infeasible variability γ.index γ' u now region
      have ready := later.good.ready' variability
      obtain ⟨c, holds⟩ := (ready.isEmpty_eq_false_iff has).1 inhabited
      exact (decides c).2.1 ⟨u, region, holds⟩ (always c)
  · refine ⟨(sane.infeasible variability γ.index γ' u now region).1, fun c => ?_⟩
    rw [← (decides c).2]
    simp [Goal.Excludes, region]

section Optional

def oneFeature : Diagram := (declare "A" .fresh).2

/-- Two edges, of which the first may be taken only with the feature. -/
def optional : Program :=
  ((Program.ofArrows 2 [(0, 1), (1, 2)]).restrict 0 ⟨2⟩).toOption.getD .empty

def optionalSettings : Settings := { goalsPerRun := 0, presenceConditions := true }

def optionalFactory : ExplorerFactory := { program := optional, tracks := true, maxNodes := none, explains := true }

def optionalGenerator : Explored :=
  { settings := optionalSettings
    program := optional
    diagram := oneFeature
    surroundings := optionalFactory
    suite := Suite.addGoals { variability := true } (optional.goals .edges true)
    order := .ofList ((optional.goals .edges true).mapIdx fun i γ => (γ.index, i))
    clock := fun _ => 0
    timeLimit := none }

theorem over_optional : optional.Over oneFeature := by
  have has : oneFeature.Has ⟨2⟩ := by
    rw [Has]
    decide +kernel
  have regions : ∀ edge ∈ optional.edges, edge.presence = none ∨ edge.presence = some ⟨2⟩ := by
    decide +kernel
  intro e edge there r presence
  cases regions edge (Array.mem_of_getElem? there) with
  | inl free =>
    rw [free] at presence
    cases presence
  | inr guarded =>
    rw [guarded] at presence
    exact Option.some.inj presence ▸ has

theorem generate_attributes_optional : ¬optional.Reaches oneFeature 1 fun _ => false := by
  have made : ofCriterion optionalSettings optionalFactory.program true oneFeature optionalFactory (fun _ => 0) =
      .ok optionalGenerator := rfl
  have known : 1 < (optional.goals .edges true).length := by decide +kernel
  have index : ((optional.goals .edges true).get ⟨1, by decide +kernel⟩).index = 2 := by decide +kernel
  have edge : ((optional.goals .edges true).get ⟨1, by decide +kernel⟩).criticalEdge = 1 := by decide +kernel
  obtain ⟨_, done⟩ := exists_eq_ok (m := generate Explorer.analysis 20) (s := optionalGenerator) (by decide +kernel)
  have ensured := (generate_attributes made rfl rfl rfl rfl (.call .fresh (.declare .fresh "A")) over_optional).of_eq_ok done
  obtain ⟨γ', now, _, _, _, _, infeasible⟩ := ensured.2 _ (List.get_mem _ ⟨_, known⟩)
  rw [edge] at infeasible
  rw [index] at now
  have region : ((finish (generate Explorer.analysis 20) optionalGenerator).suite.goals.get? 2).bind (·.infeasible) =
      some ⟨3⟩ := by decide +kernel
  rw [now] at region
  exact ((infeasible ⟨3⟩ region).2 fun _ => false).1 (by decide +kernel)

end Optional

end Criterion

end Generator

end GoalCoverage
