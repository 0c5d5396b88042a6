import GoalCoverage.Proofs.Generation.Verdict

/-!
Goals that do not interfere. Observers move together, so a goal whose automaton loses track of an execution takes it from
all other goals of its batch (`infeasible_beside_blocking`). When all automata follow the program, the verdict on a goal
depends on its own automaton only, whatever else is asked for (`generate_agrees`).
-/

namespace GoalCoverage

open Procedure

/-- A goal whose automaton follows every execution of the program, and accepts some that cross the goal's edge. -/
structure Goal.Apt (γ : Goal) (p : Program) : Prop where
  free : γ.automaton.isGuarded = false
  crosses : ∀ trace, γ.automaton.Recognizes trace → γ.criticalEdge ∈ trace
  follows : ∀ path, p.IsPath path → ∃ q, γ.automaton.Run path q

/-- The automata that goals of a criterion have are apt for any program. -/
theorem Goal.apt_of_reaching {γ : Goal} {p : Program} {name : String} (same : γ.automaton = .reaching name γ.criticalEdge) :
    γ.Apt p where
  free := same ▸ Automaton.not_guarded_reaching _ _
  crosses trace recognizes := by
    rw [same, Automaton.recognizes_reaching] at recognizes
    exact recognizes
  follows path isPath := by
    obtain ⟨_, _, _, walk⟩ := isPath
    rw [same]
    exact (Automaton.total_reaching _ _ _).exists_run fun e mem => walk.lt mem

namespace Task

variable {t : Task} {γ : Goal}

/-- Some path is accepted by the automaton of the goal. -/
def Accepts (t : Task) (i : Nat) (_ : Configuration) : Prop :=
  ∃ γ path, t.goals.get? i = some γ ∧ t.factory.program.IsPath path ∧ γ.automaton.Recognizes path

/-- What one goal is credited with or searched for does not depend on other goals if these follow the program. -/
theorem judges_of_apt (untracked : t.factory.tracks = false) (here : t.goals.get? γ.index = some γ)
    (apt : ∀ i γ', t.goals.get? i = some γ' → γ'.Apt t.factory.program)
    (shown : t.factory.explains = true → ∀ path, t.factory.program.IsPath path → γ.criticalEdge ∈ path →
      γ.automaton.Recognizes path) : t.Judges (· = γ.index) t.Accepts where
  credited i γ' path k _ wanted here' isPath recognized there _ := by
    subst wanted
    cases here.symm.trans here'
    refine ⟨γ, path, here, isPath, ?_⟩
    cases explains : t.factory.explains with
    | true => exact shown explains path isPath (List.mem_of_getElem? there)
    | false => exact recognized explains
  found i γ' _ _ here' accepts := by
    obtain ⟨γ₀, path, first, isPath, recognizes⟩ := accepts
    cases first.symm.trans here'
    refine ⟨path, isPath, recognizes, fun _ _ tracks => ?_, fun j γ' there => (apt j γ' there).follows path isPath⟩
    cases untracked.symm.trans tracks

end Task

namespace Generator

variable {settings settings₁ settings₂ : Settings} {managed managed₁ managed₂ : Bool} {diagram diagram₁ diagram₂ : Diagram}
  {factory : ExplorerFactory} {goals goals₁ goals₂ : List Goal} {clock clock₁ clock₂ : Nat → Duration}
  {g g' g₁ g₁' g₂ g₂' : Explored} {γ : Goal} {fuel fuel₁ fuel₂ : Nat}

/-- Without configurations, a goal is covered if its automaton accepts a path of the program, and infeasible otherwise. -/
theorem generate_finds (made : ofGoals settings factory.program goals managed diagram factory clock = .ok g)
    (plain : settings.presenceConditions = false) (unlimited : settings.timeLimit = none) (untracked : factory.tracks = false)
    (unbounded : factory.maxNodes = none) (apt : ∀ γ ∈ goals, γ.Apt factory.program) (mem : γ ∈ goals)
    (only : ∀ γ' ∈ goals, γ'.index = γ.index → γ' = γ)
    (shown : factory.explains = true → ∀ path, factory.program.IsPath path → γ.criticalEdge ∈ path →
      γ.automaton.Recognizes path) : Ensures anything (generate Explorer.analysis fuel) g fun _ g' =>
        (g'.suite.isPartiallyCovered γ.index = true ↔
          ∃ path, factory.program.IsPath path ∧ γ.automaton.Recognizes path) ∧
        g'.suite.isInfeasible γ.index = !g'.suite.isPartiallyCovered γ.index := by
  have off : factory.tracks ≠ true := by simp [untracked]
  have parts := ofGoals_eq_ok made
  have task : g.task = ⟨diagram, factory, (Suite.addGoals { variability := false } goals).goals⟩ := by
    rw [Generator.task, parts, plain]
  have enlisted : ∀ i γ', g.task.goals.get? i = some γ' → ∃ γ₀ ∈ goals, γ₀.index = i ∧ γ' = γ₀ := by
    intro i γ' here
    rw [task] at here
    exact Suite.of_get?_addGoals here
  have apt' : ∀ i γ', g.task.goals.get? i = some γ' → γ'.Apt factory.program := by
    intro i γ' here
    obtain ⟨γ₀, mem, _, rfl⟩ := enlisted i γ' here
    exact apt γ' mem
  have here : g.task.goals.get? γ.index = some γ := by
    rw [task]
    exact Suite.get?_addGoals mem only
  have fair : g.task.Fair anything := by
    rw [task] at apt' ⊢
    exact ⟨trivial, unbounded, fun on => absurd on off, fun i γ' here => (apt' i γ' here).free,
      fun i γ' trace here => (apt' i γ' here).crosses trace, .inl fun _ => trivial⟩
  have judges : g.task.Judges (· = γ.index) g.task.Accepts := by
    apply Task.judges_of_apt _ here _ _ <;> rw [task]
    · exact untracked
    · rw [task] at apt'
      exact apt'
    · exact shown
  have good : Good g.task (· = γ.index) g.task.Accepts g :=
    good_ofGoals made (plain.trans untracked.symm) unlimited fun on => absurd on off
  apply (generate_ensures fair judges good).mono
  intro report g' h
  obtain ⟨later, _, resolved⟩ := h
  have variability : g'.suite.variability = false := by
    rw [later.good.variability, task, untracked]
  have accepts : ∀ c, g.task.Accepts γ.index c ↔ ∃ path, factory.program.IsPath path ∧ γ.automaton.Recognizes path := by
    intro c
    simp only [Task.Accepts, here, Option.some.injEq, exists_eq_left', exists_and_left]
    rw [task]
  obtain ⟨covers, excludes⟩ := later.good.decides (c := fun _ => false) here rfl (resolved γ.index γ here)
  rw [accepts] at covers excludes
  simp only [Suite.Covers, Suite.Excludes, variability, Bool.false_eq_true, if_false] at covers excludes
  rw [← Suite.isPartiallyCovered_iff] at covers
  rw [← IdSet.contains_iff, ← Suite.isInfeasible, ← covers] at excludes
  refine ⟨covers, Bool.eq_iff_iff.2 ?_⟩
  rw [excludes, Bool.not_eq_true', Bool.not_eq_true]

/--
Two generations with goals of any kind give a goal that both have the same verdict, if all automata follow the program and,
where executions are recorded by the edges that they cross, the automaton of the goal accepts whatever crosses its edge.
-/
theorem generate_agrees (made₁ : ofGoals settings₁ factory.program goals₁ managed₁ diagram₁ factory clock₁ = .ok g₁)
    (made₂ : ofGoals settings₂ factory.program goals₂ managed₂ diagram₂ factory clock₂ = .ok g₂)
    (plain : settings₁.presenceConditions = false ∧ settings₂.presenceConditions = false)
    (unlimited : settings₁.timeLimit = none ∧ settings₂.timeLimit = none) (untracked : factory.tracks = false)
    (unbounded : factory.maxNodes = none) (apt : ∀ γ ∈ goals₁ ++ goals₂, γ.Apt factory.program)
    (mem : γ ∈ goals₁ ∧ γ ∈ goals₂) (only : ∀ γ' ∈ goals₁ ++ goals₂, γ'.index = γ.index → γ' = γ)
    (shown : factory.explains = true → ∀ path, factory.program.IsPath path → γ.criticalEdge ∈ path →
      γ.automaton.Recognizes path) {report₁ report₂ : Report}
    (ok₁ : generate Explorer.analysis fuel₁ g₁ = .ok report₁ g₁')
    (ok₂ : generate Explorer.analysis fuel₂ g₂ = .ok report₂ g₂') :
    (g₁'.suite.isPartiallyCovered γ.index = true ∧ g₂'.suite.isPartiallyCovered γ.index = true ∧
      g₁'.suite.isInfeasible γ.index = false ∧ g₂'.suite.isInfeasible γ.index = false) ∨
    (g₁'.suite.isInfeasible γ.index = true ∧ g₂'.suite.isInfeasible γ.index = true ∧
      g₁'.suite.isPartiallyCovered γ.index = false ∧ g₂'.suite.isPartiallyCovered γ.index = false) := by
  obtain ⟨covered₁, infeasible₁⟩ := (generate_finds made₁ plain.1 unlimited.1 untracked unbounded
    (fun γ' mem' => apt γ' (List.mem_append_left _ mem')) mem.1 (fun γ' mem' => only γ' (List.mem_append_left _ mem'))
    shown).of_eq_ok ok₁
  obtain ⟨covered₂, infeasible₂⟩ := (generate_finds made₂ plain.2 unlimited.2 untracked unbounded
    (fun γ' mem' => apt γ' (List.mem_append_right _ mem')) mem.2 (fun γ' mem' => only γ' (List.mem_append_right _ mem'))
    shown).of_eq_ok ok₂
  have same := Bool.eq_iff_iff.2 (covered₁.trans covered₂.symm)
  rw [infeasible₁, infeasible₂, same]
  cases g₂'.suite.isPartiallyCovered γ.index with
  | true => exact .inl ⟨rfl, rfl, rfl, rfl⟩
  | false => exact .inr ⟨rfl, rfl, rfl, rfl⟩

section Fork

/-- Two edges after the entry, and one that cannot be reached. -/
def fork : Program := .ofArrows 3 [(0, 1), (1, 2), (3, 3)]

def forkFactory : ExplorerFactory := { program := fork, tracks := false, maxNodes := none, explains := true }

def forkSettings : Settings := { goalsPerRun := 0 }

def forkGenerator (goals : List Goal) : Explored :=
  { settings := forkSettings
    program := fork
    diagram := .fresh
    surroundings := forkFactory
    suite := Suite.addGoals { variability := false } goals
    order := .ofList (goals.mapIdx fun i γ => (γ.index, i))
    clock := fun _ => 0
    timeLimit := none }

theorem made_forkGenerator (goals : List Goal) :
    ofGoals forkSettings forkFactory.program goals false .fresh forkFactory (fun _ => 0) = .ok (forkGenerator goals) := rfl

/-- The goal of the edge that cannot be reached, with an automaton that does not wait for it. -/
def blocking : Goal :=
  { Goal.forEdge 2 2 0 0 with
    automaton :=
      { Automaton.reaching "G2" 2 with
        transitions := [⟨0, 1, .single 2⟩]
        transitions_lt := fun t mem => by
          rw [List.mem_singleton.1 mem]
          exact ⟨Nat.zero_lt_two, Nat.one_lt_two⟩ } }

theorem generate_agrees_fork :
    (finish (generate Explorer.analysis 20) (forkGenerator [.forEdge 1 1 0 0, .forEdge 2 2 0 0])).suite.isInfeasible 1 = false := by
  have apt : ∀ γ ∈ [Goal.forEdge 1 1 0 0] ++ [.forEdge 1 1 0 0, .forEdge 2 2 0 0], γ.Apt fork := by
    intro γ mem
    simp only [List.cons_append, List.nil_append, List.mem_cons, List.not_mem_nil, or_false] at mem
    rcases mem with rfl | rfl | rfl <;> exact Goal.apt_of_reaching rfl
  have only : ∀ γ ∈ [Goal.forEdge 1 1 0 0] ++ [.forEdge 1 1 0 0, .forEdge 2 2 0 0], γ.index = 1 → γ = .forEdge 1 1 0 0 := by
    intro γ mem index
    simp only [List.cons_append, List.nil_append, List.mem_cons, List.not_mem_nil, or_false] at mem
    rcases mem with rfl | rfl | rfl
    · rfl
    · rfl
    · cases index
  have mem : Goal.forEdge 1 1 0 0 ∈ [Goal.forEdge 1 1 0 0] ∧ Goal.forEdge 1 1 0 0 ∈ [.forEdge 1 1 0 0, .forEdge 2 2 0 0] :=
    ⟨List.mem_cons_self, List.mem_cons_self⟩
  obtain ⟨_, alone⟩ := exists_eq_ok (m := generate Explorer.analysis 20) (s := forkGenerator [.forEdge 1 1 0 0]) (by decide +kernel)
  obtain ⟨_, both⟩ := exists_eq_ok (m := generate Explorer.analysis 20)
    (s := forkGenerator [.forEdge 1 1 0 0, .forEdge 2 2 0 0]) (by decide +kernel)
  have covered : (finish (generate Explorer.analysis 20) (forkGenerator [.forEdge 1 1 0 0])).suite.isPartiallyCovered 1 = true := by
    decide +kernel
  have agreed := generate_agrees (made_forkGenerator _) (made_forkGenerator _) ⟨rfl, rfl⟩ ⟨rfl, rfl⟩ rfl rfl apt mem only
    (fun _ path _ crosses => (Automaton.recognizes_reaching _ _).2 crosses) alone both
  rcases agreed with verdict | verdict
  · exact verdict.2.2.2
  · have uncovered := verdict.2.2.1
    rw [show (Goal.forEdge 1 1 0 0).index = 1 from rfl, covered] at uncovered
    cases uncovered

/-- A goal is covered alone, but called infeasible beside a goal whose automaton has no move on the edges that lead to it. -/
theorem infeasible_beside_blocking :
    (finish (generate Explorer.analysis 20) (forkGenerator [.forEdge 1 1 0 0])).suite.isPartiallyCovered 1 = true ∧
    (result? (generate Explorer.analysis 20) (forkGenerator [.forEdge 1 1 0 0, blocking])).any (·.sound) = true ∧
    (finish (generate Explorer.analysis 20) (forkGenerator [.forEdge 1 1 0 0, blocking])).suite.isInfeasible 1 = true := by
  decide +kernel

end Fork

end Generator

end GoalCoverage
