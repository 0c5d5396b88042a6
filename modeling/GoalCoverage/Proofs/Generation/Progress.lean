import GoalCoverage.Explorer.Run
import GoalCoverage.Generation.Schedule
import GoalCoverage.Proofs.Automaton.Run
import GoalCoverage.Proofs.Generation.Rules
import GoalCoverage.Proofs.Walk

/-!
The invariant of generators. What is covered of a goal is feasible, what is excluded is not (`Good`), and every
step only takes away from what is open (`Later`). Feasibility is a parameter: `Judges` says what it has to do
with the paths of the program.
-/

namespace GoalCoverage

/-- What is fixed while goals are processed. -/
structure Task where
  diagram : Diagram
  factory : ExplorerFactory
  goals : IdMap Goal

namespace Task

/-- An edge may be taken. -/
def Passes (t : Task) (c : Configuration) (e : EdgeId) : Prop :=
  t.factory.tracks = true → t.factory.program.Allows t.diagram c e

/-- For the goals of interest, `feasible` is what test cases show and what searches find. -/
structure Judges (t : Task) (interest : Nat → Prop) (feasible : Nat → Configuration → Prop) : Prop where
  credited : ∀ i g path k c, interest i → t.goals.get? i = some g → t.factory.program.IsPath path →
    (t.factory.explains = false → g.automaton.Recognizes path) → path[k]? = some g.criticalEdge →
    (∀ e ∈ path.take (k + 1), t.Passes c e) → feasible i c
  found : ∀ i g c, interest i → t.goals.get? i = some g → feasible i c → ∃ path, t.factory.program.IsPath path ∧
    g.automaton.Recognizes path ∧ (∀ e ∈ path, t.Passes c e) ∧
    ∀ j g', t.goals.get? j = some g' → ∃ q, g'.automaton.Run path q

/-- The regions of the program belong to the diagram, if configurations are tracked. -/
def Managed (t : Task) : Prop := t.factory.tracks = true → t.diagram.WellFormed ∧ t.factory.program.Over t.diagram

/-- Whatever their guards are, automata only recognize what crosses the critical edge. -/
def Crosses (t : Task) : Prop :=
  ∀ i g trace, t.goals.get? i = some g → g.automaton.Recognizes trace → g.criticalEdge ∈ trace

/-- Goals that may be processed, and a failure predicate that tolerates what may go wrong. -/
structure Fair (t : Task) (T : Failure → Prop) : Prop where
  exhausted : T .exhausted
  unlimited : t.factory.maxNodes = none
  manager : t.factory.tracks = true → t.diagram.WellFormed ∧ t.factory.program.Over t.diagram
  free : ∀ i g, t.goals.get? i = some g → g.automaton.isGuarded = false
  crosses : ∀ i g trace, t.goals.get? i = some g → g.automaton.Recognizes trace → g.criticalEdge ∈ trace
  known : (∀ failure, T failure) ∨ ∀ i g, t.goals.get? i = some g → (∃ entry, t.factory.program.entry = .ok entry) ∧
    t.factory.program.known g.entry = true ∧ Explorer.unknownEdge? t.factory.program g.automaton = none

/-- A test case whose trace is a path that its regions allow. -/
structure Genuine (t : Task) (d : Diagram) (tc : TestCase) : Prop where
  path : t.factory.program.IsPath tc.trace
  regions : t.factory.tracks = true → ∀ k r, tc.presenceAfter k = some r → d.Has r ∧
    ∀ c, d.holds r c = true → ∀ e ∈ tc.trace.take k, t.Passes c e

/-- A path covers a goal for a region. -/
structure Credit (t : Task) (γ : Goal) (path : List EdgeId) (d : Diagram) (region : Option Region) : Prop where
  known : t.factory.tracks = true → d.Knows region
  recognized : t.factory.explains = false → γ.automaton.Recognizes path
  critical : γ.criticalEdge ∈ path
  crossed : ∀ c, (t.factory.tracks = true → d.Within region c) →
    ∃ k, path[k]? = some γ.criticalEdge ∧ ∀ e ∈ path.take (k + 1), t.Passes c e

variable {t : Task} {d d' : Diagram} {tc : TestCase} {γ : Goal} {path : List EdgeId} {region : Option Region}

theorem Credit.extends (credit : t.Credit γ path d region) (ready : d.Ready t.factory.tracks) (ext : d.Extends d') :
    t.Credit γ path d' region where
  known tracks := ext.knows (credit.known tracks)
  recognized := credit.recognized
  critical := credit.critical
  crossed c within := credit.crossed c fun tracks =>
    (ext.within_iff (ready tracks) (credit.known tracks)).1 (within tracks)

theorem Genuine.extends (genuine : t.Genuine d tc)
    (ready : d.Ready t.factory.tracks) (ext : d.Extends d') : t.Genuine d' tc where
  path := genuine.path
  regions tracks k r known := by
    obtain ⟨has, passes⟩ := genuine.regions tracks k r known
    refine ⟨ext.has has, fun c holds => passes c ?_⟩
    rwa [ext.holds_eq (ready tracks) has] at holds

end Task

namespace Generator

open Procedure Diagram

abbrev Explored := Generator ExplorerFactory IdSet

variable {α : Type} {t : Task} {interest : Nat → Prop} {feasible : Nat → Configuration → Prop} {g g' g'' : Explored}
  {T : Failure → Prop} {i j : Nat} {c : Configuration} {d : Diagram}

structure Good (t : Task) (interest : Nat → Prop) (feasible : Nat → Configuration → Prop) (g : Explored) : Prop where
  program : g.program = t.factory.program
  surroundings : g.surroundings = t.factory
  variability : g.suite.variability = t.factory.tracks
  unlimited : g.timeLimit = none
  diagram : t.diagram.Extends g.diagram
  ready : g.diagram.Ready t.factory.tracks
  sane : g.suite.Sane g.diagram
  kept : ∀ i γ, g.suite.goals.get? i = some γ → ∃ γ₀, t.goals.get? i = some γ₀ ∧ γ₀.SameAs γ
  known : ∀ i γ₀, t.goals.get? i = some γ₀ → ∃ γ, g.suite.goals.get? i = some γ
  genuine : ∀ tc ∈ g.suite.testCases, t.Genuine g.diagram tc
  ids : ∀ tc ∈ g.suite.testCases, tc.id < g.nextTestCase
  distinct : (g.suite.testCases.map (·.id)).Nodup
  listed : ∀ i n, g.suite.Lists i n → ∃ γ, t.goals.get? i = some γ ∧
    ∃ tc ∈ g.suite.testCases, tc.id = n ∧ γ.criticalEdge ∈ tc.trace
  entries : ∀ i γ n o, g.suite.goals.get? i = some γ → γ.covering.get? n = some o →
    g.suite.Lists i n ∨ ∃ γ₀ o', t.goals.get? i = some γ₀ ∧ γ₀.covering.get? n = some o'
  timedOut : g.suite.timedOut = ∅
  covered : ∀ i c, interest i → g.suite.Covers g.diagram i c → feasible i c
  excluded : ∀ i c, interest i → g.suite.Excludes g.diagram i c → ¬feasible i c

/-- What becomes of a generator. -/
structure Later (t : Task) (interest : Nat → Prop) (feasible : Nat → Configuration → Prop) (g g' : Explored) :
    Prop where
  good : Good t interest feasible g'
  settings : g'.settings = g.settings
  diagram : g.diagram.Extends g'.diagram
  leaves : ∀ i c, g'.suite.Leaves g'.diagram i c → g.suite.Leaves g.diagram i c
  testCases : g.suite.testCases <+: g'.suite.testCases

theorem Later.refl (good : Good t interest feasible g) : Later t interest feasible g g :=
  ⟨good, rfl, .refl _, fun _ _ h => h, List.prefix_refl _⟩

theorem Later.trans (first : Later t interest feasible g g') (second : Later t interest feasible g' g'') :
    Later t interest feasible g g'' where
  good := second.good
  settings := second.settings.trans first.settings
  diagram := first.diagram.trans second.diagram
  leaves i c h := first.leaves i c (second.leaves i c h)
  testCases := first.testCases.trans second.testCases

theorem Good.ready' (good : Good t interest feasible g) : g.diagram.Ready g.suite.variability := by
  rw [good.variability]
  exact good.ready

/-- Resolved goals stay resolved. -/
theorem Later.resolved (later : Later t interest feasible g g') (good : Good t interest feasible g) {γ : Goal}
    (here : t.goals.get? i = some γ) (resolved : g.suite.resolved i = true) : g'.suite.resolved i = true := by
  obtain ⟨γ₁, known⟩ := good.known i γ here
  obtain ⟨γ₂, known'⟩ := later.good.known i γ here
  rw [later.good.sane.resolved_iff later.good.ready' known']
  intro c open'
  exact (good.sane.resolved_iff good.ready' known).1 resolved c (later.leaves i c open')

section Steps

variable (good : Good t interest feasible g)

include good

theorem Good.grown {d' : Diagram} (ext : g.diagram.Extends d') (ready : d'.Ready t.factory.tracks) :
    Later t interest feasible g { g with diagram := d' } where
  good :=
    { good with
      diagram := good.diagram.trans ext
      ready := ready
      sane := good.sane.extends good.ready' ext
      genuine := fun tc mem => (good.genuine tc mem).extends good.ready ext
      covered := fun i c wanted covers => good.covered i c wanted ((good.sane.covers_iff good.ready' ext).1 covers)
      excluded := fun i c wanted excludes =>
        good.excluded i c wanted ((good.sane.excludes_iff good.ready' ext).1 excludes) }
  settings := rfl
  diagram := ext
  leaves _ _ h := (good.sane.leaves_iff good.ready' ext).1 h
  testCases := List.prefix_refl _

/-- Booking is right if what is covered is feasible and what is excluded is not. -/
theorem Good.booked {s' : Suite} {d' : Diagram} {test : Option Nat} {covered excluded : Configuration → Prop} {γ : Goal}
    (booked : g.suite.Booked s' g.diagram d' i test covered excluded) (ext : g.diagram.Extends d')
    (ready : d'.Ready t.factory.tracks) (here : t.goals.get? i = some γ)
    (listed : ∀ n, test = some n → ∃ tc ∈ g.suite.testCases, tc.id = n ∧ γ.criticalEdge ∈ tc.trace)
    (right : interest i → (∀ c, covered c → feasible i c) ∧ ∀ c, excluded c → ¬feasible i c) :
    Later t interest feasible g { g with diagram := d', suite := s' } where
  good :=
    { good with
      variability := booked.variability.trans good.variability
      diagram := good.diagram.trans ext
      ready := ready
      sane := booked.sane
      kept := fun j γ' known => by
        obtain ⟨γ₁, before, same⟩ := booked.kept j γ' known
        obtain ⟨γ₀, first, same₀⟩ := good.kept j γ₁ before
        exact ⟨γ₀, first, same₀.trans same⟩
      known := fun j γ₀ first => by
        obtain ⟨γ₁, before⟩ := good.known j γ₀ first
        exact booked.known j γ₁ before
      genuine := fun tc mem => (good.genuine tc (booked.testCases ▸ mem)).extends good.ready ext
      ids := fun tc mem => good.ids tc (booked.testCases ▸ mem)
      distinct := booked.testCases ▸ good.distinct
      listed := fun j n lists => by
        rw [booked.testCases]
        cases (booked.lists j n).1 lists with
        | inl old => exact good.listed j n old
        | inr new =>
          obtain ⟨rfl, same⟩ := new
          exact ⟨γ, here, listed n same⟩
      entries := fun j γ' n o known entry => by
        cases booked.entries j γ' n o known entry with
        | inl lists => exact .inl lists
        | inr old =>
          obtain ⟨γ₁, o', before, entry'⟩ := old
          exact (good.entries j γ₁ n o' before entry').imp_left fun lists => (booked.lists j n).2 (.inl lists)
      timedOut := booked.timedOut.trans good.timedOut
      covered := fun j c wanted covers => by
        cases (booked.covers j c).1 covers with
        | inl old => exact good.covered j c wanted old
        | inr new =>
          obtain ⟨rfl, new⟩ := new
          exact (right wanted).1 c new
      excluded := fun j c wanted excludes => by
        cases (booked.excludes j c).1 excludes with
        | inl old => exact good.excluded j c wanted old
        | inr new =>
          obtain ⟨rfl, new⟩ := new
          exact (right wanted).2 c new }
  settings := rfl
  diagram := ext
  leaves j c h := ((booked.leaves j c).1 h).1
  testCases := by rw [booked.testCases]

theorem Good.stored {tc : TestCase} (genuine : t.Genuine g.diagram tc) (id : tc.id < g.nextTestCase) :
    Later t interest feasible g { g with suite := g.suite.stored tc } := by
  rw [Suite.stored_eq]
  refine ⟨{ good with genuine := ?_, ids := ?_, distinct := Suite.nodup_stored good.distinct, listed := ?_, sane := ?_ }, rfl,
    .refl _, fun _ _ h => h, g.suite.prefix_stored tc⟩
  · have sane := good.sane
    exact ⟨sane.index, sane.remaining, sane.infeasible, sane.covering, sane.listed, sane.balance⟩
  · exact fun tc' mem => (Suite.mem_stored mem).elim (good.genuine tc') fun new => new ▸ genuine
  · exact fun tc' mem => (Suite.mem_stored mem).elim (good.ids tc') fun new => new ▸ id
  · intro j n lists
    obtain ⟨γ, here, tc', mem, same⟩ := good.listed j n lists
    exact ⟨γ, here, tc', (g.suite.prefix_stored tc).subset mem, same⟩

end Steps

/-- Records the coverage of a goal by a stored test case. -/
theorem credit_ensures (judges : t.Judges interest feasible) (good : Good t interest feasible g) {γ : Goal} {tc : TestCase}
    {region : Option Region} (here : t.goals.get? i = some γ) (mem : tc ∈ g.suite.testCases)
    (fresh : t.factory.tracks = true → ¬g.suite.Lists i tc.id) (credit : t.Credit γ tc.trace g.diagram region) :
    Ensures T (changeSuite (·.recordCoverage tc.id i region)) g fun _ g' => Later t interest feasible g g' ∧
      (∀ j n, g'.suite.Lists j n ↔ g.suite.Lists j n ∨ j = i ∧ n = tc.id) ∧
      g'.suite.testCases = g.suite.testCases ∧ g'.nextTestCase = g.nextTestCase := by
  obtain ⟨γ₁, now⟩ := good.known i γ here
  have variability := good.variability
  have uncovered : g.suite.variability = true → γ₁.covering.get? tc.id = none := by
    intro tracks
    rw [Option.eq_none_iff_forall_ne_some]
    intro o entry
    exact fresh (variability ▸ tracks) (good.sane.covering tracks i γ₁ tc.id o now entry).1
  apply ensures_changeSuite (Suite.recordCoverage_delivers good.sane good.ready' now ⟨tc, mem, rfl⟩
    (fun tracks => credit.known (variability ▸ tracks)) uncovered)
  intro s' d' ext ready booked
  rw [variability] at ready booked
  have later : Later t interest feasible g { g with diagram := d', suite := s' } := by
    refine good.booked booked ext ready here (fun n is => ?_) fun wanted => ⟨fun c within => ?_, fun c none => none.elim⟩
    · cases is
      exact ⟨tc, mem, rfl, credit.critical⟩
    · obtain ⟨k, there, passes⟩ := credit.crossed c within
      exact judges.credited i γ tc.trace k c wanted here (good.genuine tc mem).path credit.recognized there passes
  refine ⟨later, fun j n => ?_, booked.testCases, rfl⟩
  rw [booked.lists j n, Option.some.injEq, eq_comm (a := n)]

end Generator

end GoalCoverage
