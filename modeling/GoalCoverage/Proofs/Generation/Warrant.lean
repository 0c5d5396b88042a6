import GoalCoverage.Proofs.Driver.Lasting
import GoalCoverage.Proofs.Generation.Harvest

/-!
Warrants. Whatever is recorded as covered, some stored test case shows it: its trace is a path of the program across the
critical edge, for all configurations of the region that is recorded (`Warranted`). Guards, limits and failures do not
matter: what a generator does upholds its warrants however it ends (`Upholds`).
-/

namespace GoalCoverage

open Procedure Diagram

/-- A test case shows what a goal is recorded as covered for. -/
def Task.Warrants (t : Task) (variability : Bool) (d : Diagram) (i : Nat) (tc : TestCase) (o : Option Region) : Prop :=
  ∃ γ, t.goals.get? i = some γ ∧ γ.criticalEdge ∈ tc.trace ∧
    (variability = true → ∃ region, t.Credit γ tc.trace d region ∧ o = some (region.getD .all))

/-- The region that is recorded is known, and its configurations are those that are covered. -/
theorem Task.Credit.recorded {t : Task} {d : Diagram} {γ : Goal} {path : List EdgeId} {region : Option Region}
    (credit : t.Credit γ path d region) (ready : d.Ready t.factory.tracks) (tracks : t.factory.tracks = true) :
    d.Has (region.getD .all) ∧ ∀ c, d.holds (region.getD .all) c = true → d.Within region c := by
  cases region with
  | some r => exact ⟨knows_some.1 (credit.known tracks), fun c holds => within_some.2 holds⟩
  | none => exact ⟨(ready tracks).has_all, fun c _ => within_none⟩

namespace Generator

variable {α : Type} {t : Task} {g g' : Explored} {i n : Nat} {γ : Goal} {tc : TestCase} {region : Option Region}
  {m : Procedure Explored α} {batch : List Nat}

/-- Every test case is genuine, and for every covering there is one that shows it. -/
structure Warranted (t : Task) (g : Explored) : Prop where
  surroundings : g.surroundings = { t.factory with limitedRuns := g.surroundings.limitedRuns }
  tracks : g.suite.variability = true → t.factory.tracks = true
  diagram : t.diagram.Extends g.diagram
  ready : g.diagram.Ready t.factory.tracks
  drawn : g.suite.Drawn g.diagram
  kept : ∀ i γ, g.suite.goals.get? i = some γ → ∃ γ₀, t.goals.get? i = some γ₀ ∧ γ₀.SameAs γ
  genuine : ∀ tc ∈ g.suite.testCases, t.Genuine g.diagram tc
  ids : ∀ tc ∈ g.suite.testCases, tc.id < g.nextTestCase
  distinct : (g.suite.testCases.map (·.id)).Nodup
  covered : ∀ i γ n o, g.suite.goals.get? i = some γ → γ.covering.get? n = some o →
    ∃ tc ∈ g.suite.testCases, tc.id = n ∧ t.Warrants g.suite.variability g.diagram i tc o

/-- What becomes of a generator whose coverings are warranted. -/
structure Upheld (t : Task) (g g' : Explored) : Prop where
  warranted : Warranted t g'
  diagram : g.diagram.Extends g'.diagram
  testCases : g.suite.testCases <+: g'.suite.testCases
  variability : g'.suite.variability = g.suite.variability
  leaves : ∀ i c, g'.suite.Leaves g'.diagram i c → g.suite.Leaves g.diagram i c
  resolved : ∀ i, g.suite.resolved i = true → g'.suite.resolved i = true

theorem Upheld.trans {g'' : Explored} (first : Upheld t g g') (second : Upheld t g' g'') : Upheld t g g'' where
  warranted := second.warranted
  diagram := first.diagram.trans second.diagram
  testCases := first.testCases.trans second.testCases
  variability := second.variability.trans first.variability
  leaves := fun i c left => first.leaves i c (second.leaves i c left)
  resolved := fun i done => second.resolved i (first.resolved i done)

/-- Warrants stay valid on the way from one generator to another. -/
def Upholds (t : Task) (g g' : Explored) : Prop := Warranted t g → Upheld t g g'

instance : IsPreorder Explored (Upholds t) where
  refl g warranted := ⟨warranted, .refl g.diagram, List.prefix_refl _, rfl, fun _ _ h => h, fun _ h => h⟩
  trans _ _ _ first second warranted := (first warranted).trans (second (first warranted).warranted)

/-- `g'` has the records of `g`. -/
structure SameRecords (g g' : Explored) : Prop where
  surroundings : g'.surroundings = g.surroundings
  diagram : g'.diagram = g.diagram
  next : g'.nextTestCase = g.nextTestCase
  goals : g'.suite.goals = g.suite.goals
  testCases : g'.suite.testCases = g.suite.testCases
  variability : g'.suite.variability = g.suite.variability
  coveredBy : g'.suite.coveredBy = g.suite.coveredBy
  infeasible : g'.suite.infeasible = g.suite.infeasible

theorem upholds_of (h : Warranted t g → Moves anything (Upholds t) m g) : Moves anything (Upholds t) m g := by
  rw [moves_iff]
  refine ⟨fun a g' out warranted => ?_, fun e g' out => ⟨trivial, fun warranted => ?_⟩⟩
  · exact (moves_iff.1 (h warranted)).1 a g' out warranted
  · exact ((moves_iff.1 (h warranted)).2 e g' out).2 warranted

namespace Warranted

variable (warranted : Warranted t g)

include warranted

/-- Regions of a suite that tracks configurations belong to the diagram. -/
theorem tidy : g.Tidy where
  drawn := warranted.drawn
  presence tracks tc mem k r known := ((warranted.genuine tc mem).regions (warranted.tracks tracks) k r known).1

/-- What is not recorded in the suite does not matter. -/
theorem altered (same : SameRecords g g') : Upheld t g g' := by
  have resolved : ∀ i, g'.suite.resolved i = g.suite.resolved i := by
    intro i
    simp only [Suite.resolved, Suite.isPartiallyCovered, Suite.isInfeasible, same.variability, same.goals, same.coveredBy,
      same.infeasible]
  refine ⟨?_, same.diagram ▸ .refl g.diagram, same.testCases ▸ List.prefix_refl _, same.variability, fun i c left => ?_,
    fun i done => (resolved i).trans done⟩
  · have drawn := warranted.drawn
    refine ⟨same.surroundings ▸ warranted.surroundings, same.variability ▸ warranted.tracks, same.diagram ▸ warranted.diagram,
      same.diagram ▸ warranted.ready, ?_, same.goals ▸ warranted.kept, same.testCases ▸ same.diagram ▸ warranted.genuine,
      same.testCases ▸ same.next ▸ warranted.ids, same.testCases ▸ warranted.distinct, ?_⟩
    · rw [same.diagram]
      exact ⟨same.goals ▸ drawn.index, same.goals ▸ same.variability ▸ drawn.opened,
        same.goals ▸ same.variability ▸ drawn.excluded, same.variability ▸ drawn.ready⟩
    · rw [same.goals, same.testCases, same.variability, same.diagram]
      exact warranted.covered
  · simpa only [Suite.Leaves, same.variability, same.goals, same.diagram, resolved] using left

/-- The suite after something was recorded of goals: new entries need warrants. -/
theorem recorded {s' : Suite} {d' : Diagram} {covers excludes : Nat → Prop} (ext : g.diagram.Extends d')
    (ready : d'.Ready t.factory.tracks) (develops : g.suite.Develops covers excludes g.diagram s' d')
    (testCases : s'.testCases = g.suite.testCases)
    (covered : ∀ j γ' m o, s'.goals.get? j = some γ' → γ'.covering.get? m = some o →
      (∃ γ, g.suite.goals.get? j = some γ ∧ γ.covering.get? m = some o) ∨
        ∃ tc ∈ g.suite.testCases, tc.id = m ∧ t.Warrants g.suite.variability d' j tc o) :
    Upheld t g { g with diagram := d', suite := s' } where
  warranted :=
    { surroundings := warranted.surroundings
      tracks := develops.variability ▸ warranted.tracks
      diagram := warranted.diagram.trans ext
      ready
      drawn := develops.drawn
      kept := fun j γ' known => by
        obtain ⟨γ, before, narrows⟩ := develops.kept j γ' known
        obtain ⟨γ₀, first, same⟩ := warranted.kept j γ before
        exact ⟨γ₀, first, same.trans narrows.same⟩
      genuine := fun tc mem => (warranted.genuine tc (testCases ▸ mem)).extends warranted.ready ext
      ids := fun tc mem => warranted.ids tc (testCases ▸ mem)
      distinct := testCases ▸ warranted.distinct
      covered := fun j γ' m o known entry => by
        dsimp only
        rw [testCases, develops.variability]
        obtain ⟨γ, before, entry'⟩ | new := covered j γ' m o known entry
        · obtain ⟨tc, mem, id, γ₀, first, critical, shown⟩ := warranted.covered j γ m o before entry'
          refine ⟨tc, mem, id, γ₀, first, critical, fun tracks => ?_⟩
          obtain ⟨region, credit, is⟩ := shown tracks
          exact ⟨region, credit.extends warranted.ready ext, is⟩
        · exact new }
  diagram := ext
  testCases := testCases ▸ List.prefix_refl _
  variability := develops.variability
  leaves := develops.leaves
  resolved := fun _ done => develops.resolved warranted.drawn done

theorem grown {d' : Diagram} (ext : g.diagram.Extends d') (ready : d'.Ready t.factory.tracks) :
    Upheld t g { g with diagram := d' } := by
  have drawn := warranted.drawn.extends (fun _ => ext) fun tracks => ready (warranted.tracks tracks)
  have grown : g.suite.Develops (fun _ => False) (fun _ => False) g.diagram g.suite d' :=
    { Suite.Develops.refl drawn with
      leaves := fun _ _ => (warranted.drawn.leaves_extends fun _ => ext).1
      grows := fun _ => ext }
  exact warranted.recorded ext ready grown rfl fun j γ m o known entry => .inl ⟨γ, known, entry⟩

/-- It does not matter how many runs had a limit. -/
theorem recounted (n : Nat) : Warranted t { g with surroundings := { g.surroundings with limitedRuns := n } } :=
  { warranted with
    surroundings := by
      dsimp only
      rw [warranted.surroundings] }

/-- Records of a suite only add to the diagram. -/
theorem extends_of_develops {s' : Suite} {d' : Diagram} {covers excludes : Nat → Prop}
    (develops : g.suite.Develops covers excludes g.diagram s' d') (still : g.suite.variability = false → d' = g.diagram) :
    g.diagram.Extends d' ∧ d'.Ready t.factory.tracks := by
  cases tracks : g.suite.variability with
  | true => exact ⟨develops.grows tracks, fun _ => develops.drawn.ready (develops.variability.trans tracks)⟩
  | false =>
    rw [still tracks]
    exact ⟨.refl _, warranted.ready⟩

end Warranted

section Rules

theorem upholds_ask {f : Suite → Except Violation α} : Moves anything (Upholds t) (ask f) g := by
  rw [moves_iff, ask]
  cases f g.suite with
  | ok a => simpa using refl g
  | error v => simpa [anything] using refl g

theorem upholds_goal : Moves anything (Upholds t) (goal i) g := upholds_ask

theorem upholds_isResolved : Moves anything (Upholds t) (isResolved i) g := upholds_ask

theorem upholds_isDone : Moves anything (Upholds t) (isDone batch) g := upholds_ask

theorem upholds_unresolved : Moves anything (Upholds t) (unresolved batch) g := upholds_ask

/-- Looking something up outside the generator. -/
theorem upholds_lookup {e : Except Violation α} :
    Moves anything (Upholds t) (attempt fun g : Explored => return (← e, g)) g := by
  apply moves_attempt (fun _ => trivial) (refl g)
  intro a g' ok
  obtain ⟨_, _, same⟩ := Except.bind_eq_ok.1 ok
  cases same
  exact refl g

theorem upholds_onRegions {m : StateM Diagram α} {R : α → Diagram → Prop}
    (yields : Warranted t g → Yields true m g.diagram R) :
    Moves anything (Upholds t) (onRegions (m : Regional α)) g := by
  apply upholds_of
  intro warranted
  obtain ⟨ext, ready, _⟩ := yields warranted
  exact ⟨fun _ => warranted.grown ext fun _ => ready rfl, trivial⟩

theorem of_ask_eq_ok {f : Suite → Except Violation α} {a : α} (ok : ask f g = .ok a g') : g' = g ∧ f g.suite = .ok a :=
  Ensures.of_eq_ok (P := fun a g' => g' = g ∧ f g.suite = .ok a) (ensures_ask_iff.2 fun _ here => ⟨rfl, here⟩) ok

theorem of_goal_eq_ok (ok : goal i g = .ok γ g') : g' = g ∧ g.suite.goals.get? i = some γ :=
  (of_ask_eq_ok ok).imp_right Suite.goal_of_eq_ok

theorem of_lookup_eq_ok {e : Except Violation α} {a : α}
    (ok : attempt (fun g : Explored => return (← e, g)) g = .ok a g') : g' = g ∧ e = .ok a := by
  refine Ensures.of_eq_ok (P := fun a g' => g' = g ∧ e = .ok a) (ensures_attempt_iff.2 ?_) ok
  intro a g' found
  obtain ⟨_, here, same⟩ := Except.bind_eq_ok.1 found
  cases same
  exact ⟨rfl, here⟩

/-- What is shared with an engine stays as it is, but for a diagram that grows. -/
structure Grows (tracks : Bool) (p q : Diagram × ExplorerFactory) : Prop where
  diagram : p.1.Extends q.1
  ready : q.1.Ready tracks
  surroundings : q.2 = p.2

theorem upholds_onShared {m : Procedure (Diagram × ExplorerFactory) α}
    (grows : Moves anything (Grows t.factory.tracks) m (g.diagram, g.surroundings)) :
    Moves anything (Upholds t) (onShared m) g := by
  apply Moves.within
  · exact grows
  · rintro ⟨d, _⟩ ⟨ext, ready, rfl⟩ warranted
    exact warranted.grown ext ready

end Rules

section Records

/-- Coverage is warranted by the test case that is recorded. -/
theorem Warranted.covers {s : Suite} {d : Diagram} (warranted : Warranted t g) (here : t.goals.get? i = some γ)
    (mem : tc ∈ g.suite.testCases) (critical : γ.criticalEdge ∈ tc.trace)
    (credit : g.suite.variability = true → t.Credit γ tc.trace g.diagram region)
    (ok : g.suite.recordCoverage tc.id i region g.diagram = .ok (s, d)) :
    Upheld t g { g with diagram := d, suite := s } := by
  obtain ⟨develops, testCases⟩ := Suite.recordCoverage_develops warranted.drawn
    (fun tracks => (credit tracks).known (warranted.tracks tracks)) ok
  obtain ⟨ext, ready⟩ := warranted.extends_of_develops develops fun plain => Suite.recordCoverage_still plain ok
  apply warranted.recorded ext ready develops testCases
  intro j γ' m o known entry
  apply (Suite.recordCoverage_covering warranted.drawn ok known entry).imp_right
  intro new
  obtain ⟨rfl, rfl, is⟩ := new
  refine ⟨tc, mem, rfl, γ, here, critical, fun tracks => ⟨region, (credit tracks).extends warranted.ready ext, ?_⟩⟩
  rw [is, if_pos tracks]

theorem Warranted.stored (warranted : Warranted t g) (genuine : t.Genuine g.diagram tc) (id : tc.id < g.nextTestCase) :
    Upheld t g { g with suite := g.suite.stored tc } := by
  rw [Suite.stored_eq]
  have distinct : ((g.suite.stored tc).testCases.map (·.id)).Nodup := Suite.nodup_stored warranted.distinct
  refine ⟨{ warranted with distinct, drawn := ?_, genuine := ?_, ids := ?_, covered := ?_ }, .refl _,
    g.suite.prefix_stored tc, rfl, fun _ _ h => h, fun _ h => h⟩
  · have drawn := warranted.drawn
    exact ⟨drawn.index, drawn.opened, drawn.excluded, drawn.ready⟩
  · exact fun tc' mem => (Suite.mem_stored mem).elim (warranted.genuine tc') fun new => new ▸ genuine
  · exact fun tc' mem => (Suite.mem_stored mem).elim (warranted.ids tc') fun new => new ▸ id
  · intro i γ n o known entry
    obtain ⟨tc', mem, shown⟩ := warranted.covered i γ n o known entry
    exact ⟨tc', (g.suite.prefix_stored tc).subset mem, shown⟩

theorem upholds_recordCoverage (here : t.goals.get? i = some γ) (mem : tc ∈ g.suite.testCases)
    (critical : γ.criticalEdge ∈ tc.trace)
    (credit : g.suite.variability = true → t.Credit γ tc.trace g.diagram region) :
    Moves anything (Upholds t) (changeSuite (·.recordCoverage tc.id i region)) g :=
  moves_changeSuite (fun _ => trivial) (refl g) fun _ _ ok warranted => warranted.covers here mem critical credit ok

theorem upholds_addInfeasible (known : Warranted t g → g.suite.variability = true → g.diagram.Knows region) :
    Moves anything (Upholds t) (changeSuite (·.addInfeasible i region)) g := by
  apply moves_changeSuite (fun _ => trivial) (refl g)
  intro s d ok warranted
  obtain ⟨develops, testCases, _⟩ := Suite.addInfeasible_develops warranted.drawn (known warranted) ok
  obtain ⟨ext, ready⟩ := warranted.extends_of_develops develops fun plain => Suite.addInfeasible_still plain ok
  apply warranted.recorded ext ready develops testCases
  intro j γ' m o known entry
  obtain ⟨γ, before, same⟩ := Suite.addInfeasible_covering warranted.drawn ok known
  exact .inl ⟨γ, before, same ▸ entry⟩

theorem upholds_propagate {p : Program} :
    Moves anything (Upholds t) (changeSuite fun s => return (← s.propagateInfeasible p i).2) g := by
  apply moves_changeSuite (fun _ => trivial) (refl g)
  intro s d ok warranted
  obtain ⟨r, found, same⟩ := lift_bind_eq_ok.1 ok
  obtain ⟨rfl, rfl⟩ := pure_eq_ok.1 same
  obtain ⟨m, is⟩ := Suite.propagateInfeasible_spec found
  rw [is]
  exact warranted.altered ⟨rfl, rfl, rfl, rfl, rfl, rfl, rfl, rfl⟩

theorem upholds_giveUp : Moves anything (Upholds t) (giveUp i) g := by
  rw [giveUp, moves_get_bind]
  apply upholds_goal.bind
  intro known g₁ ok _
  obtain ⟨rfl, here⟩ := of_goal_eq_ok ok
  have region : Warranted t g₁ → g₁.suite.variability = true →
      g₁.diagram.Knows (if g₁.suite.variability then known.remaining else none) := by
    intro warranted tracks
    obtain ⟨r, left, has⟩ := warranted.drawn.opened tracks i known here
    rw [if_pos tracks, left]
    exact knows_some.2 has
  apply (upholds_addInfeasible region).bind
  intro _ g₂ _ _
  split
  next => exact upholds_propagate
  next => exact moves_pure

theorem upholds_conclude {outcome : Outcome} : Moves anything (Upholds t) (conclude batch outcome) g := by
  rw [conclude]
  apply upholds_unresolved.bind
  intro left g₁ _ _
  cases outcome with
  | timedOut => exact Moves.forM fun _ _ _ _ => moves_modify fun warranted => warranted.altered ⟨rfl, rfl, rfl, rfl, rfl, rfl, rfl, rfl⟩
  | sound => exact Moves.forM fun _ _ _ _ => upholds_giveUp
  | unsound => exact Moves.forM fun _ _ _ _ => upholds_giveUp

theorem upholds_giveUpDegenerate : Moves anything (Upholds t) (giveUpDegenerate batch) g := by
  apply Moves.forM
  intro i _ g₁ _
  apply upholds_isResolved.bind
  intro resolved g₂ _ _
  split
  next => exact moves_pure
  next =>
    apply upholds_goal.bind
    intro known g₃ _ _
    split
    next => exact upholds_giveUp
    next => exact moves_pure

end Records

section Drawings

theorem upholds_draw {template name drawing : String} : Moves anything (Upholds t) (draw template name drawing) g :=
  moves_modify fun warranted => warranted.altered ⟨rfl, rfl, rfl, rfl, rfl, rfl, rfl, rfl⟩

theorem upholds_drawAutomata {observers : List Observer} : Moves anything (Upholds t) (drawAutomata observers) g := by
  rw [drawAutomata, moves_get_bind]
  split
  next => exact moves_pure
  next => exact Moves.forM fun _ _ _ _ => upholds_draw

theorem upholds_drawGraphs {S : Type} [AbstractState S] {graph : StateGraph S} :
    Moves anything (Upholds t) (drawGraphs batch graph) g := by
  rw [drawGraphs, moves_get_bind]
  split
  next => exact Moves.forM fun _ _ _ _ => upholds_ask.bind fun _ _ _ _ => upholds_draw
  next => exact moves_pure

end Drawings

end Generator

end GoalCoverage
