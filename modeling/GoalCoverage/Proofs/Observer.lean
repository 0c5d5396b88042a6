import GoalCoverage.Observer
import GoalCoverage.Proofs.Automaton.TrimmedProduct

/-!
Observers. Under every resolution of the guards the runs of a product are those of its components side by side
(`Product.sound_under`, `Product.complete_under`). Guards aside, an observer in sets of states is in all the states that
its runs lead to, and observers together follow every way in which each of them has a run. So the observers that watch
some components accept the goals of the components that recognize the trace (`Watches.sound`), and all of them if every
component has a run (`Watches.complete`).
-/

namespace GoalCoverage

open Unfolding (initial tuples goalsOf Stands Joins Follows)

namespace Observer

variable {o : Observer} {q q' : StateId} {e : EdgeId} {trace : List EdgeId} {states states' : IdSet}
  {holds : Guard → Prop} {ρ : Resolution}

/-- The states after an edge, whatever the guards say. -/
def follow (o : Observer) (q : StateId) (e : EdgeId) : List StateId := (o.moves q e).map (·.1)

def Run (o : Observer) (trace : List EdgeId) (q : StateId) : Prop := Leads o.follow trace o.automaton.initial q

/-- A move after an edge, where the guards that it needs hold. -/
def Steps (o : Observer) (holds : Guard → Prop) (q : StateId) (e : EdgeId) (q' : StateId) : Prop :=
  ∃ guards, (q', guards) ∈ o.moves q e ∧ ∀ g ∈ guards, holds g

/-- A run along the trace whose moves are allowed under a resolution. -/
def RunUnder (o : Observer) (ρ : Resolution) (trace : List EdgeId) (q : StateId) : Prop :=
  Way (fun n => o.Steps (ρ n)) 0 trace o.automaton.initial q

theorem steps_of_isDone (done : o.isDone q = true) : o.Steps holds q e q' ↔ q' = q := by
  simp [Steps, moves, done]

theorem steps_of_not_isDone (live : o.isDone q = false) :
    o.Steps holds q e q' ↔ o.automaton.Via (·.Allows holds e) q q' := by
  simp only [Steps, moves, live, Automaton.outgoing, Automaton.Via, Label.Allows, Bool.false_eq_true, if_false,
    List.mem_map, List.mem_filter, Prod.mk.injEq, beq_iff_eq]
  constructor
  · rintro ⟨guards, ⟨t, ⟨⟨mem, source⟩, matching⟩, target, rfl⟩, allowed⟩
    exact ⟨t, mem, source, ⟨matching, allowed⟩, target⟩
  · rintro ⟨t, mem, source, ⟨matching, allowed⟩, target⟩
    exact ⟨t.label.guards, ⟨t, ⟨⟨mem, source⟩, matching⟩, target, rfl⟩, allowed⟩

theorem mem_follow_iff : q' ∈ o.follow q e ↔ o.Steps (fun _ => True) q e q' := by
  simp [follow, Steps]

theorem run_iff : o.Run trace q ↔ o.RunUnder (fun _ _ => True) trace q := by
  rw [Run, leads_iff_way 0]
  simp only [mem_follow_iff]
  exact Iff.rfl

theorem follow_plain (g : Nat) (a : Automaton) : (plain g a).follow = a.follow := by
  funext q e
  have same : (plain g a).isDone q = a.isFinal q := rfl
  have observed : (plain g a).automaton = a := rfl
  cases final : a.isFinal q <;> simp [follow, moves, Automaton.follow, same, observed, final]

theorem follow_powerset (g : Nat) (a : Automaton) : (powerset g a).follow = a.follow := follow_plain g a

section Product

variable {name : String} {components : List Component} {p : Product} {inSets : Bool} {i j : StateId}
  {tuple last : List StateId}

theorem isDone_iff (ok : Product.ofComponents name components = .ok p) (stands : Stands name components i tuple) :
    (product p inSets).isDone i = true ↔ (goalsOf components tuple).size = components.length := by
  simp only [isDone, Product.acceptingAt_eq ok stands, (Product.eq_of_ofComponents ok).2.1]
  simp

theorem steps_product_iff (ok : Product.ofComponents name components = .ok p)
    (stands : Stands name components i tuple) : (product p inSets).Steps holds i e j ↔
      ∃ tuple', Stands name components j tuple' ∧ Joins components holds tuple e tuple' := by
  cases done : (product p inSets).isDone i with
  | true =>
    have full := (isDone_iff ok stands).1 done
    have final := fun c q mem => Unfolding.all_final_of_size stands.length full (c := c) (q := q) mem
    simp only [steps_of_isDone done, Unfolding.joins_of_all_final stands.length final]
    constructor
    · rintro rfl
      exact ⟨tuple, stands, rfl⟩
    · rintro ⟨_, there, rfl⟩
      exact stands.state_eq there
  | false =>
    rw [steps_of_not_isDone done, automaton, (Product.eq_of_ofComponents ok).1, Automaton.via_trim]
    constructor
    · rintro ⟨q, q', here, there, step⟩
      obtain ⟨source, tuple', place, place', joins⟩ := Unfolding.via_automaton.1 step
      cases stands.tuple_eq ⟨q, here, place⟩
      exact ⟨tuple', ⟨q', there, place'⟩, joins⟩
    · rintro ⟨tuple', ⟨q', there, place'⟩, joins⟩
      obtain ⟨q, here, place⟩ := stands
      exact ⟨q, q', here, there, Unfolding.via_automaton.2 ⟨tuple, tuple', place, place', joins⟩⟩

theorem initial_product (ok : Product.ofComponents name components = .ok p) :
    (product p inSets).automaton.initial = 0 := by
  rw [automaton, (Product.eq_of_ofComponents ok).1]
  rfl

/-- A run of the product is one of its components side by side. -/
theorem joined_of_runUnder (ok : Product.ofComponents name components = .ok p)
    (run : (product p inSets).RunUnder ρ trace i) : ∃ last, Stands name components i last ∧
      List.Forall₂ (fun c q => c.automaton.RunUnder ρ trace q) components last := by
  rw [RunUnder, initial_product ok] at run
  have joined : ∃ last, Way (fun n => Joins components (ρ n)) 0 trace (initial components) last ∧
      Stands name components i last := by
    refine run.simulated (fun tuple i => Stands name components i tuple) ?_ Unfolding.stands_zero
    intro n i e j tuple stands step _
    obtain ⟨tuple', there, joins⟩ := (steps_product_iff ok stands).1 step
    exact ⟨tuple', joins, there⟩
  obtain ⟨last, way, stands⟩ := joined
  exact ⟨last, stands, Unfolding.way_initial_iff.1 way⟩

theorem runUnder_of_joined (ok : Product.ofComponents name components = .ok p)
    (runs : List.Forall₂ (fun c q => c.automaton.RunUnder ρ trace q) components last)
    (accepting : (goalsOf components last).isEmpty = false) :
    ∃ i, (product p inSets).RunUnder ρ trace i ∧ Stands name components i last := by
  have way := Unfolding.way_initial_iff.2 runs
  simp only [RunUnder, initial_product ok]
  refine way.simulated (fun i tuple => Stands name components i tuple) ?_ Unfolding.stands_zero
  intro n tuple e tuple' i stands joins path
  have rest : Relation.ReflTransGen (Follows components) tuple' last :=
    Relation.ReflTransGen.mono (fun _ _ ⟨_, _, joins⟩ => joins.follows) _ _ path
  obtain ⟨j, there⟩ := stands.next joins.follows rest accepting
  exact ⟨j, (steps_product_iff ok stands).2 ⟨tuple', there, joins⟩, there⟩

end Product

end Observer

namespace Product

variable {name : String} {components : List Component} {p : Product} {inSets : Bool} {i : StateId} {g : Nat}
  {trace : List EdgeId} {ρ : Resolution}

/-- What a product accepts is recognized by a component of the goal. -/
theorem sound_under (ok : ofComponents name components = .ok p)
    (run : (Observer.product p inSets).RunUnder ρ trace i) (accepted : g ∈ p.acceptingAt i) :
    ∃ c ∈ components, c.goal = g ∧ c.automaton.RecognizesUnder ρ trace := by
  obtain ⟨last, stands, runs⟩ := Observer.joined_of_runUnder ok run
  rw [acceptingAt_eq ok stands] at accepted
  obtain ⟨c, q, zipped, same, final⟩ := Unfolding.mem_goalsOf.1 accepted
  exact ⟨c, (List.of_mem_zip zipped).1, same, q, List.forall₂_zip runs zipped, final⟩

/-- What a component recognizes is accepted by the product if all components have runs. -/
theorem complete_under {c₀ : Component} {q₀ : StateId} (ok : ofComponents name components = .ok p)
    (mem : c₀ ∈ components) (run : c₀.automaton.RunUnder ρ trace q₀) (final : c₀.automaton.isFinal q₀ = true)
    (runs : ∀ c ∈ components, ∃ q, c.automaton.RunUnder ρ trace q) :
    ∃ i, (Observer.product p inSets).RunUnder ρ trace i ∧ c₀.goal ∈ p.acceptingAt i := by
  obtain ⟨choice, made, same⟩ :=
    exists_choice (R := fun (c : Component) q => c.automaton.RunUnder ρ trace q) run runs
  have joined : List.Forall₂ (fun c q => c.automaton.RunUnder ρ trace q) components (components.map choice) := by
    rw [List.forall₂_map_right_iff, List.forall₂_same]
    exact made
  have accepting : c₀.goal ∈ goalsOf components (components.map choice) := by
    rw [Unfolding.mem_goalsOf]
    refine ⟨c₀, q₀, ?_, rfl, final⟩
    rw [← same]
    exact mem_zip_map mem
  have found : ∃ i, (Observer.product p inSets).RunUnder ρ trace i ∧ Stands name components i (components.map choice) :=
    Observer.runUnder_of_joined ok joined (IdSet.isEmpty_eq_false_iff.2 ⟨_, accepting⟩)
  obtain ⟨i, run, stands⟩ := found
  rw [← acceptingAt_eq ok stands] at accepting
  exact ⟨i, run, accepting⟩

end Product

namespace Observer

variable {o : Observer} {q q' : StateId} {e : EdgeId} {trace : List EdgeId} {states states' : IdSet}

/-- The sets of states that an observer may be in after an edge. -/
def after (o : Observer) (states : IdSet) (e : EdgeId) : List IdSet :=
  let next := states.toList.flatMap (o.follow · e)
  if o.isPowerset then if next.isEmpty then [] else [.ofList next]
  else next.map .singleton

theorem mem_of_mem_after (mem : states' ∈ o.after states e) (mem' : q' ∈ states') :
    ∃ q ∈ states, q' ∈ o.follow q e := by
  have known : q' ∈ states.toList.flatMap (o.follow · e) := by
    simp only [after] at mem
    split at mem
    · split at mem
      · cases mem
      · rw [List.mem_singleton.1 mem, IdSet.mem_ofList] at mem'
        exact mem'
    · obtain ⟨q, here, rfl⟩ := List.mem_map.1 mem
      rw [IdSet.mem_singleton.1 mem']
      exact here
  exact List.mem_flatMap.1 known

theorem exists_mem_after (mem : q ∈ states) (step : q' ∈ o.follow q e) :
    ∃ states' ∈ o.after states e, q' ∈ states' := by
  have known : q' ∈ states.toList.flatMap (o.follow · e) := List.mem_flatMap.2 ⟨q, mem, step⟩
  simp only [after]
  split
  · rw [if_neg (by simp [List.ne_nil_of_mem known])]
    exact ⟨_, List.mem_singleton.2 rfl, IdSet.mem_ofList.2 known⟩
  · exact ⟨.singleton q', List.mem_map.2 ⟨q', known, rfl⟩, IdSet.mem_singleton.2 rfl⟩

theorem leads_after_of_leads (mem : q ∈ states) (leads : Leads o.follow trace q q') :
    ∃ states', q' ∈ states' ∧ Leads o.after trace states states' := by
  induction trace generalizing q states with
  | nil =>
    cases (leads : q = q')
    exact ⟨states, mem, rfl⟩
  | cons e trace ih =>
    obtain ⟨p, step, leads⟩ := leads
    obtain ⟨m, move, here⟩ := exists_mem_after mem step
    obtain ⟨states', there, way⟩ := ih here leads
    exact ⟨states', there, m, move, way⟩

/-- The tuples of sets that observers may be in after an edge. -/
def joint (observers : List Observer) (sets : List IdSet) (e : EdgeId) : List (List IdSet) :=
  ((observers.zip sets).map fun (o, states) => o.after states e).sections

theorem mem_joint_iff {observers : List Observer} {sets sets' : List IdSet}
    (length : observers.length = sets.length) : sets' ∈ joint observers sets e ↔
      Pointwise (fun o states states' => states' ∈ o.after states e) observers sets sets' := by
  rw [Pointwise.iff_zip length, joint, List.mem_sections, List.forall₂_map_right_iff]
  constructor
  · exact fun h => h.flip
  · exact fun h => h.flip

theorem leads_joint_iff {observers : List Observer} {sets sets' : List IdSet}
    (length : observers.length = sets.length) : Leads (joint observers) trace sets sets' ↔
      Pointwise (fun o states states' => Leads o.after trace states states') observers sets sets' := by
  apply leads_pointwise _ length
  exact fun _ _ _ same => mem_joint_iff same

/-- Every observer in its initial state. -/
def starts (observers : List Observer) : List IdSet := observers.map fun o => .singleton o.automaton.initial

theorem leads_starts_iff {observers : List Observer} {sets : List IdSet} :
    Leads (joint observers) trace (starts observers) sets ↔
      List.Forall₂ (fun o states => Leads o.after trace (.singleton o.automaton.initial) states)
        observers sets := by
  rw [leads_joint_iff (by simp [starts]), starts, Pointwise.map_iff]

/-- The goals that observers in these states accept. -/
def Accepts (observers : List Observer) (sets : List IdSet) (g : Nat) : Prop :=
  ∃ o states, (o, states) ∈ observers.zip sets ∧ ∃ q ∈ states, g ∈ o.acceptedAt q

/-- Every state that an observer is in is the end of one of its runs. -/
def Follow (observers : List Observer) (sets : List IdSet) (trace : List EdgeId) : Prop :=
  List.Forall₂ (fun o states => ∀ q ∈ states, o.Run trace q) observers sets

end Observer

/-- An observer of one component. -/
def Component.Watched (c : Component) (o : Observer) : Prop :=
  o = .plain c.goal c.automaton ∨ o = .powerset c.goal c.automaton

/-- Observers for the goals of some components: one for each, or one for all of them. -/
inductive Watches (components : List Component) : List Observer → Prop
  | each {observers : List Observer} : List.Forall₂ Component.Watched components observers →
    Watches components observers
  | jointly {name : String} {p : Product} {inSets : Bool} : Product.ofComponents name components = .ok p →
    Watches components [.product p inSets]

namespace Component.Watched

variable {c : Component} {o : Observer} {q : StateId} {g : Nat}

theorem automaton_eq (h : c.Watched o) : o.automaton = c.automaton := by
  cases h with
  | inl plain => rw [plain]; rfl
  | inr powerset => rw [powerset]; rfl

theorem follow_eq (h : c.Watched o) : o.follow = c.automaton.follow := by
  cases h with
  | inl plain => rw [plain, Observer.follow_plain]
  | inr powerset => rw [powerset, Observer.follow_powerset]

theorem mem_acceptedAt (h : c.Watched o) :
    g ∈ o.acceptedAt q ↔ g = c.goal ∧ c.automaton.isFinal q = true := by
  have shape : o.acceptedAt q = if c.automaton.isFinal q then .singleton c.goal else ∅ := by
    cases h with
    | inl plain => rw [plain]; rfl
    | inr powerset => rw [powerset]; rfl
  rw [shape]
  split <;> simp_all

theorem run_iff (h : c.Watched o) {trace : List EdgeId} : o.Run trace q ↔ c.automaton.Run trace q := by
  rw [Observer.Run, Automaton.Run, h.follow_eq, h.automaton_eq]

end Component.Watched

namespace Watches

variable {components : List Component} {observers : List Observer} {sets : List IdSet} {o : Observer}
  {q : StateId} {g : Nat} {trace : List EdgeId}

/-- What holds of the labels of all components holds of those of all observers. -/
theorem label (watches : Watches components observers) {P : Label → Prop} (any : P .any)
    (inter : ∀ a b l, P a → P b → a.inter b = some l → P l)
    (each : ∀ c ∈ components, ∀ t ∈ c.automaton.transitions, P t.label) (mem : o ∈ observers) :
    ∀ t ∈ o.automaton.transitions, P t.label := by
  cases watches with
  | each watched =>
    obtain ⟨c, known, here⟩ := exists_of_forall₂_right watched mem
    rw [here.automaton_eq]
    exact each c known
  | jointly ok =>
    rw [List.mem_singleton.1 mem, Observer.automaton, (Product.eq_of_ofComponents ok).1]
    exact Automaton.label_of_mem_keeping (Unfolding.label_of_mem_automaton any inter each)

theorem not_guarded (watches : Watches components observers)
    (free : ∀ c ∈ components, c.automaton.isGuarded = false) (mem : o ∈ observers) :
    o.automaton.isGuarded = false := by
  have plain := watches.label (P := fun l => l.isGuarded = false) rfl (fun _ _ _ ha hb => Label.not_guarded_inter ha hb)
    (fun c here _ => Automaton.not_guarded_of_mem (free c here)) mem
  simpa [Automaton.isGuarded] using plain

theorem sound (watches : Watches components observers) (mem : o ∈ observers) (run : o.Run trace q)
    (accepted : g ∈ o.acceptedAt q) : ∃ c ∈ components, c.goal = g ∧ c.automaton.Recognizes trace := by
  cases watches with
  | each watched =>
    obtain ⟨c, known, here⟩ := exists_of_forall₂_right watched mem
    obtain ⟨same, final⟩ := here.mem_acceptedAt.1 accepted
    exact ⟨c, known, same.symm, q, here.run_iff.1 run, final⟩
  | @jointly name p inSets ok =>
    cases List.mem_singleton.1 mem
    simp only [Automaton.recognizes_iff]
    exact Product.sound_under ok (Observer.run_iff.1 run) accepted

theorem sound_of_follow (watches : Watches components observers) (follow : Observer.Follow observers sets trace)
    (accepts : Observer.Accepts observers sets g) :
    ∃ c ∈ components, c.goal = g ∧ c.automaton.Recognizes trace := by
  obtain ⟨o, states, zipped, q, mem, accepted⟩ := accepts
  exact watches.sound (List.of_mem_zip zipped).1 (List.forall₂_zip follow zipped q mem) accepted

theorem complete {c₀ : Component} {q₀ : StateId} (watches : Watches components observers)
    (mem : c₀ ∈ components) (run : c₀.automaton.Run trace q₀) (final : c₀.automaton.isFinal q₀ = true)
    (runs : ∀ c ∈ components, ∃ q, c.automaton.Run trace q) :
    ∃ sets, Leads (Observer.joint observers) trace (Observer.starts observers) sets ∧
      Observer.Accepts observers sets c₀.goal := by
  simp only [Observer.leads_starts_iff]
  cases watches with
  | each watched =>
    obtain ⟨choice, made, same⟩ :=
      exists_choice (R := fun (c : Component) q => c.automaton.Run trace q) run runs
    have ways : List.Forall₂ (fun c o => ∃ states,
        Leads o.after trace (.singleton o.automaton.initial) states ∧ c.Watched o ∧ choice c ∈ states)
        components observers := by
      rw [List.forall₂_iff_zip] at watched ⊢
      refine ⟨watched.1, fun {c o} zipped => ?_⟩
      have here := watched.2 zipped
      have leads := here.run_iff.2 (made c (List.of_mem_zip zipped).1)
      obtain ⟨states, there, way⟩ := Observer.leads_after_of_leads (IdSet.mem_singleton.2 rfl) leads
      exact ⟨states, way, here, there⟩
    obtain ⟨sets, pointwise⟩ := Pointwise.of_forall₂ ways
    refine ⟨sets, pointwise.forget_left.imp fun o states h => ?_, ?_⟩
    · obtain ⟨c, way, _⟩ := h
      exact way
    · obtain ⟨o, states, zipped, _, here, there⟩ := pointwise.exists_of_mem_left mem
      rw [same] at there
      exact ⟨o, states, zipped, q₀, there, here.mem_acceptedAt.2 ⟨rfl, final⟩⟩
  | @jointly name p inSets ok =>
    simp only [Automaton.run_iff] at run runs
    have found : ∃ i, (Observer.product p inSets).RunUnder (fun _ _ => True) trace i ∧ c₀.goal ∈ p.acceptingAt i :=
      Product.complete_under ok mem run final runs
    obtain ⟨i, run, accepting⟩ := found
    have leads : Leads (Observer.product p inSets).follow trace _ i := Observer.run_iff.2 run
    obtain ⟨states, there, way⟩ := Observer.leads_after_of_leads (IdSet.mem_singleton.2 rfl) leads
    exact ⟨[states], .cons way .nil, .product p inSets, states, by simp, i, there, accepting⟩

end Watches

end GoalCoverage
