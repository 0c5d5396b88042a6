import GoalCoverage.Automaton
import GoalCoverage.Proofs.Closure
import GoalCoverage.Proofs.Label
import GoalCoverage.Proofs.Way
import Mathlib.Data.List.Induction

/-!
Runs of automata, in which final states keep themselves, whatever guards say or under a resolution of the guards
(`run_iff`). An automaton with a transition for every edge has a run along every trace (`Total.exists_run`), and a
degenerate one recognizes nothing (`not_recognizes_of_isDegenerate`).
-/

namespace GoalCoverage

section Moves

variable {α : Type} {follow : α → EdgeId → List α} {q q' : α}

/-- A sequence of moves along a trace. -/
def Leads (follow : α → EdgeId → List α) : List EdgeId → α → α → Prop
  | [], q, q' => q = q'
  | e :: trace, q, q' => ∃ m ∈ follow q e, Leads follow trace m q'

theorem leads_append {t u : List EdgeId} :
    Leads follow (t ++ u) q q' ↔ ∃ m, Leads follow t q m ∧ Leads follow u m q' := by
  induction t generalizing q with
  | nil => simp [Leads]
  | cons e t ih =>
    simp only [List.cons_append, Leads, ih]
    constructor
    · rintro ⟨m, hm, n, first, second⟩
      exact ⟨n, ⟨m, hm, first⟩, second⟩
    · rintro ⟨n, ⟨m, hm, first⟩, second⟩
      exact ⟨m, hm, n, first, second⟩

theorem leads_concat {t : List EdgeId} {e : EdgeId} :
    Leads follow (t ++ [e]) q q' ↔ ∃ m, Leads follow t q m ∧ q' ∈ follow m e := by
  rw [leads_append]
  simp [Leads]

/-- Such a sequence is a way whose moves are the same everywhere. -/
theorem leads_iff_way {trace : List EdgeId} (n : Nat) :
    Leads follow trace q q' ↔ Way (fun _ q e m => m ∈ follow q e) n trace q q' := by
  induction trace generalizing n q with
  | nil => exact Iff.rfl
  | cons e trace ih => simp only [Leads, Way, ← ih]

/-- Moving pointwise is to make ways side by side. -/
theorem leads_pointwise {β : Type} {step : β → α → EdgeId → List α} {joint : List α → EdgeId → List (List α)}
    {bs : List β} (mem_joint : ∀ (qs qs' : List α) (e : EdgeId), bs.length = qs.length →
      (qs' ∈ joint qs e ↔ Pointwise (fun b q q' => q' ∈ step b q e) bs qs qs'))
    {trace : List EdgeId} {qs qs' : List α} (length : bs.length = qs.length) :
    Leads joint trace qs qs' ↔ Pointwise (fun b q q' => Leads (step b) trace q q') bs qs qs' := by
  simp only [leads_iff_way 0]
  exact way_pointwise (fun _ => mem_joint) length

end Moves

/-- Says which guards hold at which place of a trace. -/
abbrev Resolution := Nat → Guard → Prop

namespace Automaton

variable {a : Automaton} {q q' : StateId} {e : EdgeId} {trace : List EdgeId} {holds : Guard → Prop}
  {ρ : Resolution}

/-- A transition whose label has a property. -/
def Via (a : Automaton) (P : Label → Prop) (q q' : StateId) : Prop :=
  ∃ t ∈ a.transitions, t.source = q ∧ P t.label ∧ t.target = q'

/-- A transition that matches the edge, whatever its guards say. -/
def Moves (a : Automaton) (q : StateId) (e : EdgeId) (q' : StateId) : Prop :=
  ∃ t ∈ a.transitions, t.source = q ∧ t.label.contains e = true ∧ t.target = q'

/-- A move where some guards hold: a final state stays, and others take a transition that is allowed. -/
def Goes (a : Automaton) (holds : Guard → Prop) (q : StateId) (e : EdgeId) (q' : StateId) : Prop :=
  if a.isFinal q then q' = q else a.Via (·.Allows holds e) q q'

instance {P : Label → Prop} [DecidablePred P] : Decidable (a.Via P q q') :=
  inferInstanceAs (Decidable (∃ t ∈ a.transitions, _))

instance [DecidablePred holds] : Decidable (a.Goes holds q e q') :=
  inferInstanceAs (Decidable (if a.isFinal q then q' = q else a.Via (·.Allows holds e) q q'))

/-- The states after an edge; a final state stays. -/
def follow (a : Automaton) (q : StateId) (e : EdgeId) : List StateId :=
  if a.isFinal q then [q] else ((a.outgoing q).filter (·.label.contains e)).map (·.target)

def Run (a : Automaton) (trace : List EdgeId) (q : StateId) : Prop := Leads a.follow trace a.initial q

/-- Some run along the trace ends in a final state. -/
def Recognizes (a : Automaton) (trace : List EdgeId) : Prop := ∃ q, a.Run trace q ∧ a.isFinal q = true

/-- A run along the trace whose moves are allowed under a resolution. -/
def RunUnder (a : Automaton) (ρ : Resolution) (trace : List EdgeId) (q : StateId) : Prop :=
  Way (fun n => a.Goes (ρ n)) 0 trace a.initial q

/-- Some run along the trace that is allowed under a resolution ends in a final state. -/
def RecognizesUnder (a : Automaton) (ρ : Resolution) (trace : List EdgeId) : Prop :=
  ∃ q, a.RunUnder ρ trace q ∧ a.isFinal q = true

/-- Every run over a beginning of the trace has a move on the next edge. -/
def Ready (a : Automaton) (ρ : Resolution) (trace : List EdgeId) : Prop :=
  ∀ u e, u ++ [e] <+: trace → ∀ q, a.RunUnder ρ u q → ∃ q', a.Goes (ρ u.length) q e q'

/-- Every state that is not final has a transition for each of so many edges. -/
def Total (a : Automaton) (edges : Nat) : Prop :=
  ∀ q < a.size, a.isFinal q = false → ∀ e < edges, ∃ t ∈ a.outgoing q, t.label.contains e = true

theorem mem_follow_of_final (final : a.isFinal q = true) : q' ∈ a.follow q e ↔ q' = q := by
  simp [follow, final]

theorem mem_follow_of_not_final (live : a.isFinal q = false) :
    q' ∈ a.follow q e ↔ a.Moves q e q' := by
  simp only [Moves, follow, live, outgoing, Bool.false_eq_true, if_false, List.mem_map, List.mem_filter, beq_iff_eq]
  constructor
  · rintro ⟨t, ⟨⟨mem, source⟩, matching⟩, target⟩
    exact ⟨t, mem, source, matching, target⟩
  · rintro ⟨t, mem, source, matching, target⟩
    exact ⟨t, ⟨⟨mem, source⟩, matching⟩, target⟩

theorem goes_of_final (final : a.isFinal q = true) : a.Goes holds q e q' ↔ q' = q := by
  simp [Goes, final]

theorem goes_of_not_final (live : a.isFinal q = false) : a.Goes holds q e q' ↔ a.Via (·.Allows holds e) q q' := by
  simp [Goes, live]

/-- To follow an edge is to go along it where all guards hold. -/
theorem mem_follow_iff : q' ∈ a.follow q e ↔ a.Goes (fun _ => True) q e q' := by
  cases final : a.isFinal q with
  | true => rw [mem_follow_of_final final, goes_of_final final]
  | false => simp only [mem_follow_of_not_final final, goes_of_not_final final, Moves, Via, Label.allows_true]

theorem run_iff : a.Run trace q ↔ a.RunUnder (fun _ _ => True) trace q := by
  rw [Run, leads_iff_way 0]
  simp only [mem_follow_iff]
  exact Iff.rfl

theorem recognizes_iff : a.Recognizes trace ↔ a.RecognizesUnder (fun _ _ => True) trace := by
  simp only [Recognizes, RecognizesUnder, run_iff]

theorem not_guarded_of_mem (free : a.isGuarded = false) {t : Transition} (mem : t ∈ a.transitions) :
    t.label.isGuarded = false := by
  rw [isGuarded, List.any_eq_false] at free
  simpa using free t mem

theorem leads_self_of_final (final : a.isFinal q = true) : Leads a.follow trace q q := by
  induction trace with
  | nil => rfl
  | cons e trace ih => exact ⟨q, (mem_follow_of_final final).2 rfl, ih⟩

theorem goes_lt (lt : q < a.size) (goes : a.Goes holds q e q') : q' < a.size := by
  cases final : a.isFinal q with
  | true =>
    rw [goes_of_final final] at goes
    rwa [goes]
  | false =>
    obtain ⟨t, ht, _, _, rfl⟩ := (goes_of_not_final final).1 goes
    exact (a.transitions_lt t ht).2

theorem runUnder_concat : a.RunUnder ρ (trace ++ [e]) q' ↔ ∃ q, a.RunUnder ρ trace q ∧ a.Goes (ρ trace.length) q e q' := by
  simp only [RunUnder, way_concat, Nat.zero_add]

theorem RunUnder.lt (run : a.RunUnder ρ trace q) : q < a.size := by
  induction trace using List.reverseRecOn generalizing q with
  | nil =>
    cases (run : a.initial = q)
    exact a.initial_lt
  | append_singleton trace e ih =>
    obtain ⟨p, run, goes⟩ := runUnder_concat.1 run
    exact goes_lt (ih run) goes

theorem Ready.exists_run (ready : a.Ready ρ trace) : ∃ q, a.RunUnder ρ trace q := by
  suffices ∀ u, u <+: trace → ∃ q, a.RunUnder ρ u q from this trace (List.prefix_refl trace)
  intro u start
  induction u using List.reverseRecOn with
  | nil => exact ⟨a.initial, rfl⟩
  | append_singleton u e ih =>
    obtain ⟨q, run⟩ := ih ((List.prefix_append u [e]).trans start)
    obtain ⟨q', goes⟩ := ready u e start q run
    exact ⟨q', runUnder_concat.2 ⟨q, run, goes⟩⟩

/-- Where all guards hold it is enough to have a transition for every edge. -/
theorem Total.ready {edges : Nat} (total : a.Total edges) (known : ∀ e ∈ trace, e < edges)
    (holds : ∀ t ∈ a.transitions, ∀ g ∈ t.label.guards, ∀ n, ρ n g) : a.Ready ρ trace := by
  intro u e start q run
  cases final : a.isFinal q with
  | true => exact ⟨q, (goes_of_final final).2 rfl⟩
  | false =>
    obtain ⟨t, mem, matching⟩ := total q run.lt final e (known e (start.subset (by simp)))
    obtain ⟨mem, source⟩ := List.mem_filter.1 mem
    have allowed : t.label.Allows (ρ u.length) e := ⟨matching, fun g guard => holds t mem g guard u.length⟩
    exact ⟨t.target, (goes_of_not_final final).2 ⟨t, mem, by simpa using source, allowed, rfl⟩⟩

theorem Total.exists_run {edges : Nat} (total : a.Total edges) (known : ∀ e ∈ trace, e < edges) :
    ∃ q, a.Run trace q := by
  simp only [run_iff]
  exact (total.ready known fun _ _ _ _ _ => True.intro).exists_run

/-- One transition, whatever its label. -/
def Linked (a : Automaton) (q q' : StateId) : Prop := ∃ t ∈ a.transitions, t.source = q ∧ t.target = q'

theorem linked_of_leads (leads : Leads a.follow trace q q') : Relation.ReflTransGen a.Linked q q' := by
  induction trace generalizing q with
  | nil =>
    rw [(leads : q = q')]
  | cons e trace ih =>
    obtain ⟨m, step, leads⟩ := leads
    cases final : a.isFinal q with
    | true =>
      rw [mem_follow_of_final final] at step
      subst step
      exact ih leads
    | false =>
      obtain ⟨t, mem, source, _, target⟩ := (mem_follow_of_not_final final).1 step
      exact .head ⟨t, mem, source, target⟩ (ih leads)

theorem mem_reachable_iff : q ∈ a.reachable ↔ Relation.ReflTransGen a.Linked a.initial q := by
  rw [reachable, IdSet.mem_ofTree, Closure.mem_reach_iff]
  · have links : (fun x y => y ∈ (Closure.table (a.transitions.map fun t => (t.source, t.target))).getD x [])
        = a.Linked := by
      funext x y
      simp only [Closure.getD_table, Linked, List.mem_map, List.mem_filter, beq_iff_eq, eq_iff_iff]
      constructor
      · rintro ⟨_, ⟨⟨t, ht, rfl⟩, source⟩, target⟩
        exact ⟨t, ht, source, target⟩
      · rintro ⟨t, ht, source, target⟩
        exact ⟨_, ⟨⟨t, ht, rfl⟩, source⟩, target⟩
    simp only [Closure.Reaches, List.mem_singleton, exists_eq_left, links]
  · intro q q' mem
    rw [Closure.getD_table] at mem
    simp only [List.mem_map, List.mem_filter] at mem
    obtain ⟨_, ⟨⟨t, ht, rfl⟩, _⟩, rfl⟩ := mem
    exact (a.transitions_lt t ht).2
  · intro q mem
    rw [List.mem_singleton.1 mem]
    exact a.initial_lt

theorem mem_useful_iff : q ∈ a.useful ↔ ∃ f, a.isFinal f = true ∧ Relation.ReflTransGen a.Linked q f := by
  rw [useful, IdSet.mem_ofTree, Closure.mem_reach_iff]
  · apply exists_congr
    intro f
    have links : (fun x y => y ∈ (Closure.table (a.transitions.map fun t => (t.target, t.source))).getD x [])
        = Function.swap a.Linked := by
      funext x y
      simp only [Closure.getD_table, Linked, Function.swap, List.mem_map, List.mem_filter, beq_iff_eq,
        eq_iff_iff]
      constructor
      · rintro ⟨_, ⟨⟨t, ht, rfl⟩, target⟩, source⟩
        exact ⟨t, ht, source, target⟩
      · rintro ⟨t, ht, source, target⟩
        exact ⟨_, ⟨⟨t, ht, rfl⟩, target⟩, source⟩
    rw [Closure.Reaches, links, Relation.reflTransGen_swap]
    simp [isFinal]
  · intro q q' mem
    rw [Closure.getD_table] at mem
    simp only [List.mem_map, List.mem_filter] at mem
    obtain ⟨_, ⟨⟨t, ht, rfl⟩, _⟩, rfl⟩ := mem
    exact (a.transitions_lt t ht).1
  · exact a.finals_lt

theorem not_recognizes_of_isDegenerate (degenerate : a.isDegenerate = true) : ¬a.Recognizes trace := by
  rintro ⟨q, run, final⟩
  rw [isDegenerate, IdSet.isEmpty_iff] at degenerate
  apply degenerate q
  rw [IdSet.mem_inter, mem_reachable_iff]
  exact ⟨linked_of_leads run, by simpa [isFinal] using final⟩

end Automaton

end GoalCoverage
