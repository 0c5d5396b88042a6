import GoalCoverage.Proofs.Driver.Timetable

/-!
The order of retries. The goals that timed out in a round are processed again as they are listed in the goals that the
generator was made for, the other way round, or as they timed out (`rounds_retry_in_order`). They are first attempted in
increasing order, though: only if they are listed in that order, a retry round follows the first attempts.
-/

namespace GoalCoverage

open Procedure

namespace RetryOrder

/-- Goals that timed out, as a list has them, the other way round, or as they timed out. -/
def arrange (r : RetryOrder) (listed timeouts : List Nat) : List Nat :=
  match r with
  | .forward => listed.filter timeouts.contains
  | .inverted => (listed.filter timeouts.contains).reverse
  | .unordered => timeouts

end RetryOrder

namespace IdMap

/-- Values are in the order of their places. -/
theorem pairwise_values {m : IdMap Nat} {place : Nat → Nat} (at_place : ∀ k i, m.get? k = some i → place i = k) :
    m.values.Pairwise fun i j => place i < place j := by
  rw [values, List.pairwise_map]
  apply m.increasing.imp_of_mem
  intro e e' mem mem' less
  rwa [at_place e.1 e.2 (get?_eq_some_iff.2 mem), at_place e'.1 e'.2 (get?_eq_some_iff.2 mem')]

end IdMap

namespace Generator

/-- The table of timeouts lists them as any list does that has them in the order of their places. -/
theorem queue_filed {order : IdMap Nat} {listed left : List Nat} (places : Places order left)
    (placed : listed.Pairwise fun i j => order.getD i 0 < order.getD j 0) (part : left ⊆ listed) (r : RetryOrder) :
    r.queue (filed order left) left = r.arrange listed left := by
  have values : (filed order left).values = listed.filter left.contains := by
    have sorted : (filed order left).values.Pairwise fun i j => order.getD i 0 < order.getD j 0 := by
      apply IdMap.pairwise_values
      intro k i here
      rw [IdMap.getD, ((get?_filed places).1 here).2]
      rfl
    have distinct : listed.Nodup := by
      apply placed.imp
      intro i j less same
      rw [same] at less
      exact Nat.lt_irrefl _ less
    apply List.Perm.eq_of_pairwise _ sorted (placed.filter _)
    · rw [List.perm_ext_iff_of_nodup (nodup_values_filed places) (distinct.filter _)]
      intro i
      rw [mem_values_filed places, List.mem_filter, List.contains_iff_mem]
      exact ⟨fun mem => ⟨part mem, mem⟩, And.right⟩
    · intro i j _ _ less more
      omega
  cases r with
  | forward => exact values
  | inverted => exact congrArg List.reverse values
  | unordered => exact unordered_queue_filed places

variable {F E S P : Type} [AbstractState S] {a : Analysis F E S P} {fuel : Nat} {g g' : Generator F P}

/-- The goals that a round processes, in this order. -/
def attempted (a : Analysis F E S P) (fuel : Nat) (e : Progress × Generator F P) : List Nat :=
  ((batchesOf a fuel e.1 e.2).map Prod.fst).flatten

/-- A round goes through its queue. -/
theorem attempted_in_order {e : Progress × Generator F P} : attempted a fuel e <+: e.1.queue := by
  have batches : (e.2.settings.batches e.1.queue).flatten = e.1.queue := Settings.flatten_batches
  rw [attempted, ← batches]
  exact (calls_in_order _ _ _).flatten

theorem attempted_eq {e : Progress × Generator F P} {r : Progress ⊕ Progress} (went : round a fuel e.1 e.2 = .ok r g') :
    attempted a fuel e = e.1.queue := by
  obtain ⟨sound, g₁, queued, _⟩ := exists_of_bind_eq_ok went
  rw [attempted, (processQueue_advances.of_eq_ok queued).2.2, Settings.flatten_batches]

variable {settings : Settings} {program : Program} {goals : List Goal} {managed : Bool} {diagram : Diagram} {surroundings : F}
  {clock : Nat → Duration}

omit [AbstractState S] in
/-- The places of goals with distinct indices are those in the list. -/
theorem placed_listed (made : ofGoals settings program goals managed diagram surroundings clock = .ok g)
    (distinct : (goals.map (·.index)).Nodup) :
    (goals.map (·.index)).Pairwise fun i j => g.order.getD i 0 < g.order.getD j 0 := by
  obtain ⟨placed, places⟩ := placed_ofGoals made
  have place : ∀ k (bound : k < (goals.map (·.index)).length), g.order.getD (goals.map (·.index))[k] 0 = k := by
    intro k bound
    have inside : k < goals.length := by simpa using bound
    rw [List.getElem_map]
    obtain ⟨k', here⟩ := places goals[k] (List.getElem_mem inside)
    obtain ⟨γ, there, same⟩ := placed _ k' here
    obtain ⟨inside', rfl⟩ := List.getElem?_eq_some_iff.1 there
    have bound' : k' < (goals.map (·.index)).length := by simpa using inside'
    have indices : (goals.map (·.index))[k'] = (goals.map (·.index))[k] := by simpa using same
    rw [IdMap.getD, here, Option.getD_some]
    exact (distinct.getElem_inj_iff).1 indices
  rw [List.pairwise_iff_getElem]
  intro k l first second less
  rwa [place k first, place l second]

/--
Whatever the engines do, and whichever goals time out in a round: the next round goes through them as they are listed in the
goals of the generator, the other way round, or as they timed out. If the goals are listed in increasing order, that is how
the first round attempted them.
-/
theorem rounds_retry_in_order (made : ofGoals settings program goals managed diagram surroundings clock = .ok g)
    (distinct : (goals.map (·.index)).Nodup) {k : Nat} {e e' : Progress × Generator F P}
    (here : (rounds a fuel g)[k]? = some e) (next : (rounds a fuel g)[k + 1]? = some e') :
    e'.1.queue = settings.retryOrder.arrange (goals.map (·.index)) (roundTimeouts a fuel e.1 e.2) ∧
    ((goals.map (·.index)).Pairwise (· < ·) → ∀ first, (rounds a fuel g)[0]? = some first →
      e'.1.queue = settings.retryOrder.arrange (attempted a fuel first) (roundTimeouts a fuel e.1 e.2)) ∧
    attempted a fuel e' <+: e'.1.queue ∧
    ∀ r g', round a fuel e'.1 e'.2 = .ok r g' → attempted a fuel e' = e'.1.queue := by
  have takes := rounds_linked (places_ofGoals made) (scheduled_ofGoals made) here next
  have setting : g.settings = settings := by rw [ofGoals_eq_ok made]
  have part : roundTimeouts a fuel e.1 e.2 ⊆ goals.map (·.index) := by
    intro i mem
    rw [List.mem_map]
    exact (mem_goalIds_ofGoals made).1 (takes.goals mem)
  have arranged : e'.1.queue = settings.retryOrder.arrange (goals.map (·.index)) (roundTimeouts a fuel e.1 e.2) := by
    rw [takes.queue, queue_filed takes.places (placed_listed made distinct) part, setting]
  refine ⟨arranged, fun increasing first begins => ?_, attempted_in_order, fun r g' went => attempted_eq went⟩
  have listed : attempted a fuel first = goals.map (·.index) := by
    have second : 0 + 1 < (rounds a fuel g).length :=
      Nat.lt_of_le_of_lt (Nat.succ_le_succ (Nat.zero_le k)) (List.getElem?_eq_some_iff.1 next).1
    have whole := attempted_eq (a := a) (turns_step begins (List.getElem?_eq_getElem second))
    obtain ⟨_, rfl⟩ := turns_getElem?_zero.1 begins
    rw [whole]
    apply IdSet.increasing_ext g.suite.goals.keys.increasing increasing
    intro i
    rw [List.mem_map]
    exact mem_goalIds_ofGoals made
  rw [arranged, listed]

section Swapped

/-- The first two engines run out of time. -/
def hurriedStage : Script.Stage := { program := corridor, scripts := List.replicate 2 { runs := [⟨[], .expire⟩] } }

def forwardSettings : Settings := { timeLimit := some (.ofMillis 200), timeoutStrategy := .retry, retryOrder := .forward }

def forwardGenerator (goals : List Goal) : Generator Script.Stage Nat :=
  { settings := forwardSettings
    program := corridor
    diagram := .fresh
    surroundings := hurriedStage
    suite := Suite.addGoals { variability := false } goals
    order := .ofList (goals.mapIdx fun i γ => (γ.index, i))
    clock := fun _ => 0
    timeLimit := some (.ofMillis 200) }

theorem made_forwardGenerator (goals : List Goal) : ofGoals forwardSettings corridor goals false .fresh hurriedStage (fun _ => 0) =
    .ok (forwardGenerator goals) := rfl

theorem rounds_retry_in_order_corridor : ∃ e e',
    (rounds Script.analysis 5 (forwardGenerator (corridor.goals .edges true)))[0]? = some e ∧
    (rounds Script.analysis 5 (forwardGenerator (corridor.goals .edges true)))[1]? = some e' ∧
    roundTimeouts Script.analysis 5 e.1 e.2 = [1, 2] ∧ attempted Script.analysis 5 e' <+: e'.1.queue ∧
    e'.1.queue = RetryOrder.forward.arrange (attempted Script.analysis 5 e) (roundTimeouts Script.analysis 5 e.1 e.2) := by
  have goes : (rounds Script.analysis 5 (forwardGenerator (corridor.goals .edges true))).map (fun e =>
      roundTimeouts Script.analysis 5 e.1 e.2) = [[1, 2], []] := by decide +kernel
  obtain ⟨e, rest, whole, late, more⟩ := List.map_eq_cons_iff.1 goes
  obtain ⟨e', _, rfl, _⟩ := List.map_eq_cons_iff.1 more
  have here : (rounds Script.analysis 5 (forwardGenerator (corridor.goals .edges true)))[0]? = some e := by rw [whole]; rfl
  have next : (rounds Script.analysis 5 (forwardGenerator (corridor.goals .edges true)))[0 + 1]? = some e' := by rw [whole]; rfl
  obtain ⟨_, follows, through, _⟩ := rounds_retry_in_order (made_forwardGenerator _) (by decide +kernel) here next
  exact ⟨e, e', here, next, late, through, follows (by decide +kernel) e here⟩

/-- Two goals that are listed the other way round are retried in that order, not as they were first attempted. -/
theorem retries_against_first_attempts : ∃ e e',
    (rounds Script.analysis 5 (forwardGenerator (corridor.goals .edges true).reverse))[0]? = some e ∧
    (rounds Script.analysis 5 (forwardGenerator (corridor.goals .edges true).reverse))[1]? = some e' ∧
    attempted Script.analysis 5 e = [1, 2] ∧ roundTimeouts Script.analysis 5 e.1 e.2 = [1, 2] ∧
    attempted Script.analysis 5 e' = [2, 1] ∧
    attempted Script.analysis 5 e' ≠ RetryOrder.forward.arrange (attempted Script.analysis 5 e) (roundTimeouts Script.analysis 5 e.1 e.2) := by
  have goes : (rounds Script.analysis 5 (forwardGenerator (corridor.goals .edges true).reverse)).map (fun e =>
      (attempted Script.analysis 5 e, roundTimeouts Script.analysis 5 e.1 e.2)) = [([1, 2], [1, 2]), ([2, 1], [])] := by
    decide +kernel
  obtain ⟨e, rest, whole, first, more⟩ := List.map_eq_cons_iff.1 goes
  obtain ⟨e', _, rfl, second, _⟩ := List.map_eq_cons_iff.1 more
  obtain ⟨order, late⟩ := Prod.mk.inj first
  have again := (Prod.mk.inj second).1
  refine ⟨e, e', by rw [whole]; rfl, by rw [whole]; rfl, order, late, again, ?_⟩
  rw [order, late, again]
  decide

end Swapped

end Generator

end GoalCoverage
