import GoalCoverage.Proofs.Closure
import GoalCoverage.Proofs.Walk
import Mathlib.Data.List.Perm.Subperm

/-!
The search for edges that can be traversed without a given one. It stops as soon as it has found as many edges as
there are targets; even so it finds all targets that end such a walk, and no others (`edgesReached_exact`).
-/

namespace GoalCoverage

theorem IdSet.mem_of_size_le {s t : IdSet} {x : Nat} (sub : ∀ x ∈ s, x ∈ t) (size : t.size ≤ s.size) (mem : x ∈ t) :
    x ∈ s := by
  have nodup : s.toList.Nodup := s.increasing.imp Nat.ne_of_lt
  have perm : s.toList.Perm t.toList := (List.subperm_of_subset nodup sub).perm_of_length_le size
  exact perm.mem_iff.2 mem

namespace Program

open Std

variable {p : Program} {start finish n : Location} {avoid e : EdgeId} {trace es : List EdgeId} {edge : Edge}
  {targets found : IdSet} {visited : TreeSet Nat} {hunt hunt' : Hunt} {rest : List Location}

/-- Some walk leads to the location and never takes the edge. -/
def Reached (p : Program) (start : Location) (avoid : EdgeId) (n : Location) : Prop :=
  ∃ trace, p.Walk start trace n ∧ avoid ∉ trace

/-- Some walk ends with one edge and never takes the other. -/
def Traversed (p : Program) (start : Location) (avoid e : EdgeId) : Prop :=
  ∃ trace finish, p.Walk start (trace ++ [e]) finish ∧ avoid ∉ trace ++ [e]

section Walks

theorem Walk.exists_last (walk : p.Walk start (trace ++ [e]) finish) :
    ∃ edge, p.edges[e]? = some edge ∧ p.Walk start trace edge.source ∧ edge.target = finish := by
  generalize whole : trace ++ [e] = all at walk
  cases walk with
  | stay => simp at whole
  | step walk there source =>
    obtain ⟨rfl, last⟩ := List.append_inj' whole rfl
    cases last
    exact ⟨_, there, source ▸ walk, rfl⟩

theorem Walk.finish_lt (walk : p.Walk start trace finish) (known : start < p.locations.size) :
    finish < p.locations.size := by
  cases walk with
  | stay => exact known
  | step _ there _ => exact (p.ends_known _ (Array.mem_of_getElem? there)).2

theorem reached_self : p.Reached start avoid start := ⟨[], .stay, List.not_mem_nil⟩

theorem Reached.lt (reached : p.Reached start avoid n) (known : start < p.locations.size) : n < p.locations.size := by
  obtain ⟨_, walk, _⟩ := reached
  exact walk.finish_lt known

theorem Reached.traverses (reached : p.Reached start avoid edge.source) (there : p.edges[e]? = some edge)
    (other : e ≠ avoid) : p.Traversed start avoid e ∧ p.Reached start avoid edge.target := by
  obtain ⟨trace, walk, avoids⟩ := reached
  have longer : p.Walk start (trace ++ [e]) edge.target := walk.step there rfl
  have avoids' : avoid ∉ trace ++ [e] := by simp [avoids, other.symm]
  exact ⟨⟨trace, _, longer, avoids'⟩, trace ++ [e], longer, avoids'⟩

theorem Traversed.exists_edge (traversed : p.Traversed start avoid e) :
    ∃ edge, p.edges[e]? = some edge ∧ e ≠ avoid ∧ p.Reached start avoid edge.source := by
  obtain ⟨trace, _, walk, avoids⟩ := traversed
  obtain ⟨edge, there, walk, _⟩ := walk.exists_last
  rw [List.mem_append, List.mem_singleton, not_or] at avoids
  exact ⟨edge, there, Ne.symm avoids.2, trace, walk, avoids.1⟩

end Walks

section Edges

theorem take_eq_ok (ok : p.take targets hunt e = .ok hunt') :
    (∀ f, f ∈ hunt'.found ↔ f ∈ hunt.found ∨ f = e ∧ e ∈ targets) ∧
      hunt'.todo = (p.edges[e]?).toList.map (·.target) ++ hunt.todo := by
  simp only [take] at ok
  split_ifs at ok with target
  · cases ok
    rw [IdSet.contains_iff] at target
    simp [target, or_comm]
  · cases ok
    rw [IdSet.contains_iff] at target
    simp [target]

theorem take_eq_error (stopped : p.take targets hunt e = .error found) :
    found.size = targets.size ∧ e ∈ targets ∧ ∀ f ∈ found, f = e ∨ f ∈ hunt.found := by
  simp only [take] at stopped
  split_ifs at stopped with target all
  cases stopped
  exact ⟨all, IdSet.contains_iff.1 target, fun f mem => IdSet.mem_insert.1 mem⟩

/-- What the search knows after some edges. -/
structure Taken (p : Program) (targets : IdSet) (hunt : Hunt) (es : List EdgeId) (hunt' : Hunt) : Prop where
  found : ∀ e, e ∈ hunt'.found ↔ e ∈ hunt.found ∨ e ∈ es ∧ e ∈ targets
  todo : ∀ n, n ∈ hunt'.todo ↔ n ∈ hunt.todo ∨ ∃ e ∈ es, ∃ edge, p.edges[e]? = some edge ∧ edge.target = n

theorem taken_of_eq_ok (ok : es.foldlM (p.take targets) hunt = .ok hunt') : p.Taken targets hunt es hunt' := by
  induction es generalizing hunt with
  | nil =>
    cases ok
    exact ⟨by simp, by simp⟩
  | cons e es ih =>
    rw [List.foldlM_cons] at ok
    cases first : p.take targets hunt e with
    | error found =>
      rw [first] at ok
      cases ok
    | ok mid =>
      rw [first] at ok
      have later := ih ok
      obtain ⟨found, todo⟩ := take_eq_ok first
      refine ⟨fun f => ?_, fun n => ?_⟩
      · rw [later.found, found, List.mem_cons]
        grind
      · rw [later.todo, todo]
        simp only [List.mem_append, List.mem_map, Option.mem_toList, List.mem_cons, exists_eq_or_imp]
        rw [or_assoc, or_left_comm]

/-- An early end finds as many edges as there are targets, all of them old or among the edges taken. -/
theorem found_of_eq_error (stopped : es.foldlM (p.take targets) hunt = .error found) :
    found.size = targets.size ∧ ∀ e ∈ found, e ∈ hunt.found ∨ e ∈ es ∧ e ∈ targets := by
  induction es generalizing hunt with
  | nil => cases stopped
  | cons e es ih =>
    rw [List.foldlM_cons] at stopped
    cases first : p.take targets hunt e with
    | error found' =>
      rw [first] at stopped
      cases stopped
      obtain ⟨size, target, members⟩ := take_eq_error first
      refine ⟨size, fun f mem => ?_⟩
      obtain rfl | old := members f mem
      · exact .inr ⟨List.mem_cons_self, target⟩
      · exact .inl old
    | ok mid =>
      rw [first] at stopped
      obtain ⟨size, members⟩ := ih stopped
      refine ⟨size, fun f mem => ?_⟩
      obtain old | new := members f mem
      · obtain old | ⟨rfl, target⟩ := ((take_eq_ok first).1 f).1 old
        · exact .inl old
        · exact .inr ⟨List.mem_cons_self, target⟩
      · exact .inr ⟨List.mem_cons_of_mem e new.1, new.2⟩

end Edges

/-- What holds throughout the search: all edges of a visited location but `avoid` are taken, and it goes on where they lead. -/
structure Hunting (p : Program) (start : Location) (avoid : EdgeId) (targets : IdSet) (visited : TreeSet Nat) (hunt : Hunt) :
    Prop where
  found : ∀ e ∈ hunt.found, e ∈ targets ∧ p.Traversed start avoid e
  todo : ∀ n ∈ hunt.todo, p.Reached start avoid n
  visited_lt : ∀ n ∈ visited, n < p.locations.size
  begun : start ∈ visited ∨ start ∈ hunt.todo
  taken : ∀ n ∈ visited, ∀ e edge, p.edges[e]? = some edge → edge.source = n → e ≠ avoid →
    (e ∈ targets → e ∈ hunt.found) ∧ (edge.target ∈ visited ∨ edge.target ∈ hunt.todo)

theorem mem_leavingOther : e ∈ (p.leaving n).filter (· != avoid) ↔
    ∃ edge, p.edges[e]? = some edge ∧ edge.source = n ∧ e ≠ avoid := by
  simp only [List.mem_filter, mem_leaving, bne_iff_ne, ← exists_and_right, and_assoc]

namespace Hunting

theorem opening (p : Program) (start : Location) (avoid : EdgeId) (targets : IdSet) :
    p.Hunting start avoid targets ∅ { found := ∅, todo := [start] } where
  found e mem := absurd mem (IdSet.not_mem_empty e)
  todo n mem := List.mem_singleton.1 mem ▸ reached_self
  visited_lt n mem := by simp at mem
  begun := .inr (List.mem_singleton.2 rfl)
  taken n mem := by simp at mem

variable (hunting : p.Hunting start avoid targets visited hunt)

include hunting

/-- When all that is to do was visited before, everything is found. -/
theorem mem_found_iff (done : ∀ n ∈ hunt.todo, n ∈ visited) :
    e ∈ hunt.found ↔ e ∈ targets ∧ p.Traversed start avoid e := by
  have all : ∀ {trace n}, p.Walk start trace n → avoid ∉ trace → n ∈ visited := by
    intro trace n walk
    induction walk with
    | stay => exact fun _ => hunting.begun.elim id (done start)
    | @step trace _ e edge _ there source ih =>
      intro avoids
      rw [List.mem_append, List.mem_singleton, not_or] at avoids
      exact (hunting.taken _ (ih avoids.1) e edge there source (Ne.symm avoids.2)).2.elim id (done _)
  refine ⟨hunting.found e, fun ⟨target, traversed⟩ => ?_⟩
  obtain ⟨edge, there, other, trace, walk, avoids⟩ := traversed.exists_edge
  exact (hunting.taken _ (all walk avoids) e edge there rfl other).1 target

variable (next : hunt.todo.dropWhile visited.contains = n :: rest)

include next

theorem reached_of_mem_next {m : Location} (mem : m ∈ n :: rest) : p.Reached start avoid m := by
  rw [← next] at mem
  exact hunting.todo m ((List.dropWhile_suffix _).subset mem)

/-- The edges taken at the next location are ends of walks. -/
theorem traversed_of_mem_next (mem : e ∈ (p.leaving n).filter (· != avoid)) : p.Traversed start avoid e := by
  obtain ⟨edge, there, rfl, other⟩ := mem_leavingOther.1 mem
  exact ((hunting.reached_of_mem_next next List.mem_cons_self).traverses there other).1

/-- Visiting a location takes its edges and keeps the search in order. -/
theorem visit (known : start < p.locations.size)
    (ok : ((p.leaving n).filter (· != avoid)).foldlM (p.take targets) { hunt with todo := rest } = .ok hunt') :
    p.Hunting start avoid targets (visited.insert n) hunt' := by
  have step := taken_of_eq_ok ok
  have here := hunting.reached_of_mem_next next List.mem_cons_self
  -- What was to do before is visited, or it is the next location, or it is still to do.
  have kept : ∀ m, m ∈ visited ∨ m ∈ hunt.todo → m ∈ visited.insert n ∨ m ∈ hunt'.todo := by
    intro m old
    rw [← List.takeWhile_append_dropWhile (p := visited.contains) (l := hunt.todo), next, List.mem_append,
      List.mem_cons] at old
    rw [TreeSet.mem_insert, step.todo, Nat.compare_eq_eq]
    obtain old | before | rfl | later := old
    · exact .inl (.inr old)
    · exact .inl (.inr (by simpa using List.mem_takeWhile_imp before))
    · exact .inl (.inl rfl)
    · exact .inr (.inl later)
  refine
    { found := fun e mem => ?_
      todo := fun m mem => ?_
      visited_lt := fun m mem => ?_
      begun := kept start hunting.begun
      taken := fun m mem e edge there source other => ?_ }
  · obtain old | ⟨new, target⟩ := (step.found e).1 mem
    · exact hunting.found e old
    · exact ⟨target, hunting.traversed_of_mem_next next new⟩
  · obtain old | ⟨e, taken, edge, there, rfl⟩ := (step.todo m).1 mem
    · exact hunting.reached_of_mem_next next (List.mem_cons_of_mem n old)
    · obtain ⟨edge', there', rfl, other⟩ := mem_leavingOther.1 taken
      rw [there] at there'
      cases there'
      exact (here.traverses there other).2
  · obtain same | old := TreeSet.mem_insert.1 mem
    · rw [← Nat.compare_eq_eq.1 same]
      exact here.lt known
    · exact hunting.visited_lt m old
  · obtain same | old := TreeSet.mem_insert.1 mem
    · have taken : e ∈ (p.leaving n).filter (· != avoid) :=
        mem_leavingOther.2 ⟨edge, there, source.trans (Nat.compare_eq_eq.1 same).symm, other⟩
      exact ⟨fun target => (step.found e).2 (.inr ⟨taken, target⟩),
        .inr ((step.todo _).2 (.inr ⟨e, taken, edge, there, rfl⟩))⟩
    · obtain ⟨found, follows⟩ := hunting.taken m old e edge there source other
      exact ⟨fun target => (step.found e).2 (.inl (found target)), kept _ follows⟩

/-- An early end has found all targets. -/
theorem stop (stopped : ((p.leaving n).filter (· != avoid)).foldlM (p.take targets) { hunt with todo := rest } = .error found) :
    e ∈ found ↔ e ∈ targets ∧ p.Traversed start avoid e := by
  obtain ⟨size, members⟩ := found_of_eq_error stopped
  have sound : ∀ f ∈ found, f ∈ targets ∧ p.Traversed start avoid f := by
    intro f mem
    obtain old | ⟨new, target⟩ := members f mem
    · exact hunting.found f old
    · exact ⟨target, hunting.traversed_of_mem_next next new⟩
  refine ⟨sound e, fun ⟨target, _⟩ => ?_⟩
  exact IdSet.mem_of_size_le (fun f mem => (sound f mem).1) (Nat.le_of_eq size.symm) target

end Hunting

/-- The visits that are left suffice as long as they and the locations visited are as many as there are locations. -/
theorem mem_huntWithin_iff {left : Nat} (hunting : p.Hunting start avoid targets visited hunt)
    (known : start < p.locations.size) (enough : p.locations.size ≤ left + visited.size) :
    e ∈ p.huntWithin avoid targets left visited hunt ↔ e ∈ targets ∧ p.Traversed start avoid e := by
  induction left generalizing visited hunt with
  | zero =>
    rw [Nat.zero_add] at enough
    apply hunting.mem_found_iff
    intro n mem
    exact Closure.mem_of_bound_le_size hunting.visited_lt enough ((hunting.todo n mem).lt known)
  | succ left ih =>
    rw [huntWithin]
    split
    next done =>
      apply hunting.mem_found_iff
      intro n mem
      rw [List.dropWhile_eq_nil_iff] at done
      simpa using done n mem
    next n rest next =>
      split
      next found stopped => exact hunting.stop next stopped
      next hunt' ok =>
        apply ih (hunting.visit next known ok)
        have new : visited.contains n = false := by
          have head := List.head?_dropWhile_not visited.contains hunt.todo
          rw [next] at head
          simpa using head
        have size := TreeSet.size_insert (t := visited) (k := n)
        rw [new] at size
        simp only [Bool.false_eq_true, if_false] at size
        omega

/--
From a location of the program the search ends, and finds exactly those targets other than `avoid` that end a walk on
which `avoid` is never taken. Visits beyond the number of locations find nothing more.
-/
theorem edgesReached_exact (p : Program) (start : Location) (known : p.known start = true) (avoid : EdgeId)
    (targets : IdSet) :
    ∃ found, p.edgesReached start avoid targets = .ok found ∧
      (∀ e, e ∈ found ↔ e ∈ targets ∧ e ≠ avoid ∧
        ∃ trace finish, p.Walk start (trace ++ [e]) finish ∧ avoid ∉ trace ++ [e]) ∧
      ∀ left, p.locations.size ≤ left →
        p.huntWithin avoid targets left ∅ { found := ∅, todo := [start] } = found := by
  have located : start < p.locations.size := by simpa [Program.known] using known
  have exact : ∀ left, p.locations.size ≤ left → ∀ e,
      e ∈ p.huntWithin avoid targets left ∅ { found := ∅, todo := [start] } ↔ e ∈ targets ∧ p.Traversed start avoid e := by
    intro left enough e
    exact mem_huntWithin_iff (.opening p start avoid targets) located (Nat.le_add_right_of_le enough)
  refine ⟨p.huntWithin avoid targets p.locations.size ∅ { found := ∅, todo := [start] }, ?_, fun e => ?_, fun left enough => ?_⟩
  · rw [edgesReached, locate, if_pos known]
    rfl
  · rw [exact _ (Nat.le_refl _)]
    apply and_congr_right
    intro _
    exact ⟨fun traversed => ⟨traversed.exists_edge.choose_spec.2.1, traversed⟩, And.right⟩
  · apply IdSet.ext_mem
    intro e
    rw [exact left enough, exact _ (Nat.le_refl _)]

section Example

/-- Edge 1 is a loop, edges 2 and 3 are parallel, edge 4 closes a cycle, and edge 5 cannot be reached. -/
def knotted : Program := ofArrows 3 [(0, 1), (1, 1), (1, 2), (1, 2), (2, 0), (3, 2)]

theorem edgesReached_exact_knotted :
    knotted.known 0 = true ∧ knotted.edgesReached 0 2 (.ofList [1, 2, 3, 5, 9]) = .ok (.ofList [1, 3]) ∧
    (∃ trace finish, knotted.Walk 0 (trace ++ [3]) finish ∧ 2 ∉ trace ++ [3]) ∧
    ¬∃ trace finish, knotted.Walk 0 (trace ++ [5]) finish ∧ 2 ∉ trace ++ [5] := by
  have known : knotted.known 0 = true := by decide +kernel
  have run : knotted.edgesReached 0 2 (.ofList [1, 2, 3, 5, 9]) = .ok (.ofList [1, 3]) := by rfl
  obtain ⟨found, ok, exact, _⟩ := edgesReached_exact knotted 0 known 2 (.ofList [1, 2, 3, 5, 9])
  rw [run] at ok
  cases ok
  refine ⟨known, run, ((exact 3).1 (by decide)).2.2, fun walk => ?_⟩
  exact absurd ((exact 5).2 ⟨by decide, by decide, walk⟩) (by decide)

/-- With the last of the targets the search ends early. -/
example : knotted.edgesReached 0 9 (.ofList [0, 1]) = .ok (.ofList [0, 1]) := by rfl

end Example

end Program

end GoalCoverage
