import GoalCoverage.Proofs.Suite.Postings

/-!
What is open of a goal only shrinks. Whatever is posted to a suite, the configurations for which a goal is still open are
among those for which it was open before, and none of them lies in a region that was recorded; so a goal that is
resolved stays resolved (`post_shrinks`).
-/

namespace GoalCoverage

namespace Diagram

variable {d : Diagram} {f g : Region}

theorem WellFormed.implies_iff (wf : d.WellFormed) (hf : d.Has f) (hg : d.Has g) :
    (implies f g d).1 = true ↔ ∀ c, d.holds f c = true → d.holds g c = true :=
  (implies_yields wf hf hg).2.2

theorem WellFormed.meet_eq_empty (wf : d.WellFormed) (hf : d.Has f) (hg : d.Has g)
    (apart : ∀ c, d.holds f c = true → d.holds g c = false) : (meet f g d).1 = .empty := by
  obtain ⟨_, ready, has, holds⟩ := meet_yields wf hf hg
  rw [← Region.isEmpty_iff, (ready rfl).isEmpty_iff_holds has]
  intro c
  rw [holds, Bool.and_eq_false_imp]
  exact apart c

end Diagram

namespace Suite

open Diagram

variable {s s' : Suite} {d d' : Diagram} {i : Nat} {γ γ' : Goal} {o o' e e' : List Region} {k k' : List (Nat × Region)}
  {ps rest : List Posting}

section Growth

variable (account : Account d γ o k e) (later : Account d' γ' o' k' e') (opened : o ⊆ o') (covered : k ⊆ k')
  (excluded : e ⊆ e')

include account later opened covered excluded

/-- More regions leave less of a goal. -/
theorem Account.shrinks (wf : d.WellFormed) (ext : d.Extends d') :
    ∃ r r', γ.remaining = some r ∧ γ'.remaining = some r' ∧ d'.Has r ∧ d'.Has r' ∧
      ∀ c, d'.holds r' c = true → d'.holds r c = true := by
  obtain ⟨r, left, has, holds⟩ := (account.extends wf ext).remaining
  obtain ⟨r', left', has', holds'⟩ := later.remaining
  refine ⟨r, r', left, left', has, has', fun c inside => ?_⟩
  obtain ⟨in_o, not_k, not_e⟩ := (holds' c).1 inside
  exact (holds c).2 ⟨fun u mem => in_o u (opened mem), fun x mem => not_k x (covered mem), fun u mem => not_e u (excluded mem)⟩

end Growth

/-- What is still open of a goal has nothing in common with what is recorded of it. -/
structure Apart (γ : Goal) (d : Diagram) : Prop where
  covering : ∀ r, γ.remaining = some r → ∀ t region, γ.covering.get? t = some region →
    ∃ u, region = some u ∧ (meet r u d).1 = .empty
  infeasible : ∀ r, γ.remaining = some r → ∀ u, γ.infeasible = some u → (meet r u d).1 = .empty

theorem Account.apart (account : Account d γ o k e) (wf : d.WellFormed) : Apart γ d := by
  obtain ⟨r, left, has, holds⟩ := account.remaining
  refine ⟨fun r' left' t region entry => ?_, fun r' left' u found => ?_⟩
  · cases left.symm.trans left'
    rw [account.covering] at entry
    obtain ⟨x, mem, same⟩ := List.mem_map.1 (IdMap.mem_of_get?_ofList entry)
    cases same
    exact ⟨x.2, rfl, wf.meet_eq_empty has (account.has_covered x mem) fun c inside => ((holds c).1 inside).2.1 x mem⟩
  · cases left.symm.trans left'
    obtain ⟨has_u, union⟩ := account.infeasible_some u found
    refine wf.meet_eq_empty has has_u fun c inside => ?_
    rw [Bool.eq_false_iff, ne_eq, union c]
    rintro ⟨u', mem, excluded⟩
    rw [((holds c).1 inside).2.2 u' mem] at excluded
    cases excluded

theorem isResolved_iff_of_tracked (tracks : s.variability = true) :
    s.isResolved i = .ok true ↔ ∃ γ, s.goals.get? i = some γ ∧ γ.remaining.all (·.isEmpty) = true := by
  rw [isResolved, if_pos tracks, goal]
  cases s.goals.get? i with
  | none => simp [Functor.map, Except.map]
  | some γ => simp [Functor.map, Except.map]

theorem isResolved_iff_of_plain (plain : s.variability = false) :
    s.isResolved i = .ok true ↔ s.isPartiallyCovered i = true ∨ s.isInfeasible i = true := by
  simp [isResolved, plain]

/-- `s'` comes after `s`: less is open of each goal, nothing that is recorded is open, and what was resolved still is. -/
structure Shrinks (s s' : Suite) (d' : Diagram) : Prop where
  remaining : s.variability = true → ∀ i γ, s.goals.get? i = some γ → ∃ γ' r r', s'.goals.get? i = some γ' ∧
    γ.remaining = some r ∧ γ'.remaining = some r' ∧ (implies r' r d').1 = true
  apart : s.variability = true → ∀ i γ', s'.goals.get? i = some γ' → Apart γ' d'
  resolved : ∀ i, s.isResolved i = .ok true → s'.isResolved i = .ok true

/-- What is known of the goals shrinks from one reading of the books to a later one. -/
theorem Books.shrinks (books : Books s d ps) (later : Books s' d' (ps ++ rest)) (follows : Follows s d s' d') :
    Shrinks s s' d' := by
  have lasts : s.variability = true → s'.variability = true := follows.variability.trans
  have less : s.variability = true → ∀ i γ, s.goals.get? i = some γ → ∃ γ', s'.goals.get? i = some γ' ∧
      ∃ r r', γ.remaining = some r ∧ γ'.remaining = some r' ∧ d'.Has r ∧ d'.Has r' ∧
        ∀ c, d'.holds r' c = true → d'.holds r c = true := by
    intro tracks i γ here
    obtain ⟨γ', here'⟩ := follows.known i γ here
    have account' := later.account (lasts tracks) i γ' here'
    rw [opened, covered, excluded, List.flatMap_append, List.flatMap_append, List.flatMap_append] at account'
    exact ⟨γ', here', (books.account tracks i γ here).shrinks account' (List.subset_append_left _ _)
      (List.subset_append_left _ _) (List.subset_append_left _ _) (books.ready tracks) (follows.grows tracks)⟩
  refine ⟨fun tracks i γ here => ?_, fun tracks i γ' here' => ?_, fun i resolved => ?_⟩
  · obtain ⟨γ', here', r, r', left, left', has, has', sub⟩ := less tracks i γ here
    exact ⟨γ', r, r', here', left, left', ((later.ready (lasts tracks)).implies_iff has' has).2 sub⟩
  · exact (later.account (lasts tracks) i γ' here').apart (later.ready (lasts tracks))
  · cases tracks : s.variability with
    | true =>
      have wf := later.ready (lasts tracks)
      obtain ⟨γ, here, closed⟩ := (isResolved_iff_of_tracked tracks).1 resolved
      obtain ⟨γ', here', r, r', left, left', has, has', sub⟩ := less tracks i γ here
      rw [left, Option.all_some, wf.isEmpty_iff_holds has] at closed
      refine (isResolved_iff_of_tracked (lasts tracks)).2 ⟨γ', here', ?_⟩
      rw [left', Option.all_some, wf.isEmpty_iff_holds has']
      intro c
      rw [Bool.eq_false_iff, ne_eq]
      intro inside
      exact Bool.false_ne_true ((closed c).symm.trans (sub c inside))
    | false =>
      rw [isResolved_iff_of_plain (follows.variability.trans tracks), later.listed, later.marked, covered, excluded,
        List.flatMap_append, List.flatMap_append]
      rw [isResolved_iff_of_plain tracks, books.listed, books.marked] at resolved
      exact resolved.imp (List.append_ne_nil_of_left_ne_nil · _) (List.append_ne_nil_of_left_ne_nil · _)

/-- Between any two points of a run of postings to a new suite, what is open of a goal shrinks, and at each point
nothing of it was recorded; a goal that is resolved stays resolved, with configurations and without. -/
theorem post_shrinks {before after : List Posting} {variability : Bool}
    (permitted : permits (before ++ after) { variability } .fresh = true) :
    ∃ s d s' d', post before { variability } .fresh = .ok (s, d) ∧ post after s d = .ok (s', d') ∧ Shrinks s s' d' := by
  obtain ⟨s, d, ok, _, books, permitted⟩ := (books_start variability).post permitted
  rw [← List.append_nil after] at permitted
  obtain ⟨s', d', ok', follows, later, _⟩ := books.post permitted
  exact ⟨s, d, s', d', ok, ok', books.shrinks later follows⟩

section Example

/-- A goal and two features, with a test case for the first feature. -/
def reported : List Posting :=
  [.ask (.declare "A"), .ask (.declare "B"), .goals [.forEdge 1 0 0 0],
    .testCase { id := 1, inputs := [5], path := [], trace := [0], region := none, presence := [], time := 0 } 1 (some ⟨2⟩)]

/-- The test case comes again for the second feature, which is infeasible as well, and so is everything in the end. -/
def overlapping : List Posting :=
  [.coverage 1 1 (some ⟨3⟩), .infeasible 1 (some ⟨3⟩), .infeasible 1 (some ⟨2⟩), .infeasible 1 none, .coverage 1 1 (some ⟨2⟩)]

theorem post_shrinks_overlapping : permits (reported ++ overlapping) { variability := true } .fresh = true ∧
    ∃ s d s' d', post reported { variability := true } .fresh = .ok (s, d) ∧ post overlapping s d = .ok (s', d') ∧
      Shrinks s s' d' := by
  have permitted : permits (reported ++ overlapping) { variability := true } .fresh = true := by decide +kernel
  exact ⟨permitted, post_shrinks permitted⟩

end Example

end Suite

end GoalCoverage
