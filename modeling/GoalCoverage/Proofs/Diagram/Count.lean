import GoalCoverage.Proofs.Diagram.Session
import Mathlib.Algebra.BigOperators.Group.Finset.Piecewise
import Mathlib.Algebra.BigOperators.Group.Finset.Powerset

/-!
Counting the configurations of a region. The count of a region is worked out from those of its answers; features that
are not tested on the way double it. It is the number of selections of declared features that lie in the region
(`count_eq_card`).
-/

namespace GoalCoverage

namespace Diagram

variable {d : Diagram} {r : Region} {names : List String} {ledger : List Entry} {e : Entry} {k : Nat}
  {present present' : String → Bool} {selected : Finset String}

/-- Only the features that are tested from the level of a region on matter for it. -/
theorem WellFormed.denotes_congr (wf : d.WellFormed) (has : d.Has r)
    (same : ∀ l, d.level r ≤ l → l ≤ d.features.length → present (d.featureName l) = present' (d.featureName l)) :
    d.denotes r present = d.denotes r present' := by
  have first : d.denotes r present =
      d.holds r fun l => if l < d.level r then present' (d.featureName l) else present (d.featureName l) := by
    apply wf.holds_congr has
    intro l deep
    exact (if_neg (Nat.not_lt.2 deep)).symm
  rw [first]
  apply wf.holds_congr_le has
  intro l bound
  split_ifs with high
  · rfl
  · exact same l (Nat.not_lt.1 high) bound

theorem WellFormed.denotes_inner (wf : d.WellFormed) (inner : 2 ≤ r.index) (has : d.Has r) :
    d.denotes r present = if present (d.featureName (d.level r)) then d.denotes (d.decision r).high present
      else d.denotes (d.decision r).low present := by
  rw [level_of_inner inner]
  exact wf.holds_inner inner has

/-- The number of selections from the features after the first `k` that lie in `r`. -/
def selections (d : Diagram) (r : Region) (k : Nat) : Nat :=
  ∑ selected ∈ (d.features.drop k).toFinset.powerset, if d.denotes r (fun name => decide (name ∈ selected)) then 1 else 0

section Selections

variable (wf : d.WellFormed) (nodup : d.features.Nodup)

include nodup

theorem first_not_mem (inside : k < d.features.length) : d.features[k] ∉ (d.features.drop (k + 1)).toFinset := by
  have rest := nodup.sublist (List.drop_sublist k d.features)
  rw [List.drop_eq_getElem_cons inside, List.nodup_cons] at rest
  rw [List.mem_toFinset]
  exact rest.1

/-- The features after the first `k` are selected with and without the first of them. -/
theorem selections_split (r : Region) (inside : k < d.features.length) :
    d.selections r k = ∑ selected ∈ (d.features.drop (k + 1)).toFinset.powerset,
      ((if d.denotes r (fun name => decide (name ∈ selected)) then 1 else 0) +
        if d.denotes r (fun name => decide (name ∈ insert d.features[k] selected)) then 1 else 0) := by
  rw [selections, List.drop_eq_getElem_cons inside, List.toFinset_cons,
    Finset.sum_powerset_insert (first_not_mem nodup inside), Finset.sum_add_distrib]

include wf

/-- A feature does not matter above the level of a region. -/
theorem denotes_insert (has : d.Has r) (inside : k < d.features.length) (deep : k + 1 < d.level r) :
    d.denotes r (fun name => decide (name ∈ insert d.features[k] selected)) =
      d.denotes r fun name => decide (name ∈ selected) := by
  apply wf.denotes_congr has
  intro l below bound
  have other : d.featureName l ≠ d.features[k] := by
    rw [featureName_eq (by omega)]
    intro same
    have := (nodup.getElem_inj_iff).1 same
    omega
  simp only [Finset.mem_insert, other, false_or]

theorem selections_skip (has : d.Has r) (deep : k + 1 < d.level r) : d.selections r k = 2 * d.selections r (k + 1) := by
  have bound := wf.level_le_terminal has
  have inside : k < d.features.length := by omega
  rw [selections_split nodup r inside]
  simp only [denotes_insert wf nodup has inside deep]
  rw [Finset.sum_add_distrib, Nat.two_mul]
  rfl

/-- Each feature above the level of a region doubles the number of selections. -/
theorem selections_shift (has : d.Has r) (above : k < d.level r) :
    d.selections r k = d.selections r (d.level r - 1) <<< (d.level r - 1 - k) := by
  obtain ⟨skipped, rest⟩ : ∃ skipped, d.level r - 1 - k = skipped := ⟨_, rfl⟩
  induction skipped generalizing k with
  | zero =>
    obtain rfl : k = d.level r - 1 := by omega
    rw [rest, Nat.shiftLeft_zero]
  | succ skipped ih =>
    rw [selections_skip wf nodup has (by omega), ih (by omega) (by omega), rest, Nat.shiftLeft_succ]
    congr 2
    omega

/-- At the level of a decision, the selections without its feature are those of one answer, the others those of the other. -/
theorem selections_decide (inner : 2 ≤ r.index) (has : d.Has r) (level : d.level r = k + 1) :
    d.selections r k = d.selections (d.decision r).low (k + 1) + d.selections (d.decision r).high (k + 1) := by
  have inside : k < d.features.length := by
    have := wf.level_le r inner has
    rw [← level_of_inner inner] at this
    omega
  have name : d.featureName (d.level r) = d.features[k] := by
    rw [level]
    exact featureName_eq (by simpa using inside)
  have below : k + 1 < d.level (d.decision r).high := by
    rw [← level, level_of_inner inner]
    exact wf.high_below r inner has
  rw [selections_split nodup r inside, selections, selections, ← Finset.sum_add_distrib]
  apply Finset.sum_congr rfl
  intro selected mem
  have absent : d.features[k] ∉ selected := fun here =>
    first_not_mem nodup inside (Finset.mem_powerset.1 mem here)
  rw [wf.denotes_inner inner has, wf.denotes_inner inner has, name,
    ← denotes_insert wf nodup (wf.has_high inner has) inside below]
  simp [absent]

end Selections

theorem selections_empty (k : Nat) : d.selections .empty k = 0 := by
  simp [selections, denotes]

theorem selections_all : d.selections .all d.features.length = 1 := by
  simp [selections, denotes]

/-- The counts of the first regions, once they are worked out. -/
structure Counted (d : Diagram) (counts : Array Nat) : Prop where
  count : ∀ r : Region, r.index < counts.size → counts.getD r.index 0 = d.selections r (d.level r - 1)

theorem counted_terminals : d.Counted #[0, 1] where
  count r bound := by
    rcases terminal_or_inner r with rfl | rfl | inner
    · exact (selections_empty _).symm
    · exact selections_all.symm
    · exact absurd inner (Nat.not_le.2 bound)

/-- What an answer adds to the count of a decision. -/
theorem Counted.answer {counts : Array Nat} (counted : d.Counted counts) (wf : d.WellFormed) (nodup : d.features.Nodup)
    (has : d.Has r) (known : r.index < counts.size) (above : k < d.level r) :
    counts.getD r.index 0 <<< (d.level r - k - 1) = d.selections r k := by
  rw [counted.count r known, Nat.sub_right_comm, selections_shift wf nodup has above]

theorem Counted.push {counts : Array Nat} (counted : d.Counted counts) (wf : d.WellFormed) (nodup : d.features.Nodup)
    (inner : 2 ≤ r.index) (has : d.Has r) (next : r.index = counts.size) :
    d.Counted (counts.push (d.countFrom counts (d.decision r))) where
  count s bound := by
    rw [Array.size_push] at bound
    obtain old | last := Nat.lt_or_eq_of_le (Nat.le_of_lt_succ bound)
    · rw [Array.getD_eq_getD_getElem?, Array.getElem?_push, if_neg (Nat.ne_of_lt old), ← Array.getD_eq_getD_getElem?]
      exact counted.count s old
    · obtain rfl : s = r := region_eq_of_index (last.trans next.symm)
      have level : d.level s = d.level s - 1 + 1 := by
        have := wf.one_le_level has
        omega
      have low := wf.low_lt s inner has
      have high := wf.high_lt s inner has
      rw [Array.getD_eq_getD_getElem?, last, Array.getElem?_push_size, Option.getD_some, countFrom,
        selections_decide wf nodup inner has level, ← level, level_of_inner inner,
        counted.answer wf nodup (wf.has_low inner has) (next ▸ low) (wf.low_below s inner has),
        counted.answer wf nodup (wf.has_high inner has) (next ▸ high) (wf.high_below s inner has)]

theorem counts_of_le_two {bound : Nat} (few : bound ≤ 2) : d.counts bound = #[0, 1] := by
  rw [counts, List.drop_eq_nil_of_le (Nat.le_trans (List.length_take_le _ _) few)]
  rfl

theorem counts_succ {bound : Nat} (inner : 2 ≤ bound) (has : d.Has ⟨bound⟩) :
    d.counts (bound + 1) = (d.counts bound).push (d.countFrom (d.counts bound) (d.decision ⟨bound⟩)) := by
  have there : bound < d.decisions.toList.length := has
  have last : d.decisions.toList[bound] = d.decision ⟨bound⟩ := by
    have inside : bound < d.decisions.size := has
    simp [decision, inside]
  rw [counts, counts, List.take_succ_eq_append_getElem there, last,
    List.drop_append_of_le_length (by rw [List.length_take]; omega), List.foldl_append]
  rfl

/-- One pass through the arena counts all regions. -/
theorem counted_counts (wf : d.WellFormed) (nodup : d.features.Nodup) (bound : Nat) (le : bound ≤ d.size) :
    (d.counts bound).size = max 2 bound ∧ d.Counted (d.counts bound) := by
  induction bound with
  | zero =>
    rw [counts_of_le_two (Nat.zero_le 2)]
    exact ⟨rfl, counted_terminals⟩
  | succ bound ih =>
    obtain few | inner := Nat.lt_or_ge bound 2
    · rw [counts_of_le_two few]
      exact ⟨by simp; omega, counted_terminals⟩
    · obtain ⟨size, counted⟩ := ih (Nat.le_of_succ_le le)
      rw [Nat.max_eq_right inner] at size
      rw [counts_succ inner le]
      refine ⟨by rw [Array.size_push, size]; omega, ?_⟩
      exact counted.push (r := ⟨bound⟩) wf nodup inner le size.symm

theorem count_eq_selections (wf : d.WellFormed) (nodup : d.features.Nodup) (has : d.Has r) :
    d.count r = d.selections r 0 := by
  obtain ⟨size, counted⟩ := counted_counts wf nodup (r.index + 1) has
  exact counted.answer wf nodup has (by rw [size]; omega) (wf.one_le_level has)

theorem selections_eq_card (r : Region) : d.selections r 0 =
    (d.features.toFinset.powerset.filter fun selected => d.denotes r (fun name => decide (name ∈ selected)) = true).card := by
  rw [Finset.card_filter]
  rfl

/--
In a session the count of a region is the number of selections of the declared features that lie in it. No shift on the
way is by a negative number: a region has a level, and a decision has a lower one than its answers.
-/
theorem count_eq_card (session : Session d names ledger) (mem : e ∈ ledger) :
    d.count e.region =
      (names.toFinset.powerset.filter fun selected => e.meaning (fun name => decide (name ∈ selected)) = true).card ∧
    names.toFinset.powerset.card = 2 ^ d.features.length ∧
    1 ≤ d.level e.region ∧
    ∀ r, 2 ≤ r.index → d.Has r →
      (d.decision r).level + 1 ≤ d.level (d.decision r).low ∧ (d.decision r).level + 1 ≤ d.level (d.decision r).high := by
  have faithful := session.faithful
  have wf := faithful.wellFormed
  have has := faithful.has e mem
  have declared : names.toFinset = d.features.toFinset := by
    ext name
    rw [List.mem_toFinset, List.mem_toFinset, faithful.declared]
  refine ⟨?_, ?_, wf.one_le_level has, fun r inner has => ⟨wf.low_below r inner has, wf.high_below r inner has⟩⟩
  · rw [count_eq_selections wf faithful.nodup has, selections_eq_card, faithful.denotes e mem, declared]
  · rw [declared, Finset.card_powerset, List.toFinset_card_of_nodup faithful.nodup]

section Example

/-- The configurations with the third feature of a session. -/
def thirdEntry : Entry := ⟨⟨4⟩, fun present => present "C"⟩

/-- The configurations with the first or the third feature. The region skips the second one. -/
def eitherEntry : Entry := ⟨⟨5⟩, fun present => present "A" || present "C"⟩

def threeDeclared : Diagram := (answer (.declare "C") (answer (.declare "B") (answer (.declare "A") fresh).2).2).2

/-- A last feature is declared after the region was made. -/
def fourDeclared : Diagram := (answer (.declare "D") (answer (.join featureEntry thirdEntry) threeDeclared).2).2

theorem session_three : ∃ ledger, Session threeDeclared ["C", "B", "A"] ledger ∧ featureEntry ∈ ledger ∧ thirdEntry ∈ ledger := by
  refine ⟨_, .ask (.declare "C") (.ask (.declare "B") session_feature ?_) ?_, ?_, ?_⟩
  · simp [Request.arguments]
  · simp [Request.arguments]
  · simp [featureLedger]
  · exact List.mem_append_left _ (.head _)

theorem session_four : ∃ ledger, Session fourDeclared ["D", "C", "B", "A"] ledger ∧ eitherEntry ∈ ledger := by
  obtain ⟨ledger, session, first, third⟩ := session_three
  refine ⟨_, .ask (.declare "D") (.ask (.join featureEntry thirdEntry) session ?_) ?_, ?_⟩
  · simp [Request.arguments, first, third]
  · simp [Request.arguments]
  · exact List.mem_append_right _ (List.mem_append_left _ (.head _))

theorem count_eq_card_skipping : (∃ ledger, Session fourDeclared ["D", "C", "B", "A"] ledger ∧ eitherEntry ∈ ledger) ∧
    fourDeclared.count ⟨5⟩ = ((["D", "C", "B", "A"].toFinset).powerset.filter fun selected =>
      eitherEntry.meaning (fun name => decide (name ∈ selected)) = true).card ∧
    (["D", "C", "B", "A"].toFinset).powerset.card = 2 ^ fourDeclared.features.length ∧ 1 ≤ fourDeclared.level ⟨5⟩ ∧
    ∀ r, 2 ≤ r.index → fourDeclared.Has r →
      (fourDeclared.decision r).level + 1 ≤ fourDeclared.level (fourDeclared.decision r).low ∧
      (fourDeclared.decision r).level + 1 ≤ fourDeclared.level (fourDeclared.decision r).high := by
  obtain ⟨ledger, session, mem⟩ := session_four
  exact ⟨⟨ledger, session, mem⟩, count_eq_card session mem⟩

example : fourDeclared.count ⟨5⟩ = 12 := by decide +kernel

end Example

end Diagram

end GoalCoverage
