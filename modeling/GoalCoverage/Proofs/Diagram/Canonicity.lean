import GoalCoverage.Proofs.Diagram.Checked

/-!
Canonicity of regions. At any time of a session the arena is ordered and reduced, so a set of configurations has
one region: comparing regions decides equality, emptiness, universality and containment of sets
(`canonical_of_session`). None of the checks behind the operations fails on the way.
-/

namespace GoalCoverage.Diagram

variable {d : Diagram} {f g r s : Region}

/-- Every decision tests a declared feature, and its two answers differ, are older and test later features. -/
structure Reduced (d : Diagram) : Prop where
  declared : ∀ r, 2 ≤ r.index → d.Has r → 1 ≤ (d.decision r).level ∧ (d.decision r).level ≤ d.features.length
  distinct : ∀ r, 2 ≤ r.index → d.Has r → (d.decision r).low ≠ (d.decision r).high
  older : ∀ r, 2 ≤ r.index → d.Has r → (d.decision r).low.index < r.index ∧ (d.decision r).high.index < r.index
  later : ∀ r, 2 ≤ r.index → d.Has r →
    (d.decision r).level < d.level (d.decision r).low ∧ (d.decision r).level < d.level (d.decision r).high
  /-- A decision is stored once, and not as one of the terminals. -/
  unique : ∀ r s, 2 ≤ r.index → d.Has r → d.Has s → d.decision r = d.decision s → r = s

/-- What regions say of the sets that they denote. -/
structure Canonical (d : Diagram) : Prop where
  eq_iff : ∀ f g, d.Has f → d.Has g → (f = g ↔ ∀ present, d.denotes f present = d.denotes g present)
  isEmpty_iff : ∀ f, d.Has f → (f.isEmpty = true ↔ ∀ present, d.denotes f present = false)
  isAll_iff : ∀ f, d.Has f → (f.isAll = true ↔ ∀ present, d.denotes f present = true)
  implies_iff : ∀ f g, d.Has f → d.Has g →
    ((implies f g d).1 = true ↔ ∀ present, d.denotes f present = true → d.denotes g present = true)

/-- Every check of every request about stored regions is passed. -/
structure Unfailing (d : Diagram) : Prop where
  perform : ∀ request : Request Region, (∀ r ∈ request.arguments, d.Has r) →
    Checked.perform request d = .ok (request.perform d)
  implies : ∀ f g, d.Has f → d.Has g → Checked.implies f g d = .ok (implies f g d)

theorem WellFormed.eq_of_decision (wf : d.WellFormed) (innerR : 2 ≤ r.index) (innerS : 2 ≤ s.index) (hr : d.Has r)
    (hs : d.Has s) (same : d.decision r = d.decision s) : r = s := by
  have stored := wf.known_of_stored r innerR hr
  rw [same, wf.known_of_stored s innerS hs] at stored
  exact (Option.some.inj stored).symm

/-- The places of the terminals hold no decision. -/
theorem level_decision_terminal (grows : fresh.Extends d) (terminal : r.index < 2) : (d.decision r).level = 0 := by
  rw [grows.decision_eq r terminal]
  obtain ⟨i⟩ := r
  match i, terminal with
  | 0, _ => rfl
  | 1, _ => rfl

theorem WellFormed.isReduced (wf : d.WellFormed) (grows : fresh.Extends d) : Reduced d where
  declared r inner has := ⟨wf.level_pos r inner has, wf.level_le r inner has⟩
  distinct := wf.reduced
  older r inner has := ⟨wf.low_lt r inner has, wf.high_lt r inner has⟩
  later r inner has := ⟨wf.low_below r inner has, wf.high_below r inner has⟩
  unique r s inner hr hs same := by
    by_cases innerS : 2 ≤ s.index
    · exact wf.eq_of_decision inner innerS hr hs same
    · have positive := wf.level_pos r inner hr
      rw [same, level_decision_terminal grows (Nat.lt_of_not_le innerS)] at positive
      omega

/-- Every answer to the levels is given by some set of names. -/
theorem WellFormed.exists_present (wf : d.WellFormed) (nodup : d.features.Nodup) (c : Configuration) :
    ∃ present, ∀ r, d.Has r → d.denotes r present = d.holds r c := by
  refine ⟨fun name => c (d.features.idxOf name + 1), fun r has => ?_⟩
  rw [denotes]
  apply wf.holds_congr_features has
  intro level positive bound
  have inside : level - 1 < d.features.length := by omega
  rw [featureName_eq inside, nodup.idxOf_getElem, Nat.sub_add_cancel positive]

/-- What holds of two regions for all sets of names holds for all answers to the levels. -/
theorem WellFormed.forall_denotes_iff (wf : d.WellFormed) (nodup : d.features.Nodup) {P : Bool → Bool → Prop}
    (hf : d.Has f) (hg : d.Has g) :
    (∀ present, P (d.denotes f present) (d.denotes g present)) ↔ ∀ c, P (d.holds f c) (d.holds g c) := by
  constructor
  · intro all c
    obtain ⟨present, same⟩ := wf.exists_present nodup c
    rw [← same f hf, ← same g hg]
    exact all present
  · exact fun all present => all _

theorem WellFormed.canonical (wf : d.WellFormed) (nodup : d.features.Nodup) : Canonical d where
  eq_iff f g hf hg := by
    rw [wf.forall_denotes_iff nodup (P := (· = ·)) hf hg]
    exact ⟨fun same _ => same ▸ rfl, wf.eq_of_holds hf hg⟩
  isEmpty_iff f hf := by
    rw [wf.isEmpty_iff_holds hf]
    exact (wf.forall_denotes_iff nodup (P := fun a _ => a = false) hf hf).symm
  isAll_iff f hf := by
    rw [wf.forall_denotes_iff nodup (P := fun a _ => a = true) hf hf, Region.isAll_iff]
    constructor
    · rintro rfl _
      exact holds_all
    · intro all
      apply wf.eq_of_holds hf wf.has_all
      intro c
      rw [all c, holds_all]
  implies_iff f g hf hg := by
    have implied := (implies_yields wf hf hg).2.2
    exact implied.trans (wf.forall_denotes_iff nodup (P := fun a b => a = true → b = true) hf hg).symm

theorem WellFormed.unfailing (wf : d.WellFormed) : Unfailing d where
  perform := perform_passes wf
  implies _ _ := implies_passes wf

/-- At any time of a session all its regions are in the diagram, which is reduced, canonical and fails no check. -/
theorem canonical_of_session {names : List String} {ledger : List Entry} (session : Session d names ledger) :
    Reduced d ∧ Canonical d ∧ Unfailing d ∧ (∀ e ∈ ledger, d.Has e.region) ∧
      d.features.Nodup ∧ ∀ name, name ∈ d.features ↔ name ∈ names := by
  have faithful := session.faithful
  have wf := faithful.wellFormed
  exact ⟨wf.isReduced faithful.grows, wf.canonical faithful.nodup, wf.unfailing, faithful.has, faithful.nodup,
    faithful.declared⟩

/-- A feature and its complement are different sets because they are different regions. -/
theorem canonical_of_session_complement :
    ∃ present, (answer (.complement featureEntry) (answer (.declare "A") fresh).2).2.denotes ⟨2⟩ present ≠
      (answer (.complement featureEntry) (answer (.declare "A") fresh).2).2.denotes ⟨3⟩ present := by
  have known : ∀ e ∈ (Request.complement featureEntry).arguments, e ∈ featureLedger := by
    simp [Request.arguments, featureLedger]
  have session := session_feature.ask (.complement featureEntry) known
  obtain ⟨_, canonical, _⟩ := canonical_of_session session
  have differ : (⟨2⟩ : Region) ≠ ⟨3⟩ := by decide
  rw [ne_eq, canonical.eq_iff ⟨2⟩ ⟨3⟩ (by rw [Has]; decide +kernel) (by rw [Has]; decide +kernel)] at differ
  exact Classical.not_forall.1 differ

end GoalCoverage.Diagram
