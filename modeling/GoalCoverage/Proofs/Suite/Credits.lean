import GoalCoverage.Proofs.Suite.Orderly
import GoalCoverage.Suite.Timeline
import Mathlib.Algebra.GroupWithZero.Nat
import Mathlib.Data.Prod.Lex

/-!
Credits. Every goal that is covered is credited once, to the first of the test cases that cover it, and as what it is when
it is credited (`Orderly.creditAll_eq`). So the first test cases in their order are credited with what they cover
(`Orderly.creditee_among_iff`, `sum_credits`).
-/

namespace GoalCoverage

namespace TestCase

variable {a b c : TestCase}

/-- The time of a test case, and its number. -/
def key (t : TestCase) : Nat ×ₗ Nat := toLex (t.time, t.id)

theorem precedes_iff : a.precedes b = true ↔ a.key ≤ b.key := by
  rw [precedes, decide_eq_true_iff, key, key, Prod.Lex.toLex_le_toLex]

theorem precedes_total (a b : TestCase) : (a.precedes b || b.precedes a) = true := by
  rw [Bool.or_eq_true, precedes_iff, precedes_iff]
  exact le_total a.key b.key

theorem precedes_trans (first : a.precedes b = true) (second : b.precedes c = true) : a.precedes c = true :=
  precedes_iff.2 (le_trans (precedes_iff.1 first) (precedes_iff.1 second))

theorem id_eq_of_precedes (first : a.precedes b = true) (second : b.precedes a = true) : a.id = b.id :=
  congrArg (fun k => (ofLex k).2) (le_antisymm (precedes_iff.1 first) (precedes_iff.1 second))

/-- The fold finds one of the test cases that precedes all of them. -/
theorem foldl_precedes (first : TestCase) (rest : List TestCase) :
    (rest.foldl (fun best t => if best.precedes t then best else t) first) ∈ first :: rest ∧
      ∀ t ∈ first :: rest, (rest.foldl (fun best t => if best.precedes t then best else t) first).precedes t = true := by
  induction rest generalizing first with
  | nil => simpa using precedes_total first first
  | cons t rest ih =>
    have better : (if first.precedes t then first else t) ∈ [first, t] ∧
        (if first.precedes t then first else t).precedes first = true ∧
        (if first.precedes t then first else t).precedes t = true := by
      have either := precedes_total first t
      have self := precedes_total first first
      have self' := precedes_total t t
      split <;> simp_all
    obtain ⟨mem, earliest⟩ := ih (if first.precedes t then first else t)
    rw [List.forall_mem_cons] at earliest
    rw [List.foldl_cons, List.forall_mem_cons, List.forall_mem_cons]
    refine ⟨?_, precedes_trans earliest.1 better.2.1, precedes_trans earliest.1 better.2.2, earliest.2⟩
    grind

end TestCase

namespace Suite

open Diagram

variable {s : Suite} {d d₁ : Diagram} {g n : Nat} {t : TestCase} {γ : Goal} {gs : List Nat} {ids : IdSet}

/-- The number of the first test case that covers a goal. -/
def creditee? (s : Suite) (g : Nat) : Option Nat :=
  (s.coveredBy.get? g).bind fun testCases => (s.firstCovering? testCases).map (·.id)

/-- Is the goal covered for every configuration? -/
def isComplete (s : Suite) (d : Diagram) (g : Nat) : Bool := (s.isCovered g d).toOption.any (·.1)

/-- How many of some goals are credited to a test case, as completely covered or as partially covered. -/
def credits (s : Suite) (d : Diagram) (gs : List Nat) (n : Nat) (complete : Bool) : Nat :=
  gs.countP fun g => s.creditee? g == some n && s.isComplete d g == complete

/-- A test case with the credits for some goals and no others. -/
def credited (s : Suite) (d : Diagram) (gs : List Nat) (t : TestCase) : TestCase :=
  { t with newlyCovered := s.credits d gs t.id true, newlyPartial := s.credits d gs t.id false }

/-- The suite in which some goals are credited and no others. -/
def crediting (s : Suite) (d : Diagram) (gs : List Nat) : Suite :=
  { s with testCases := s.testCases.map (s.credited d gs) }

section First

/-- The first test case that covers a goal covers it and precedes all that do. -/
theorem firstCovering?_eq_some (distinct : (s.testCases.map (·.id)).Nodup) (found : s.firstCovering? ids = some t) :
    t ∈ s.testCases ∧ t.id ∈ ids ∧ ∀ t' ∈ s.testCases, t'.id ∈ ids → t.precedes t' = true := by
  have listed : ∀ t', t' ∈ ids.toList.filterMap s.testCase? ↔ t' ∈ s.testCases ∧ t'.id ∈ ids := by
    intro t'
    rw [List.mem_filterMap]
    constructor
    · rintro ⟨n, mem, stored⟩
      obtain ⟨there, rfl⟩ := testCase?_eq_some stored
      exact ⟨there, mem⟩
    · rintro ⟨there, mem⟩
      exact ⟨t'.id, mem, testCase?_eq_of_mem distinct there⟩
  rw [firstCovering?] at found
  split at found
  next => cases found
  next first rest same =>
    cases found
    obtain ⟨mem, earliest⟩ := TestCase.foldl_precedes first rest
    rw [← same] at mem earliest
    obtain ⟨there, covers⟩ := (listed _).1 mem
    exact ⟨there, covers, fun t' there covers => earliest t' ((listed t').2 ⟨there, covers⟩)⟩

theorem firstCovering?_eq_none (missing : s.firstCovering? ids = none) : ∀ n ∈ ids, s.testCase? n = none := by
  rw [firstCovering?] at missing
  split at missing
  next nothing => exact List.filterMap_eq_nil_iff.1 nothing
  next => cases missing

theorem testCase?_crediting : (s.crediting d gs).testCase? n = (s.testCase? n).map (s.credited d gs) := List.find?_map

theorem firstCovering?_crediting :
    (s.crediting d gs).firstCovering? ids = (s.firstCovering? ids).map (s.credited d gs) := by
  have same : ids.toList.filterMap (s.crediting d gs).testCase? =
      (ids.toList.filterMap s.testCase?).map (s.credited d gs) := by
    rw [List.map_filterMap]
    exact congrArg (ids.toList.filterMap ·) (funext fun n => testCase?_crediting)
  rw [firstCovering?, firstCovering?, same]
  cases ids.toList.filterMap s.testCase? with
  | nil => rfl
  | cons first rest =>
    simp only [List.map_cons, List.foldl_map, Option.map_some]
    apply congrArg some
    apply List.foldl_hom
    intro best t
    exact (apply_ite (s.credited d gs) _ _ _).symm

theorem creditee?_crediting : (s.crediting d gs).creditee? = s.creditee? := by
  funext g
  simp only [creditee?, firstCovering?_crediting, Option.map_map]
  rfl

/-- Credits do not depend on earlier credits. -/
theorem crediting_crediting (gs' : List Nat) : (s.crediting d gs).crediting d gs' = s.crediting d gs' := by
  have same : (s.crediting d gs).credits d gs' = s.credits d gs' := by
    funext n complete
    rw [credits, creditee?_crediting]
    rfl
  have each : (s.crediting d gs).credited d gs' ∘ s.credited d gs = s.credited d gs' := by
    funext t
    rw [Function.comp_apply, credited, same]
    rfl
  have again : (s.testCases.map (s.credited d gs)).map ((s.crediting d gs).credited d gs') =
      s.testCases.map (s.credited d gs') := by
    rw [List.map_map, each]
  exact congrArg (fun testCases => { s with testCases }) again

end First

/-- With configurations, a goal is complete if the regions of its entries make up everything. -/
theorem isComplete_iff (tracks : s.variability = true) (partially : s.isPartiallyCovered g = true)
    (here : s.goals.get? g = some γ) : s.isComplete d g = true ↔ (joinAll γ.coveredRegions d).1 = .all := by
  rw [isComplete, isCovered_eq tracks partially here, Except.toOption, Option.any_some, Region.isAll_iff]

/-- A goal that is credited to nobody changes no credits. -/
theorem crediting_concat_of_none (nobody : s.creditee? g = none) : s.crediting d (gs ++ [g]) = s.crediting d gs := by
  have same : s.credited d (gs ++ [g]) = s.credited d gs := by
    funext t
    simp [credited, credits, nobody]
  rw [crediting, crediting, same]

/-- A goal that is credited to a test case adds to one of its credits. -/
theorem crediting_concat_of_some (creditee : s.creditee? g = some n) : s.crediting d (gs ++ [g]) =
    (s.crediting d gs).updateTestCase n fun t =>
      if s.isComplete d g then { t with newlyCovered := t.newlyCovered + 1 }
      else { t with newlyPartial := t.newlyPartial + 1 } := by
  have more : ∀ m complete, s.credits d (gs ++ [g]) m complete =
      s.credits d gs m complete + if n = m ∧ s.isComplete d g = complete then 1 else 0 := by
    intro m complete
    simp [credits, creditee, List.countP_append, List.countP_singleton]
  simp only [crediting, updateTestCase, List.map_map]
  congr 1
  apply List.map_congr_left
  intro t _
  simp only [credited, more, Function.comp_apply]
  by_cases is : t.id = n
  · subst is
    cases s.isComplete d g <;> simp
  · simp [is, Ne.symm is]

section Orderly

variable (orderly : s.Orderly d) (ext : s.variability = true → d.Extends d₁) (ready : d₁.Ready s.variability)

include orderly ext ready

/-- However far the diagram grows, a goal is as complete as it was. -/
theorem Orderly.isCovered_eq_ok : ∃ d₂, s.isCovered g d₁ = .ok (s.isComplete d g, d₂) ∧
    (s.variability = true → d₁.Extends d₂) ∧ d₂.Ready s.variability := by
  cases tracks : s.variability with
  | false =>
    rw [isComplete, isCovered_of_not_tracks tracks, isCovered_of_not_tracks tracks]
    exact ⟨d₁, rfl, fun tracked => (nomatch tracked), tracks ▸ ready⟩
  | true =>
    cases partially : s.isPartiallyCovered g with
    | false =>
      rw [isComplete, isCovered_of_none partially, isCovered_of_none partially]
      exact ⟨d₁, rfl, fun _ => .refl d₁, tracks ▸ ready⟩
    | true =>
      obtain ⟨n, lists⟩ := isPartiallyCovered_iff.1 partially
      obtain ⟨γ, here⟩ := orderly.known g n lists
      have wf := orderly.drawn.ready tracks
      have wf₁ := ready tracks
      have has : ∀ r ∈ γ.coveredRegions, d.Has r := by
        intro r mem
        obtain ⟨n, o, entry, rfl⟩ := Goal.mem_coveredRegions.1 mem
        exact orderly.charted tracks g γ n o here entry
      have has₁ : ∀ r ∈ γ.coveredRegions, d₁.Has r := fun r mem => (ext tracks).has (has r mem)
      obtain ⟨grows, wellFormed, _⟩ := joinAll_yields wf₁ has₁
      refine ⟨_, ?_, fun _ => grows, wellFormed⟩
      have same : (joinAll γ.coveredRegions d₁).1.isAll = s.isComplete d g := by
        rw [Bool.eq_iff_iff, Region.isAll_iff, isComplete_iff tracks partially here, wf₁.joinAll_eq_all_iff has₁,
          wf.joinAll_eq_all_iff has]
        apply forall_congr'
        intro c
        apply exists_congr
        intro r
        apply and_congr_right
        intro mem
        rw [(ext tracks).holds_eq wf (has r mem)]
      rw [isCovered_eq tracks partially here, same]

/-- Crediting one more goal. -/
theorem Orderly.credit_eq (gs : List Nat) (g : Nat) :
    ∃ d₂, (s.crediting d gs).credit g d₁ = .ok (s.crediting d (gs ++ [g]), d₂) ∧
      (s.variability = true → d₁.Extends d₂) ∧ d₂.Ready s.variability := by
  cases covers : s.coveredBy.get? g with
  | none =>
    have nobody : s.creditee? g = none := by rw [creditee?, covers, Option.bind_none]
    refine ⟨d₁, ?_, fun _ => .refl d₁, ready⟩
    rw [credit, show (s.crediting d gs).coveredBy.get? g = none from covers, crediting_concat_of_none nobody]
    rfl
  | some ids =>
    obtain ⟨d₂, covered, grows, wellFormed⟩ := orderly.isCovered_eq_ok ext ready (g := g)
    refine ⟨d₂, ?_, grows, wellFormed⟩
    rw [credit, show (s.crediting d gs).coveredBy.get? g = some ids from covers]
    refine bind_eq_ok.2 ⟨s.isComplete d g, d₂, covered, ?_⟩
    rw [firstCovering?_crediting]
    cases found : s.firstCovering? ids with
    | none =>
      have nobody : s.creditee? g = none := by rw [creditee?, covers, Option.bind_some, found, Option.map_none]
      rw [crediting_concat_of_none nobody]
      rfl
    | some t =>
      have creditee : s.creditee? g = some t.id := by rw [creditee?, covers, Option.bind_some, found, Option.map_some]
      rw [crediting_concat_of_some creditee]
      rfl

/-- Crediting all goals leaves everything else, and adds only to the diagram. -/
theorem Orderly.foldlM_credit (done gs : List Nat) :
    ∃ d₂, gs.foldlM credit (s.crediting d done) d₁ = .ok (s.crediting d (done ++ gs), d₂) ∧
      (s.variability = true → d₁.Extends d₂) ∧ d₂.Ready s.variability := by
  induction gs generalizing done d₁ with
  | nil => exact ⟨d₁, by rw [List.append_nil]; rfl, fun _ => .refl d₁, ready⟩
  | cons g rest ih =>
    obtain ⟨d₂, first, grows, wellFormed⟩ := orderly.credit_eq ext ready done g
    obtain ⟨d₃, others, grows', wellFormed'⟩ := ih (fun tracks => (ext tracks).trans (grows tracks)) wellFormed (done ++ [g])
    rw [List.append_assoc, List.singleton_append] at others
    refine ⟨d₃, ?_, fun tracks => (grows tracks).trans (grows' tracks), wellFormed'⟩
    rw [List.foldlM_cons]
    exact bind_eq_ok.2 ⟨_, d₂, first, others⟩

theorem Orderly.creditAll_eq : ∃ d₂, s.creditAll d₁ = .ok (s.crediting d s.goalIds, d₂) ∧
    (s.variability = true → d₁.Extends d₂) ∧ d₂.Ready s.variability :=
  orderly.foldlM_credit ext ready [] s.goalIds

end Orderly

namespace Orderly

variable (orderly : s.Orderly d)

include orderly

theorem crediting (gs : List Nat) : (s.crediting d gs).Orderly d := by
  refine orderly.congr rfl rfl ?_ rfl
  rw [Suite.crediting, List.map_map]
  rfl

/-- Who is credited with a goal covers it, and was made before all others that do. -/
theorem creditee?_eq_some (creditee : s.creditee? g = some n) : s.Lists g n ∧
    ∃ t ∈ s.testCases, t.id = n ∧ ∀ t' ∈ s.testCases, s.Lists g t'.id → t.precedes t' = true := by
  obtain ⟨ids, covers, first⟩ := Option.bind_eq_some_iff.1 creditee
  obtain ⟨t, found, rfl⟩ := Option.map_eq_some_iff.1 first
  obtain ⟨mem, among, earliest⟩ := firstCovering?_eq_some orderly.distinct found
  refine ⟨⟨ids, covers, among⟩, t, mem, rfl, fun t' mem' lists => ?_⟩
  obtain ⟨ids', covers', among'⟩ := lists
  cases covers.symm.trans covers'
  exact earliest t' mem' among'

theorem exists_creditee (lists : s.Lists g n) : ∃ m, s.creditee? g = some m := by
  obtain ⟨ids, covers, among⟩ := lists
  obtain ⟨t, mem, rfl⟩ := List.mem_map.1 (orderly.stored g n ⟨ids, covers, among⟩)
  have stored := testCase?_eq_of_mem orderly.distinct mem
  cases found : s.firstCovering? ids with
  | none =>
    rw [firstCovering?_eq_none found t.id among] at stored
    cases stored
  | some first => exact ⟨first.id, by rw [creditee?, covers, Option.bind_some, found, Option.map_some]⟩

/-- Some of the first test cases in the order of the rows is credited with a goal just if some of them covers it. -/
theorem creditee_among_iff {early late : List TestCase} (all : (early ++ late).Perm s.testCases)
    (sorted : (early ++ late).Pairwise fun a b => a.precedes b = true) :
    (∃ t ∈ early, s.creditee? g = some t.id) ↔ ∃ t ∈ early, s.Lists g t.id := by
  constructor
  · rintro ⟨t, mem, creditee⟩
    exact ⟨t, mem, (orderly.creditee?_eq_some creditee).1⟩
  · rintro ⟨t, mem, lists⟩
    obtain ⟨m, creditee⟩ := orderly.exists_creditee lists
    obtain ⟨_, first, there, rfl, earliest⟩ := orderly.creditee?_eq_some creditee
    have before := earliest t (all.subset (List.mem_append_left late mem)) lists
    obtain inside | outside := List.mem_append.1 (all.symm.subset there)
    · exact ⟨first, inside, creditee⟩
    · have after := (List.pairwise_append.1 sorted).2.2 t mem first outside
      exact ⟨t, mem, TestCase.id_eq_of_precedes before after ▸ creditee⟩

end Orderly

theorem countP_or {p q : Nat → Bool} (apart : ∀ g, p g = true → q g = false) :
    gs.countP (fun g => p g || q g) = gs.countP p + gs.countP q := by
  induction gs with
  | nil => rfl
  | cons g rest ih =>
    have here := apart g
    rw [List.countP_cons, List.countP_cons, List.countP_cons, ih]
    grind

/-- Goals that are credited to different test cases are different. -/
theorem sum_credits {early : List TestCase} (distinct : (early.map (·.id)).Nodup) (complete : Bool) :
    (early.map fun t => s.credits d gs t.id complete).sum =
      gs.countP fun g => (early.any fun t => s.creditee? g == some t.id) && s.isComplete d g == complete := by
  induction early with
  | nil => simp
  | cons t rest ih =>
    rw [List.map_cons, List.nodup_cons] at distinct
    have apart : ∀ g, (s.creditee? g == some t.id && s.isComplete d g == complete) = true →
        ((rest.any fun t' => s.creditee? g == some t'.id) && s.isComplete d g == complete) = false := by
      intro g here
      rw [Bool.and_eq_true, beq_iff_eq] at here
      rw [Bool.and_eq_false_iff, List.any_eq_false]
      refine .inl fun t' mem same => ?_
      rw [here.1, beq_iff_eq, Option.some.injEq] at same
      exact distinct.1 (same ▸ List.mem_map_of_mem mem)
    rw [List.map_cons, List.sum_cons, ih distinct.2, credits, ← countP_or apart]
    simp only [List.any_cons, Bool.and_or_distrib_right]

end Suite

end GoalCoverage
