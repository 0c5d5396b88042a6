import GoalCoverage.Proofs.Suite.Operations
import GoalCoverage.Proofs.Text
import GoalCoverage.Suite.Listing

/-!
Cross references. What covers what is entered twice, with the suite for each goal and with the goal for each test case,
and a test case is stored once more. Whatever callers do, the three agree, and so do the two halves of the listing
(`operations_cross_reference`).
-/

namespace GoalCoverage.Suite

variable {s : Suite} {d : Diagram} {i n : Nat} {γ : Goal} {tc : TestCase} {e : Nat × Option Region} {ops : List Operation}

section Listing

/-- The goals that the line of a test case names. -/
def coverNames (s : Suite) (tc : TestCase) : List String := (s.goalsCoveredBy tc.id).toList.map Goal.nameOf

/-- The items of the line of a goal, one for each covering test case. -/
def coverItems (s : Suite) (d : Diagram) (γ : Goal) : List String := γ.covering.entries.map (s.coveringText d)

/-- An item names the test case whose number it begins with. -/
def Names (item : String) (n : Nat) : Prop := item.toList.takeWhile Char.isDigit = (toString n).toList

theorem takeWhile_toString (n : Nat) {rest : List Char} (ends : rest.takeWhile Char.isDigit = []) :
    ((toString n).toList ++ rest).takeWhile Char.isDigit = (toString n).toList := by
  rw [List.takeWhile_append_of_pos fun c => Text.isDigit_of_mem_toString, ends, List.append_nil]

theorem toString_injective {m n : Nat} (same : (toString m).toList = (toString n).toList) : m = n :=
  Nat.repr_injective (String.toList_injective same)

theorem names_coveringText : Names (s.coveringText d e) n ↔ e.1 = n := by
  have front : (s.coveringText d e).toList.takeWhile Char.isDigit = (toString e.1).toList := by
    rw [coveringText]
    split
    next =>
      rw [String.append_assoc, String.append_assoc, String.toList_append, String.toList_append]
      exact takeWhile_toString e.1 rfl
    next => simpa using takeWhile_toString e.1 List.takeWhile_nil
  rw [Names, front]
  exact ⟨toString_injective, fun is => by rw [is]⟩

theorem mem_coverNames : Goal.nameOf i ∈ s.coverNames tc ↔ i ∈ s.goalsCoveredBy tc.id := by
  rw [coverNames, List.mem_map]
  constructor
  · rintro ⟨j, mem, same⟩
    have is : j = i := Nat.repr_injective ((String.append_right_inj "G").1 same)
    exact is ▸ mem
  · intro mem
    exact ⟨i, mem, rfl⟩

theorem exists_mem_coverItems : (∃ item ∈ s.coverItems d γ, Names item n) ↔ ∃ o, γ.covering.get? n = some o := by
  constructor
  · rintro ⟨item, mem, named⟩
    obtain ⟨e, entry, rfl⟩ := List.mem_map.1 mem
    exact ⟨e.2, names_coveringText.1 named ▸ IdMap.get?_eq_some_iff.2 entry⟩
  · rintro ⟨o, found⟩
    exact ⟨_, List.mem_map_of_mem (IdMap.get?_eq_some_iff.1 found), names_coveringText.2 rfl⟩

/-- The line of the test case names the goal if and only if the line of the goal names the test case. -/
structure LinesAgree (s : Suite) (d : Diagram) (tc : TestCase) (γ : Goal) : Prop where
  covers : ∃ head, s.testCaseLines d tc = head ++ "\n    covers: " ++ ", ".intercalate (s.coverNames tc) ++ "\n"
  covered : ∃ tail, s.goalLine d γ = "  " ++ γ.text ++ ":" ++
    (if (s.coverItems d γ).isEmpty then "" else " covered by " ++ ", ".intercalate (s.coverItems d γ)) ++ tail
  agree : γ.name ∈ s.coverNames tc ↔ ∃ item ∈ s.coverItems d γ, Names item tc.id

theorem Aligned.covers_iff (aligned : s.Aligned) (here : s.goals.get? i = some γ) :
    i ∈ s.goalsCoveredBy n ↔ ∃ o, γ.covering.get? n = some o := by
  rw [mem_goalsCoveredBy, aligned.listed, here]
  simp

theorem Aligned.linesAgree (aligned : s.Aligned) (here : s.goals.get? i = some γ) (d : Diagram) (tc : TestCase) :
    LinesAgree s d tc γ := by
  refine ⟨⟨_, rfl⟩, ?_, ?_⟩
  · rw [goalLine, coverItems, List.isEmpty_map, IdMap.isEmpty]
    simp only [String.append_assoc]
    exact ⟨_, rfl⟩
  · rw [Goal.name, aligned.index i γ here, mem_coverNames, aligned.covers_iff here, exists_mem_coverItems]

end Listing

/-- The three records of what covers what agree, and so does what the listing tells of them. -/
structure CrossReferenced (s : Suite) : Prop where
  distinct : (s.testCases.map (·.id)).Nodup
  covering : ∀ i γ, s.goals.get? i = some γ → ∀ n, i ∈ s.goalsCoveredBy n ↔ n ∈ γ.covering.keys
  known : ∀ i n, i ∈ s.goalsCoveredBy n → (∃ γ, s.goals.get? i = some γ) ∧ ∃ tc ∈ s.testCases, tc.id = n
  lines : ∀ d, ∀ tc ∈ s.testCases, ∀ γ ∈ s.goals.values, LinesAgree s d tc γ

theorem Aligned.crossReferenced (aligned : s.Aligned) : CrossReferenced s := by
  refine ⟨aligned.distinct, fun i γ here n => ?_, fun i n covered => ?_, fun d tc _ γ shown => ?_⟩
  · rw [aligned.covers_iff here, IdMap.mem_keys]
  · rw [mem_goalsCoveredBy] at covered
    obtain ⟨γ, o, here, _⟩ := (aligned.listed i n).1 covered
    refine ⟨⟨γ, here⟩, ?_⟩
    obtain ⟨tc, found⟩ := Option.isSome_iff_exists.1 (aligned.stored i n covered)
    exact ⟨tc, testCase?_eq_some found⟩
  · obtain ⟨e, mem, rfl⟩ := List.mem_map.1 shown
    exact aligned.linesAgree (IdMap.get?_eq_some_iff.2 mem) d tc

section Example

/-- Two test cases of one number, for two goals, of which one was put off. In the end a test case is recorded that is not
stored. -/
def renumbered : List Operation :=
  [.post (.ask (.declare "A")), .post (.goals [.forEdge 1 0 0 0, .forEdge 2 1 0 0]), .timeOut [(0, 2)],
    .post (.testCase { id := 1, inputs := [5], path := [], trace := [0], region := none, presence := [], time := 0 } 1
      (some ⟨2⟩)),
    .takeTimedOut, .predict 2 .infeasible,
    .post (.testCase { id := 1, inputs := [7], path := [], trace := [1], region := none, presence := [], time := 3 } 2 none),
    .post (.infeasible 1 none), .post (.coverage 1 1 none), .post (.coverage 3 1 none)]

end Example

end GoalCoverage.Suite
