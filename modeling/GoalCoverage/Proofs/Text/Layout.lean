import GoalCoverage.Text
import Mathlib.Data.List.TakeWhile

/-!
Blanks around a text, and its lines. Trimming does not see blanks (`trim_pad`), and it leaves a text with a mark in
it in two halves that can be trimmed on their own (`splitOnce_trim`). A line has no line end in it, and a text
without line ends is its only line (`notMem_of_mem_lines`, `lines_of_notMem`).
-/

namespace GoalCoverage.Text

variable {s front back rest : List Char} {c mark : Char}

/-- Nothing but blanks. -/
def Blank (s : List Char) : Prop := ∀ c ∈ s, isBlank c = true

theorem blank_nil : Blank [] := fun _ mem => absurd mem List.not_mem_nil

theorem Blank.reverse (blank : Blank s) : Blank s.reverse := fun c mem => blank c (List.mem_reverse.1 mem)

theorem Blank.notMem (solid : isBlank c = false) (blank : Blank s) : c ∉ s := by
  intro mem
  rw [blank c mem] at solid
  contradiction

theorem notMem_pad (solid : isBlank c = false) (blank : Blank front) (absent : c ∉ s) (blank' : Blank back) :
    c ∉ front ++ s ++ back := by
  simp only [List.mem_append, not_or]
  exact ⟨⟨blank.notMem solid, absent⟩, blank'.notMem solid⟩

theorem trimStart_eq_nil_iff : trimStart s = [] ↔ Blank s := List.dropWhile_eq_nil_iff

theorem trimStart_append (blank : Blank front) (s : List Char) : trimStart (front ++ s) = trimStart s :=
  List.dropWhile_append_of_pos blank

/-- The end of a text is the start of the text that is turned round. -/
theorem trimEnd_eq_reverse (s : List Char) : trimEnd s = (trimStart s.reverse).reverse := rfl

theorem trimEnd_append (blank : Blank back) (s : List Char) : trimEnd (s ++ back) = trimEnd s := by
  rw [trimEnd_eq_reverse, List.reverse_append, trimStart_append blank.reverse, ← trimEnd_eq_reverse]

theorem trimStart_cons (solid : isBlank c = false) (front rest : List Char) :
    trimStart (front ++ c :: rest) = trimStart front ++ c :: rest := by
  have stop : trimStart (c :: rest) = c :: rest := List.dropWhile_cons_of_neg (by simp [solid])
  by_cases blank : Blank front
  · rw [trimStart_append blank, stop, trimStart_eq_nil_iff.2 blank, List.nil_append]
  · have rest' : (trimStart front).isEmpty = false := by simp [trimStart_eq_nil_iff, blank]
    rw [trimStart, List.dropWhile_append]
    rw [trimStart] at rest'
    rw [rest']
    rfl

theorem trimEnd_cons (solid : isBlank c = false) (front rest : List Char) :
    trimEnd (front ++ c :: rest) = front ++ c :: trimEnd rest := by
  have turned : (front ++ c :: rest).reverse = rest.reverse ++ c :: front.reverse := by simp
  rw [trimEnd_eq_reverse, turned, trimStart_cons solid]
  simp [trimEnd_eq_reverse]

theorem trimEnd_first (solid : isBlank c = false) (rest : List Char) : trimEnd (c :: rest) = c :: trimEnd rest :=
  trimEnd_cons solid [] rest

theorem exists_trimStart (s : List Char) : ∃ front, Blank front ∧ s = front ++ trimStart s :=
  ⟨s.takeWhile isBlank, fun _ mem => List.mem_takeWhile_imp mem, List.takeWhile_append_dropWhile.symm⟩

theorem exists_trimEnd (s : List Char) : ∃ back, Blank back ∧ s = trimEnd s ++ back := by
  obtain ⟨front, blank, split⟩ := exists_trimStart s.reverse
  refine ⟨front.reverse, blank.reverse, ?_⟩
  rw [trimEnd_eq_reverse, ← List.reverse_append, ← split, List.reverse_reverse]

theorem trimEnd_trimEnd (s : List Char) : trimEnd (trimEnd s) = trimEnd s := by
  obtain ⟨back, blank, split⟩ := exists_trimEnd s
  calc trimEnd (trimEnd s) = trimEnd (trimEnd s ++ back) := (trimEnd_append blank _).symm
    _ = trimEnd s := by rw [← split]

/-- A text that is not blank starts with its first character that is no blank, once it is trimmed. -/
theorem exists_solid (text : ¬Blank s) : ∃ c rest, isBlank c = false ∧ trimStart s = c :: rest := by
  cases start : trimStart s with
  | nil => exact absurd (trimStart_eq_nil_iff.1 start) text
  | cons c rest =>
    have first := List.head?_dropWhile_not isBlank s
    rw [← trimStart, start] at first
    exact ⟨c, rest, first, rfl⟩

/-- Trimming does not see blanks around a text. -/
theorem trim_pad (blank : Blank front) (blank' : Blank back) (s : List Char) : trim (front ++ s ++ back) = trim s := by
  rw [trim, trim, List.append_assoc, trimStart_append blank]
  by_cases empty : Blank s
  · rw [trimStart_append empty, trimStart_eq_nil_iff.2 blank', trimStart_eq_nil_iff.2 empty]
  · obtain ⟨c, rest, solid, start⟩ := exists_solid empty
    obtain ⟨front', blank'', split⟩ := exists_trimStart s
    have padded : trimStart (s ++ back) = c :: (rest ++ back) := by
      rw [split, start, List.append_assoc, trimStart_append blank'']
      exact trimStart_cons solid [] (rest ++ back)
    calc trimEnd (trimStart (s ++ back)) = c :: trimEnd (rest ++ back) := by rw [padded, trimEnd_first solid]
      _ = c :: trimEnd rest := by rw [trimEnd_append blank']
      _ = trimEnd (trimStart s) := by rw [start, trimEnd_first solid]

theorem trim_trimStart (s : List Char) : trim (trimStart s) = trim s := by
  obtain ⟨front, blank, split⟩ := exists_trimStart s
  calc trim (trimStart s) = trim (front ++ trimStart s ++ []) := (trim_pad blank blank_nil _).symm
    _ = trim s := by rw [List.append_nil, ← split]

theorem trim_trimEnd (s : List Char) : trim (trimEnd s) = trim s := by
  obtain ⟨back, blank, split⟩ := exists_trimEnd s
  calc trim (trimEnd s) = trim ([] ++ trimEnd s ++ back) := (trim_pad blank_nil blank _).symm
    _ = trim s := by rw [List.nil_append, ← split]

theorem trim_eq_nil_iff : trim s = [] ↔ Blank s := by
  constructor
  · intro none
    by_contra text
    obtain ⟨c, rest, solid, start⟩ := exists_solid text
    rw [trim, start, trimEnd_first solid] at none
    exact List.cons_ne_nil _ _ none
  · intro blank
    rw [trim, trimStart_eq_nil_iff.2 blank]
    rfl

theorem trim_subset (s : List Char) : trim s ⊆ s := by
  intro c mem
  rw [trim, trimEnd_eq_reverse, List.mem_reverse] at mem
  exact List.dropWhile_subset _ (List.mem_reverse.1 (List.dropWhile_subset _ mem))

theorem head?_trim (s : List Char) : (trim s).head? = (trimStart s).head? := by
  by_cases blank : Blank s
  · rw [trim_eq_nil_iff.2 blank, trimStart_eq_nil_iff.2 blank]
  · obtain ⟨c, rest, solid, start⟩ := exists_solid blank
    rw [trim, start, trimEnd_first solid]
    rfl

theorem trim_mark (solid : isBlank mark = false) (front back : List Char) :
    trim (front ++ mark :: back) = trimStart front ++ mark :: trimEnd back := by
  rw [trim, trimStart_cons solid, trimEnd_cons solid]

theorem splitOnce_mark (absent : mark ∉ front) (back : List Char) :
    splitOnce mark (front ++ mark :: back) = some (front, back) := by
  have other : ∀ c ∈ front, (c != mark) = true := fun c mem => bne_iff_ne.2 fun same => absent (same ▸ mem)
  have stop : (mark :: back).dropWhile (· != mark) = mark :: back := List.dropWhile_cons_of_neg (by simp)
  have halt : (mark :: back).takeWhile (· != mark) = [] := List.takeWhile_cons_of_neg (by simp)
  rw [splitOnce, List.dropWhile_append_of_pos other, stop]
  simp only [List.takeWhile_append_of_pos other, halt, List.append_nil]

theorem splitOnce_of_notMem (absent : mark ∉ s) : splitOnce mark s = none := by
  have other : ∀ c ∈ s, (c != mark) = true := fun c mem => bne_iff_ne.2 fun same => absent (same ▸ mem)
  rw [splitOnce, List.dropWhile_eq_nil_iff.2 other]

/-- The halves of a trimmed text at its mark. -/
theorem splitOnce_trim (solid : isBlank mark = false) (absent : mark ∉ front) (back : List Char) :
    splitOnce mark (trim (front ++ mark :: back)) = some (trimStart front, trimEnd back) := by
  rw [trim_mark solid, splitOnce_mark]
  exact fun mem => absent (List.dropWhile_subset _ mem)

theorem notMem_of_mem_lines (s : List Char) : ∀ line ∈ lines s, '\n' ∉ line := by
  fun_induction lines s with
  | case1 => simp
  | case2 rest ih =>
    intro line mem
    obtain rfl | mem := List.mem_cons.1 mem
    · exact List.not_mem_nil
    · exact ih line mem
  | case3 c rest other none ih =>
    intro line mem
    obtain rfl := List.mem_singleton.1 mem
    simpa [eq_comm] using other
  | case4 c rest other first more split ih =>
    rw [split] at ih
    intro line mem
    obtain rfl | mem := List.mem_cons.1 mem
    · simpa [eq_comm, other] using ih first List.mem_cons_self
    · exact ih line (List.mem_cons_of_mem _ mem)

theorem lines_of_notMem (s : List Char) (absent : '\n' ∉ s) : lines s = [s] := by
  induction s with
  | nil => rfl
  | cons c rest ih =>
    obtain ⟨other, absent'⟩ := not_or.1 (mt List.mem_cons.2 absent)
    rw [lines, if_neg (Ne.symm other), ih absent']

end GoalCoverage.Text
