import GoalCoverage.Drawing
import Mathlib.Algebra.Ring.Parity
import Mathlib.Data.List.Induction

/-!
Escaped texts. Every backslash and every quote has a backslash of its own in front of it, so the backslashes before a
quote are an odd number and those at the end an even one (`odd_endSlashes`, `even_endSlashes`): the quote that closes
a quoted text is the first one that is not escaped (`untilQuote_escape`), and dropping the backslashes gives back the
text (`unescape_escape`).
-/

namespace GoalCoverage.Drawing

variable {s before after rest : List Char} {c : Char}

/-! Both replacements at once -/

def escapeChar (c : Char) : List Char := if c = '\\' ∨ c = '"' then ['\\', c] else [c]

theorem escapeChar_of_plain (slash : c ≠ '\\') (quote : c ≠ '"') : escapeChar c = [c] :=
  if_neg (not_or.2 ⟨slash, quote⟩)

theorem toList_escape (s : String) : (escape s).toList = s.toList.flatMap escapeChar := by
  rw [escape, String.toList_ofList, Text.replace, Text.replace, List.flatMap_assoc]
  congr 1
  funext c
  by_cases slash : c = '\\'
  · subst slash
    decide
  by_cases quote : c = '"'
  · subst quote
    decide
  rw [escapeChar_of_plain slash quote, if_neg slash, List.flatMap_singleton, if_neg quote]

/-! Backslashes -/

/-- The number of backslashes that a text ends in. -/
def endSlashes (s : List Char) : Nat := (s.reverse.takeWhile (· == '\\')).length

theorem endSlashes_concat (s : List Char) (c : Char) :
    endSlashes (s ++ [c]) = if c = '\\' then endSlashes s + 1 else 0 := by
  rw [endSlashes, endSlashes, List.reverse_concat, List.takeWhile_cons]
  by_cases slash : c = '\\' <;> simp [slash]

theorem endSlashes_escapeChar (s : List Char) (c : Char) :
    endSlashes (s ++ escapeChar c) = if c = '\\' then endSlashes s + 2 else 0 := by
  rw [escapeChar]
  split
  next =>
    rw [List.append_cons, endSlashes_concat, endSlashes_concat, if_pos rfl]
  next plain =>
    rw [endSlashes_concat, if_neg (not_or.1 plain).1, if_neg (not_or.1 plain).1]

/-- The closing quote is not escaped: there is no backslash before it, or as many as double backslashes make. -/
theorem even_endSlashes (s : List Char) : Even (endSlashes (s.flatMap escapeChar)) := by
  induction s using List.reverseRecOn with
  | nil => exact Even.zero
  | append_singleton s c ih =>
    rw [List.flatMap_append, List.flatMap_singleton, endSlashes_escapeChar]
    split
    next => exact ih.add even_two
    next => exact Even.zero

/-- Of an escaped character only the last part is a quote, and then it is escaped. -/
theorem eq_of_escapeChar_eq (split : escapeChar c = before ++ '"' :: after) : before = ['\\'] := by
  rw [escapeChar] at split
  split at split
  next special =>
    match before, split with
    | [], split => cases split
    | [_], split =>
      cases split
      rfl
    | _ :: _ :: _, split => simp at split
  next plain =>
    match before, split with
    | [], split =>
      cases split
      exact absurd (.inr rfl) plain
    | _ :: _, split => simp at split

/-- Every quote inside is escaped. -/
theorem odd_endSlashes (split : s.flatMap escapeChar = before ++ '"' :: after) : Odd (endSlashes before) := by
  induction s using List.reverseRecOn generalizing after with
  | nil => simp at split
  | append_singleton s c ih =>
    rw [List.flatMap_append, List.flatMap_singleton] at split
    obtain ⟨inner, rfl, last⟩ | ⟨inner, first, last⟩ := List.append_eq_append_iff.1 split
    · rw [eq_of_escapeChar_eq last, endSlashes_concat, if_pos rfl]
      exact (even_endSlashes s).add_one
    · cases inner with
      | nil =>
        have start : escapeChar c = [] ++ '"' :: after := last.symm
        cases eq_of_escapeChar_eq start
      | cons d inner =>
        cases last
        exact ih first

/-! Reading -/

/-- Puts in place of every pair of a backslash and a character that character, from left to right. -/
def unescape : List Char → List Char
  | [] => []
  | [c] => [c]
  | c :: d :: rest => if c = '\\' then d :: unescape rest else c :: unescape (d :: rest)

theorem unescape_cons (plain : c ≠ '\\') (rest : List Char) : unescape (c :: rest) = c :: unescape rest := by
  cases rest with
  | nil => rfl
  | cons d rest => rw [unescape, if_neg plain]

theorem unescape_escapeChar (c : Char) (rest : List Char) : unescape (escapeChar c ++ rest) = c :: unescape rest := by
  rw [escapeChar]
  split
  next => rfl
  next plain => exact unescape_cons (not_or.1 plain).1 rest

theorem unescape_flatMap (s : List Char) : unescape (s.flatMap escapeChar) = s := by
  induction s with
  | nil => rfl
  | cons c s ih => rw [List.flatMap_cons, unescape_escapeChar, ih]

theorem unescape_escape (s : String) : unescape (escape s).toList = s.toList := by
  rw [toList_escape, unescape_flatMap]

/-- What stands before the first quote that is not escaped, and what stands after it. -/
def untilQuote : List Char → Option (List Char × List Char)
  | [] => none
  | [c] => if c = '"' then some ([], []) else none
  | c :: d :: rest =>
    if c = '"' then some ([], d :: rest)
    else if c = '\\' then (untilQuote rest).map fun (inside, rest) => (c :: d :: inside, rest)
    else (untilQuote (d :: rest)).map fun (inside, rest) => (c :: inside, rest)

theorem untilQuote_escapeChar (c : Char) (rest : List Char) :
    untilQuote (escapeChar c ++ rest) = (untilQuote rest).map fun (inside, rest) => (escapeChar c ++ inside, rest) := by
  rw [escapeChar]
  split
  next => rfl
  next plain =>
    obtain ⟨slash, quote⟩ := not_or.1 plain
    cases rest with
    | nil => simp [untilQuote, quote]
    | cons d rest => simp [untilQuote, slash, quote]

theorem untilQuote_escape (s : String) (rest : List Char) :
    untilQuote ((escape s).toList ++ '"' :: rest) = some ((escape s).toList, rest) := by
  rw [toList_escape]
  induction s.toList with
  | nil => cases rest <;> rfl
  | cons c s ih => rw [List.flatMap_cons, List.append_assoc, untilQuote_escapeChar, ih, Option.map_some]

-- If quotes were replaced first, a quoted text would end at its own quotes.
example : untilQuote (Text.replace '\\' ['\\', '\\'] (Text.replace '"' ['\\', '"'] ['"'])) = some (['\\', '\\'], []) := rfl

end GoalCoverage.Drawing
