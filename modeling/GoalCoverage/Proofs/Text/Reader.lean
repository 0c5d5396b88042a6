import GoalCoverage.Proofs.Text

/-!
Readers of written texts. A reader takes a value off the front of a text; it reads a text as a value if it does so
whatever follows (`Reads`), so what reads the parts of a text reads the whole in turn (`Reads.bind`).
-/

namespace GoalCoverage.Text

/-- Takes a value off the front of a text, if there is one. -/
abbrev Reader (α : Type) := StateT (List Char) Option α

variable {α β : Type} {r r' : Reader α} {f : α → Reader β} {s t mark : String} {rest : List Char} {x : α} {y : β} {n : Nat}

/-- The reader takes exactly this text, whatever follows it. -/
def Reads (r : Reader α) (s : String) (x : α) : Prop := ∀ rest, r (s.toList ++ rest) = some (x, rest)

theorem reads_pure (x : α) : Reads (pure x) "" x := fun _ => rfl

theorem Reads.bind (first : Reads r s x) (second : Reads (f x) t y) : Reads (r >>= f) (s ++ t) y := by
  intro rest
  rw [String.toList_append, List.append_assoc]
  change (r (s.toList ++ (t.toList ++ rest))).bind (fun p => f p.1 p.2) = _
  rw [first, Option.bind_some, second]

theorem Reads.map (reads : Reads r s x) (g : α → β) : Reads (g <$> r) s (g x) := by
  intro rest
  change (r (s.toList ++ rest)).bind (fun p => some (g p.1, p.2)) = _
  rw [reads, Option.bind_some]

theorem map_eq_none {text : List Char} (fails : r text = none) (g : α → β) : (g <$> r) text = none := by
  change (r text).bind (fun p => some (g p.1, p.2)) = _
  rw [fails, Option.bind_none]

theorem Reads.congr (reads : Reads r s x) (same : t = s) : Reads r t x := same ▸ reads

theorem Reads.orElse (reads : Reads r s x) : Reads (r <|> r') s x := by
  intro rest
  change (r (s.toList ++ rest) <|> r' (s.toList ++ rest)) = _
  rw [reads]
  rfl

/-- The second reader is asked where the first one fails. -/
theorem Reads.orElse_of_none (fails : ∀ rest, r (s.toList ++ rest) = none) (reads : Reads r' s x) :
    Reads (r <|> r') s x := by
  intro rest
  change (r (s.toList ++ rest) <|> r' (s.toList ++ rest)) = _
  rw [fails, reads]
  rfl

def expect (mark : String) : Reader Unit := fun text => (strip? mark.toList text).map fun rest => ((), rest)

theorem reads_expect (mark : String) : Reads (expect mark) mark () := by
  intro rest
  rw [expect, strip?_eq_some_iff.2 rfl, Option.map_some]

/-- The digits at the front. -/
def number : Reader Nat := fun text =>
  (digits? (text.takeWhile Char.isDigit)).map fun n => (n, text.dropWhile Char.isDigit)

theorem number_append (stop : ∀ c ∈ rest.head?, c.isDigit = false) (n : Nat) :
    number ((toString n).toList ++ rest) = some (n, rest) := by
  have digits : ∀ c ∈ (toString n).toList, c.isDigit = true := fun _ => isDigit_of_mem_toString
  have none : rest.takeWhile Char.isDigit = [] ∧ rest.dropWhile Char.isDigit = rest := by
    cases rest with
    | nil => exact ⟨rfl, rfl⟩
    | cons c rest => simp [stop c rfl]
  rw [number, List.takeWhile_append_of_pos digits, List.dropWhile_append_of_pos digits, none.1, none.2, List.append_nil,
    digits?_toString, Option.map_some]

/-- A number and the mark behind it. -/
def numberTo (mark : String) : Reader Nat := do
  let n ← number
  expect mark
  return n

theorem numberTo_append (stop : ∀ c ∈ rest.head?, c.isDigit = false) (n : Nat) :
    numberTo mark ((toString n).toList ++ rest) = (strip? mark.toList rest).map fun rest => (n, rest) := by
  change (number ((toString n).toList ++ rest)).bind (fun p => (expect mark p.2).bind fun q => some (p.1, q.2)) = _
  rw [number_append stop, Option.bind_some, expect]
  cases strip? mark.toList rest <;> rfl

theorem reads_numberTo (stop : ∃ c, mark.toList.head? = some c ∧ c.isDigit = false) (n : Nat) :
    Reads (numberTo mark) (toString n ++ mark) n := by
  intro rest
  obtain ⟨c, first, plain⟩ := stop
  have stop' : ∀ d ∈ (mark.toList ++ rest).head?, d.isDigit = false := by
    intro d mem
    rw [List.head?_append, first, Option.some_or] at mem
    cases mem
    exact plain
  rw [String.toList_append, List.append_assoc, numberTo_append stop', strip?_eq_some_iff.2 rfl, Option.map_some]

/-- A value and the end of its line. -/
def line (r : Reader α) : Reader α := do
  let x ← r
  expect "\n"
  return x

theorem Reads.line (reads : Reads r s x) : Reads (line r) (s ++ "\n") x :=
  .congr (reads.bind ((reads_expect "\n").bind (reads_pure x))) (by rw [String.append_empty])

/-- All values up to a mark. -/
def itemsTo (mark : String) (item : Reader α) (text : List Char) : Option (List α × List Char) :=
  match strip? mark.toList text with
  | some rest => some ([], rest)
  | none =>
    match item text with
    | none => none
    | some (x, rest) =>
      if rest.length < text.length then (itemsTo mark item rest).map fun (xs, rest) => (x :: xs, rest) else none
termination_by text.length

/-- The mark is not mistaken for a value if the values start with another character. -/
theorem reads_itemsTo {item : Reader β} {write : α → String} {read : α → β} {xs : List α} (first : Char)
    (reads : ∀ x ∈ xs, Reads item (write x) (read x)) (starts : ∀ x ∈ xs, (write x).toList.head? = some first)
    (other : ∃ c, mark.toList.head? = some c ∧ c ≠ first) :
    Reads (itemsTo mark item) (String.join (xs.map write) ++ mark) (xs.map read) := by
  obtain ⟨c, head, differs⟩ := other
  intro rest
  induction xs with
  | nil =>
    have ends : strip? mark.toList ((String.join ([].map write) ++ mark).toList ++ rest) = some rest := by
      rw [strip?_eq_some_iff]
      simp
    rw [itemsTo, ends]
    rfl
  | cons x xs ih =>
    have ih := ih (fun y mem => reads y (List.mem_cons_of_mem _ mem)) (fun y mem => starts y (List.mem_cons_of_mem _ mem))
    obtain ⟨more, text⟩ := List.head?_eq_some_iff.1 (starts x List.mem_cons_self)
    obtain ⟨behind, marked⟩ := List.head?_eq_some_iff.1 head
    rw [List.map_cons, String.join_cons, String.append_assoc, String.toList_append, List.append_assoc]
    have goes : ∀ after, strip? mark.toList ((write x).toList ++ after) = none := by
      intro after
      rw [marked, text, List.cons_append, strip?, if_neg differs]
    have shorter : ∀ after : List Char, after.length < ((write x).toList ++ after).length := by
      intro after
      rw [text, List.length_append, List.length_cons]
      omega
    rw [itemsTo, goes]
    dsimp only
    rw [reads x List.mem_cons_self]
    dsimp only
    rw [if_pos (shorter _), ih]
    rfl

end GoalCoverage.Text
