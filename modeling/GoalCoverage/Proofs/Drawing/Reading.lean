import GoalCoverage.Proofs.Drawing.Escape
import GoalCoverage.Proofs.Text.Reader

/-!
Reading drawings of automata. Whoever knows the style of a drawing reads from it the name of the automaton, its states
and its transitions with the texts of their labels, whatever characters these have, since the quotes around a text are
the only ones in it that are not escaped (`drawing_readable`).
-/

namespace GoalCoverage.Drawing

open Text

/-- What a drawing tells of an automaton. -/
structure Sketch where
  name : String
  /-- The states, each of them with whether it is final. -/
  states : List (StateId × Bool)
  initial : StateId
  /-- Source, target and the text of the label. -/
  transitions : List (StateId × StateId × String)
  deriving DecidableEq

def sketch (a : Automaton) : Sketch where
  name := a.name
  states := a.states.map fun q => (q, a.isFinal q)
  initial := a.initial
  transitions := a.transitions.map fun t => (t.source, t.target, t.label.text)

/-! The parts of a drawing -/

/-- The rest of a text in quotes. -/
def readInside : Reader String := fun text =>
  (untilQuote text).map fun (inside, rest) => (String.ofList (unescape inside), rest)

def readQuoted : Reader String := do
  expect "\""
  readInside

def readState (style : DrawingStyle) : Reader (StateId × Bool) := do
  expect "q"
  (·, false) <$> numberTo ";" <|> (·, true) <$> numberTo (" [shape=" ++ style.finalShape ++ "];")

def readTransition : Reader (StateId × StateId × String) := do
  expect "q"
  let source ← numberTo " -> q"
  let target ← numberTo " [label="
  let label ← readQuoted
  expect "];"
  return (source, target, label)

def readTitle : Reader String := do
  expect "digraph "
  let name ← readQuoted
  expect " \x7b"
  return name

def readDrawing (style : DrawingStyle) : Reader Sketch := do
  let name ← line readTitle
  line (expect "rankdir=LR;")
  line (expect ("node [shape=" ++ style.nodeShape ++ "];"))
  line (expect "init [shape=point];")
  let states ← itemsTo "init -> q" (line (readState style))
  let initial ← line (numberTo ";")
  let transitions ← itemsTo "\x7d" (line readTransition)
  expect "\n"
  return { name, states, initial, transitions }

/-- Reads a drawing to its end. -/
def read? (style : DrawingStyle) (drawing : String) : Option Sketch :=
  match readDrawing style drawing.toList with
  | some (found, []) => some found
  | _ => none

theorem reads_inside (s : String) : Reads readInside (escape s ++ "\"") s := by
  intro rest
  have closed : (escape s ++ "\"").toList ++ rest = (escape s).toList ++ '"' :: rest := by simp
  rw [closed, readInside, untilQuote_escape, Option.map_some]
  simp only [unescape_escape, String.ofList_toList]

theorem reads_quote (s : String) : Reads readQuoted (quote s) s := by
  rw [quote, String.append_assoc]
  exact (reads_expect "\"").bind (reads_inside s)

theorem reads_state (style : DrawingStyle) (a : Automaton) (q : StateId) :
    Reads (readState style) (state style a q) (q, a.isFinal q) := by
  rw [state]
  cases a.isFinal q with
  | false =>
    have plain : Reads (numberTo ";") (toString q ++ ";") q := reads_numberTo ⟨';', by simp, by decide⟩ q
    rw [if_neg Bool.false_ne_true, String.append_assoc]
    exact (reads_expect "q").bind (plain.map (·, false)).orElse
  | true =>
    have shaped : Reads (numberTo (" [shape=" ++ style.finalShape ++ "];"))
        (toString q ++ (" [shape=" ++ style.finalShape ++ "];")) q := reads_numberTo ⟨' ', by simp, by decide⟩ q
    have unshaped : ∀ rest, numberTo ";" ((toString q ++ (" [shape=" ++ style.finalShape ++ "];")).toList ++ rest) = none := by
      intro rest
      rw [String.toList_append, List.append_assoc, numberTo_append (by simp)]
      simp [strip?]
    have either := (shaped.map (·, true)).orElse_of_none fun rest => map_eq_none (unshaped rest) (·, false)
    have parts : "q" ++ toString q ++ " [shape=" ++ style.finalShape ++ "];" =
        "q" ++ (toString q ++ (" [shape=" ++ style.finalShape ++ "];")) := by simp only [String.append_assoc]
    rw [if_pos rfl, parts]
    exact (reads_expect "q").bind either

theorem reads_transition (t : Transition) :
    Reads readTransition (transition t) (t.source, t.target, t.label.text) := by
  have source : Reads (numberTo " -> q") (toString t.source ++ " -> q") t.source := reads_numberTo ⟨' ', by simp, by decide⟩ _
  have target : Reads (numberTo " [label=") (toString t.target ++ " [label=") t.target :=
    reads_numberTo ⟨' ', by simp, by decide⟩ _
  have parts : transition t = "q" ++ ((toString t.source ++ " -> q") ++ ((toString t.target ++ " [label=") ++
      (quote t.label.text ++ ("];" ++ "")))) := by
    simp only [transition, String.append_assoc, String.append_empty]
  rw [parts]
  exact .bind (reads_expect _) (.bind source (.bind target (.bind (reads_quote _) (.bind (reads_expect _) (reads_pure _)))))

theorem reads_title (name : String) : Reads readTitle ("digraph " ++ quote name ++ " \x7b") name := by
  have parts : "digraph " ++ quote name ++ " \x7b" = "digraph " ++ (quote name ++ (" \x7b" ++ "")) := by
    simp only [String.append_assoc, String.append_empty]
  rw [parts]
  exact .bind (reads_expect _) (.bind (reads_quote name) (.bind (reads_expect _) (reads_pure _)))

theorem lines_cons (l : String) (ls : List String) : lines (l :: ls) = l ++ "\n" ++ lines ls := by
  rw [lines, List.map_cons, String.join_cons, ← lines]

theorem lines_append (ls more : List String) : lines (ls ++ more) = lines ls ++ lines more := by
  rw [lines, List.map_append, String.join_append, ← lines, ← lines]

theorem lines_map {α : Type} (write : α → String) (xs : List α) :
    lines (xs.map write) = String.join (xs.map fun x => write x ++ "\n") := by
  rw [lines, List.map_map]
  rfl

theorem reads_drawing (style : DrawingStyle) (a : Automaton) :
    Reads (readDrawing style) (automaton style a) (sketch a) := by
  have states : Reads (itemsTo "init -> q" (line (readState style)))
      (lines (a.states.map (state style a)) ++ "init -> q") (a.states.map fun q => (q, a.isFinal q)) := by
    rw [lines_map]
    refine reads_itemsTo 'q' (fun q _ => (reads_state style a q).line) (fun q _ => ?_) ⟨'i', by simp, by decide⟩
    rw [state]
    split <;> simp
  have transitions : Reads (itemsTo "\x7d" (line readTransition)) (lines (a.transitions.map transition) ++ "\x7d")
      (a.transitions.map fun t => (t.source, t.target, t.label.text)) := by
    rw [lines_map]
    refine reads_itemsTo 'q' (fun t _ => (reads_transition t).line) (fun t _ => ?_) ⟨'\x7d', by simp, by decide⟩
    simp [transition]
  have initial : Reads (line (numberTo ";")) (toString a.initial ++ ";" ++ "\n") a.initial :=
    (reads_numberTo ⟨';', by simp, by decide⟩ a.initial).line
  have parts : automaton style a =
      ("digraph " ++ quote a.name ++ " \x7b" ++ "\n") ++ (("rankdir=LR;" ++ "\n") ++
        (("node [shape=" ++ style.nodeShape ++ "];" ++ "\n") ++ (("init [shape=point];" ++ "\n") ++
          ((lines (a.states.map (state style a)) ++ "init -> q") ++ ((toString a.initial ++ ";" ++ "\n") ++
            ((lines (a.transitions.map transition) ++ "\x7d") ++ ("\n" ++ ""))))))) := by
    simp only [automaton, lines_cons, lines_append, List.cons_append, List.nil_append, String.append_assoc]
    rfl
  rw [parts]
  exact .bind (reads_title _).line (.bind (reads_expect _).line (.bind (reads_expect _).line
    (.bind (reads_expect _).line (.bind states (.bind initial (.bind transitions
      (.bind (reads_expect _) (reads_pure _))))))))

theorem read?_automaton (style : DrawingStyle) (a : Automaton) : read? style (automaton style a) = some (sketch a) := by
  have whole := reads_drawing style a []
  rw [List.append_nil] at whole
  rw [read?, whole]

end GoalCoverage.Drawing
