import GoalCoverage.Proofs.Settings.Assignment
import GoalCoverage.Proofs.Text.Layout
import Mathlib.Data.List.Perm.Basic
import Mathlib.Logic.Relation

/-!
Reading a properties text (`ofProperties_lawful`). The lines of a text are accepted or refused one by one, the
settings depend only on the last line of every option, so that lines may be moved, spaced and marked in many ways,
and a flag for the retry order overrides any other choice of it.
-/

namespace GoalCoverage.Settings

open Text

/-- A line that is blank or a comment. -/
def Ignored (line : List Char) : Prop := trim line = [] ∨ (trim line).head? = some '#'

instance (line : List Char) : Decidable (Ignored line) := inferInstanceAs (Decidable (_ ∨ _))

/-- A key without the mark that it may carry. -/
def unmarked (key : List Char) : List Char := (strip? "tiger.".toList key).getD key

/-- The text that a line assigns to an option, if it does. -/
def Key.text? (k : Key) (line : List Char) : Option String :=
  if Ignored line then none
  else (splitOnce '=' line).bind fun (key, value) =>
    if Key.ofName? (String.ofList (unmarked (trim key))) = some k then some (String.ofList (trim value)) else none

/-- The text that some lines assign to an option last. -/
def Key.last? (k : Key) (lines : List (List Char)) : Option String := (lines.filterMap k.text?).getLast?

/-- Changes of the lines that leave what they assign. -/
inductive Change : List (List Char) → List (List Char) → Prop
  /-- Lines that set different options change places: the lines of each option stay in their order. -/
  | permute {lines lines' : List (List Char)} (perm : lines.Perm lines')
      (order : ∀ k : Key, lines.filterMap k.text? = lines'.filterMap k.text?) : Change lines lines'
  | insert {before after : List (List Char)} {line : List Char} (ignored : Ignored line) :
      Change (before ++ after) (before ++ line :: after)
  /-- The blanks around a key and around its value change. -/
  | respace {before after : List (List Char)} {key value a b c d a' b' c' d' : List Char} (absent : '=' ∉ key)
      (blank : ∀ s ∈ [a, b, c, d, a', b', c', d'], Blank s) :
      Change (before ++ (a ++ key ++ b ++ '=' :: (c ++ value ++ d)) :: after)
        (before ++ (a' ++ key ++ b' ++ '=' :: (c' ++ value ++ d')) :: after)
  /-- A key that does not carry the mark gets it. -/
  | mark {before after : List (List Char)} {key value front back : List Char} (absent : '=' ∉ key)
      (trimmed : trim key = key) (name : key.head? ≠ some '#') (plain : strip? "tiger.".toList key = none)
      (blank : Blank front) (blank' : Blank back) :
      Change (before ++ (front ++ key ++ back ++ '=' :: value) :: after)
        (before ++ (front ++ ("tiger.".toList ++ key) ++ back ++ '=' :: value) :: after)

variable {line front back key value : List Char} {lines lines' before after : List (List Char)} {draft : Draft}
  {k : Key} {r : Refusal}

theorem readLine_of_ignored (ignored : Ignored line) (draft : Draft) : readLine draft line = .ok draft := by
  rw [readLine, if_pos (by simpa [Ignored] using ignored)]
  rfl

theorem readLine_of_notMem (read : ¬Ignored line) (absent : '=' ∉ line) (draft : Draft) :
    readLine draft line = .error (.invalidOption (String.ofList (trim line)) .notAssignment) := by
  have absent' : '=' ∉ trim line := fun mem => absent (trim_subset line mem)
  rw [readLine, if_neg (by simpa [Ignored] using read), splitOnce_of_notMem absent']
  rfl

theorem ignored_mark_iff (front back : List Char) :
    Ignored (front ++ '=' :: back) ↔ (trim front).head? = some '#' := by
  rw [Ignored, trim_mark rfl, head?_trim]
  cases trimStart front with
  | nil => simp
  | cons c rest => simp

theorem readLine_mark (absent : '=' ∉ front) (back : List Char) (draft : Draft) :
    readLine draft (front ++ '=' :: back) =
      if (trim front).head? = some '#' then .ok draft
      else assign draft (String.ofList (unmarked (trim front))) (String.ofList (trim back)) := by
  split
  next comment => exact readLine_of_ignored ((ignored_mark_iff front back).2 comment) draft
  next read =>
    have read' : ¬Ignored (front ++ '=' :: back) := fun ignored => read ((ignored_mark_iff front back).1 ignored)
    rw [readLine, if_neg (by simpa [Ignored] using read'), splitOnce_trim rfl absent]
    simp only [trim_trimStart, trim_trimEnd, unmarked]

/-- A line is refused, whatever the lines before it, or it replaces the texts that it assigns. -/
theorem readLine_cases (line : List Char) :
    (∃ r, ∀ draft, readLine draft line = .error r) ∨
      ∀ text, readLine (draftOf text) line = .ok (draftOf fun k => (k.text? line).or (text k)) := by
  by_cases ignored : Ignored line
  · refine .inr fun text => ?_
    simp only [readLine_of_ignored ignored, Key.text?, if_pos ignored, Option.none_or]
  by_cases mem : '=' ∈ line
  · obtain ⟨front, back, rfl, absent⟩ := List.eq_append_cons_of_mem mem
    have read : ¬(trim front).head? = some '#' := fun comment => ignored ((ignored_mark_iff front back).2 comment)
    simp only [readLine_mark absent, if_neg read]
    obtain refused | ⟨k, named, sets⟩ := assigns (String.ofList (unmarked (trim front))) (String.ofList (trim back))
    · exact .inl refused
    · refine .inr fun text => ?_
      rw [sets text]
      congr 2
      funext k'
      simp only [Key.text?, if_neg ignored, splitOnce_mark absent, Option.bind_some, named, Option.some.injEq]
      by_cases same : k = k'
      · subst same
        simp
      · simp [same, Ne.symm same]
  · exact .inl ⟨_, readLine_of_notMem ignored mem⟩

/-! ### Lines one after the other -/

/-- A line that replaces the texts that it assigns. -/
def Accepts (line : List Char) : Prop :=
  ∀ text, readLine (draftOf text) line = .ok (draftOf fun k => (k.text? line).or (text k))

/-- A line that is refused, whatever the lines before it. -/
def Refuses (r : Refusal) (line : List Char) : Prop := ∀ draft, readLine draft line = .error r

theorem last?_cons (k : Key) (line : List Char) (lines : List (List Char)) :
    k.last? (line :: lines) = (k.last? lines).or (k.text? line) := by
  rw [Key.last?, Key.last?, List.filterMap_cons]
  cases k.text? line with
  | none => simp
  | some value => simp [List.getLast?_cons]

theorem foldlM_of_accepts (accepts : ∀ line ∈ lines, Accepts line) (text : Key → Option String) :
    lines.foldlM readLine (draftOf text) = .ok (draftOf fun k => (k.last? lines).or (text k)) := by
  induction lines generalizing text with
  | nil => rfl
  | cons line lines ih =>
    rw [List.foldlM_cons, accepts line List.mem_cons_self text]
    change lines.foldlM readLine _ = _
    rw [ih (fun line mem => accepts line (List.mem_cons_of_mem _ mem))]
    simp only [last?_cons, Option.or_assoc]

theorem foldlM_of_refuses (accepts : ∀ line ∈ before, Accepts line) (refuses : Refuses r line)
    (after : List (List Char)) (text : Key → Option String) :
    (before ++ line :: after).foldlM readLine (draftOf text) = .error r := by
  rw [List.foldlM_append, foldlM_of_accepts accepts]
  change (line :: after).foldlM readLine _ = _
  rw [List.foldlM_cons, refuses]
  rfl

/-- All lines are accepted, or there is a first line that is not. -/
theorem accepts_or_refuses (lines : List (List Char)) :
    (∀ line ∈ lines, Accepts line) ∨ ∃ before line after r,
      lines = before ++ line :: after ∧ (∀ line ∈ before, Accepts line) ∧ Refuses r line := by
  induction lines with
  | nil => exact .inl fun line mem => absurd mem List.not_mem_nil
  | cons line lines ih =>
    obtain ⟨r, refuses⟩ | accepts := readLine_cases line
    · exact .inr ⟨[], line, lines, r, rfl, fun line mem => absurd mem List.not_mem_nil, refuses⟩
    · obtain all | ⟨before, line', after, r, rfl, all, refuses⟩ := ih
      · exact .inl (List.forall_mem_cons.2 ⟨accepts, all⟩)
      · exact .inr ⟨line :: before, line', after, r, rfl, List.forall_mem_cons.2 ⟨accepts, all⟩, refuses⟩

/-! ### Changes that do not matter -/

theorem foldlM_congr (reads : ∀ draft, readLine draft line = readLine draft line') (before after : List (List Char))
    (draft : Draft) :
    (before ++ line :: after).foldlM readLine draft = (before ++ line' :: after).foldlM readLine draft := by
  simp only [List.foldlM_append, List.foldlM_cons, reads]

theorem readLine_respace {a b c d a' b' c' d' : List Char} (absent : '=' ∉ key)
    (blank : ∀ s ∈ [a, b, c, d, a', b', c', d'], Blank s) (value : List Char) (draft : Draft) :
    readLine draft (a ++ key ++ b ++ '=' :: (c ++ value ++ d)) =
      readLine draft (a' ++ key ++ b' ++ '=' :: (c' ++ value ++ d')) := by
  simp only [List.forall_mem_cons] at blank
  obtain ⟨ha, hb, hc, hd, ha', hb', hc', hd', -⟩ := blank
  rw [readLine_mark (notMem_pad rfl ha absent hb), readLine_mark (notMem_pad rfl ha' absent hb'), trim_pad ha hb,
    trim_pad ha' hb', trim_pad hc hd, trim_pad hc' hd']

/-- A key that has been trimmed stays so when the mark is put in front of it. -/
theorem trim_tiger (trimmed : trim key = key) : trim ("tiger.".toList ++ key) = "tiger.".toList ++ key := by
  have ends : trimEnd key = key := by rw [← trimmed, trim, trimEnd_trimEnd]
  change trimEnd (trimStart ([] ++ 't' :: ("iger.".toList ++ key))) = _
  rw [trimStart_cons rfl]
  change trimEnd ("tiger".toList ++ '.' :: key) = _
  rw [trimEnd_cons rfl, ends]
  rfl

theorem unmarked_tiger (plain : strip? "tiger.".toList key = none) :
    unmarked ("tiger.".toList ++ key) = unmarked key := by
  rw [unmarked, unmarked, plain]
  rfl

theorem readLine_tiger (absent : '=' ∉ key) (trimmed : trim key = key) (name : key.head? ≠ some '#')
    (plain : strip? "tiger.".toList key = none) (blank : Blank front) (blank' : Blank back) (value : List Char)
    (draft : Draft) :
    readLine draft (front ++ key ++ back ++ '=' :: value) =
      readLine draft (front ++ ("tiger.".toList ++ key) ++ back ++ '=' :: value) := by
  have absent' : '=' ∉ "tiger.".toList ++ key := fun mem =>
    (List.mem_append.1 mem).elim (by decide) absent
  have name' : ("tiger.".toList ++ key).head? ≠ some '#' := by simp
  rw [readLine_mark (notMem_pad rfl blank absent blank'), readLine_mark (notMem_pad rfl blank absent' blank'),
    trim_pad blank blank', trim_pad blank blank', trimmed, trim_tiger trimmed, if_neg name, if_neg name',
    unmarked_tiger plain]

theorem foldlM_insert (ignored : Ignored line) (before after : List (List Char)) (draft : Draft) :
    (before ++ line :: after).foldlM readLine draft = (before ++ after).foldlM readLine draft := by
  simp only [List.foldlM_append, List.foldlM_cons, readLine_of_ignored ignored]
  rfl

theorem toOption_of_refuses (mem : line ∈ lines) (refuses : Refuses r line) (text : Key → Option String) :
    (lines.foldlM readLine (draftOf text)).toOption = none := by
  obtain all | ⟨before, line', after, r', rfl, all, refuses'⟩ := accepts_or_refuses lines
  · have accepted := all line mem fun _ => none
    rw [refuses] at accepted
    contradiction
  · rw [foldlM_of_refuses all refuses']
    rfl

/-- Lines in another order come to the same settings if the lines of each option stay in their order. -/
theorem toOption_of_perm (perm : lines.Perm lines') (order : ∀ k : Key, k.last? lines = k.last? lines')
    (text : Key → Option String) :
    (lines.foldlM readLine (draftOf text)).toOption = (lines'.foldlM readLine (draftOf text)).toOption := by
  obtain all | ⟨before, line, after, r, rfl, all, refuses⟩ := accepts_or_refuses lines
  · rw [foldlM_of_accepts all, foldlM_of_accepts fun line mem => all line (perm.mem_iff.2 mem)]
    simp only [order]
  · have mem : line ∈ before ++ line :: after := by simp
    rw [toOption_of_refuses mem refuses, toOption_of_refuses (perm.mem_iff.1 mem) refuses]

/-- Lines that are changed in such a way come to the same settings, or both to none. -/
theorem Change.toOption_eq (change : Change lines lines') :
    (lines.foldlM readLine {}).toOption = (lines'.foldlM readLine {}).toOption := by
  cases change with
  | permute perm order => exact toOption_of_perm perm (fun k => congrArg List.getLast? (order k)) fun _ => none
  | insert ignored => rw [foldlM_insert ignored]
  | respace absent blank => rw [foldlM_congr (readLine_respace absent blank _)]
  | mark absent trimmed name plain blank blank' =>
    rw [foldlM_congr (readLine_tiger absent trimmed name plain blank blank' _)]

theorem toOption_of_eqvGen (change : Relation.EqvGen Change lines lines') :
    (lines.foldlM readLine {}).toOption = (lines'.foldlM readLine {}).toOption := by
  induction change with
  | rel _ _ change => exact change.toOption_eq
  | refl => rfl
  | symm _ _ _ ih => exact ih.symm
  | trans _ _ _ _ _ ih ih' => exact ih.trans ih'

/-! ### Texts -/

/-- The text that a properties text assigns to an option last. -/
def Key.lastOf? (k : Key) (text : String) : Option String := k.last? (Text.lines text.toList)

theorem ofProperties_eq (text : String) :
    ofProperties text = ((Text.lines text.toList).foldlM readLine {}).map Draft.finish := by
  rw [ofProperties]
  cases (Text.lines text.toList).foldlM readLine {} with
  | error r => rfl
  | ok draft => rfl

theorem toOption_ofProperties (text : String) :
    (ofProperties text).toOption = ((Text.lines text.toList).foldlM readLine {}).toOption.map Draft.finish := by
  rw [ofProperties_eq]
  cases (Text.lines text.toList).foldlM readLine {} with
  | error r => rfl
  | ok draft => rfl

theorem ofProperties_line (absent : '\n' ∉ line) :
    ofProperties (String.ofList line) = (readLine {} line).map Draft.finish := by
  rw [ofProperties_eq, String.toList_ofList, lines_of_notMem line absent, List.foldlM_cons]
  cases readLine {} line with
  | error r => rfl
  | ok draft => rfl

theorem exists_ok_iff_accepts (absent : '\n' ∉ line) :
    (∃ s, ofProperties (String.ofList line) = .ok s) ↔ Accepts line := by
  rw [ofProperties_line absent]
  constructor
  · intro ⟨s, accepted⟩
    obtain ⟨r, refuses⟩ | accepts := readLine_cases line
    · rw [refuses] at accepted
      contradiction
    · exact accepts
  · intro accepts
    rw [← draftOf_none, accepts]
    exact ⟨_, rfl⟩

theorem eq_error_iff_refuses (absent : '\n' ∉ line) :
    ofProperties (String.ofList line) = .error r ↔ Refuses r line := by
  rw [ofProperties_line absent]
  constructor
  · intro refused
    obtain ⟨r', refuses⟩ | accepts := readLine_cases line
    · rw [refuses] at refused
      obtain rfl : r' = r := Except.error.inj refused
      exact refuses
    · rw [← draftOf_none, accepts] at refused
      contradiction
  · intro refuses
    rw [refuses]
    rfl

theorem accepts_iff (absent : '\n' ∉ line) :
    Accepts line ↔ (¬Ignored line → ∃ s, ofProperties (String.ofList line) = .ok s) := by
  rw [exists_ok_iff_accepts absent]
  refine ⟨fun accepts _ => accepts, fun read => ?_⟩
  by_cases ignored : Ignored line
  · intro text
    simp only [readLine_of_ignored ignored, Key.text?, if_pos ignored, Option.none_or]
  · exact read ignored

theorem not_ignored_of_refuses (refuses : Refuses r line) : ¬Ignored line := by
  intro ignored
  have accepted := readLine_of_ignored ignored {}
  rw [refuses] at accepted
  contradiction

/-- What the settings are once a text has been read. -/
theorem ofProperties_of_accepts {text : String} (accepts : ∀ line ∈ Text.lines text.toList, Accepts line) :
    ofProperties text = .ok (draftOf fun k => k.lastOf? text).finish := by
  rw [ofProperties_eq, ← draftOf_none, foldlM_of_accepts accepts]
  simp only [Option.or_none]
  rfl

theorem ofProperties_of_refuses {text : String} (split : Text.lines text.toList = before ++ line :: after)
    (accepts : ∀ line ∈ before, Accepts line) (refuses : Refuses r line) : ofProperties text = .error r := by
  rw [ofProperties_eq, split, ← draftOf_none, foldlM_of_refuses accepts refuses]
  rfl

theorem eq_finish_of_ok {text : String} {s : Settings} (reads : ofProperties text = .ok s) :
    (∀ line ∈ Text.lines text.toList, Accepts line) ∧ s = (draftOf fun k => k.lastOf? text).finish := by
  obtain accepts | ⟨before, line, after, r, split, accepts, refuses⟩ := accepts_or_refuses (Text.lines text.toList)
  · rw [ofProperties_of_accepts accepts] at reads
    exact ⟨accepts, (Except.ok.inj reads).symm⟩
  · rw [ofProperties_of_refuses split accepts refuses] at reads
    contradiction

theorem split_of_error {text : String} (refused : ofProperties text = .error r) :
    ∃ before line after, Text.lines text.toList = before ++ line :: after ∧ (∀ line ∈ before, Accepts line) ∧
      Refuses r line := by
  obtain accepts | ⟨before, line, after, r', split, accepts, refuses⟩ := accepts_or_refuses (Text.lines text.toList)
  · rw [ofProperties_of_accepts accepts] at refused
    contradiction
  · rw [ofProperties_of_refuses split accepts refuses] at refused
    obtain rfl : r' = r := Except.error.inj refused
    exact ⟨before, line, after, split, accepts, refuses⟩

theorem retryOrder_finish (text : Key → Option String)
    (flag : (text .useOrder).isSome ∨ (text .inverseOrder).isSome) :
    (draftOf text).finish.retryOrder =
      .ofFlags (flagOf "useOrder" (text .useOrder)) (flagOf "inverseOrder" (text .inverseOrder)) := by
  have set : ((draftOf text).useOrder.isSome || (draftOf text).inverseOrder.isSome) = true := by
    simpa [draftOf] using flag
  have value (key : String) (text : Option String) :
      (text.map fun value => flagOf key (some value)).getD true = flagOf key text := by
    cases text with
    | none => rfl
    | some value => rfl
  rw [Draft.finish, if_pos set]
  simp only [draftOf, value]

/-- The rules of a properties text. -/
structure Lawful (text : String) : Prop where
  /-- A text is accepted if every line is that says something. -/
  accepted : (∃ s, ofProperties text = .ok s) ↔
    ∀ line ∈ Text.lines text.toList, ¬Ignored line → ∃ s, ofProperties (String.ofList line) = .ok s
  /-- Otherwise it is refused for what is wrong with the first line that is not. -/
  refused (r : Refusal) : ofProperties text = .error r ↔
    ∃ before line after, Text.lines text.toList = before ++ line :: after ∧
      (∀ line ∈ before, ¬Ignored line → ∃ s, ofProperties (String.ofList line) = .ok s) ∧
      ¬Ignored line ∧ ofProperties (String.ofList line) = .error r
  /-- The last line of every option decides. -/
  lastWins (other : String) (s s' : Settings) (reads : ofProperties text = .ok s)
    (reads' : ofProperties other = .ok s') (last : ∀ k : Key, k.lastOf? text = k.lastOf? other) : s = s'
  changed (other : String)
    (change : Relation.EqvGen Change (Text.lines text.toList) (Text.lines other.toList)) :
    (ofProperties text).toOption = (ofProperties other).toOption
  /-- A flag for the retry order overrides any other choice of it. -/
  flagged (s : Settings) (reads : ofProperties text = .ok s)
    (flag : (Key.useOrder.lastOf? text).isSome ∨ (Key.inverseOrder.lastOf? text).isSome) :
    s.retryOrder =
      .ofFlags (flagOf "useOrder" (Key.useOrder.lastOf? text)) (flagOf "inverseOrder" (Key.inverseOrder.lastOf? text))

theorem ofProperties_lawful (text : String) : Lawful text := by
  have one {line : List Char} (mem : line ∈ Text.lines text.toList) := notMem_of_mem_lines _ line mem
  constructor
  case accepted =>
    constructor
    · intro ⟨s, reads⟩ line mem
      exact (accepts_iff (one mem)).1 ((eq_finish_of_ok reads).1 line mem)
    · intro accepted
      exact ⟨_, ofProperties_of_accepts fun line mem => (accepts_iff (one mem)).2 (accepted line mem)⟩
  case refused =>
    intro r
    constructor
    · intro refused
      obtain ⟨before, line, after, split, accepts, refuses⟩ := split_of_error refused
      simp only [split, List.mem_append, List.mem_cons] at one
      exact ⟨before, line, after, split, fun line mem => (accepts_iff (one (.inl mem))).1 (accepts line mem),
        not_ignored_of_refuses refuses, (eq_error_iff_refuses (one (.inr (.inl rfl)))).2 refuses⟩
    · intro ⟨before, line, after, split, accepted, _, refused⟩
      simp only [split, List.mem_append, List.mem_cons] at one
      exact ofProperties_of_refuses split (fun line mem => (accepts_iff (one (.inl mem))).2 (accepted line mem))
        ((eq_error_iff_refuses (one (.inr (.inl rfl)))).1 refused)
  case lastWins =>
    intro other s s' reads reads' last
    rw [(eq_finish_of_ok reads).2, (eq_finish_of_ok reads').2, funext last]
  case changed =>
    intro other change
    rw [toOption_ofProperties, toOption_ofProperties, toOption_of_eqvGen change]
  case flagged =>
    intro s reads flag
    rw [(eq_finish_of_ok reads).2]
    exact retryOrder_finish _ flag

end GoalCoverage.Settings
