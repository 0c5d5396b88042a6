/-!
Small functions on texts, by characters.

Blank characters are those with the Unicode property White_Space. Letters are lowered in the ASCII range
only. Numbers are written in decimal digits, with an optional sign in front.
-/

namespace GoalCoverage.Text

def isBlank (c : Char) : Bool :=
  let n := c.toNat
  (9 ≤ n && n ≤ 13) || n == 32 || n == 0x85 || n == 0xA0 || n == 0x1680 || (0x2000 ≤ n && n ≤ 0x200A) ||
    n == 0x2028 || n == 0x2029 || n == 0x202F || n == 0x205F || n == 0x3000

def trimStart (s : List Char) : List Char := s.dropWhile isBlank

def trimEnd (s : List Char) : List Char := (s.reverse.dropWhile isBlank).reverse

/-- The text without the blanks around it. -/
def trim (s : List Char) : List Char := trimEnd (trimStart s)

def lower (s : List Char) : List Char := s.map Char.toLower

/-- The lines of a text, without the characters that end them. -/
def lines : List Char → List (List Char)
  | [] => [[]]
  | c :: rest =>
    if c = '\n' then [] :: lines rest
    else
      match lines rest with
      | [] => [[c]]
      | line :: more => (c :: line) :: more

/-- The parts before and after the first `mark`. -/
def splitOnce (mark : Char) (s : List Char) : Option (List Char × List Char) :=
  match s.dropWhile (· != mark) with
  | [] => none
  | _ :: after => some (s.takeWhile (· != mark), after)

/-- The part after the last `mark`. -/
def afterLast? (mark : Char) (s : List Char) : Option (List Char) :=
  if s.contains mark then some (s.reverse.takeWhile (· != mark)).reverse else none

/-- The rest of a text that starts with `front`. -/
def strip? : (front text : List Char) → Option (List Char)
  | [], text => some text
  | _ :: _, [] => none
  | f :: front, c :: text => if f = c then strip? front text else none

/-- The parts of a text before and after the first place where `mark` stands. -/
def splitAt? (mark : List Char) : List Char → Option (List Char × List Char)
  | [] => if mark.isEmpty then some ([], []) else none
  | c :: text =>
    match strip? mark (c :: text) with
    | some after => some ([], after)
    | none => (splitAt? mark text).map fun (before, after) => (c :: before, after)

/-- Puts `new` in place of every `old`. -/
def replace (old : Char) (new s : List Char) : List Char := s.flatMap fun c => if c = old then new else [c]

/-- Puts `new` in place of every pair of the characters `a` and `b`. -/
def replacePairs (a b : Char) (new : List Char) : List Char → List Char
  | [] => []
  | [c] => [c]
  | c :: d :: rest =>
    if c = a ∧ d = b then new ++ replacePairs a b new rest else c :: replacePairs a b new (d :: rest)

def digitsValue (ds : List Char) : Nat := ds.foldl (fun n d => 10 * n + (d.toNat - '0'.toNat)) 0

def digits? (s : List Char) : Option Nat :=
  if !s.isEmpty && s.all Char.isDigit then some (digitsValue s) else none

/-- A natural number below `bound`; a plus sign may stand in front. -/
def natural? (bound : Nat) (s : List Char) : Option Nat :=
  let value := match s with
    | '+' :: rest => digits? rest
    | _ => digits? s
  value.filter (· < bound)

/-- An integer from `-bound` up to but not including `bound`. -/
def integer? (bound : Nat) (s : List Char) : Option Int :=
  match s with
  | '-' :: rest => ((digits? rest).filter (· ≤ bound)).map fun n => -(n : Int)
  | _ => (natural? bound s).map Int.ofNat

/-- What fits into an unsigned word of 64 bits is below this number. -/
def wordBound : Nat := Nat.pow 2 64

/-- What fits into a signed word of 64 bits is below this number and not below its negation. -/
def signedBound : Nat := Nat.pow 2 63

end GoalCoverage.Text
