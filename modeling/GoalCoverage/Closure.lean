import Std.Data.TreeMap
import Std.Data.TreeSet

/-!
Search through identities under a successor function.

`reach next bound todo` is the set of identities met by a depth-first search from `todo`. Every turn of the
search visits an identity that was not visited before, so a bound on their number bounds the search. A
`table` lists the successors that a list of links gives to each identity.
-/

namespace GoalCoverage.Closure

open Std

/-- Visits identities until there are none to do, at most as many as are left. -/
def visit (next : Nat → List Nat) : (left : Nat) → (visited : TreeSet Nat) → (todo : List Nat) → TreeSet Nat
  | 0, visited, _ => visited
  | left + 1, visited, todo =>
    match todo.dropWhile visited.contains with
    | [] => visited
    | x :: rest => visit next left (visited.insert x) (next x ++ rest)

def reach (next : Nat → List Nat) (bound : Nat) (todo : List Nat) : TreeSet Nat := visit next bound ∅ todo

/-- The targets of links, listed for each source in the order of the links. -/
def table (links : List (Nat × Nat)) : TreeMap Nat (List Nat) :=
  links.foldr (fun (source, target) rows => rows.insert source (target :: rows.getD source [])) ∅

theorem getD_table (links : List (Nat × Nat)) (source : Nat) :
    (table links).getD source [] = (links.filter (·.1 == source)).map (·.2) := by
  induction links with
  | nil => simp [table]
  | cons link rest ih =>
    have step : table (link :: rest) =
        (table rest).insert link.1 (link.2 :: (table rest).getD link.1 []) := rfl
    rw [step, TreeMap.getD_insert]
    by_cases same : link.1 = source
    · subst same
      simp [ih]
    · simp [same, ih]

end GoalCoverage.Closure
