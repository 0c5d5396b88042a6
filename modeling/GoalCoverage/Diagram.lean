import Std.Data.TreeMap
import GoalCoverage.Region

/-!
Decision diagrams over features.

A diagram stores decisions in an arena that only grows. A decision tests the feature of its level and
names the regions for the answers "no" (`low`) and "yes" (`high`). Features are numbered from 1 in
the order of their declaration, and a decision tests a feature that comes before all features tested
below it. No decision is stored twice and none has equal answers, so a set of configurations has one
region, and equality of regions is equality of sets.
-/

namespace GoalCoverage

open Std

abbrev Triple := Nat × Nat × Nat

/-- Lexicographic order of triples. -/
def Triple.order : Triple → Triple → Ordering :=
  compareLex (compareOn (·.1)) (compareLex (compareOn (·.2.1)) (compareOn (·.2.2)))

instance : TransCmp Triple.order := inferInstanceAs (TransCmp (compareLex _ _))

instance : LawfulEqCmp Triple.order where
  compare_self := by simp [Triple.order, compareLex, compareOn]
  eq_of_compare := by
    intro a b h
    obtain ⟨a1, a2, a3⟩ := a
    obtain ⟨b1, b2, b3⟩ := b
    simp [Triple.order, compareLex, compareOn, Ordering.then_eq_eq] at h
    simp [h]

structure Decision where
  level : Nat
  low : Region
  high : Region
  deriving DecidableEq, Inhabited

def Decision.key (n : Decision) : Triple := (n.level, n.low.index, n.high.index)

structure Diagram where
  features : List String
  decisions : Array Decision
  /-- The region of every stored decision. -/
  known : TreeMap Triple Region Triple.order
  /-- Choices that were computed before. -/
  computed : TreeMap Triple Region Triple.order

namespace Diagram

/-- The two terminals occupy the first two places of the arena. -/
def fresh : Diagram :=
  { features := []
    decisions := #[⟨0, .empty, .empty⟩, ⟨0, .empty, .empty⟩]
    known := ∅
    computed := ∅ }

instance : Inhabited Diagram := ⟨fresh⟩

/-- Number of stored decisions, terminals included. -/
def size (d : Diagram) : Nat := d.decisions.size

def decision (d : Diagram) (r : Region) : Decision := d.decisions.getD r.index default

/-- The level tested at a region, with the terminals below every feature. -/
def level (d : Diagram) (r : Region) : Nat :=
  if r.isTerminal then d.features.length + 1 else (d.decision r).level

/-- The regions that remain of `r` when the feature at `level` is absent and when it is present. -/
def branches (d : Diagram) (r : Region) (level : Nat) : Region × Region :=
  if d.level r = level then ((d.decision r).low, (d.decision r).high) else (r, r)

/-- The region of a decision, stored unless it is redundant or known. -/
def store (level : Nat) (low high : Region) : StateM Diagram Region := fun d =>
  if low = high then (low, d)
  else
    let n : Decision := ⟨level, low, high⟩
    match d.known[n.key]? with
    | some r => (r, d)
    | none =>
      let r : Region := ⟨d.decisions.size⟩
      (r, { d with decisions := d.decisions.push n, known := d.known.insert n.key r })

/--
The choice "`g` where `f` holds and `h` elsewhere". Every recursive call works on regions of deeper
levels, so the number of levels that are left bounds the recursion.
-/
def chooseWithin : Nat → Region → Region → Region → StateM Diagram Region
  | 0, _, _, _ => fun d => (.empty, d)
  | left + 1, f, g, h => fun d =>
    if f.isAll then (g, d)
    else if f.isEmpty then (h, d)
    else if g = h then (g, d)
    else if g.isAll && h.isEmpty then (f, d)
    else
      match d.computed[(f.index, g.index, h.index)]? with
      | some r => (r, d)
      | none =>
        let level := min (d.level f) (min (d.level g) (d.level h))
        let (f0, f1) := d.branches f level
        let (g0, g1) := d.branches g level
        let (h0, h1) := d.branches h level
        let (high, d) := chooseWithin left f1 g1 h1 d
        let (low, d) := chooseWithin left f0 g0 h0 d
        let (r, d) := store level low high d
        (r, { d with computed := d.computed.insert (f.index, g.index, h.index) r })

/-- The region where `f` and `g` hold, or `h` holds and `f` does not. -/
def choose (f g h : Region) : StateM Diagram Region := fun d =>
  chooseWithin (d.features.length + 1) f g h d

def complement (f : Region) : StateM Diagram Region := choose f .empty .all

def meet (f g : Region) : StateM Diagram Region := choose f g .empty

def join (f g : Region) : StateM Diagram Region := choose f .all g

/-- The configurations of `f` that are not in `g`. -/
def without (f g : Region) : StateM Diagram Region := do
  let rest ← complement g
  choose f rest .empty

def meetAll (regions : List Region) : StateM Diagram Region := regions.foldlM meet .all

def joinAll (regions : List Region) : StateM Diagram Region := regions.foldlM join .empty

/-- Is every configuration of `f` in `g`? -/
def implies (f g : Region) : StateM Diagram Bool := do
  let rest ← without f g
  return rest.isEmpty

/-- Do the two regions have no configuration in common? -/
def disjoint (f g : Region) : StateM Diagram Bool := do
  let common ← meet f g
  return common.isEmpty

/-- The level of a declared feature. -/
def levelOf? (d : Diagram) (name : String) : Option Nat := (d.features.idxOf? name).map (· + 1)

/-- The configurations that have the feature, which is declared unless it is already. -/
def declare (name : String) : StateM Diagram Region := fun d =>
  match d.levelOf? name with
  | some level => store level .empty .all d
  | none => store (d.features.length + 1) .empty .all { d with features := d.features ++ [name] }

/-- The configurations that have a declared feature. -/
def feature? (name : String) : StateM Diagram (Option Region) := fun d =>
  match d.levelOf? name with
  | some level =>
    let (r, d) := store level .empty .all d
    (some r, d)
  | none => (none, d)

/-- The number of assignments from the level of a decision on, by the numbers for its answers. -/
def countFrom (d : Diagram) (counts : Array Nat) (n : Decision) : Nat :=
  (counts.getD n.low.index 0 <<< (d.level n.low - n.level - 1)) +
    (counts.getD n.high.index 0 <<< (d.level n.high - n.level - 1))

/--
For each of the first `bound` regions the number of assignments to the features from its level on that
lie in it. A decision is stored after its answers, so one pass through the arena counts them all.
-/
def counts (d : Diagram) (bound : Nat) : Array Nat :=
  ((d.decisions.toList.take bound).drop 2).foldl (fun counts n => counts.push (d.countFrom counts n)) #[0, 1]

/-- Number of configurations over all declared features that lie in `r`. -/
def count (d : Diagram) (r : Region) : Nat :=
  (d.counts (r.index + 1)).getD r.index 0 <<< (d.level r - 1)

/-- A cube fixes the presence of some features, given by their levels. -/
abbrev Cube := List (Nat × Bool)

/-- The paths from `r` to the universal region, those with the feature before those without it. -/
def cubesWithin (d : Diagram) : Nat → Region → List Cube
  | 0, _ => []
  | left + 1, r =>
    if r.isEmpty then []
    else if r.isAll then [[]]
    else
      let n := d.decision r
      (cubesWithin d left n.high).map ((n.level, true) :: ·) ++
        (cubesWithin d left n.low).map ((n.level, false) :: ·)

def cubes (d : Diagram) (r : Region) : List Cube := d.cubesWithin (d.features.length + 1) r

/-- Follows the present branch wherever it is not empty. -/
def modelWithin (d : Diagram) : Nat → Region → Cube
  | 0, _ => []
  | left + 1, r =>
    if r.isTerminal then []
    else
      let n := d.decision r
      if n.high.isEmpty then (n.level, false) :: modelWithin d left n.low
      else (n.level, true) :: modelWithin d left n.high

/-- One cube of a region, unless the region is empty. -/
def model? (d : Diagram) (r : Region) : Option Cube :=
  if r.isEmpty then none else some (d.modelWithin (d.features.length + 1) r)

def featureName (d : Diagram) (level : Nat) : String := d.features.getD (level - 1) ""

def literal (d : Diagram) (l : Nat × Bool) : String :=
  if l.2 then d.featureName l.1 else "!" ++ d.featureName l.1

def cubeText (d : Diagram) (c : Cube) : String := " & ".intercalate (c.map d.literal)

/-- A region as a sum of cubes. -/
def text (d : Diagram) (r : Region) : String :=
  if r.isTerminal then r.text else " | ".intercalate ((d.cubes r).map d.cubeText)

end Diagram

end GoalCoverage
