import GoalCoverage.Failure
import GoalCoverage.IdSet
import GoalCoverage.Region

/-!
Programs as control-flow graphs.

Locations and edges are numbered in the order in which they are added, and every edge joins two known
locations. An edge is a statement, one outcome of a condition, or the reading of an input value; it may
be restricted to the configurations of a region. The edges at a location are listed in the order of
their numbers.
-/

namespace GoalCoverage

abbrev Location := Nat

abbrev EdgeId := Nat

inductive EdgeKind where
  | statement
  | assume (truth : Bool)
  | input (value : Int)
  deriving DecidableEq

structure Edge where
  source : Location
  target : Location
  label : String
  kind : EdgeKind
  presence : Option Region
  deriving DecidableEq

def locationText (n : Location) : String := "N" ++ toString n

def edgeText (e : EdgeId) : String := "e" ++ toString e

/-- An edge as an arrow that carries its label in braces. -/
def Edge.text (e : Edge) : String :=
  locationText e.source ++ " -\x7b" ++ e.label ++ "\x7d-> " ++ locationText e.target

structure Program where
  /-- The function of each location. -/
  locations : Array String
  edges : Array Edge
  /-- Function entries, the latest first. -/
  entries : List (String × Location)
  ends_known : ∀ e ∈ edges, e.source < locations.size ∧ e.target < locations.size
  entries_known : ∀ e ∈ entries, e.2 < locations.size

namespace Program

def empty : Program := ⟨#[], #[], [], by simp, by simp⟩

instance : Inhabited Program := ⟨empty⟩

def addLocation (p : Program) (function : String) : Location × Program :=
  (p.locations.size,
    { p with
      locations := p.locations.push function
      ends_known := fun e he => by
        obtain ⟨hs, ht⟩ := p.ends_known e he
        rw [Array.size_push]
        exact ⟨Nat.lt_succ_of_lt hs, Nat.lt_succ_of_lt ht⟩
      entries_known := fun e he => by
        rw [Array.size_push]
        exact Nat.lt_succ_of_lt (p.entries_known e he) })

/-- Adds a function with its entry location. -/
def addFunction (p : Program) (name : String) : Location × Program :=
  let entry := p.locations.size
  let p := (p.addLocation name).2
  (entry,
    { p with
      entries := (name, entry) :: p.entries
      entries_known := fun e he => by
        rcases List.mem_cons.1 he with rfl | he
        · exact Nat.lt_of_lt_of_eq (Nat.lt_succ_self _) (Array.size_push _).symm
        · exact p.entries_known e he })

def addEdge (p : Program) (source target : Location) (label : String) (kind : EdgeKind) :
    Except Violation (EdgeId × Program) :=
  if hs : source < p.locations.size then
    if ht : target < p.locations.size then
      .ok (p.edges.size,
        { p with
          edges := p.edges.push ⟨source, target, label, kind, none⟩
          ends_known := fun e he => by
            rcases Array.mem_push.1 he with he | rfl
            · exact p.ends_known e he
            · exact ⟨hs, ht⟩ })
    else .error (.unknownLocation target)
  else .error (.unknownLocation source)

def addStatement (p : Program) (source target : Location) (label : String) :
    Except Violation (EdgeId × Program) :=
  p.addEdge source target label .statement

def addAssume (p : Program) (source target : Location) (condition : String) (truth : Bool) :
    Except Violation (EdgeId × Program) :=
  let label := if truth then "[" ++ condition ++ "]" else "[!(" ++ condition ++ ")]"
  p.addEdge source target label (.assume truth)

def addInput (p : Program) (source target : Location) (variableName : String) (value : Int) :
    Except Violation (EdgeId × Program) :=
  p.addEdge source target (variableName ++ " = __VERIFIER_nondet();") (.input value)

/-- Restricts an edge to the configurations of a region. -/
def restrict (p : Program) (edge : EdgeId) (region : Region) : Except Violation Program :=
  if h : edge < p.edges.size then
    .ok { p with
      edges := p.edges.set edge { p.edges[edge] with presence := some region }
      ends_known := fun e he => by
        rcases Array.mem_or_eq_of_mem_set he with he | rfl
        · exact p.ends_known e he
        · exact p.ends_known p.edges[edge] (Array.getElem_mem h) }
  else .error .outOfRange

def edge (p : Program) (e : EdgeId) : Except Violation Edge :=
  match p.edges[e]? with
  | some edge => .ok edge
  | none => .error .outOfRange

def known (p : Program) (n : Location) : Bool := decide (n < p.locations.size)

/-- A location of the program; any other is a violation. -/
def locate (p : Program) (n : Location) : Except Violation Location :=
  if p.known n then .ok n else .error .outOfRange

/-- The first location of the program. -/
def entry (p : Program) : Except Violation Location :=
  if p.locations.isEmpty then .error .emptyProgram else .ok 0

def functionEntry? (p : Program) (name : String) : Option Location := p.entries.lookup name

def functionOf (p : Program) (n : Location) : Except Violation String :=
  match p.locations[n]? with
  | some name => .ok name
  | none => .error .outOfRange

def edgeIds (p : Program) : List EdgeId := List.range p.edges.size

def locationIds (p : Program) : List Location := List.range p.locations.size

def leaving (p : Program) (n : Location) : List EdgeId :=
  p.edgeIds.filter fun e => p.edges[e]?.any (·.source == n)

def entering (p : Program) (n : Location) : List EdgeId :=
  p.edgeIds.filter fun e => p.edges[e]?.any (·.target == n)

/-- More than one edge leaves the location. -/
def isBranching (p : Program) (n : Location) : Bool := decide (1 < (p.leaving n).length)

/-- More than one edge enters the location. -/
def isJoin (p : Program) (n : Location) : Bool := decide (1 < (p.entering n).length)

/-- The first edge that leads from one location to another. -/
def edgeBetween (p : Program) (source target : Location) : Except Violation (Option EdgeId) := do
  let source ← p.locate source
  return (p.leaving source).find? fun e => p.edges[e]?.any (·.target == target)

/-- A search for edges: the targets that were found so far, and the locations where it goes on. -/
structure Hunt where
  found : IdSet
  todo : List Location

/-- Takes an edge. The search ends at once with the last of the targets. -/
def take (p : Program) (targets : IdSet) (hunt : Hunt) (e : EdgeId) : Except IdSet Hunt :=
  let todo := (p.edges[e]?).toList.map (·.target) ++ hunt.todo
  if targets.contains e then
    let found := hunt.found.insert e
    if found.size = targets.size then .error found else .ok { found, todo }
  else .ok { hunt with todo }

/-- Visits locations depth first, at most as many as are left, and takes all their edges but `avoid`. -/
def huntWithin (p : Program) (avoid : EdgeId) (targets : IdSet) :
    (left : Nat) → (visited : Std.TreeSet Nat) → Hunt → IdSet
  | 0, _, hunt => hunt.found
  | left + 1, visited, hunt =>
    match hunt.todo.dropWhile visited.contains with
    | [] => hunt.found
    | n :: rest =>
      match ((p.leaving n).filter (· != avoid)).foldlM (p.take targets) { hunt with todo := rest } with
      | .error found => found
      | .ok hunt => huntWithin p avoid targets left (visited.insert n) hunt

/-- Those of the targets that some walk from `start` traverses without ever taking `avoid`. -/
def edgesReached (p : Program) (start : Location) (avoid : EdgeId) (targets : IdSet) :
    Except Violation IdSet := do
  let start ← p.locate start
  return p.huntWithin avoid targets p.locations.size ∅ { found := ∅, todo := [start] }

end Program

end GoalCoverage
