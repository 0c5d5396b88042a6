import GoalCoverage.Closure
import GoalCoverage.Label

/-!
Goal automata: nondeterministic automata that read program edges.

States are numbered from 0, and the initial state, the final states and the ends of all transitions are
states of the automaton. A final state accepts however the trace goes on. Acceptance has three values:
guarded transitions are never taken, and meeting one turns a rejection into `unknown`.
-/

namespace GoalCoverage

abbrev StateId := Nat

structure Transition where
  source : StateId
  target : StateId
  label : Label
  deriving DecidableEq

inductive Acceptance where
  | accept
  | reject
  | unknown
  deriving DecidableEq

def Acceptance.text : Acceptance → String
  | accept => "accept"
  | reject => "reject"
  | unknown => "unknown"

structure Automaton where
  name : String
  /-- Number of states. -/
  size : Nat
  initial : StateId
  finals : IdSet
  transitions : List Transition
  initial_lt : initial < size
  finals_lt : ∀ q ∈ finals, q < size
  transitions_lt : ∀ t ∈ transitions, t.source < size ∧ t.target < size

namespace Automaton

/-- One state, initial and not final. -/
def trivial (name : String) : Automaton :=
  { name, size := 1, initial := 0, finals := ∅, transitions := []
    initial_lt := Nat.zero_lt_one
    finals_lt := fun q hq => absurd hq (IdSet.not_mem_empty q)
    transitions_lt := by simp }

instance : Inhabited Automaton := ⟨trivial ""⟩

/-- The goal of traversing one edge: wait in state 0, and move to the final state 1 on that edge. -/
def reaching (name : String) (edge : EdgeId) : Automaton :=
  { name, size := 2, initial := 0, finals := .singleton 1
    transitions := [⟨0, 0, .any⟩, ⟨0, 1, .single edge⟩]
    initial_lt := Nat.zero_lt_two
    finals_lt := fun q hq => by
      rw [IdSet.mem_singleton.1 hq]
      exact Nat.one_lt_two
    transitions_lt := by simp }

/-- Adds states without transitions. -/
def addStates (a : Automaton) (count : Nat) : Automaton :=
  { a with
    size := a.size + count
    initial_lt := Nat.lt_add_right count a.initial_lt
    finals_lt := fun q hq => Nat.lt_add_right count (a.finals_lt q hq)
    transitions_lt := fun t ht =>
      ⟨Nat.lt_add_right count (a.transitions_lt t ht).1, Nat.lt_add_right count (a.transitions_lt t ht).2⟩ }

def addState (a : Automaton) : StateId × Automaton := (a.size, a.addStates 1)

def setInitial (a : Automaton) (q : StateId) : Except Violation Automaton :=
  if h : q < a.size then .ok { a with initial := q, initial_lt := h } else .error (.unknownState q)

def addFinal (a : Automaton) (q : StateId) : Except Violation Automaton :=
  if h : q < a.size then
    .ok { a with
      finals := a.finals.insert q
      finals_lt := fun r hr => by
        rcases IdSet.mem_insert.1 hr with rfl | hr
        · exact h
        · exact a.finals_lt r hr }
  else .error (.unknownState q)

def addTransition (a : Automaton) (source target : StateId) (label : Label) : Except Violation Automaton :=
  if hs : source < a.size then
    if ht : target < a.size then
      .ok { a with
        transitions := a.transitions ++ [⟨source, target, label⟩]
        transitions_lt := fun t h => by
          rcases List.mem_append.1 h with h | h
          · exact a.transitions_lt t h
          · rw [List.mem_singleton.1 h]
            exact ⟨hs, ht⟩ }
    else .error (.unknownState target)
  else .error (.unknownState source)

def states (a : Automaton) : List StateId := List.range a.size

def isFinal (a : Automaton) (q : StateId) : Bool := a.finals.contains q

def outgoing (a : Automaton) (q : StateId) : List Transition := a.transitions.filter (·.source == q)

def isGuarded (a : Automaton) : Bool := a.transitions.any (·.label.isGuarded)

/-- The states after one edge, along transitions without guards. -/
def step (a : Automaton) (current : IdSet) (e : EdgeId) : IdSet :=
  .ofList (current.toList.flatMap fun q =>
    ((a.outgoing q).filter fun t => !t.label.isGuarded && t.label.contains e).map (·.target))

/-- Does a guarded transition leave one of the states? -/
def meetsGuard (a : Automaton) (current : IdSet) : Bool :=
  current.any fun q => (a.outgoing q).any (·.label.isGuarded)

/-- Acceptance of the rest of a trace from a set of states, when `guarded` says whether a guard was met. -/
def acceptsFrom (a : Automaton) : List EdgeId → IdSet → Bool → Acceptance
  | [], current, guarded =>
    if current.any a.isFinal then .accept else if guarded then .unknown else .reject
  | e :: rest, current, guarded =>
    if current.any a.isFinal then .accept
    else acceptsFrom a rest (a.step current e) (guarded || a.meetsGuard current)

def accepts (a : Automaton) (trace : List EdgeId) : Acceptance :=
  a.acceptsFrom trace (.singleton a.initial) false

/-- States that some sequence of transitions leads to from the initial state. -/
def reachable (a : Automaton) : IdSet :=
  let successors := Closure.table (a.transitions.map fun t => (t.source, t.target))
  .ofTree (Closure.reach (successors.getD · []) a.size [a.initial])

/-- States from which some sequence of transitions leads to a final state. -/
def useful (a : Automaton) : IdSet :=
  let predecessors := Closure.table (a.transitions.map fun t => (t.target, t.source))
  .ofTree (Closure.reach (predecessors.getD · []) a.size a.finals.toList)

/-- No final state can be reached. -/
def isDegenerate (a : Automaton) : Bool := (a.reachable.inter a.finals).isEmpty

end Automaton

end GoalCoverage
