import GoalCoverage.Automaton
import GoalCoverage.StateGraph
import GoalCoverage.Text

/-!
Drawings of automata and state graphs in the DOT language.

Texts inside quotes are escaped: a backslash stands in front of every backslash and every quote.
-/

namespace GoalCoverage

structure DrawingStyle where
  nodeShape : String := "circle"
  finalShape : String := "doublecircle"
  targetColor : String := "tomato"
  /-- Label the links of a graph with program statements rather than edge numbers. -/
  statementLabels : Bool := true

namespace Drawing

/-- Backslashes come first, so that those in front of quotes stay single. -/
def escape (s : String) : String :=
  String.ofList (Text.replace '"' ['\\', '"'] (Text.replace '\\' ['\\', '\\'] s.toList))

def quote (s : String) : String := "\"" ++ escape s ++ "\""

def lines (ls : List String) : String := String.join (ls.map (· ++ "\n"))

def state (style : DrawingStyle) (a : Automaton) (q : StateId) : String :=
  if a.isFinal q then "q" ++ toString q ++ " [shape=" ++ style.finalShape ++ "];"
  else "q" ++ toString q ++ ";"

def transition (t : Transition) : String :=
  "q" ++ toString t.source ++ " -> q" ++ toString t.target ++ " [label=" ++ quote t.label.text ++ "];"

/-- States in order, then the mark of the initial state, then the transitions. -/
def automaton (style : DrawingStyle) (a : Automaton) : String :=
  lines <|
    ["digraph " ++ quote a.name ++ " \x7b", "rankdir=LR;", "node [shape=" ++ style.nodeShape ++ "];",
      "init [shape=point];"] ++
    a.states.map (state style a) ++
    ["init -> q" ++ toString a.initial ++ ";"] ++
    a.transitions.map transition ++
    ["\x7d"]

variable {S : Type} [AbstractState S]

/-- What is written on a node: its number and location, then its region and its goals, if any. -/
def caption (n : NodeId) (s : S) : String :=
  let presence := match AbstractState.presence s with
    | some r => "\\npc: " ++ r.text
    | none => ""
  let goals := (AbstractState.accepted s).toList
  let accepts :=
    if goals.isEmpty then ""
    else "\\naccepts: " ++ ", ".intercalate (goals.map fun g => "G" ++ toString g)
  nodeText n ++ " @ " ++ locationText (AbstractState.location s) ++ presence ++ accepts

def node (style : DrawingStyle) (g : StateGraph S) (n : NodeId) (v : GraphNode S) : String :=
  let look :=
    if AbstractState.isTarget v.state then ", style=filled, fillcolor=" ++ style.targetColor
    else if g.isCovered n then ", style=dashed"
    else if v.bottom then ", color=grey"
    else ""
  toString n ++ " [label=\"" ++ caption n v.state ++ "\"" ++ look ++ "];"

def link (style : DrawingStyle) (p : Program) (n child : NodeId) (label : Option EdgeId) :
    Except Violation String := do
  let arrow := toString n ++ " -> " ++ toString child
  match label with
  | none => return arrow ++ ";"
  | some e =>
    let text ← if style.statementLabels then (p.edge e).map fun edge => escape edge.label
      else .ok (edgeText e)
    return arrow ++ " [label=\"" ++ text ++ "\"];"

/-- The links of a node to its children, then the reference to its cover. -/
def links (style : DrawingStyle) (p : Program) (n : NodeId) (v : GraphNode S) :
    Except Violation (List String) := do
  let children ← v.children.entries.mapM fun child => link style p n child.1 child.2
  let cover := v.coveredBy.toList.map fun c =>
    toString n ++ " -> " ++ toString c ++ " [style=dotted, constraint=false];"
  return children ++ cover

/-- All nodes in order, then the links and coverings of all nodes in order. -/
def graph (style : DrawingStyle) (p : Program) (g : StateGraph S) : Except Violation String := do
  let existing := g.ids.filterMap fun n => (g.node? n).map fun v => (n, v)
  let arrows ← existing.mapM fun entry => links style p entry.1 entry.2
  return lines <|
    ["digraph ARG \x7b", "node [shape=" ++ style.nodeShape ++ "];"] ++
    existing.map (fun entry => node style g entry.1 entry.2) ++
    arrows.flatten ++
    ["\x7d"]

end Drawing

end GoalCoverage
