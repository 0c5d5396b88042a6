import GoalCoverage.Proofs.Explorer.Bound
import GoalCoverage.Proofs.Model
import GoalCoverage.Proofs.Program

/-!
The inputs of counterexamples. A model has entries for input values and for variables of the program, in the order of their
names, and still the input values are found in the order in which they are read along the route (`run_inputs`).
-/

namespace GoalCoverage

/-- The value that is read on an edge. -/
def Edge.value? (edge : Edge) : Option Int :=
  match edge.kind with
  | .input value => some value
  | _ => none

theorem Edge.value?_eq_some_iff {edge : Edge} {value : Int} : edge.value? = some value ↔ edge.kind = .input value := by
  rw [Edge.value?]
  cases edge.kind <;> simp

/-- The values that are read along edges. -/
def Program.valuesRead (p : Program) (trace : List EdgeId) : List Int :=
  trace.filterMap fun e => p.edges[e]?.bind Edge.value?

theorem Program.valuesRead_cons {p : Program} {e : EdgeId} {edge : Edge} {rest : List EdgeId}
    (here : p.edges[e]? = some edge) : p.valuesRead (e :: rest) = edge.value?.toList ++ p.valuesRead rest := by
  rw [valuesRead, List.filterMap_cons, here, Option.bind_some]
  cases edge.value? <;> rfl

namespace Explorer

open Procedure Model

variable {p : Program} {names : List String} {m m' : Model} {trace rest : List EdgeId} {seq : Nat} {x : Explorer}
  {g : StateGraph State} {target : NodeId} {c : Counterexample} {b : Desk} {edge : Edge} {e : EdgeId} {value : Int}

/-- No input is read for a variable whose entry could be taken for that of an input value. -/
def Plain (p : Program) : Prop := ∀ edge ∈ p.edges, ∀ value, edge.value? = some value →
  ∀ before after, Text.splitAt? " = ".toList edge.label.toList = some (before, after) → ¬inputPrefix.toList <+: before

theorem plain_of_built (built : p.Built names) (other : ∀ name ∈ names, ¬inputPrefix.toList <+: name.toList) : Plain p := by
  intro edge mem value read before after split starts
  have input : edge.kind = .input value := Edge.value?_eq_some_iff.1 read
  obtain ⟨name, listed, label⟩ := built.label_of_input mem input
  have parts := Text.append_of_splitAt? split
  rw [label, String.toList_append] at parts
  have whole : inputPrefix.toList <+: name.toList ++ ' ' :: "= __VERIFIER_nondet();".toList := by
    have within : before <+: name.toList ++ " = __VERIFIER_nondet();".toList :=
      ⟨" = ".toList ++ after, by rw [← List.append_assoc, parts]⟩
    exact starts.trans within
  exact other name listed (Text.prefix_of_prefix_append_cons (by decide) whole)

section Values

/-- The entries for the input at a place: one for its value, and one for its variable. -/
def enter (m : Model) (seq : Nat) (edge : Edge) (value : Int) : Model :=
  let m := m.insert (inputName seq) value
  match Text.splitAt? " = ".toList edge.label.toList with
  | some (variableName, _) => m.insert (String.ofList variableName ++ "@" ++ toString seq) value
  | none => m

/-- What is left of a trace after an edge. -/
theorem valuesAlong_cons (here : p.edges[e]? = some edge) : valuesAlong p seq m (e :: rest) =
    match edge.value? with
    | some value => valuesAlong p (seq + 1) (enter m seq edge value) rest
    | none => valuesAlong p seq m rest := by
  have found : p.edge e = .ok edge := by rw [Program.edge, here]
  rw [valuesAlong, found, Edge.value?]
  change (match edge.kind with
    | .input value => valuesAlong p (seq + 1) (enter m seq edge value) rest
    | _ => valuesAlong p seq m rest) = _
  cases edge.kind <;> rfl

/-- Values with their places from `seq` on, as far as these can be told. -/
def numbered (seq : Nat) (values : List Int) : List (Nat × Int) :=
  ((values.take (Text.wordBound - seq)).zipIdx seq).map Prod.swap

theorem numbered_cons (value : Int) (values : List Int) : numbered seq (value :: values) =
    (if seq < Text.wordBound then [(seq, value)] else []) ++ numbered (seq + 1) values := by
  rw [numbered, numbered]
  split
  next told =>
    have room : Text.wordBound - seq = Text.wordBound - (seq + 1) + 1 := by omega
    rw [room]
    rfl
  next untold =>
    have full : Text.wordBound - seq = 0 := by omega
    have full' : Text.wordBound - (seq + 1) = 0 := by omega
    rw [full, full']
    rfl

/-- The input value gets its place, if that can be told. The entry for the variable is not taken for an input value. -/
theorem placed_enter (plain : Plain p) (mem : edge ∈ p.edges) (input : edge.value? = some value)
    (below : ∀ k ∈ (placed m.entries).map (·.1), k < seq) : (placed (enter m seq edge value).entries).Perm
      (placed m.entries ++ if seq < Text.wordBound then [(seq, value)] else []) := by
  have added : (placed (m.insert (inputName seq) value).entries).Perm
      (placed m.entries ++ if seq < Text.wordBound then [(seq, value)] else []) := by
    have position := inputPlace?_inputName (k := seq)
    split at position
    next told =>
      rw [if_pos told]
      have new : seq ∉ (placed m.entries).map (·.1) := fun mem => Nat.lt_irrefl _ (below seq mem)
      exact (placed_place_of_some position new).trans (List.perm_append_singleton _ _).symm
    next untold =>
      rw [if_neg untold, List.append_nil]
      exact .of_eq (placed_place_of_none position)
  refine (List.Perm.of_eq ?_).trans added
  rw [enter]
  split
  next before after split =>
    apply placed_place_of_none
    apply inputPlace?_eq_none
    intro starts
    have name : (String.ofList before ++ "@" ++ toString seq).toList = before ++ '@' :: (toString seq).toList := by simp
    rw [name] at starts
    exact plain edge mem value input before after split (Text.prefix_of_prefix_append_cons (by decide) starts)
  next => rfl

theorem below_enter (plain : Plain p) (mem : edge ∈ p.edges) (input : edge.value? = some value)
    (below : ∀ k ∈ (placed m.entries).map (·.1), k < seq) :
    ∀ k ∈ (placed (enter m seq edge value).entries).map (·.1), k < seq + 1 := by
  intro k there
  have there := ((placed_enter plain mem input below).map (·.1)).subset there
  rw [List.map_append, List.mem_append] at there
  obtain old | new := there
  · exact Nat.lt_succ_of_lt (below k old)
  · split at new
    next =>
      cases List.mem_singleton.1 new
      exact Nat.lt_succ_self _
    next => cases new

/-- Along a trace the input values get the places from `seq` on. -/
theorem placed_valuesAlong (plain : Plain p) (ok : valuesAlong p seq m trace = .ok m')
    (below : ∀ k ∈ (placed m.entries).map (·.1), k < seq) :
    (placed m'.entries).Perm (placed m.entries ++ numbered seq (p.valuesRead trace)) := by
  induction trace generalizing seq m with
  | nil =>
    cases ok
    simp [Program.valuesRead, numbered]
  | cons e rest ih =>
    cases here : p.edges[e]? with
    | none =>
      have unknown : p.edge e = .error .outOfRange := by rw [Program.edge, here]
      rw [valuesAlong, unknown] at ok
      cases ok
    | some edge =>
      rw [valuesAlong_cons here] at ok
      rw [p.valuesRead_cons here]
      cases input : edge.value? with
      | none =>
        rw [input] at ok
        exact ih ok below
      | some value =>
        rw [input] at ok
        have mem := Array.mem_of_getElem? here
        have others := ih ok (below_enter plain mem input below)
        have first := (placed_enter plain mem input below).append_right (numbered (seq + 1) (p.valuesRead rest))
        rw [List.append_assoc, ← numbered_cons] at first
        exact others.trans first

/-- The model of a counterexample holds the values that are read along its route, as many as have places. -/
theorem inputs_explain (plain : Plain x.program) (ok : x.explain g target = .ok c) :
    c.model.inputs = (x.program.valuesRead c.route.edges).take Text.wordBound := by
  rw [explain] at ok
  obtain ⟨route, _, ok⟩ := Except.bind_eq_ok.1 ok
  obtain ⟨model, entered, same⟩ := Except.bind_eq_ok.1 ok
  cases same
  exact inputs_of_perm (placed_valuesAlong plain entered (by simp [Model.empty, placed]))

end Values

section Runs

/-- Every recorded counterexample holds the values that are read along its route. -/
structure Replayable (p : Program) (x : Explorer) : Prop where
  program : x.program = p
  inputs : ∀ t c, x.counterexamples.get? t = some c → c.model.inputs = (p.valuesRead c.route.edges).take Text.wordBound

/-- Nothing is recorded while nodes are expanded. -/
theorem carries_replayable : Carries anything fun b b' => Replayable p b.engine → Replayable p b'.engine where
  works _ := ⟨fun replayable => replayable, ensures_anything_iff.2 fun _ _ _ => trivial⟩
  settles n e s cover := by
    rw [settle]
    apply (moves_within fun _ replayable => replayable).bind
    intro child b₁ _ _
    cases cover with
    | some c =>
      apply (moves_modify fun replayable => replayable).bind
      intro _ b₂ _ _
      exact (moves_within fun _ replayable => replayable).bind fun _ _ _ _ => moves_pure
    | none =>
      dsimp only
      split
      next => exact moves_pure
      next => exact (moves_modify fun replayable => replayable).bind fun _ _ _ _ => moves_pure
  marks n := moves_within fun _ replayable => replayable

theorem record_replayable (plain : Plain p) (targets : List NodeId) :
    Moves anything (fun b b' => Replayable p b.engine → Replayable p b'.engine) (record targets) b := by
  rw [record, moves_get_bind]
  split
  next =>
    apply Moves.forM
    intro t _ b₁ _
    rw [moves_get_bind]
    split
    next v _ => exact moves_violate trivial
    next c ok =>
      apply moves_set
      rintro ⟨rfl, inputs⟩
      refine ⟨rfl, fun u d there => ?_⟩
      rw [IdMap.get?_insert] at there
      split at there
      next =>
        cases there
        exact inputs_explain plain ok
      next => exact inputs u d there
  next => exact moves_pure

theorem turn_replayable (plain : Plain p) (token : Token) :
    Moves anything (fun b b' => Replayable p b.engine → Replayable p b'.engine) (turn token) b := by
  rw [turn, moves_get_bind]
  split
  next => exact moves_pure
  next n reached _ =>
    split
    next => exact (moves_set fun replayable => replayable).bind fun _ _ _ _ => moves_pure
    next =>
      dsimp only
      split
      next => exact (moves_set fun replayable => replayable).bind fun _ _ _ _ => moves_pure
      next =>
        apply (moves_set fun replayable => replayable).bind
        intro _ b₁ _ _
        apply (carries_replayable.visit n).bind
        intro targets b₂ _ _
        split
        next => exact moves_pure
        next => exact (record_replayable plain targets).bind fun _ _ _ _ => moves_pure

theorem run_replayable (plain : Plain b.engine.program) (fuel : Nat) (token : Token) :
    Replayable b.engine.program (finish (run fuel token) b).engine := by
  have start : Replayable b.engine.program { b.engine with counterexamples := ∅ } := by
    refine ⟨rfl, fun t c there => ?_⟩
    rw [IdMap.get?_empty] at there
    cases there
  have turns : Moves anything (fun b' b'' => Replayable b.engine.program b'.engine → Replayable b.engine.program b''.engine)
      (repeatUntil turn fuel token) { b with engine := { b.engine with counterexamples := ∅ } } :=
    Moves.repeatUntil trivial (fun token b₁ _ => turn_replayable plain token) fuel token
  exact turns.1 start

section Example

/-- Three inputs on the way around a circle. -/
def drawCircle : Except Violation Program := do
  let corners := ((Program.empty.addFunction "main").2.addLocation "main").2.addLocation "main"
  let (_, p) ← corners.2.addInput 0 1 "x@9" 7
  let (_, p) ← p.addInput 1 2 "x = y" (-3)
  let (_, p) ← p.addInput 2 0 "__VERIFIER_nondet::@" 5
  return p

theorem built_of_drawCircle (ok : drawCircle = .ok p) : p.Built ["__VERIFIER_nondet::@", "x = y", "x@9"] := by
  obtain ⟨_, first, ok⟩ := Except.bind_eq_ok.1 ok
  obtain ⟨_, second, ok⟩ := Except.bind_eq_ok.1 ok
  obtain ⟨_, third, same⟩ := Except.bind_eq_ok.1 ok
  cases same
  exact .input (.input (.input (.location _ (.location _ (.function _ .empty))) first) second) third

def circle : Program := drawCircle.toOption.getD .empty

/-- Counts twelve edges. -/
def counter : Automaton :=
  { name := "G1", size := 13, initial := 0, finals := .singleton 12
    transitions := (List.range 12).map fun q => ⟨q, q + 1, .any⟩
    initial_lt := by decide
    finals_lt := by simp
    transitions_lt := by decide }

/-- An exploration that goes around four times. -/
def circleDesk : Desk :=
  { diagram := .fresh
    surroundings := { program := circle, tracks := false, maxNodes := none, explains := true }
    engine :=
      { program := circle, tracks := false, observers := [.plain 1 counter], covering := circle.joins, constraint := none
        opened := ∅, maxNodes := none, explains := true, counterexamples := ∅ }
    reached := .start ⟨0, Observer.starts [.plain 1 counter], none, ∅⟩ }

end Example

end Runs

end Explorer

end GoalCoverage
