import GoalCoverage.Program
import GoalCoverage.Proofs.Diagram.Meaning
import Mathlib.Data.List.Induction

/-!
Walks through programs. A path is the trace of a walk from the program entry; it is allowed for a
configuration if that lies in the regions of all its edges.
-/

namespace GoalCoverage.Program

/-- A program of one function with so many locations after its entry, and a statement for each arrow between them. -/
def ofArrows (more : Nat) (arrows : List (Location × Location)) : Program :=
  let bare := (List.range more).foldl (fun p _ => (p.addLocation "main").2) (empty.addFunction "main").2
  arrows.foldl (fun p (source, target) => ((p.addStatement source target "x = 1;").map (·.2)).toOption.getD p) bare

variable {p : Program} {start finish : Location} {trace : List EdgeId} {e : EdgeId} {edge : Edge}

inductive Walk (p : Program) (start : Location) : List EdgeId → Location → Prop
  | stay : Walk p start [] start
  | step {trace : List EdgeId} {middle : Location} {e : EdgeId} {edge : Edge} :
    Walk p start trace middle → p.edges[e]? = some edge → edge.source = middle →
      Walk p start (trace ++ [e]) edge.target

/-- The trace of an execution as far as the control flow goes. -/
def IsPath (p : Program) (trace : List EdgeId) : Prop :=
  ∃ start finish, p.entry = .ok start ∧ p.Walk start trace finish

/-- The edge may be taken in a configuration. -/
def Allows (p : Program) (d : Diagram) (c : Configuration) (e : EdgeId) : Prop :=
  ∀ edge, p.edges[e]? = some edge → d.Within edge.presence c

/-- All regions on edges belong to the diagram. -/
def Over (p : Program) (d : Diagram) : Prop :=
  ∀ (e : EdgeId) edge, p.edges[e]? = some edge → d.Knows edge.presence

theorem Over.extends {d d' : Diagram} (known : p.Over d) (ext : d.Extends d') : p.Over d' :=
  fun e edge he => ext.knows (known e edge he)

theorem Over.allows_iff {d d' : Diagram} {c : Configuration} (known : p.Over d) (wf : d.WellFormed)
    (ext : d.Extends d') : p.Allows d' c e ↔ p.Allows d c e := by
  apply forall_congr'
  intro edge
  apply imp_congr_right
  intro he
  exact ext.within_iff wf (known e edge he)

theorem mem_leaving {n : Location} :
    e ∈ p.leaving n ↔ ∃ edge, p.edges[e]? = some edge ∧ edge.source = n := by
  simp only [leaving, edgeIds, List.mem_filter, List.mem_range, Option.any_eq_true, beq_iff_eq]
  constructor
  · exact fun h => h.2
  · rintro ⟨edge, he, hs⟩
    exact ⟨(Array.getElem?_eq_some_iff.1 he).1, edge, he, hs⟩

theorem Walk.of_append {t u : List EdgeId} (walk : p.Walk start (t ++ u) finish) :
    ∃ middle, p.Walk start t middle := by
  induction u using List.reverseRecOn generalizing finish with
  | nil => exact ⟨finish, by simpa using walk⟩
  | append_singleton u e ih =>
    rw [← List.append_assoc] at walk
    generalize whole : t ++ u ++ [e] = trace at walk
    cases walk with
    | stay => simp at whole
    | step walk _ _ =>
      obtain ⟨rfl, _⟩ := List.append_inj' whole rfl
      exact ih walk

theorem IsPath.of_append {t u : List EdgeId} (path : p.IsPath (t ++ u)) : p.IsPath t := by
  obtain ⟨start, finish, entry, walk⟩ := path
  obtain ⟨middle, walk⟩ := walk.of_append
  exact ⟨start, middle, entry, walk⟩

/-- Every edge of a walk is one of the program. -/
theorem Walk.known (walk : p.Walk start trace finish) (mem : e ∈ trace) : ∃ edge, p.edges[e]? = some edge := by
  induction walk with
  | stay => cases mem
  | @step _ _ _ edge _ he _ ih =>
    rcases List.mem_append.1 mem with mem | mem
    · exact ih mem
    · rw [List.mem_singleton.1 mem]
      exact ⟨edge, he⟩

theorem Walk.lt (walk : p.Walk start trace finish) (mem : e ∈ trace) : e < p.edges.size := by
  obtain ⟨edge, there⟩ := walk.known mem
  exact (Array.getElem?_eq_some_iff.1 there).1

end GoalCoverage.Program
