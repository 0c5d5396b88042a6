import GoalCoverage.Program

/-!
How programs are built, location by location and edge by edge.
-/

namespace GoalCoverage.Program

/-- The program has come about by additions and restrictions, and its inputs are read for variables of these names. -/
inductive Built : Program → List String → Prop
  | empty : Built .empty []
  | location {p : Program} {names : List String} (name : String) : Built p names → Built (p.addLocation name).2 names
  | function {p : Program} {names : List String} (name : String) : Built p names → Built (p.addFunction name).2 names
  | statement {p p' : Program} {names : List String} {source target : Location} {label : String} {e : EdgeId} :
    Built p names → p.addStatement source target label = .ok (e, p') → Built p' names
  | assume {p p' : Program} {names : List String} {source target : Location} {condition : String} {truth : Bool} {e : EdgeId} :
    Built p names → p.addAssume source target condition truth = .ok (e, p') → Built p' names
  | input {p p' : Program} {names : List String} {source target : Location} {name : String} {value : Int} {e : EdgeId} :
    Built p names → p.addInput source target name value = .ok (e, p') → Built p' (name :: names)
  | restrict {p p' : Program} {names : List String} {e : EdgeId} {region : Region} :
    Built p names → p.restrict e region = .ok p' → Built p' names

variable {p p' : Program} {names : List String} {e : EdgeId} {source target : Location} {label : String} {kind : EdgeKind}
  {edge : Edge} {value : Int} {region : Region}

theorem edges_addEdge (ok : p.addEdge source target label kind = .ok (e, p')) :
    p'.edges = p.edges.push ⟨source, target, label, kind, none⟩ := by
  rw [addEdge] at ok
  split at ok
  next =>
    split at ok
    next =>
      cases ok
      rfl
    next => cases ok
  next => cases ok

/-- A restriction leaves the label and the kind of every edge. -/
theorem exists_of_restrict (ok : p.restrict e region = .ok p') (mem : edge ∈ p'.edges) :
    ∃ old ∈ p.edges, edge.label = old.label ∧ edge.kind = old.kind := by
  rw [restrict] at ok
  split at ok
  next bound =>
    cases ok
    have mem : edge ∈ p.edges.set e { p.edges[e] with presence := some region } := mem
    obtain old | rfl := Array.mem_or_eq_of_mem_set mem
    · exact ⟨edge, old, rfl, rfl⟩
    · exact ⟨p.edges[e], Array.getElem_mem bound, rfl, rfl⟩
  next => cases ok

/-- Only inputs and edges that read no values are added. -/
theorem Built.label_of_input (built : p.Built names) (mem : edge ∈ p.edges) (input : edge.kind = .input value) :
    ∃ x ∈ names, edge.label = x ++ " = __VERIFIER_nondet();" := by
  induction built generalizing edge with
  | empty => simp [Program.empty] at mem
  | location name _ ih => exact ih mem input
  | function name _ ih => exact ih mem input
  | statement _ ok ih =>
    rw [edges_addEdge ok, Array.mem_push] at mem
    obtain old | rfl := mem
    · exact ih old input
    · cases input
  | assume _ ok ih =>
    rw [edges_addEdge ok, Array.mem_push] at mem
    obtain old | rfl := mem
    · exact ih old input
    · cases input
  | input _ ok ih =>
    rw [edges_addEdge ok, Array.mem_push] at mem
    obtain old | rfl := mem
    · obtain ⟨x, mem, label⟩ := ih old input
      exact ⟨x, List.mem_cons_of_mem _ mem, label⟩
    · exact ⟨_, List.mem_cons_self, rfl⟩
  | restrict _ ok ih =>
    obtain ⟨old, there, label, kind⟩ := exists_of_restrict ok mem
    obtain ⟨x, mem, same⟩ := ih there (kind ▸ input)
    exact ⟨x, mem, label.trans same⟩

end GoalCoverage.Program
