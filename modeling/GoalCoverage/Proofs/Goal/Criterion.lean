import GoalCoverage.Proofs.Automaton.Resolution
import GoalCoverage.Proofs.Automaton.Trimness
import GoalCoverage.Proofs.Generation.Start

/-!
The goals of a criterion. There is one for each edge that the criterion asks for, in the order of the edges;
clusters are the functions that the edges leave, numbered in the order of their first goal; and a goal accepts
the traces that contain its edge and rejects the others (`goals_exact`).
-/

namespace GoalCoverage

namespace Program

variable {p : Program} {c : Criterion} {trimmed : Bool} {γ γ' : Goal} {e : EdgeId} {n : Location}

theorem nodup_leaving (p : Program) (n : Location) : (p.leaving n).Nodup := List.nodup_range.filter _

/-- A location branches if two edges leave it. -/
theorem isBranching_iff : p.isBranching n = true ↔ ∃ e ∈ p.leaving n, ∃ e' ∈ p.leaving n, e ≠ e' := by
  rw [isBranching, decide_eq_true_eq, ← List.toFinset_card_of_nodup (p.nodup_leaving n), Finset.one_lt_card]
  simp only [List.mem_toFinset]

/-- The edges that a criterion asks for: all of them, or those that leave a location together with another one. -/
def Asked (p : Program) (c : Criterion) (e : EdgeId) : Prop :=
  ∃ edge, p.edges[e]? = some edge ∧
    (c = .decisions → ∃ e' edge', e' ≠ e ∧ p.edges[e']? = some edge' ∧ edge'.source = edge.source)

theorem mem_selected : e ∈ p.selected c ↔ p.Asked c e := by
  rw [selected, edgeIds, List.mem_filter, List.mem_range, Asked]
  cases c with
  | edges => simp [Criterion.selects, Array.getElem?_eq_some_iff]
  | decisions =>
    simp only [Criterion.selects, Option.any_eq_true, forall_const]
    constructor
    · intro h
      obtain ⟨_, edge, here, branching⟩ := h
      obtain ⟨e₁, leaves₁, e₂, leaves₂, differ⟩ := isBranching_iff.1 branching
      obtain ⟨edge₁, here₁, source₁⟩ := mem_leaving.1 leaves₁
      obtain ⟨edge₂, here₂, source₂⟩ := mem_leaving.1 leaves₂
      -- One of the two is another edge than this one.
      by_cases same : e₁ = e
      · exact ⟨edge, here, e₂, edge₂, fun again => differ (same.trans again.symm), here₂, source₂⟩
      · exact ⟨edge, here, e₁, edge₁, same, here₁, source₁⟩
    · intro h
      obtain ⟨edge, here, e', edge', differ, here', source⟩ := h
      refine ⟨(Array.getElem?_eq_some_iff.1 here).1, edge, here, ?_⟩
      exact isBranching_iff.2 ⟨e', mem_leaving.2 ⟨edge', here', source⟩, e, mem_leaving.2 ⟨edge, here, rfl⟩, differ⟩

theorem increasing_selected (p : Program) (c : Criterion) : (p.selected c).Pairwise (· < ·) :=
  List.pairwise_lt_range.filter _

theorem criticalEdges_goals (p : Program) (c : Criterion) (trimmed : Bool) :
    (p.goals c trimmed).map (·.criticalEdge) = p.selected c := by
  rw [goals_eq]
  apply List.ext_getElem
  · simp
  · simp [Goal.forEdge]

theorem indices_goals (p : Program) (c : Criterion) (trimmed : Bool) :
    (p.goals c trimmed).map (·.index) = List.range' 1 (p.goals c trimmed).length := by
  rw [goals_eq]
  apply List.ext_getElem
  · simp
  · intro i _ _
    simp [Goal.forEdge, Nat.add_comm]

/-- The functions that the edges of a criterion leave. -/
def functionsLeft (p : Program) (c : Criterion) : List String := Distinct.ofList ((p.selected c).map p.functionOfEdge)

theorem cluster_of_mem_goals (mem : γ ∈ p.goals c trimmed) :
    γ.cluster = (p.functionsLeft c).idxOf (p.functionOfEdge γ.criticalEdge) := by
  rw [goals_eq] at mem
  obtain ⟨i, bound, rfl⟩ := List.mem_mapIdx.1 mem
  rfl

theorem functionsLeft_eq (p : Program) (c : Criterion) (trimmed : Bool) :
    p.functionsLeft c = Distinct.ofList ((p.goals c trimmed).map fun γ => p.functionOfEdge γ.criticalEdge) := by
  rw [functionsLeft, ← criticalEdges_goals p c trimmed, List.map_map]
  rfl

theorem mem_functionsLeft_iff {f : String} :
    f ∈ p.functionsLeft c ↔ ∃ γ ∈ p.goals c trimmed, p.functionOfEdge γ.criticalEdge = f := by
  rw [functionsLeft_eq p c trimmed, Distinct.mem_ofList, List.mem_map]

theorem functionOf_eq_ok {edge : Edge} (here : p.edges[e]? = some edge) :
    p.functionOf edge.source = .ok (p.functionOfEdge e) := by
  obtain ⟨bound, rfl⟩ := Array.getElem?_eq_some_iff.1 here
  have known := (p.ends_known _ (Array.getElem_mem bound)).1
  simp only [functionOfEdge, here]
  rw [functionOf, Array.getElem?_eq_getElem known, Array.getD_eq_getD_getElem?, Array.getElem?_eq_getElem known]
  rfl

/-- What the goals of a criterion are. -/
structure Extracted (p : Program) (c : Criterion) (goals : List Goal) : Prop where
  asked : ∀ e, e ∈ goals.map (·.criticalEdge) ↔ p.Asked c e
  /-- Every edge has one goal, and the goals follow the edges. -/
  ordered : (goals.map (·.criticalEdge)).Pairwise (· < ·)
  numbered : goals.map (·.index) = List.range' 1 goals.length
  siblings : ∀ γ ∈ goals, ∀ γ' ∈ goals, ∃ edge edge', p.edges[γ.criticalEdge]? = some edge ∧
    p.edges[γ'.criticalEdge]? = some edge' ∧
    (γ.cluster = γ'.cluster ↔ p.functionOf edge.source = p.functionOf edge'.source)
  clusters : ∃ k, ∀ id, id ∈ goals.map (·.cluster) ↔ id < k
  /-- A cluster is met for the first time after all clusters of smaller numbers. -/
  firstMet : ∀ before γ after, goals = before ++ γ :: after → ∀ id < γ.cluster, id ∈ before.map (·.cluster)
  possible : ∀ γ ∈ goals, γ.automaton.isDegenerate = false
  verdict : ∀ γ ∈ goals, ∀ trace, γ.accepts trace = if γ.criticalEdge ∈ trace then .accept else .reject

end Program

namespace Automaton

theorem accepts_reaching (name : String) (e : EdgeId) (trace : List EdgeId) :
    (reaching name e).accepts trace = if e ∈ trace then .accept else .reject := by
  have free := not_guarded_reaching name e
  have accept : (reaching name e).accepts trace = .accept ↔ e ∈ trace := by
    rw [accepts_iff free, recognizes_reaching]
  split
  next there => exact accept.2 there
  next absent =>
    cases answer : (reaching name e).accepts trace with
    | accept => exact absurd (accept.1 answer) absent
    | reject => rfl
    | unknown => exact absurd answer (accepts_ne_unknown free)

theorem not_isDegenerate_reaching (name : String) (e : EdgeId) : (reaching name e).isDegenerate = false := by
  rw [← Bool.not_eq_true]
  intro degenerate
  exact not_recognizes_of_isDegenerate degenerate ((recognizes_reaching name e).2 (List.mem_singleton_self e))

end Automaton

namespace Program

variable {p : Program} {c : Criterion} {trimmed : Bool} {γ γ' : Goal}

/-- Goals are siblings if their edges leave the same function. -/
theorem cluster_eq_iff (mem : γ ∈ p.goals c trimmed) (mem' : γ' ∈ p.goals c trimmed) :
    γ.cluster = γ'.cluster ↔ p.functionOfEdge γ.criticalEdge = p.functionOfEdge γ'.criticalEdge := by
  rw [cluster_of_mem_goals mem, cluster_of_mem_goals mem']
  exact List.idxOf_inj (mem_functionsLeft_iff.2 ⟨γ, mem, rfl⟩)

theorem mem_clusters_iff {id : Nat} :
    id ∈ (p.goals c trimmed).map (·.cluster) ↔ id < (p.functionsLeft c).length := by
  rw [List.mem_map]
  constructor
  · intro h
    obtain ⟨γ, mem, rfl⟩ := h
    rw [cluster_of_mem_goals mem]
    exact List.idxOf_lt_length_of_mem (mem_functionsLeft_iff.2 ⟨γ, mem, rfl⟩)
  · intro bound
    have left : (p.functionsLeft c)[id] ∈ p.functionsLeft c := List.getElem_mem bound
    obtain ⟨γ, mem, same⟩ : ∃ γ ∈ p.goals c trimmed, p.functionOfEdge γ.criticalEdge = (p.functionsLeft c)[id] :=
      mem_functionsLeft_iff.1 left
    refine ⟨γ, mem, ?_⟩
    rw [cluster_of_mem_goals mem, same]
    exact (Distinct.nodup_ofList _).idxOf_getElem id bound

theorem exists_cluster_before {before after : List Goal} {id : Nat} (split : p.goals c trimmed = before ++ γ :: after)
    (lt : id < γ.cluster) : id ∈ before.map (·.cluster) := by
  have mem : ∀ γ' ∈ before ++ γ :: after, γ' ∈ p.goals c trimmed := fun γ' mem => split ▸ mem
  rw [cluster_of_mem_goals (mem γ (by simp)), functionsLeft_eq p c trimmed, split, List.map_append, List.map_cons] at lt
  obtain ⟨f, met, same⟩ := Distinct.exists_met lt
  obtain ⟨γ', mem', rfl⟩ := List.mem_map.1 met
  rw [List.mem_map]
  refine ⟨γ', mem', ?_⟩
  rw [cluster_of_mem_goals (mem γ' (List.mem_append_left _ mem')), functionsLeft_eq p c trimmed, split, List.map_append,
    List.map_cons]
  exact same

theorem goals_exact (p : Program) (c : Criterion) (trimmed : Bool) : p.Extracted c (p.goals c trimmed) where
  asked e := by rw [criticalEdges_goals, mem_selected]
  ordered := by
    rw [criticalEdges_goals]
    exact p.increasing_selected c
  numbered := indices_goals p c trimmed
  siblings γ mem γ' mem' := by
    have here := Array.getElem?_eq_getElem (canonical_of_mem_goals mem).edge
    have here' := Array.getElem?_eq_getElem (canonical_of_mem_goals mem').edge
    refine ⟨_, _, here, here', ?_⟩
    rw [cluster_eq_iff mem mem', functionOf_eq_ok here, functionOf_eq_ok here', Except.ok.injEq]
  clusters := ⟨_, fun _ => mem_clusters_iff⟩
  firstMet before γ after split id lt := exists_cluster_before split lt
  possible γ mem := by
    rw [(canonical_of_mem_goals mem).automaton]
    exact Automaton.not_isDegenerate_reaching _ _
  verdict γ mem trace := by
    rw [Goal.accepts, (canonical_of_mem_goals mem).automaton]
    exact Automaton.accepts_reaching _ _ _

end Program

end GoalCoverage
