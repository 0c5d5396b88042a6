import GoalCoverage.Proofs.Explorer.Invariant

/-!
Routes through explorations. The branch to a node walks the program, for all configurations of its states,
and the observers follow it (`Sound.journey`). So every attached node has an execution (`explain_eq`).
-/

namespace GoalCoverage

namespace Observer

variable {observers : List Observer} {sets sets' : List IdSet} {trace : List EdgeId} {e : EdgeId}

theorem follow_starts : Follow observers (starts observers) [] := by
  rw [Follow, starts, List.forall₂_map_right_iff, List.forall₂_same]
  intro o _ q mem
  exact (IdSet.mem_singleton.1 mem).symm

theorem Follow.step (follow : Follow observers sets trace)
    (moves : Pointwise (fun o S T => ∀ q' ∈ T, ∃ q ∈ S, q' ∈ o.follow q e) observers sets sets') :
    Follow observers sets' (trace ++ [e]) := by
  induction moves with
  | nil => exact .nil
  | cons step _ ih =>
    cases follow with
    | cons runs follow =>
      refine .cons (fun q' mem => ?_) (ih follow)
      obtain ⟨q, here, move⟩ := step q' mem
      exact leads_concat.2 ⟨q, runs q here, move⟩

end Observer

namespace Explorer

open Diagram StateGraph

variable {x : Explorer} {d : Diagram} {g : StateGraph State} {root n m : NodeId} {v w : GraphNode State}
  {nodes : List NodeId} {edges : List EdgeId} {c : Configuration}

/-- What a branch to a node in a state says of the program. -/
structure Journey (x : Explorer) (d : Diagram) (edges : List EdgeId) (s : State) : Prop where
  walk : ∃ start, x.program.entry = .ok start ∧ x.program.Walk start edges s.location
  follow : Observer.Follow x.observers s.observers edges
  passes : ∀ c, d.Within s.presence c → ∀ e ∈ edges, x.Passes d c e

theorem Sound.journey (sound : x.Sound d g root) (branch : g.Branch root nodes edges n)
    (here : g.node? n = some v) : x.Journey d edges v.state := by
  induction branch generalizing v with
  | root =>
    obtain ⟨entry, observers, _⟩ := sound.start v here
    refine ⟨⟨_, entry, .stay⟩, ?_, by simp⟩
    rw [observers]
    exact Observer.follow_starts
  | @step nodes edges p n e branch link ih =>
    obtain ⟨w, known, child⟩ := link
    obtain ⟨walk, follow, passes⟩ := ih known
    obtain ⟨start, entry, walk⟩ := walk
    have follows := sound.follows p w n e v known child here
    obtain ⟨edge, there, source, target⟩ := follows.edge
    refine ⟨⟨start, entry, ?_⟩, follow.step follows.observers, fun c within f mem => ?_⟩
    · rw [← target]
      exact walk.step there source
    · obtain ⟨before, pass⟩ := follows.presence c within
      cases List.mem_append.1 mem with
      | inl old => exact passes c before f old
      | inr new =>
        rw [List.mem_singleton.1 new]
        exact pass

/-- The region of a state lies in those of the states before it. -/
theorem Sound.within_of_branch (sound : x.Sound d g root) (branch : g.Branch root nodes edges n)
    (here : g.node? n = some v) (within : d.Within v.state.presence c) (mem : m ∈ nodes)
    (there : g.node? m = some w) : d.Within w.state.presence c := by
  induction branch generalizing v with
  | root =>
    rw [List.mem_singleton.1 mem, here] at there
    cases there
    exact within
  | @step nodes edges p n e branch link ih =>
    obtain ⟨u, known, child⟩ := link
    have before := ((sound.follows p u n e v known child here).presence c within).1
    cases List.mem_append.1 mem with
    | inl old => exact ih known before old
    | inr new =>
      rw [List.mem_singleton.1 new, here] at there
      cases there
      exact within

theorem valuesAlong_ok {p : Program} (known : ∀ e ∈ edges, ∃ edge, p.edges[e]? = some edge) (seq : Nat)
    (model : Model) : ∃ model', valuesAlong p seq model edges = .ok model' := by
  induction edges generalizing seq model with
  | nil => exact ⟨model, rfl⟩
  | cons e rest ih =>
    have ih := ih fun e mem => known e (List.mem_cons_of_mem _ mem)
    obtain ⟨edge, there⟩ := known e (List.mem_cons_self ..)
    have found : p.edge e = .ok edge := by rw [Program.edge, there]
    simp only [valuesAlong, found, bind, Except.bind]
    split
    · exact ih _ _
    · exact ih _ _

theorem explain_eq (sound : x.Sound d g root) (attached : g.Attached n) :
    ∃ route model, g.routeTo n = .ok route ∧ g.Branch root route.nodes route.edges n ∧
      x.explain g n = .ok { target := n, route, model, spurious := false } := by
  obtain ⟨route, found, branch⟩ := routeTo_spec sound.tree attached
  obtain ⟨v, here, _⟩ := attached
  obtain ⟨start, _, walk⟩ := (sound.journey branch here).walk
  obtain ⟨model, values⟩ := valuesAlong_ok (fun e mem => walk.known mem) 0 .empty
  refine ⟨route, model, found, branch, ?_⟩
  simp only [explain, found, values, bind, Except.bind, pure, Except.pure]

end Explorer

end GoalCoverage
