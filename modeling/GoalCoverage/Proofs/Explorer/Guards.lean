import GoalCoverage.Proofs.Explorer.Successors

/-!
Successors under guards. A plain observer makes a move only for the configurations that lie in the regions of
its guards, and the successor has no other ones (`Guided`); an observer in sets of states makes every move
that is possible at all.
-/

namespace GoalCoverage

namespace Diagram

variable {α β γ : Type} {tracks : Bool} {d d' : Diagram} {c : Configuration} {guards : List Guard}

/-- A configuration lies in the regions of all guards. -/
def Meets (d : Diagram) (guards : List Guard) (c : Configuration) : Prop :=
  ∀ r, Guard.presence r ∈ guards → d.holds r c = true

/-- The regions of all guards belong to the diagram. -/
def HasAll (d : Diagram) (guards : List Guard) : Prop := ∀ r, Guard.presence r ∈ guards → d.Has r

theorem HasAll.extends (has : d.HasAll guards) (ext : d.Extends d') : d'.HasAll guards :=
  fun r mem => ext.has (has r mem)

theorem HasAll.meets_iff (has : d.HasAll guards) (wf : d.WellFormed) (ext : d.Extends d') :
    d'.Meets guards c ↔ d.Meets guards c := by
  apply forall_congr'
  intro r
  apply imp_congr_right
  intro mem
  rw [ext.holds_eq wf (has r mem)]

theorem meets_cons {g : Guard} : d.Meets (g :: guards) c ↔ d.Meets [g] c ∧ d.Meets guards c := by
  simp [Meets, or_imp, forall_and]

/-- What holds of every result, and stays true while more is added to the diagram. -/
theorem Yields.filterMapM_all {f : α → StateM Diagram (Option β)} {P : β → Diagram → Prop} {l : List α}
    (ready : d.Ready tracks)
    (stays : ∀ y d₁ d₂, d.Extends d₁ → d₁.Ready tracks → d₁.Extends d₂ → P y d₁ → P y d₂)
    (step : ∀ x ∈ l, ∀ d', d.Extends d' → d'.Ready tracks →
      Yields tracks (f x) d' fun o d'' => ∀ y, o = some y → P y d'') :
    Yields tracks (l.filterMapM f) d fun out d' => ∀ y ∈ out, P y d' := by
  induction l generalizing d with
  | nil => exact yields_pure ready (by simp)
  | cons x rest ih =>
    rw [List.filterMapM_cons]
    apply (step x (by simp) d (.refl d) ready).bind
    intro o d₁ ext ready₁ first
    have more := ih ready₁ (fun y d₂ d₃ ext₂ => stays y d₂ d₃ (ext.trans ext₂))
      fun x mem d₂ ext₂ => step x (by simp [mem]) d₂ (ext.trans ext₂)
    cases o with
    | none => exact more
    | some y =>
      apply more.bind
      intro out d₂ ext₂ ready₂ later
      refine yields_pure ready₂ fun z mem => ?_
      cases List.mem_cons.1 mem with
      | inl same =>
        rw [same]
        exact stays y d₁ d₂ ext ready₁ ext₂ (first y rfl)
      | inr mem => exact later z mem

theorem Yields.flatMapM_all {f : α → StateM Diagram (List β)} {P : β → Diagram → Prop} {l : List α}
    (ready : d.Ready tracks)
    (stays : ∀ y d₁ d₂, d.Extends d₁ → d₁.Ready tracks → d₁.Extends d₂ → P y d₁ → P y d₂)
    (step : ∀ x ∈ l, ∀ d', d.Extends d' → d'.Ready tracks →
      Yields tracks (f x) d' fun ys d'' => ∀ y ∈ ys, P y d'') :
    Yields tracks (l.flatMapM f) d fun out d' => ∀ y ∈ out, P y d' := by
  induction l generalizing d with
  | nil => exact yields_pure ready (by simp)
  | cons x rest ih =>
    rw [List.flatMapM_cons]
    apply (step x (by simp) d (.refl d) ready).bind
    intro ys d₁ ext ready₁ first
    apply (ih ready₁ (fun y d₂ d₃ ext₂ => stays y d₂ d₃ (ext.trans ext₂))
      fun x mem d₂ ext₂ => step x (by simp [mem]) d₂ (ext.trans ext₂)).bind
    intro out d₂ ext₂ ready₂ later
    refine yields_pure ready₂ fun z mem => ?_
    cases List.mem_append.1 mem with
    | inl mem => exact stays z d₁ d₂ ext ready₁ ext₂ (first z mem)
    | inr mem => exact later z mem

/-- The invariant `I` is about the part of the list that is done, the value that is carried, and the diagram. -/
theorem Yields.foldlM {f : γ → α → StateM Diagram γ} {I : List α → γ → Diagram → Prop} {l : List α} {a : γ}
    (ready : d.Ready tracks)
    (step : ∀ done x rest a d', l = done ++ x :: rest → d.Extends d' → d'.Ready tracks → I done a d' →
      Yields tracks (f a x) d' (I (done ++ [x])))
    (start : I [] a d) : Yields tracks (l.foldlM f a) d (I l) := by
  suffices ∀ (rest done : List α) (a : γ) (d₁ : Diagram), l = done ++ rest → d.Extends d₁ → d₁.Ready tracks →
      I done a d₁ → Yields tracks (rest.foldlM f a) d₁ (I (done ++ rest)) by
    simpa using this l [] a d rfl (.refl d) ready start
  intro rest
  induction rest with
  | nil =>
    intro done a d₁ _ _ ready₁ holds
    exact yields_pure ready₁ (by simpa using holds)
  | cons x rest ih =>
    intro done a d₁ whole ext ready₁ holds
    rw [List.foldlM_cons]
    apply (step done x rest a d₁ whole ext ready₁ holds).bind
    intro b d₂ ext₂ ready₂ holds₂
    simpa using ih (done ++ [x]) b d₂ (by simp [whole]) (ext.trans ext₂) ready₂ holds₂

end Diagram

/-- The regions of all guards of an observer belong to the diagram. -/
def Observer.Over (o : Observer) (d : Diagram) : Prop := ∀ t ∈ o.automaton.transitions, d.HasAll t.label.guards

theorem Observer.Over.extends {o : Observer} {d d' : Diagram} (known : o.Over d) (ext : d.Extends d') : o.Over d' :=
  fun t mem => (known t mem).extends ext

theorem Observer.over_of_not_guarded {o : Observer} {d : Diagram} (free : o.automaton.isGuarded = false) : o.Over d := by
  intro t mem r guard
  have none : t.label.guards = [] := by
    simpa [Label.isGuarded] using Automaton.not_guarded_of_mem free mem
  rw [none] at guard
  cases guard

theorem Watches.over {components : List Component} {observers : List Observer} {o : Observer} {d : Diagram}
    (watches : Watches components observers)
    (known : ∀ c ∈ components, ∀ t ∈ c.automaton.transitions, d.HasAll t.label.guards) (mem : o ∈ observers) : o.Over d := by
  apply watches.label (P := fun l => d.HasAll l.guards) (fun r mem => absurd mem List.not_mem_nil) _ known mem
  intro a b l first second both r guard
  exact (Label.mem_guards_inter both guard).elim (first r) (second r)

theorem Observer.Over.hasAll {o : Observer} {d : Diagram} {q : StateId} {e : EdgeId} {m : StateId × List Guard}
    (known : o.Over d) (mem : m ∈ o.moves q e) : d.HasAll m.2 := by
  rw [Observer.moves] at mem
  split at mem
  · rw [List.mem_singleton.1 mem]
    exact fun r mem => absurd mem List.not_mem_nil
  · obtain ⟨t, here, rfl⟩ := List.mem_map.1 mem
    exact known t (List.mem_filter.1 (List.mem_filter.1 here).1).1

namespace Explorer

open Diagram

variable {x : Explorer} {d d' : Diagram} {s t : State} {e : EdgeId} {edge : Edge} {c : Configuration}
  {presence : Option Region} {S U : IdSet} {disabled : IdSet} {o : Observer} {guards : List Guard}

/-- A region that is left after guards has only configurations that meet them. -/
theorem discharge_yields (ready : d.Ready x.tracks) (tracked : x.Tracked d presence)
    (known : x.tracks = true → d.HasAll guards) (possible : presence.any (·.isEmpty) = false) :
    Yields x.tracks (x.discharge presence guards) d fun out d' => ∀ narrowed, out = some narrowed →
      x.Tracked d' narrowed ∧ narrowed.any (·.isEmpty) = false ∧
        ∀ c, d'.Within narrowed c → d.Within presence c ∧ (x.tracks = true → d.Meets guards c) := by
  induction guards generalizing d presence with
  | nil =>
    refine yields_pure ready fun narrowed same => ?_
    cases same
    exact ⟨tracked, possible, fun c within => ⟨within, fun _ r mem => absurd mem List.not_mem_nil⟩⟩
  | cons guard guards ih =>
    have rest : x.tracks = true → d.HasAll guards := fun tracks r mem => known tracks r (List.mem_cons_of_mem _ mem)
    cases guard with
    | predicate _ =>
      apply (ih ready tracked rest possible).mono
      intro out d' _ _ spec narrowed same
      obtain ⟨tracked', possible', within⟩ := spec narrowed same
      refine ⟨tracked', possible', fun c here => ⟨(within c here).1, fun tracks => meets_cons.2 ⟨?_, (within c here).2 tracks⟩⟩⟩
      intro r mem
      cases List.mem_singleton.1 mem
    | presence r =>
      rw [discharge]
      apply (conjoin_yields ready tracked fun tracks => known tracks r List.mem_cons_self).bind
      intro narrowed d₁ ext ready₁ spec
      split
      next =>
        refine yields_pure ready₁ fun narrowed same => ?_
        cases same
      next inhabited =>
        rw [Bool.not_eq_true] at inhabited
        apply (ih ready₁ spec.1 (fun tracks => (rest tracks).extends ext) inhabited).mono
        intro out d₂ _ _ spec' last same
        obtain ⟨tracked', possible', within⟩ := spec' last same
        refine ⟨tracked', possible', fun c here => ?_⟩
        obtain ⟨before, holds⟩ := (spec.2 c).1 (within c here).1
        refine ⟨before, fun tracks => meets_cons.2 ⟨fun r' mem => ?_, ?_⟩⟩
        · cases List.mem_singleton.1 mem
          exact holds tracks
        · exact ((rest tracks).meets_iff (ready tracks) ext).1 ((within c here).2 tracks)

/-- Every state of `U` is reached from one of `S`, by a plain observer only where its guards hold. -/
def Led (x : Explorer) (d : Diagram) (presence : Option Region) (o : Observer) (e : EdgeId) (S U : IdSet) : Prop :=
  ∀ q' ∈ U, ∃ q ∈ S, ∃ guards, (q', guards) ∈ o.moves q e ∧
    (o.isPowerset = false → x.tracks = true → ∀ c, d.Within presence c → d.Meets guards c)

/-- A region that is left of another one. -/
structure Left (x : Explorer) (d : Diagram) (presence : Option Region) (d' : Diagram) (left : Option Region) : Prop where
  tracked : x.Tracked d' left
  possible : left.any (·.isEmpty) = false
  within : ∀ c, d'.Within left c → d.Within presence c

theorem Left.trans {left last : Option Region} {d₂ : Diagram} (first : x.Left d presence d' left)
    (second : x.Left d' left d₂ last) : x.Left d presence d₂ last where
  tracked := second.tracked
  possible := second.possible
  within c here := first.within c (second.within c here)

theorem Led.narrow {left : Option Region} (led : x.Led d presence o e S U) (known : x.tracks = true → o.Over d)
    (ready : d.Ready x.tracks) (ext : d.Extends d') (narrower : ∀ c, d'.Within left c → d.Within presence c) :
    x.Led d' left o e S U := by
  intro q' mem
  obtain ⟨q, here, guards, move, meets⟩ := led q' mem
  refine ⟨q, here, guards, move, fun plain tracks c within => ?_⟩
  have has := (known tracks).hasAll move
  exact (has.meets_iff (ready tracks) ext).2 (meets plain tracks c (narrower c within))

/-- The moves of an observer extend what is known of a successor by a set of states. -/
theorem advance_yields {partials : List Partial} {P : Partial → Diagram → Prop} (ready : d.Ready x.tracks)
    (known : x.tracks = true → o.Over d)
    (usable : ∀ p ∈ partials, x.Tracked d p.2 ∧ p.2.any (·.isEmpty) = false)
    (stays : ∀ p d₁ d₂, d.Extends d₁ → d₁.Ready x.tracks → d₁.Extends d₂ → P p d₁ → P p d₂)
    (extended : ∀ p ∈ partials, ∀ d' left U, d.Extends d' → x.Left d p.2 d' left → x.Led d' left o e S U →
      P (p.1 ++ [U], left) d') :
    Yields x.tracks (x.advance o S e partials) d fun out d' => ∀ p ∈ out, P p d' := by
  rw [advance]
  refine Yields.flatMapM_all ready stays fun p mem d₁ ext ready₁ => ?_
  obtain ⟨tracked, possible⟩ := usable p mem
  have origin : ∀ m ∈ S.toList.flatMap (o.moves · e), ∃ q ∈ S, m ∈ o.moves q e := by
    intro m mem
    obtain ⟨q, here, move⟩ := List.mem_flatMap.1 mem
    exact ⟨q, IdSet.mem_toList.1 here, move⟩
  have discharged : ∀ m ∈ S.toList.flatMap (o.moves · e), ∀ d', d₁.Extends d' → d'.Ready x.tracks →
      Yields x.tracks (x.discharge p.2 m.2) d' fun out d'' => ∀ narrowed, out = some narrowed →
        x.Tracked d'' narrowed ∧ narrowed.any (·.isEmpty) = false ∧
          ∀ c, d''.Within narrowed c → d'.Within p.2 c ∧ (x.tracks = true → d'.Meets m.2 c) := by
    intro m mem d' ext' ready'
    obtain ⟨q, _, move⟩ := origin m mem
    have later := ext.trans ext'
    exact discharge_yields ready' (tracked.extends later)
      (fun tracks => ((known tracks).hasAll move).extends later) possible
  obtain ⟨sets, presence⟩ := p
  dsimp only
  split
  next powerset =>
    have found : Yields x.tracks ((S.toList.flatMap (o.moves · e)).filterMapM fun m => do
        return (← x.discharge presence m.2).map fun _ => m.1) d₁ fun out _ => ∀ q' ∈ out, ∃ q ∈ S, ∃ guards,
          (q', guards) ∈ o.moves q e := by
      refine Yields.filterMapM_all ready₁ (fun _ _ _ _ _ _ h => h) fun m mem d' ext' ready' => ?_
      apply (discharged m mem d' ext' ready').bind
      intro out d₂ _ ready₂ _
      refine yields_pure ready₂ fun q' same => ?_
      obtain ⟨q, here, move⟩ := origin m mem
      obtain ⟨_, _, rfl⟩ := Option.map_eq_some_iff.1 same
      exact ⟨q, here, m.2, move⟩
    apply found.bind
    intro targets d₂ ext₂ ready₂ spec
    refine yields_pure ready₂ fun p' mem' => ?_
    split at mem'
    · cases mem'
    · rw [List.mem_singleton.1 mem']
      have later := ext.trans ext₂
      refine extended _ mem d₂ presence _ later ⟨tracked.extends later, possible, fun c here => ?_⟩ fun q' here => ?_
      · exact (tracked.within_iff ready later).1 here
      · obtain ⟨q, there, guards, move⟩ := spec q' (IdSet.mem_ofList.1 here)
        refine ⟨q, there, guards, move, fun plain => ?_⟩
        rw [powerset] at plain
        cases plain
  next =>
    refine Yields.filterMapM_all ready₁ (fun y d₂ d₃ ext₂ => stays y d₂ d₃ (ext.trans ext₂)) fun m mem' d' ext' ready' => ?_
    apply (discharged m mem' d' ext' ready').bind
    intro out d₂ ext₂ ready₂ spec
    refine yields_pure ready₂ fun p' same => ?_
    obtain ⟨narrowed, rfl, rfl⟩ := Option.map_eq_some_iff.1 same
    obtain ⟨tracked', possible', within⟩ := spec narrowed rfl
    have before := ext.trans ext'
    refine extended _ mem d₂ narrowed _ (before.trans ext₂) ⟨tracked', possible', fun c here => ?_⟩ fun q' here => ?_
    · exact (tracked.within_iff ready before).1 (within c here).1
    · obtain ⟨q, there, move⟩ := origin m mem'
      rw [IdSet.mem_singleton.1 here]
      refine ⟨q, there, m.2, move, fun _ tracks c within' => ?_⟩
      have has := ((known tracks).hasAll move).extends before
      exact (has.meets_iff (ready' tracks) ext₂).2 ((within c within').2 tracks)

/-- What is known of a successor after some of the observers, each with the states before the edge. -/
structure Advanced (x : Explorer) (d : Diagram) (presence : Option Region) (e : EdgeId)
    (done : List (Observer × IdSet)) (p : Partial) (d' : Diagram) : Prop where
  left : x.Left d presence d' p.2
  led : List.Forall₂ (fun o U => x.Led d' p.2 o.1 e o.2 U) done p.1

theorem Advanced.narrow {d₂ : Diagram} {left : Option Region} {done : List (Observer × IdSet)} {p : Partial}
    (advanced : x.Advanced d presence e done p d') (known : x.tracks = true → ∀ o ∈ done, o.1.Over d')
    (ready : d'.Ready x.tracks) (ext : d'.Extends d₂) (is : x.Left d' p.2 d₂ left) :
    x.Advanced d presence e done (p.1, left) d₂ where
  left := advanced.left.trans is
  led := by
    have both := List.forall₂_iff_zip.1 advanced.led
    refine List.forall₂_iff_zip.2 ⟨both.1, fun {o U} mem => ?_⟩
    exact (both.2 mem).narrow (fun tracks => known tracks o (List.of_mem_zip mem).1) ready ext is.within

/-- The moves of all observers together. -/
theorem advance_all_yields (ready : d.Ready x.tracks) (tracked : x.Tracked d presence)
    (possible : presence.any (·.isEmpty) = false) (pairs : List (Observer × IdSet))
    (known : x.tracks = true → ∀ o ∈ pairs, o.1.Over d) :
    Yields x.tracks (pairs.foldlM (fun partials (o, states) => x.advance o states e partials) [([], presence)]) d
      fun out d' => ∀ p ∈ out, x.Advanced d presence e pairs p d' := by
  apply Yields.foldlM (I := fun done out d' => ∀ p ∈ out, x.Advanced d presence e done p d') ready
  · intro done pair rest partials d₁ whole ext ready₁ holds
    have known₁ : x.tracks = true → ∀ o ∈ pairs, o.1.Over d₁ := fun tracks o mem => (known tracks o mem).extends ext
    have here : pair ∈ pairs := by simp [whole]
    have before : x.tracks = true → ∀ o ∈ done, o.1.Over d₁ := fun tracks o mem => known₁ tracks o (by simp [whole, mem])
    have now : ∀ o ∈ done ++ [pair], o ∈ pairs := by
      intro o mem
      rw [whole, List.append_cons]
      exact List.mem_append_left rest mem
    refine advance_yields ready₁ (fun tracks => known₁ tracks pair here) (fun p mem => ?_) ?_ ?_
    · exact ⟨(holds p mem).left.tracked, (holds p mem).left.possible⟩
    · intro p d₂ d₃ ext₂ ready₂ ext₃ advanced
      have later : x.tracks = true → ∀ o ∈ done ++ [pair], o.1.Over d₂ := fun tracks o mem =>
        (known₁ tracks o (now o mem)).extends ext₂
      have is := advanced.left.tracked
      exact advanced.narrow later ready₂ ext₃ ⟨is.extends ext₃, advanced.left.possible, fun c => (is.within_iff ready₂ ext₃).1⟩
    · intro p mem d₂ left U ext₂ is led
      have advanced := (holds p mem).narrow before ready₁ ext₂ is
      exact ⟨advanced.left, List.rel_append advanced.led (.cons led .nil)⟩
  · intro p mem
    rw [List.mem_singleton.1 mem]
    exact ⟨⟨tracked, possible, fun c h => h⟩, .nil⟩

/-- Every observer comes to its states by moves that the guards allow. -/
def Guided (x : Explorer) (d : Diagram) (s : State) (e : EdgeId) (t : State) : Prop :=
  Pointwise (fun o S U => x.Led d t.presence o e S U) x.observers s.observers t.observers

theorem Guided.extends (guided : x.Guided d s e t) (known : x.tracks = true → ∀ o ∈ x.observers, o.Over d)
    (ready : d.Ready x.tracks) (ext : d.Extends d') (tracked : x.Tracked d t.presence) : x.Guided d' s e t := by
  have length := guided.length_left
  rw [Guided, Pointwise.iff_zip length, List.forall₂_iff_zip] at guided ⊢
  refine ⟨guided.1, fun {p U} mem => ?_⟩
  have here := List.of_mem_zip (List.of_mem_zip mem).1
  exact (guided.2 mem).narrow (fun tracks => known tracks p.1 here.1) ready ext fun c =>
    (tracked.within_iff ready ext).1

theorem successors_guided (fit : x.Fit d) (known : x.tracks = true → ∀ o ∈ x.observers, o.Over d)
    (proper : x.Proper d s) (there : x.program.edges[e]? = some edge) (leaving : edge.source = s.location) :
    Yields x.tracks (x.successors s e edge disabled) d fun found d' =>
      ∀ t ∈ found, x.Succeeds d' disabled s e t ∧ x.Guided d' s e t := by
  apply (crossing_yields fit proper.presence there).bind
  intro presence d₁ ext ready spec
  have fit₁ := fit.extends ext ready
  have known₁ : x.tracks = true → ∀ o ∈ x.observers, o.Over d₁ := fun tracks o mem => (known tracks o mem).extends ext
  split
  next => exact yields_pure ready (by simp)
  next inhabited =>
    rw [Bool.not_eq_true] at inhabited
    apply (advance_all_yields ready spec.1 inhabited (x.observers.zip s.observers) fun tracks o mem =>
      known₁ tracks o.1 (List.of_mem_zip mem).1).bind
    intro partials d₂ ext₂ ready₂ advanced
    have fit₂ := fit₁.extends ext₂ ready₂
    apply (credited_yields fit₂ edge.target fun p mem => (advanced p mem).left.tracked).bind
    intro found d₃ ext₃ ready₃ eq
    refine yields_pure ready₃ fun t mem => ?_
    rw [Distinct.mem_ofList, eq, List.mem_map] at mem
    obtain ⟨p, here, rfl⟩ := mem
    obtain ⟨left, led⟩ := advanced p here
    have guided : x.Guided d₂ s e
        { location := edge.target, observers := p.1, presence := p.2, accepted := x.credited d₂ p.1 p.2 disabled } :=
      (Pointwise.iff_zip proper.length).2 led
    have same : x.credited d₂ p.1 p.2 disabled = x.credited d₃ p.1 p.2 disabled :=
      (credited_extends fit₂ left.tracked ext₃).symm
    refine ⟨⟨⟨⟨edge, there, leaving, rfl⟩, ?_, fun c within => ?_, left.possible⟩, ?_, ?_, ?_⟩, ?_⟩
    · exact guided.mono fun o S U led q' mem' =>
        have ⟨q, here, guards, move, _⟩ := led q' mem'
        ⟨q, here, List.mem_map.2 ⟨_, move, rfl⟩⟩
    · have before := left.within c ((left.tracked.within_iff ready₂ ext₃).1 within)
      have whole := ext.trans (ext₂.trans ext₃)
      rw [proper.presence.within_iff fit.ready whole, fit.passes_iff whole, ← passes_iff_within there]
      exact ((spec.2 c).1 before).1
    · exact proper_credited guided.length_right (left.tracked.extends ext₃) same
    · exact credits_credited same
    · exact ripe_credited same
    · exact guided.extends (fun tracks o mem => (known₁ tracks o mem).extends ext₂) ready₂ ext₃ left.tracked

end Explorer

end GoalCoverage
