import GoalCoverage.Proofs.Diagram.Choice

/-!
Computations on regions. `Yields tracks m d Q` says that `m`, started in `d`, only adds to the diagram and
yields a value for which `Q` holds. The diagram has to be well formed only if configurations are tracked;
otherwise no computation looks at it.
-/

namespace GoalCoverage.Diagram

variable {α β : Type} {tracks : Bool} {d d' : Diagram} {f g r : Region} {c : Configuration}

/-- The diagram is fit for use. -/
def Ready (tracks : Bool) (d : Diagram) : Prop := tracks = true → d.WellFormed

def Yields (tracks : Bool) (m : StateM Diagram α) (d : Diagram) (Q : α → Diagram → Prop) : Prop :=
  d.Extends (m d).2 ∧ (m d).2.Ready tracks ∧ Q (m d).1 (m d).2

section Rules

variable {m : StateM Diagram α} {k : α → StateM Diagram β} {P : α → Diagram → Prop}
  {Q : β → Diagram → Prop}

theorem yields_pure {a : α} (ready : d.Ready tracks) (holds : P a d) : Yields tracks (pure a) d P :=
  ⟨.refl d, ready, holds⟩

theorem Yields.mono {Q : α → Diagram → Prop} (h : Yields tracks m d P)
    (imp : ∀ a d', d.Extends d' → d'.Ready tracks → P a d' → Q a d') : Yields tracks m d Q :=
  ⟨h.1, h.2.1, imp _ _ h.1 h.2.1 h.2.2⟩

theorem Yields.bind (h : Yields tracks m d P)
    (next : ∀ a d', d.Extends d' → d'.Ready tracks → P a d' → Yields tracks (k a) d' Q) :
    Yields tracks (m >>= k) d Q := by
  obtain ⟨ext, ready, holds⟩ := h
  obtain ⟨ext', ready', holds'⟩ := next _ _ ext ready holds
  exact ⟨ext.trans ext', ready', holds'⟩

theorem Yields.mapM {f : α → StateM Diagram β} {g : α → β} {l : List α} (ready : d.Ready tracks)
    (step : ∀ x ∈ l, ∀ d', d.Extends d' → d'.Ready tracks → Yields tracks (f x) d' fun y _ => y = g x) :
    Yields tracks (l.mapM f) d fun out _ => out = l.map g := by
  induction l generalizing d with
  | nil => exact yields_pure ready rfl
  | cons x rest ih =>
    rw [List.mapM_cons]
    apply (step x (by simp) d (.refl d) ready).bind
    intro y d1 ext ready1 eq
    apply (ih ready1 fun x hx d2 ext' => step x (by simp [hx]) d2 (ext.trans ext')).bind
    intro out d2 _ ready2 eq'
    exact yields_pure ready2 (by simp [eq, eq'])

/-- A test on each member of a list whose answers do not depend on the diagram. -/
theorem Yields.filterMapM {f : α → StateM Diagram (Option β)} {g : α → Option β} {l : List α}
    (ready : d.Ready tracks)
    (step : ∀ x ∈ l, ∀ d', d.Extends d' → d'.Ready tracks → Yields tracks (f x) d' fun y _ => y = g x) :
    Yields tracks (l.filterMapM f) d fun out _ => out = l.filterMap g := by
  induction l generalizing d with
  | nil => exact yields_pure ready rfl
  | cons x rest ih =>
    rw [List.filterMapM_cons]
    apply (step x (by simp) d (.refl d) ready).bind
    intro y d1 ext ready1 eq
    have more := ih ready1 fun x hx d2 ext' => step x (by simp [hx]) d2 (ext.trans ext')
    cases y with
    | none => simpa [List.filterMap_cons, ← eq] using more
    | some y =>
      apply more.bind
      intro out d2 _ ready2 eq'
      exact yields_pure ready2 (by simp [← eq, eq'])

/-- The oldest member with a property that does not depend on the diagram, if there is one. -/
theorem Yields.findM? {p : Nat → StateM Diagram Bool} {S : Nat → Prop} {l : List Nat}
    (ready : d.Ready tracks)
    (step : ∀ x ∈ l, ∀ d', d.Extends d' → d'.Ready tracks →
      Yields tracks (p x) d' fun b _ => b = true ↔ S x) :
    Yields tracks (l.findM? p) d fun out _ =>
      (∀ x, out = some x → x ∈ l ∧ S x) ∧ (out = none → ∀ x ∈ l, ¬S x) := by
  induction l generalizing d with
  | nil => exact yields_pure ready ⟨fun x h => (nomatch h), fun _ x mem => (nomatch mem)⟩
  | cons x rest ih =>
    apply (step x (by simp) d (.refl d) ready).bind
    intro b d1 ext ready1 holds
    cases b with
    | true =>
      refine yields_pure ready1 ⟨fun y h => ?_, fun h => (nomatch h)⟩
      cases h
      exact ⟨by simp, holds.1 rfl⟩
    | false =>
      have other : ¬S x := fun h => Bool.false_ne_true (holds.2 h)
      apply (ih ready1 fun x hx d2 ext' => step x (by simp [hx]) d2 (ext.trans ext')).mono
      intro out d2 _ _ spec
      obtain ⟨found, missed⟩ := spec
      refine ⟨fun y h => ⟨by simp [(found y h).1], (found y h).2⟩, fun h y mem => ?_⟩
      cases mem with
      | head => exact other
      | tail _ later => exact missed h y later

theorem Yields.anyM {p : Nat → StateM Diagram Bool} {S : Nat → Prop} {l : List Nat}
    (ready : d.Ready tracks)
    (step : ∀ x ∈ l, ∀ d', d.Extends d' → d'.Ready tracks →
      Yields tracks (p x) d' fun b _ => b = true ↔ S x) :
    Yields tracks (l.anyM p) d fun b _ => b = true ↔ ∃ x ∈ l, S x := by
  induction l generalizing d with
  | nil => exact yields_pure ready (by simp)
  | cons x rest ih =>
    apply (step x (by simp) d (.refl d) ready).bind
    intro b d1 ext ready1 holds
    cases b with
    | true => exact yields_pure ready1 ⟨fun _ => ⟨x, by simp, holds.1 rfl⟩, fun _ => rfl⟩
    | false =>
      have other : ¬S x := fun h => Bool.false_ne_true (holds.2 h)
      apply (ih ready1 fun x hx d2 ext' => step x (by simp [hx]) d2 (ext.trans ext')).mono
      intro b d2 _ _ found
      simp [found, other]

end Rules

theorem Chooses.yields {h : Region} {m : StateM Diagram Region}
    (chosen : Chooses d f g h (m d).1 (m d).2) :
    Yields true m d fun r d' => d'.Has r ∧
      ∀ c, d'.holds r c = if d.holds f c then d.holds g c else d.holds h c :=
  ⟨chosen.grows, fun _ => chosen.wellFormed, chosen.has, chosen.holds⟩

/-- An operation on regions, applied from the left, does what its counterpart does with truth values. -/
theorem foldlM_yields {m : Region → Region → StateM Diagram Region} {k : Bool → Bool → Bool} {l : List Region}
    {u : Region}
    (step : ∀ {d : Diagram} {f g : Region}, d.WellFormed → d.Has f → d.Has g →
      Yields true (m f g) d fun r d' => d'.Has r ∧ ∀ c, d'.holds r c = k (d.holds f c) (d.holds g c))
    (wf : d.WellFormed) (has : ∀ r ∈ l, d.Has r) (start : d.Has u) :
    Yields true (l.foldlM m u) d fun r d' => d'.Has r ∧
      ∀ c, d'.holds r c = (l.map fun f => d.holds f c).foldl k (d.holds u c) := by
  induction l generalizing d u with
  | nil => exact yields_pure (fun _ => wf) ⟨start, fun _ => rfl⟩
  | cons f rest ih =>
    rw [List.foldlM_cons]
    apply (step wf start (has f List.mem_cons_self)).bind
    intro v d1 ext ready spec
    have kept : ∀ g ∈ rest, d.Has g := fun g mem => has g (List.mem_cons_of_mem f mem)
    apply (ih (ready rfl) (fun g mem => ext.has (kept g mem)) spec.1).mono
    intro r d2 _ _ spec'
    refine ⟨spec'.1, fun c => ?_⟩
    have same : (rest.map fun g => d1.holds g c) = rest.map fun g => d.holds g c :=
      List.map_congr_left fun g mem => ext.holds_eq wf (kept g mem)
    rw [spec'.2 c, spec.2 c, same, List.map_cons, List.foldl_cons]

theorem foldl_and (l : List Bool) (b : Bool) : l.foldl and b = (b && l.all id) := by
  induction l generalizing b with
  | nil => simp
  | cons x rest ih => rw [List.foldl_cons, ih, List.all_cons, Bool.and_assoc, id]

theorem foldl_or (l : List Bool) (b : Bool) : l.foldl or b = (b || l.any id) := by
  induction l generalizing b with
  | nil => simp
  | cons x rest ih => rw [List.foldl_cons, ih, List.any_cons, Bool.or_assoc, id]

section Operations

variable (wf : d.WellFormed)

include wf

theorem meet_yields (hf : d.Has f) (hg : d.Has g) :
    Yields true (meet f g) d fun r d' => d'.Has r ∧ ∀ c, d'.holds r c = (d.holds f c && d.holds g c) := by
  apply ((choose_chooses wf hf hg wf.has_empty).yields).mono
  intro r d' _ _ spec
  refine ⟨spec.1, fun c => ?_⟩
  rw [spec.2 c, holds_empty]
  cases d.holds f c <;> rfl

theorem join_yields (hf : d.Has f) (hg : d.Has g) :
    Yields true (join f g) d fun r d' => d'.Has r ∧ ∀ c, d'.holds r c = (d.holds f c || d.holds g c) := by
  apply ((choose_chooses wf hf wf.has_all hg).yields).mono
  intro r d' _ _ spec
  refine ⟨spec.1, fun c => ?_⟩
  rw [spec.2 c, holds_all]
  cases d.holds f c <;> rfl

theorem complement_yields (hf : d.Has f) :
    Yields true (complement f) d fun r d' => d'.Has r ∧ ∀ c, d'.holds r c = !d.holds f c := by
  apply ((choose_chooses wf hf wf.has_empty wf.has_all).yields).mono
  intro r d' _ _ spec
  refine ⟨spec.1, fun c => ?_⟩
  rw [spec.2 c, holds_all, holds_empty]
  cases d.holds f c <;> rfl

theorem without_yields (hf : d.Has f) (hg : d.Has g) :
    Yields true (without f g) d fun r d' => d'.Has r ∧ ∀ c, d'.holds r c = (d.holds f c && !d.holds g c) := by
  apply (complement_yields wf hg).bind
  intro rest d1 ext ready spec
  apply (meet_yields (ready rfl) (ext.has hf) spec.1).mono
  intro r d2 _ _ spec'
  refine ⟨spec'.1, fun c => ?_⟩
  rw [spec'.2 c, spec.2 c, ext.holds_eq wf hf]

theorem disjoint_yields (hf : d.Has f) (hg : d.Has g) :
    Yields true (disjoint f g) d fun b _ => b = true ↔ ∀ c, ¬(d.holds f c = true ∧ d.holds g c = true) := by
  apply (meet_yields wf hf hg).bind
  intro r d1 _ ready spec
  apply yields_pure ready
  rw [(ready rfl).isEmpty_iff_holds spec.1]
  apply forall_congr'
  intro c
  rw [spec.2 c]
  simp

theorem implies_yields (hf : d.Has f) (hg : d.Has g) :
    Yields true (implies f g) d fun b _ => b = true ↔ ∀ c, d.holds f c = true → d.holds g c = true := by
  apply (without_yields wf hf hg).bind
  intro r d1 _ ready spec
  apply yields_pure ready
  rw [(ready rfl).isEmpty_iff_holds spec.1]
  apply forall_congr'
  intro c
  rw [spec.2 c]
  simp

theorem meetAll_yields {l : List Region} (has : ∀ r ∈ l, d.Has r) :
    Yields true (meetAll l) d fun r d' => d'.Has r ∧ ∀ c, d'.holds r c = l.all fun f => d.holds f c := by
  apply (foldlM_yields (k := and) meet_yields wf has wf.has_all).mono
  intro r d' _ _ spec
  refine ⟨spec.1, fun c => ?_⟩
  rw [spec.2 c, holds_all, foldl_and, Bool.true_and, List.all_map]
  rfl

theorem joinAll_yields {l : List Region} (has : ∀ r ∈ l, d.Has r) :
    Yields true (joinAll l) d fun r d' => d'.Has r ∧
      ∀ c, d'.holds r c = true ↔ ∃ f ∈ l, d.holds f c = true := by
  apply (foldlM_yields (k := or) join_yields wf has wf.has_empty).mono
  intro r d' _ _ spec
  refine ⟨spec.1, fun c => ?_⟩
  rw [spec.2 c, holds_empty, foldl_or, Bool.false_or, List.any_map, List.any_eq_true]
  rfl

end Operations

end GoalCoverage.Diagram
