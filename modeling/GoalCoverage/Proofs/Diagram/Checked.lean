import GoalCoverage.Proofs.Diagram.Session

/-!
The operations of a diagram with their checks. A checked operation stops where a place outside the arena is read,
a decision without a level is stored, or a choice runs out of steps; otherwise it does what the operation does.
In a diagram that is well formed no check fails (`perform_passes`), so the total operations hide nothing.
-/

namespace GoalCoverage.Diagram

variable {α β : Type} {d d' : Diagram} {f g h r : Region} {level : Nat}

/-- Why a checked operation stops. -/
inductive Breach where
  | missing (region : Region)
  | levelZero
  | outOfSteps

abbrev Checked (α : Type) := StateT Diagram (Except Breach) α

namespace Checked

/-- Reads a place of the arena. -/
def decision (r : Region) : Checked Decision := do
  let d ← get
  match d.decisions[r.index]? with
  | some n => return n
  | none => throw (.missing r)

def levelAt (r : Region) : Checked Nat := do
  if r.isTerminal then return (← get).features.length + 1
  return (← decision r).level

def branches (r : Region) (level : Nat) : Checked (Region × Region) := do
  if (← levelAt r) = level then
    let n ← decision r
    return (n.low, n.high)
  return (r, r)

def store (level : Nat) (low high : Region) : Checked Region := do
  if level = 0 then throw .levelZero
  modifyGet (Diagram.store level low high)

def chooseWithin : Nat → Region → Region → Region → Checked Region
  | 0, _, _, _ => throw .outOfSteps
  | left + 1, f, g, h => do
    if f.isAll then return g
    if f.isEmpty then return h
    if g = h then return g
    if g.isAll && h.isEmpty then return f
    match (← get).computed[(f.index, g.index, h.index)]? with
    | some r => return r
    | none =>
      let level := min (← levelAt f) (min (← levelAt g) (← levelAt h))
      let (f0, f1) ← branches f level
      let (g0, g1) ← branches g level
      let (h0, h1) ← branches h level
      let high ← chooseWithin left f1 g1 h1
      let low ← chooseWithin left f0 g0 h0
      let r ← store level low high
      modify fun d => { d with computed := d.computed.insert (f.index, g.index, h.index) r }
      return r

def choose (f g h : Region) : Checked Region := do
  chooseWithin ((← get).features.length + 1) f g h

def complement (f : Region) : Checked Region := choose f .empty .all

def meet (f g : Region) : Checked Region := choose f g .empty

def join (f g : Region) : Checked Region := choose f .all g

def without (f g : Region) : Checked Region := do
  let rest ← complement g
  choose f rest .empty

def implies (f g : Region) : Checked Bool := do
  let rest ← without f g
  return rest.isEmpty

def declare (name : String) : Checked Region := do
  match (← get).levelOf? name with
  | some level => store level .empty .all
  | none =>
    modify (·.widened name)
    store (← get).features.length .empty .all

def feature? (name : String) : Checked (Option Region) := do
  match (← get).levelOf? name with
  | some level => some <$> store level .empty .all
  | none => return none

/-- A request with all its checks. -/
def perform : Request Region → Checked (Option Region)
  | .declare name => some <$> declare name
  | .feature name => feature? name
  | .choose f g h => some <$> choose f g h
  | .complement f => some <$> complement f
  | .meet f g => some <$> meet f g
  | .join f g => some <$> join f g
  | .without f g => some <$> without f g
  | .meetAll fs => some <$> fs.foldlM meet .all
  | .joinAll fs => some <$> fs.foldlM join .empty

end Checked

/-- A checked operation passes all its checks, and does the same as the operation. -/
def Passes (checked : Checked α) (m : StateM Diagram α) (d : Diagram) : Prop := checked d = .ok (m d)

section Rules

variable {checked : Checked α} {m : StateM Diagram α} {next' : α → Checked β} {next : α → StateM Diagram β} {a : α}

theorem bind_of_ok (ok : checked d = .ok (a, d')) : (checked >>= next') d = next' a d' := by
  change (checked d >>= fun p => next' p.1 p.2) = _
  rw [ok]
  rfl

theorem get_bind (next' : Diagram → Checked β) : (get >>= next') d = next' d d := rfl

theorem Passes.then (passes : Passes checked m d) : (checked >>= next') d = next' (m d).1 (m d).2 := bind_of_ok passes

theorem Passes.bind (first : Passes checked m d) (second : Passes (next' (m d).1) (next (m d).1) (m d).2) :
    Passes (checked >>= next') (m >>= next) d :=
  first.then.trans second

theorem Passes.map (passes : Passes checked m d) (k : α → β) : Passes (k <$> checked) (k <$> m) d := by
  change (checked d >>= fun p => .ok (k p.1, p.2)) = _
  rw [passes]
  rfl

end Rules

section Operations

theorem decision_passes (has : d.Has r) : Checked.decision r d = .ok (d.decision r, d) := by
  have bound : r.index < d.decisions.size := has
  have found : d.decisions[r.index]? = some (d.decision r) := by simp [Diagram.decision, bound]
  rw [Checked.decision, get_bind, found]
  rfl

theorem levelAt_passes (has : d.Has r) : Checked.levelAt r d = .ok (d.level r, d) := by
  rw [Checked.levelAt, level]
  split
  next => rfl
  next =>
    rw [bind_of_ok (decision_passes has)]
    rfl

theorem branches_passes (level : Nat) (has : d.Has r) : Checked.branches r level d = .ok (d.branches r level, d) := by
  rw [Checked.branches, bind_of_ok (levelAt_passes has), branches]
  split
  next =>
    rw [bind_of_ok (decision_passes has)]
    rfl
  next => rfl

theorem store_passes (positive : 1 ≤ level) : Passes (Checked.store level f g) (store level f g) d := by
  have nonzero : ¬level = 0 := Nat.one_le_iff_ne_zero.1 positive
  rw [Checked.store, if_neg nonzero]
  rfl

/-- With as many steps left as there are levels, no check fails. -/
theorem chooseWithin_passes (left : Nat) (wf : d.WellFormed) (hf : d.Has f) (hg : d.Has g) (hh : d.Has h)
    (enough : d.features.length + 1 < left + min (d.level f) (min (d.level g) (d.level h))) :
    Passes (Checked.chooseWithin left f g h) (chooseWithin left f g h) d := by
  induction left generalizing d f g h with
  | zero =>
    have := wf.level_le_terminal hf
    omega
  | succ left ih =>
    rw [Passes, Checked.chooseWithin, chooseWithin]
    split_ifs with all empty
    · rfl
    · rfl
    · rfl
    · rfl
    rw [get_bind]
    cases found : d.computed[(f.index, g.index, h.index)]? with
    | some r =>
      simp only [found]
      rfl
    | none =>
      have inner : 2 ≤ f.index := by
        rw [Region.isAll_iff] at all
        rw [Region.isEmpty_iff] at empty
        exact ((terminal_or_inner f).resolve_left empty).resolve_left all
      have deep : d.level f ≤ d.features.length := by
        rw [level_of_inner inner]
        exact wf.level_le f inner hf
      have positive : 1 ≤ min (d.level f) (min (d.level g) (d.level h)) := by
        have := wf.one_le_level hf
        have := wf.one_le_level hg
        have := wf.one_le_level hh
        omega
      simp only [found]
      rw [bind_of_ok (levelAt_passes hf), bind_of_ok (levelAt_passes hg), bind_of_ok (levelAt_passes hh)]
      generalize least : min (d.level f) (min (d.level g) (d.level h)) = level at enough positive ⊢
      rw [bind_of_ok (branches_passes level hf), bind_of_ok (branches_passes level hg), bind_of_ok (branches_passes level hh)]
      have splitF := branches_splits level wf hf (by omega) (by omega)
      have splitG := branches_splits level wf hg (by omega) (by omega)
      have splitH := branches_splits level wf hh (by omega) (by omega)
      generalize (d.branches f level).1 = f0, (d.branches f level).2 = f1 at *
      generalize (d.branches g level).1 = g0, (d.branches g level).2 = g1 at *
      generalize (d.branches h level).1 = h0, (d.branches h level).2 = h1 at *
      have enoughHigh := splitF.enough_high splitG splitH enough
      have highs := chooseWithin_chooses left wf splitF.has_high splitG.has_high splitH.has_high enoughHigh
      rw [(ih wf splitF.has_high splitG.has_high splitH.has_high enoughHigh).then]
      generalize chooseWithin left f1 g1 h1 d = out at highs ⊢
      obtain ⟨high, d1⟩ := out
      rw [(ih highs.wellFormed (highs.grows.has splitF.has_low) (highs.grows.has splitG.has_low)
        (highs.grows.has splitH.has_low) (highs.enough_low splitF splitG splitH enough)).then, (store_passes positive).then]
      rfl

theorem choose_passes (wf : d.WellFormed) (hf : d.Has f) (hg : d.Has g) (hh : d.Has h) :
    Passes (Checked.choose f g h) (choose f g h) d := by
  apply chooseWithin_passes _ wf hf hg hh
  have := wf.one_le_level hf
  have := wf.one_le_level hg
  have := wf.one_le_level hh
  omega

theorem meet_passes (wf : d.WellFormed) (hf : d.Has f) (hg : d.Has g) : Passes (Checked.meet f g) (meet f g) d :=
  choose_passes wf hf hg wf.has_empty

theorem join_passes (wf : d.WellFormed) (hf : d.Has f) (hg : d.Has g) : Passes (Checked.join f g) (join f g) d :=
  choose_passes wf hf wf.has_all hg

theorem complement_passes (wf : d.WellFormed) (hf : d.Has f) : Passes (Checked.complement f) (complement f) d :=
  choose_passes wf hf wf.has_empty wf.has_all

theorem without_passes (wf : d.WellFormed) (hf : d.Has f) (hg : d.Has g) :
    Passes (Checked.without f g) (without f g) d := by
  obtain ⟨grows, ready, has, _⟩ := complement_yields wf hg
  exact (complement_passes wf hg).bind (choose_passes (ready rfl) (grows.has hf) has (ready rfl).has_empty)

theorem implies_passes (wf : d.WellFormed) (hf : d.Has f) (hg : d.Has g) :
    Passes (Checked.implies f g) (implies f g) d :=
  (without_passes wf hf hg).bind rfl

/-- An operation that passes its checks on any two regions passes them along a list. -/
theorem foldlM_passes {checked : Region → Region → Checked Region} {m : Region → Region → StateM Diagram Region}
    {u : Region} {fs : List Region} {P : Region → Region → Diagram → Region → Diagram → Prop}
    (passes : ∀ {d : Diagram} {f g : Region}, d.WellFormed → d.Has f → d.Has g → Passes (checked f g) (m f g) d)
    (yields : ∀ {d : Diagram} {f g : Region}, d.WellFormed → d.Has f → d.Has g →
      Yields true (m f g) d fun r d' => d'.Has r ∧ P f g d r d')
    (wf : d.WellFormed) (start : d.Has u) (has : ∀ f ∈ fs, d.Has f) :
    Passes (fs.foldlM checked u) (fs.foldlM m u) d := by
  induction fs generalizing d u with
  | nil => rfl
  | cons f rest ih =>
    rw [List.foldlM_cons, List.foldlM_cons]
    obtain ⟨grows, ready, known, _⟩ := yields wf start (has f List.mem_cons_self)
    apply (passes wf start (has f List.mem_cons_self)).bind
    exact ih (ready rfl) known fun g mem => grows.has (has g (List.mem_cons_of_mem f mem))

theorem declare_passes (d : Diagram) (name : String) : Passes (Checked.declare name) (declare name) d := by
  rw [Passes, Checked.declare, get_bind]
  cases known : d.levelOf? name with
  | some level =>
    rw [declare_of_known known]
    exact store_passes (levelOf?_le known).1
  | none =>
    rw [declare_of_new known]
    have wider : (d.widened name).features.length = d.features.length + 1 := by simp [widened]
    change Checked.store (d.widened name).features.length .empty .all (d.widened name) = _
    rw [wider]
    exact store_passes (Nat.le_add_left 1 _)

theorem feature?_passes (d : Diagram) (name : String) : Passes (Checked.feature? name) (feature? name) d := by
  rw [Passes, Checked.feature?, get_bind]
  cases known : d.levelOf? name with
  | some level =>
    rw [feature?_of_known known]
    exact (store_passes (levelOf?_le known).1).map some
  | none =>
    rw [feature?_of_unknown known]
    rfl

/-- No check of a request about regions of the diagram fails. -/
theorem perform_passes (wf : d.WellFormed) (request : Request Region) (has : ∀ r ∈ request.arguments, d.Has r) :
    Passes (Checked.perform request) request.perform d := by
  cases request with
  | declare name => exact (declare_passes d name).map some
  | feature name => exact feature?_passes d name
  | choose f g h =>
    simp only [Request.arguments, List.forall_mem_cons] at has
    exact (choose_passes wf has.1 has.2.1 has.2.2.1).map some
  | complement f =>
    simp only [Request.arguments, List.forall_mem_cons] at has
    exact (complement_passes wf has.1).map some
  | meet f g =>
    simp only [Request.arguments, List.forall_mem_cons] at has
    exact (meet_passes wf has.1 has.2.1).map some
  | join f g =>
    simp only [Request.arguments, List.forall_mem_cons] at has
    exact (join_passes wf has.1 has.2.1).map some
  | without f g =>
    simp only [Request.arguments, List.forall_mem_cons] at has
    exact (without_passes wf has.1 has.2.1).map some
  | meetAll fs => exact (foldlM_passes meet_passes meet_yields wf wf.has_all has).map some
  | joinAll fs => exact (foldlM_passes join_passes join_yields wf wf.has_empty has).map some

end Operations

end GoalCoverage.Diagram
