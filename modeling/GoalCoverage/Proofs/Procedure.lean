import GoalCoverage.Failure
import Mathlib.Data.List.Forall2

/-!
What procedures ensure. `Ensures T m s Q` says that `m`, started in the state `s`, ends with a result
and a state for which `Q` holds, or fails in one of the ways in `T`. Loops ensure what each of their
steps does; a loop may always run out of turns if `T` admits that. What a procedure went through is told
by the `turns` of its loops and its `calls`.
-/

namespace GoalCoverage.Procedure

variable {σ τ α β : Type} {T : Failure → Prop} {m : Procedure σ α} {f : α → Procedure σ β} {s : σ}
  {P : α → σ → Prop} {Q : β → σ → Prop}

theorem get_bind_eq {f : σ → Procedure σ β} : (get >>= f) s = f s s := rfl

theorem set_bind_eq {t : σ} {f : PUnit → Procedure σ β} : (set t >>= f) s = f ⟨⟩ t := rfl

theorem bind_eq_of_ok {a : α} {t : σ} (ok : m s = .ok a t) : (m >>= f) s = f a t := by
  simp only [Bind.bind, EStateM.bind, ok]

theorem bind_eq_of_error {e : Failure} {t : σ} (failed : m s = .error e t) : (m >>= f) s = .error e t := by
  simp only [Bind.bind, EStateM.bind, failed]

/-- What succeeds has parts that succeed. -/
theorem exists_of_bind_eq_ok {b : β} {u : σ} (ok : (m >>= f) s = .ok b u) : ∃ a t, m s = .ok a t ∧ f a t = .ok b u := by
  cases first : m s with
  | ok a t => exact ⟨a, t, rfl, by rwa [bind_eq_of_ok first] at ok⟩
  | error e t =>
    rw [bind_eq_of_error first] at ok
    cases ok

def Ensures (T : Failure → Prop) (m : Procedure σ α) (s : σ) (Q : α → σ → Prop) : Prop :=
  match m s with
  | .ok a t => Q a t
  | .error e _ => T e

@[simp] theorem ensures_pure {a : α} : Ensures T (pure a : Procedure σ α) s P ↔ P a s := Iff.rfl

@[simp] theorem ensures_bind :
    Ensures T (m >>= f) s Q ↔ Ensures T m s fun a t => Ensures T (f a) t Q := by
  simp only [Ensures, bind, EStateM.bind]
  cases m s <;> exact Iff.rfl

@[simp] theorem ensures_map {g : α → β} :
    Ensures T (g <$> m) s Q ↔ Ensures T m s fun a t => Q (g a) t := by
  simp only [Ensures, Functor.map, EStateM.map]
  cases m s <;> exact Iff.rfl

@[simp] theorem ensures_get {P : σ → σ → Prop} : Ensures T (get : Procedure σ σ) s P ↔ P s s := Iff.rfl

@[simp] theorem ensures_set {t : σ} {P : PUnit → σ → Prop} :
    Ensures T (set t : Procedure σ PUnit) s P ↔ P ⟨⟩ t := Iff.rfl

@[simp] theorem ensures_modify {g : σ → σ} {P : PUnit → σ → Prop} :
    Ensures T (modify g : Procedure σ PUnit) s P ↔ P ⟨⟩ (g s) := Iff.rfl

@[simp] theorem ensures_within {get : σ → τ} {set : τ → σ → σ} {m : Procedure τ α} :
    Ensures T (within get set m) s P ↔ Ensures T m (get s) fun a t => P a (set t s) := by
  simp only [Ensures, within]
  cases m (get s) <;> exact Iff.rfl

theorem ensures_attempt {op : σ → Except Violation (α × σ)} {a : α} {t : σ} (ok : op s = .ok (a, t)) :
    Ensures T (attempt op) s P ↔ P a t := by
  simp only [Ensures, attempt, ok]

@[simp] theorem ensures_refuse {r : Refusal} :
    Ensures T (refuse r : Procedure σ α) s P ↔ T (.refused r) := Iff.rfl

@[simp] theorem ensures_violate {v : Violation} :
    Ensures T (violate v : Procedure σ α) s P ↔ T (.violated v) := Iff.rfl

theorem Ensures.mono {Q : α → σ → Prop} (h : Ensures T m s P) (imp : ∀ a t, P a t → Q a t) :
    Ensures T m s Q := by
  simp only [Ensures] at h ⊢
  cases out : m s with
  | ok a t =>
    rw [out] at h
    exact imp a t h
  | error e t =>
    rw [out] at h
    exact h

theorem Ensures.and {Q : α → σ → Prop} (h : Ensures T m s P) (k : Ensures T m s Q) :
    Ensures T m s fun a t => P a t ∧ Q a t := by
  simp only [Ensures] at h k ⊢
  cases out : m s with
  | ok a t =>
    rw [out] at h k
    exact ⟨h, k⟩
  | error e t =>
    rw [out] at h
    exact h

theorem Ensures.bind (h : Ensures T m s P) (next : ∀ a t, P a t → Ensures T (f a) t Q) :
    Ensures T (m >>= f) s Q :=
  ensures_bind.2 (h.mono next)

/-- What holds of a result that was obtained. -/
theorem Ensures.of_eq_ok {a : α} {t : σ} (h : Ensures T m s P) (ok : m s = .ok a t) : P a t := by
  rw [Ensures, ok] at h
  exact h

/-- What fails in no way succeeds. -/
theorem Ensures.exists_result (h : Ensures (fun _ => False) m s P) : ∃ a t, m s = .ok a t ∧ P a t := by
  rw [Ensures] at h
  cases out : m s with
  | ok a t =>
    rw [out] at h
    exact ⟨a, t, rfl, h⟩
  | error e t =>
    rw [out] at h
    exact h.elim

/-- The invariant `I` is about the value that the loop carries and the state. -/
theorem Ensures.repeatUntil {step : α → Procedure σ (α ⊕ β)} {I : α → σ → Prop} (exhausted : T .exhausted)
    (turn : ∀ a s, I a s → Ensures T (step a) s fun r t =>
      match r with
      | .inl a => I a t
      | .inr b => Q b t)
    (fuel : Nat) {a : α} (start : I a s) : Ensures T (repeatUntil step fuel a) s Q := by
  induction fuel generalizing a s with
  | zero => exact exhausted
  | succ fuel ih =>
    rw [Procedure.repeatUntil]
    apply (turn a s start).bind
    intro r t holds
    cases r with
    | inl a => exact ih holds
    | inr b => exact holds

/-- The invariant `I` is about the part of the list that is done, the results so far, and the state. -/
theorem Ensures.mapM {f : α → Procedure σ β} {I : List α → List β → σ → Prop} {l : List α}
    (step : ∀ x done out s, x ∈ l → I done out s →
      Ensures T (f x) s fun y t => I (done ++ [x]) (out ++ [y]) t)
    (start : I [] [] s) : Ensures T (l.mapM f) s fun out t => I l out t := by
  suffices ∀ (rest done : List α) (out : List β) (s : σ), (∀ x ∈ rest, x ∈ l) → I done out s →
      Ensures T (rest.mapM f) s fun more t => I (done ++ rest) (out ++ more) t by
    simpa using this l [] [] s (fun _ h => h) start
  intro rest
  induction rest with
  | nil =>
    intro done out s _ holds
    simpa using holds
  | cons x rest ih =>
    intro done out s sub holds
    rw [List.mapM_cons]
    apply (step x done out s (sub x (by simp)) holds).bind
    intro y t holds
    apply (ih (done ++ [x]) (out ++ [y]) t (fun x h => sub x (by simp [h])) holds).bind
    intro more u holds
    simpa using holds

/-- Looking something up for each member of a list. -/
theorem Ensures.lookups {f : α → Procedure σ β} {R : α → β → Prop} {l : List α}
    (step : ∀ x ∈ l, Ensures T (f x) s fun y t => t = s ∧ R x y) :
    Ensures T (l.mapM f) s fun out t => t = s ∧ List.Forall₂ R l out := by
  apply Ensures.mapM (I := fun done out t => t = s ∧ List.Forall₂ R done out) _ ⟨rfl, .nil⟩
  intro x done out t mem holds
  obtain ⟨same, before⟩ := holds
  rw [same]
  apply (step x mem).mono
  intro y t h
  exact ⟨h.1, List.rel_append before (.cons h.2 .nil)⟩

theorem Ensures.filterMapM {f : α → Procedure σ (Option β)} {I : List α → List β → σ → Prop} {l : List α}
    (step : ∀ x done out s, x ∈ l → I done out s →
      Ensures T (f x) s fun y t => I (done ++ [x]) (out ++ y.toList) t)
    (start : I [] [] s) : Ensures T (l.filterMapM f) s fun out t => I l out t := by
  suffices ∀ (rest done : List α) (out : List β) (s : σ), (∀ x ∈ rest, x ∈ l) → I done out s →
      Ensures T (rest.filterMapM f) s fun more t => I (done ++ rest) (out ++ more) t by
    simpa using this l [] [] s (fun _ h => h) start
  intro rest
  induction rest with
  | nil =>
    intro done out s _ holds
    simpa using holds
  | cons x rest ih =>
    intro done out s sub holds
    rw [List.filterMapM_cons]
    apply (step x done out s (sub x (by simp)) holds).bind
    intro y t holds
    have more := ih (done ++ [x]) (out ++ y.toList) t (fun x h => sub x (by simp [h])) holds
    cases y with
    | none => simpa using more
    | some y =>
      apply more.bind
      intro more u holds
      simpa using holds

/-- A test on each member of a list that changes nothing. -/
theorem Ensures.filterM {f : α → Procedure σ Bool} {p : α → Bool} {l : List α}
    (step : ∀ x ∈ l, Ensures T (f x) s fun b t => t = s ∧ b = p x) :
    Ensures T (l.filterM f) s fun out t => t = s ∧ out = l.filter p := by
  suffices ∀ (rest acc : List α), (∀ x ∈ rest, x ∈ l) →
      Ensures T (rest.filterAuxM f acc) s fun out t => t = s ∧ out = (rest.filter p).reverse ++ acc by
    apply (this l [] fun _ h => h).bind
    intro out t h
    rw [ensures_pure, h.2]
    exact ⟨h.1, by simp⟩
  intro rest
  induction rest with
  | nil =>
    intro acc _
    exact ⟨rfl, rfl⟩
  | cons x rest ih =>
    intro acc sub
    rw [List.filterAuxM]
    apply (step x (sub x List.mem_cons_self)).bind
    intro b t h
    obtain ⟨same, rfl⟩ := h
    subst same
    have more := ih (bif p x then x :: acc else acc) fun y mem => sub y (List.mem_cons_of_mem x mem)
    cases test : p x <;> simpa [test] using more

theorem Ensures.forM {f : α → Procedure σ PUnit} {I : List α → σ → Prop} {l : List α}
    (step : ∀ x done rest s, l = done ++ x :: rest → I done s → Ensures T (f x) s fun _ t => I (done ++ [x]) t)
    (start : I [] s) : Ensures T (l.forM f) s fun _ t => I l t := by
  suffices ∀ (rest done : List α) (s : σ), l = done ++ rest → I done s →
      Ensures T (rest.forM f) s fun _ t => I (done ++ rest) t by
    simpa using this l [] s rfl start
  intro rest
  induction rest with
  | nil =>
    intro done s _ holds
    simpa using holds
  | cons x rest ih =>
    intro done s whole holds
    rw [List.forM_eq_forM, List.forM_cons, ← List.forM_eq_forM]
    apply (step x done rest s whole holds).bind
    intro _ t holds
    simpa using ih (done ++ [x]) t (by simp [whole]) holds

/-- Does the procedure end with a result? -/
def succeeds (m : Procedure σ α) (s : σ) : Bool :=
  match m s with
  | .ok _ _ => true
  | .error _ _ => false

/-- The state in which a procedure ends. -/
def finish (m : Procedure σ α) (s : σ) : σ :=
  match m s with
  | .ok _ t => t
  | .error _ t => t

theorem exists_eq_ok (h : succeeds m s = true) : ∃ a, m s = .ok a (finish m s) := by
  rw [succeeds] at h
  rw [finish]
  cases out : m s with
  | ok a t => exact ⟨a, rfl⟩
  | error e t =>
    rw [out] at h
    cases h

section Results

/-- All failures are tolerated. -/
def anything : Failure → Prop := fun _ => True

theorem ensures_anything_iff : Ensures anything m s P ↔ ∀ a t, m s = .ok a t → P a t := by
  rw [Ensures]
  cases m s with
  | ok a t => simp
  | error e t => simp [anything]

theorem ensures_attempt_iff {op : σ → Except Violation (α × σ)} :
    Ensures anything (attempt op) s P ↔ ∀ a t, op s = .ok (a, t) → P a t := by
  rw [Ensures, attempt]
  cases op s with
  | ok r =>
    obtain ⟨a, t⟩ := r
    simp
  | error v => simp [anything]

end Results

section Turns

variable {fuel : Nat} {t : σ} {a : α} {b : β}

def result? (m : Procedure σ α) (s : σ) : Option α :=
  match m s with
  | .ok a _ => some a
  | .error _ _ => none

/-- The state after a procedure, if that says so. -/
def after? (m : Procedure σ Bool) (s : σ) : Option σ :=
  match m s with
  | .ok true t => some t
  | .ok false _ => none
  | .error _ _ => none

theorem result?_eq (ok : m s = .ok a t) : result? m s = some a := by rw [result?, ok]

/-- Where the turns of a loop begin, with the values that it carries. -/
def turns (step : α → Procedure σ (α ⊕ β)) : Nat → α → σ → List (α × σ)
  | 0, _, _ => []
  | n + 1, a, s => (a, s) ::
    match step a s with
    | .ok (.inl a) t => turns step n a t
    | .ok (.inr _) _ => []
    | .error _ _ => []

/-- Where the calls of a procedure for the members of a list begin. -/
def calls (f : α → Procedure σ β) : List α → σ → List (α × σ)
  | [], _ => []
  | a :: rest, s => (a, s) ::
    match f a s with
    | .ok _ t => calls f rest t
    | .error _ _ => []

/-- The members of a list are gone through from the front. -/
theorem calls_in_order (f : α → Procedure σ β) (l : List α) (s : σ) : (calls f l s).map Prod.fst <+: l := by
  induction l generalizing s with
  | nil => exact List.prefix_refl _
  | cons a rest ih =>
    rw [calls, List.map_cons, List.prefix_cons_inj]
    cases f a s with
    | ok b t => exact ih t
    | error e t => exact List.nil_prefix

/-- Induction along the turns of a loop that ends. -/
theorem repeatUntil_induction {step : α → Procedure σ (α ⊕ β)} {M : List (α × σ) → α → σ → β → σ → Prop}
    (last : ∀ a s b t, step a s = .ok (.inr b) t → M [(a, s)] a s b t)
    (more : ∀ a s a' s' l b t, step a s = .ok (.inl a') s' → M l a' s' b t → M ((a, s) :: l) a s b t)
    (ok : repeatUntil step fuel a s = .ok b t) : M (turns step fuel a s) a s b t := by
  induction fuel generalizing a s with
  | zero => cases ok
  | succ fuel ih =>
    simp only [repeatUntil, bind, EStateM.bind] at ok
    rw [turns]
    cases out : step a s with
    | ok r s' =>
      rw [out] at ok
      cases r with
      | inl a' => exact more a s a' s' _ b t out (ih ok)
      | inr b' =>
        cases ok
        exact last a s _ _ out
    | error e s' =>
      rw [out] at ok
      cases ok

/-- Induction along the calls for the members of a list. -/
theorem mapM_induction {f : α → Procedure σ β} {M : List (α × σ) → List α → σ → List β → σ → Prop}
    (nil : ∀ s, M [] [] s [] s)
    (cons : ∀ a l s b s' cs bs t, f a s = .ok b s' → M cs l s' bs t → M ((a, s) :: cs) (a :: l) s (b :: bs) t)
    {l : List α} {bs : List β} (ok : l.mapM f s = .ok bs t) : M (calls f l s) l s bs t := by
  induction l generalizing s bs with
  | nil =>
    rw [List.mapM_nil] at ok
    cases ok
    exact nil _
  | cons a l ih =>
    rw [List.mapM_cons] at ok
    simp only [bind, EStateM.bind, pure, EStateM.pure] at ok
    rw [calls]
    cases out : f a s with
    | ok b s' =>
      rw [out] at ok
      dsimp only at ok
      cases rest : l.mapM f s' with
      | ok bs' t' =>
        rw [rest] at ok
        cases ok
        exact cons a l s b s' _ bs' t out (ih rest)
      | error e t' =>
        rw [rest] at ok
        cases ok
    | error e s' =>
      rw [out] at ok
      cases ok

end Turns

end GoalCoverage.Procedure
