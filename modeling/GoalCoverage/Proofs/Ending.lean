import GoalCoverage.Proofs.Procedure
import Mathlib.Order.RelClasses

/-!
Procedures that end. A procedure that gets fuel `Ends` if from some fuel on it has one result, and that is not that
the fuel was exhausted. A loop ends if each of its turns does and something decreases from turn to turn
(`Ends.repeatUntil`). `Moves` says of a procedure with the fuel it has how it may fail and where it may get.
-/

namespace GoalCoverage.Procedure

variable {σ τ α β : Type} {s t : σ} {T : Failure → Prop} {P : α → σ → Prop} {Q : β → σ → Prop}

/-- Any failure but that of a loop that got too little fuel. -/
def lasting : Failure → Prop := (· ≠ .exhausted)

/-- With enough fuel there is one result: a success for which `P` holds, or a failure in `T`. -/
def Ends (T : Failure → Prop) (m : Nat → Procedure σ α) (s : σ) (P : α → σ → Prop) : Prop :=
  ∃ n r, (∀ fuel, n ≤ fuel → m fuel s = r) ∧ Ensures T (fun _ => r) s P

section Rules

variable {m : Nat → Procedure σ α} {f : Nat → α → Procedure σ β}

theorem Ends.of_ensures {m : Procedure σ α} (h : Ensures T m s P) : Ends T (fun _ => m) s P :=
  ⟨0, m s, fun _ _ => rfl, h⟩

theorem Ends.mono {P' : α → σ → Prop} (h : Ends T m s P) (imp : ∀ a t, P a t → P' a t) : Ends T m s P' := by
  obtain ⟨n, r, stable, holds⟩ := h
  exact ⟨n, r, stable, holds.mono imp⟩

/-- What holds of all successes holds in the end. -/
theorem Ends.and {P' : α → σ → Prop} (h : Ends T m s P) (k : ∀ fuel, Ensures anything (m fuel) s P') :
    Ends T m s fun a t => P a t ∧ P' a t := by
  obtain ⟨n, r, stable, holds⟩ := h
  refine ⟨n, r, stable, ?_⟩
  have also := ensures_anything_iff.1 (k n)
  rw [stable n (Nat.le_refl n)] at also
  cases r with
  | ok a t => exact ⟨holds, also a t rfl⟩
  | error e t => exact holds

theorem Ends.bind (h : Ends T m s P) (next : ∀ a t, P a t → Ends T (fun fuel => f fuel a) t Q) :
    Ends T (fun fuel => m fuel >>= f fuel) s Q := by
  obtain ⟨n, r, stable, holds⟩ := h
  cases r with
  | ok a t =>
    obtain ⟨n', r', stable', holds'⟩ := next a t holds
    refine ⟨max n n', r', fun fuel enough => ?_, holds'⟩
    have first := stable fuel (Nat.le_trans (Nat.le_max_left n n') enough)
    have second := stable' fuel (Nat.le_trans (Nat.le_max_right n n') enough)
    exact (bind_eq_of_ok first).trans second
  | error e t =>
    exact ⟨n, .error e t, fun fuel enough => bind_eq_of_error (stable fuel enough), holds⟩

/-- What comes first needs no fuel. -/
theorem Ends.after {m : Procedure σ α} (h : Ensures T m s P)
    (next : ∀ a t, P a t → Ends T (fun fuel => f fuel a) t Q) : Ends T (fun fuel => m >>= f fuel) s Q :=
  (Ends.of_ensures h).bind next

theorem Ends.within {get : σ → τ} {set : τ → σ → σ} {m : Nat → Procedure τ α}
    (h : Ends T m (get s) fun a t => P a (set t s)) : Ends T (fun fuel => within get set (m fuel)) s P := by
  obtain ⟨n, r, stable, holds⟩ := h
  have run : ∀ fuel, n ≤ fuel → Procedure.within get set (m fuel) s = Procedure.within get set (fun _ => r) s := by
    intro fuel enough
    simp only [Procedure.within, stable fuel enough]
  exact ⟨n, _, run, ensures_within.2 holds⟩

section Turns

variable {step : α → Procedure σ (α ⊕ β)} {n : Nat} {a a' : α} {b : β}

theorem repeatUntil_of_inl (out : step a s = .ok (.inl a') t) :
    Procedure.repeatUntil step (n + 1) a s = Procedure.repeatUntil step n a' t := by
  rw [Procedure.repeatUntil, bind_eq_of_ok out]

theorem repeatUntil_of_inr (out : step a s = .ok (.inr b) t) : Procedure.repeatUntil step (n + 1) a s = .ok b t := by
  rw [Procedure.repeatUntil, bind_eq_of_ok out]
  rfl

theorem repeatUntil_of_error {e : Failure} (out : step a s = .error e t) :
    Procedure.repeatUntil step (n + 1) a s = .error e t := by
  rw [Procedure.repeatUntil, bind_eq_of_error out]

/-- A loop that has ended needs no more fuel. -/
theorem repeatUntil_of_le {n' : Nat} (enough : n ≤ n') (out : Procedure.repeatUntil step n a s = .ok b t) :
    Procedure.repeatUntil step n' a s = .ok b t := by
  induction n generalizing n' a s with
  | zero => cases out
  | succ n ih =>
    obtain ⟨n', rfl⟩ := Nat.exists_eq_add_of_le' (Nat.le_trans (Nat.le_add_left 1 n) enough)
    have rest : n ≤ n' := Nat.le_of_succ_le_succ enough
    rcases turn : step a s with ⟨a' | b', s'⟩ | ⟨e, s'⟩
    · rw [repeatUntil_of_inl turn] at out ⊢
      exact ih rest out
    · rw [repeatUntil_of_inr turn] at out ⊢
      exact out
    · rw [repeatUntil_of_error turn] at out
      cases out

theorem turns_getElem?_zero {q : α × σ} : (turns step n a s)[0]? = some q ↔ n ≠ 0 ∧ q = (a, s) := by
  cases n with
  | zero => simp [turns]
  | succ n => simp [turns, eq_comm]

/-- There is a next turn if a turn is not the last one, and the turns after it are those from there on. -/
theorem turns_getElem?_succ {k : Nat} {q : α × σ} : (turns step n a s)[k + 1]? = some q ↔
    ∃ m a₁ s₁, n = m + 1 ∧ step a s = .ok (.inl a₁) s₁ ∧ (turns step m a₁ s₁)[k]? = some q := by
  cases n with
  | zero => simp [turns]
  | succ n =>
    rw [turns, List.getElem?_cons_succ]
    rcases turn : step a s with ⟨a₁ | b, s₁⟩ | ⟨e, s₁⟩ <;> simp

/-- From any of its turns on, a loop is the loop that begins there. -/
theorem repeatUntil_of_turns {k : Nat} (reached : (turns step n a s)[k]? = some (a', t)) (left : Nat) :
    Procedure.repeatUntil step (k + left) a s = Procedure.repeatUntil step left a' t := by
  induction k generalizing n a s with
  | zero =>
    obtain ⟨_, is⟩ := turns_getElem?_zero.1 reached
    cases is
    rw [Nat.zero_add]
  | succ k ih =>
    obtain ⟨m, a₁, s₁, rfl, turn, rest⟩ := turns_getElem?_succ.1 reached
    rw [Nat.add_right_comm, repeatUntil_of_inl turn]
    exact ih rest

/-- What holds when a loop begins and is kept by the turns that are not the last holds at the beginning of each. -/
theorem turns_keep {I : α → σ → Prop} (goes : ∀ a s a' t, I a s → step a s = .ok (.inl a') t → I a' t) (start : I a s)
    {k : Nat} (reached : (turns step n a s)[k]? = some (a', t)) : I a' t := by
  induction k generalizing n a s with
  | zero =>
    obtain ⟨_, is⟩ := turns_getElem?_zero.1 reached
    cases is
    exact start
  | succ k ih =>
    obtain ⟨m, a₁, s₁, rfl, turn, rest⟩ := turns_getElem?_succ.1 reached
    exact ih (goes a s a₁ s₁ start turn) rest

/-- Each turn leads to the next. -/
theorem turns_step {k : Nat} {a'' : α} {u : σ} (here : (turns step n a s)[k]? = some (a', t))
    (next : (turns step n a s)[k + 1]? = some (a'', u)) : step a' t = .ok (.inl a'') u := by
  induction k generalizing n a s with
  | zero =>
    obtain ⟨_, is⟩ := turns_getElem?_zero.1 here
    cases is
    obtain ⟨m, a₁, s₁, rfl, turn, rest⟩ := turns_getElem?_succ.1 next
    obtain ⟨_, is⟩ := turns_getElem?_zero.1 rest
    cases is
    exact turn
  | succ k ih =>
    obtain ⟨m, a₁, s₁, rfl, turn, rest⟩ := turns_getElem?_succ.1 here
    obtain ⟨m', a₂, s₂, same, turn', rest'⟩ := turns_getElem?_succ.1 next
    cases Nat.succ.inj same
    cases turn.symm.trans turn'
    exact ih rest rest'

/-- If a loop ends, none of its turns fails. -/
theorem turns_succeed (ok : Procedure.repeatUntil step n a s = .ok b t) {q : α × σ} (mem : q ∈ turns step n a s) :
    ∃ r u, step q.1 q.2 = .ok r u := by
  revert mem
  apply repeatUntil_induction (M := fun l _ _ _ _ => q ∈ l → ∃ r u, step q.1 q.2 = .ok r u) _ _ ok
  · intro a s b t turn mem
    cases List.mem_singleton.1 mem
    exact ⟨_, _, turn⟩
  · intro a s a' s' l b t turn ih mem
    cases mem with
    | head => exact ⟨_, _, turn⟩
    | tail _ later => exact ih later

end Turns

/-- `I` holds at the beginning of every turn, and each turn that is not the last one leads down in `r`. -/
theorem Ends.repeatUntil {step : Nat → α → Procedure σ (α ⊕ β)} {I : α → σ → Prop} {r : α × σ → α × σ → Prop}
    (wf : WellFounded r) (turn : ∀ a s, I a s → Ends T (fun fuel => step fuel a) s fun out t =>
      match out with
      | .inl a' => I a' t ∧ r (a', t) (a, s)
      | .inr b => Q b t) {a : α} (start : I a s) : Ends T (fun fuel => repeatUntil (step fuel) fuel a) s Q := by
  -- The fuel of a turn and the number of turns left have to be told apart: the fuel stays.
  suffices ∀ p : α × σ, I p.1 p.2 → ∃ n r, (∀ fuel left, n ≤ fuel → n ≤ left →
      Procedure.repeatUntil (step fuel) left p.1 p.2 = r) ∧ Ensures T (fun _ => r) p.2 Q by
    obtain ⟨n, r, stable, holds⟩ := this (a, s) start
    exact ⟨n, r, fun fuel enough => stable fuel fuel enough enough, holds⟩
  intro p
  induction p using wf.induction with
  | h p ih =>
    intro holds
    obtain ⟨n, out, stable, ends⟩ := turn p.1 p.2 holds
    rcases out with ⟨a' | b, t⟩ | ⟨e, t⟩
    · obtain ⟨holds', less⟩ := ends
      obtain ⟨n', out', stable', ends'⟩ := ih (a', t) less holds'
      refine ⟨max n n' + 1, out', fun fuel left enough turns => ?_, ends'⟩
      obtain ⟨left, rfl⟩ := Nat.exists_eq_add_of_le' (Nat.le_trans (Nat.le_add_left 1 _) turns)
      rw [repeatUntil_of_inl (stable fuel (by omega))]
      exact stable' fuel left (by omega) (by omega)
    · refine ⟨n + 1, .ok b t, fun fuel left enough turns => ?_, ends⟩
      obtain ⟨left, rfl⟩ := Nat.exists_eq_add_of_le' (Nat.le_trans (Nat.le_add_left 1 _) turns)
      exact repeatUntil_of_inr (stable fuel (by omega))
    · refine ⟨n + 1, .error e t, fun fuel left enough turns => ?_, ends⟩
      obtain ⟨left, rfl⟩ := Nat.exists_eq_add_of_le' (Nat.le_trans (Nat.le_add_left 1 _) turns)
      exact repeatUntil_of_error (stable fuel (by omega))

/-- The invariant `I` is about what is left of the list and the state. -/
theorem Ends.mapM {f : Nat → α → Procedure σ β} {I : List α → σ → Prop} {l : List α}
    (step : ∀ x rest s, I (x :: rest) s → Ends T (fun fuel => f fuel x) s fun _ t => I rest t) (start : I l s) :
    Ends T (fun fuel => l.mapM (f fuel)) s fun _ t => I [] t := by
  induction l generalizing s with
  | nil => exact .of_ensures start
  | cons x rest ih =>
    simp only [List.mapM_cons]
    apply (step x rest s start).bind
    intro y t holds
    exact (ih holds).bind fun more u holds => .of_ensures holds

end Rules

section Moves

/-- `m` fails only in ways in `T`, and whether or not it does, its state moves along `R`. -/
def Moves (T : Failure → Prop) (R : σ → σ → Prop) (m : Procedure σ α) (s : σ) : Prop :=
  R s (finish m s) ∧ Ensures T m s fun _ _ => True

variable {R : σ → σ → Prop} {m : Procedure σ α} {f : α → Procedure σ β}

theorem moves_iff : Moves T R m s ↔ (∀ a t, m s = .ok a t → R s t) ∧ ∀ e t, m s = .error e t → T e ∧ R s t := by
  rw [Moves, finish, Ensures]
  cases m s with
  | ok a t => simp
  | error e t => simp [and_comm]

theorem Moves.ensures (h : Moves T R m s) : Ensures T m s fun _ t => R s t := by
  obtain ⟨success, failure⟩ := moves_iff.1 h
  rw [Ensures]
  cases out : m s with
  | ok a t => exact success a t out
  | error e t => exact (failure e t out).1

/-- What holds of all successes of a procedure that moves. -/
theorem Moves.ensures_and (h : Moves T R m s) (k : Ensures anything m s P) : Ensures T m s fun a t => R s t ∧ P a t := by
  have moved := h.ensures
  rw [ensures_anything_iff] at k
  rw [Ensures] at moved ⊢
  cases out : m s with
  | ok a t =>
    rw [out] at moved
    exact ⟨moved, k a t out⟩
  | error e t =>
    rw [out] at moved
    exact moved

/-- What does not fail moves to where its results are. -/
theorem Ensures.moves (h : Ensures (fun _ => False) m s P) (step : ∀ a t, P a t → R s t) : Moves T R m s := by
  rw [Ensures] at h
  rw [moves_iff]
  cases out : m s with
  | ok a t =>
    rw [out] at h
    simpa using step a t h
  | error e t =>
    rw [out] at h
    exact h.elim

theorem Moves.mono {T' : Failure → Prop} {R' : σ → σ → Prop} (h : Moves T R m s) (wider : ∀ e, T e → T' e)
    (imp : ∀ t, R s t → R' s t) : Moves T' R' m s := by
  rw [moves_iff] at h ⊢
  exact ⟨fun a t out => imp t (h.1 a t out), fun e t out => ⟨wider e (h.2 e t out).1, imp t (h.2 e t out).2⟩⟩

/-- Whatever the failures are. -/
theorem Moves.anyway (h : Moves T R m s) : Moves anything R m s := h.mono (fun _ _ => trivial) fun _ moved => moved

/-- To keep an invariant is a way to move. -/
instance (I : σ → Prop) : IsPreorder σ fun s t => I s → I t where
  refl _ h := h
  trans _ _ _ first second h := second (first h)

theorem moves_get_bind {f : σ → Procedure σ β} : Moves T R (get >>= f) s ↔ Moves T R (f s) s := Iff.rfl

theorem moves_modify {g : σ → σ} (step : R s (g s)) : Moves T R (modify g : Procedure σ PUnit) s := ⟨step, trivial⟩

theorem moves_set (step : R s t) : Moves T R (set t : Procedure σ PUnit) s := ⟨step, trivial⟩

theorem moves_attempt {op : σ → Except Violation (α × σ)} (violated : ∀ v, T (.violated v)) (still : R s s)
    (step : ∀ a t, op s = .ok (a, t) → R s t) : Moves T R (attempt op) s := by
  rw [moves_iff, attempt]
  cases out : op s with
  | ok r =>
    obtain ⟨a, t⟩ := r
    simpa using step a t out
  | error v => simpa using ⟨violated v, still⟩

theorem Moves.within {get : σ → τ} {set : τ → σ → σ} {R' : τ → τ → Prop} {m : Procedure τ α}
    (h : Moves T R' m (get s)) (lift : ∀ t, R' (get s) t → R s (set t s)) : Moves T R (within get set m) s := by
  rw [moves_iff] at h
  rw [moves_iff, Procedure.within]
  cases out : m (get s) with
  | ok a t => simpa using lift t (h.1 a t out)
  | error e t => simpa using ⟨(h.2 e t out).1, lift t (h.2 e t out).2⟩

/-- Whatever is done to a part of the state. -/
theorem moves_within {get : σ → τ} {set : τ → σ → σ} {m : Procedure τ α} (lift : ∀ t, R s (set t s)) :
    Moves anything R (within get set m) s := by
  have free : Moves anything (fun _ _ => True) m (get s) := ⟨trivial, ensures_anything_iff.2 fun _ _ _ => trivial⟩
  exact free.within fun t _ => lift t

/-- What comes later may not move along `R` by itself. -/
theorem Moves.bind_of (h : Moves T R m s) (next : ∀ a t, m s = .ok a t → R s t → Moves T (fun _ => R s) (f a) t) :
    Moves T R (m >>= f) s := by
  rw [moves_iff] at h
  cases out : m s with
  | ok a t =>
    have more := next a t out (h.1 a t out)
    rw [moves_iff] at more ⊢
    rw [bind_eq_of_ok out]
    exact more
  | error e t =>
    rw [moves_iff, bind_eq_of_error out]
    simpa using h.2 e t out

/-- `J` holds at the beginning of every turn. -/
theorem Moves.repeatUntil_of {step : α → Procedure σ (α ⊕ β)} {J : α → σ → Prop} (exhausted : T .exhausted)
    (reaches : ∀ a t, J a t → R s t) (turn : ∀ a t, J a t → Moves T (fun _ => R s) (step a) t ∧
      ∀ a' u, step a t = .ok (.inl a') u → J a' u) (fuel : Nat) {a : α} (start : J a s) :
    Moves T R (Procedure.repeatUntil step fuel a) s := by
  suffices ∀ t, J a t → Moves T (fun _ => R s) (Procedure.repeatUntil step fuel a) t from this s start
  clear start
  induction fuel generalizing a with
  | zero => exact fun t holds => ⟨reaches a t holds, exhausted⟩
  | succ fuel ih =>
    intro t holds
    obtain ⟨moves, goes⟩ := turn a t holds
    rw [Procedure.repeatUntil]
    apply moves.bind_of
    intro r u out moved
    cases r with
    | inl a' => exact ih u (goes a' u out)
    | inr b => exact ⟨moved, trivial⟩

variable [IsPreorder σ R]

theorem moves_pure {a : α} : Moves T R (pure a : Procedure σ α) s := ⟨refl s, trivial⟩

theorem moves_refuse {r : Refusal} (refused : T (.refused r)) : Moves T R (refuse r : Procedure σ α) s := ⟨refl s, refused⟩

theorem moves_violate {v : Violation} (violated : T (.violated v)) : Moves T R (violate v : Procedure σ α) s :=
  ⟨refl s, violated⟩

theorem Moves.bind (h : Moves T R m s) (next : ∀ a t, m s = .ok a t → R s t → Moves T R (f a) t) :
    Moves T R (m >>= f) s :=
  h.bind_of fun a t out moved => (next a t out moved).mono (fun _ h => h) fun _ more => IsTrans.trans _ _ _ moved more

theorem Moves.repeatUntil {step : α → Procedure σ (α ⊕ β)} (exhausted : T .exhausted)
    (turn : ∀ a t, R s t → Moves T R (step a) t) (fuel : Nat) (a : α) : Moves T R (Procedure.repeatUntil step fuel a) s := by
  apply Moves.repeatUntil_of (J := fun _ => R s) exhausted (fun _ _ h => h) _ fuel (refl s)
  intro a t before
  have moves : Moves T (fun _ => R s) (step a) t :=
    (turn a t before).mono (fun _ h => h) fun _ more => IsTrans.trans _ _ _ before more
  exact ⟨moves, fun a' u out => moves.ensures.of_eq_ok out⟩

theorem Moves.map {g : α → β} (h : Moves T R m s) : Moves T R (g <$> m) s := by
  rw [map_eq_pure_bind]
  exact h.bind fun _ _ _ _ => moves_pure

theorem Moves.mapM {f : α → Procedure σ β} {l : List α} (step : ∀ x ∈ l, ∀ t, R s t → Moves T R (f x) t) :
    Moves T R (l.mapM f) s := by
  suffices ∀ t, R s t → Moves T R (l.mapM f) t from this s (refl s)
  induction l with
  | nil => exact fun t _ => moves_pure
  | cons x rest ih =>
    intro t before
    rw [List.mapM_cons]
    apply (step x List.mem_cons_self t before).bind
    intro y u _ moved
    exact (ih (fun x mem => step x (List.mem_cons_of_mem _ mem)) u (IsTrans.trans _ _ _ before moved)).bind fun _ _ _ _ => moves_pure

theorem Moves.forM {f : α → Procedure σ PUnit} {l : List α} (step : ∀ x ∈ l, ∀ t, R s t → Moves T R (f x) t) :
    Moves T R (l.forM f) s := by
  suffices ∀ t, R s t → Moves T R (l.forM f) t from this s (refl s)
  induction l with
  | nil => exact fun t _ => moves_pure
  | cons x rest ih =>
    intro t before
    rw [List.forM_eq_forM, List.forM_cons, ← List.forM_eq_forM]
    apply (step x List.mem_cons_self t before).bind
    intro _ u _ moved
    exact ih (fun x mem => step x (List.mem_cons_of_mem _ mem)) u (IsTrans.trans _ _ _ before moved)

theorem Moves.filterMapM {f : α → Procedure σ (Option β)} {l : List α}
    (step : ∀ x ∈ l, ∀ t, R s t → Moves T R (f x) t) : Moves T R (l.filterMapM f) s := by
  suffices ∀ t, R s t → Moves T R (l.filterMapM f) t from this s (refl s)
  induction l with
  | nil => exact fun t _ => moves_pure
  | cons x rest ih =>
    intro t before
    rw [List.filterMapM_cons]
    apply (step x List.mem_cons_self t before).bind
    intro y u _ moved
    have more := ih (fun x mem => step x (List.mem_cons_of_mem _ mem)) u (IsTrans.trans _ _ _ before moved)
    cases y with
    | none => exact more
    | some y => exact more.bind fun _ _ _ _ => moves_pure

theorem Moves.filterM {f : α → Procedure σ Bool} {l : List α} (step : ∀ x ∈ l, ∀ t, R s t → Moves T R (f x) t) :
    Moves T R (l.filterM f) s := by
  suffices ∀ acc t, R s t → Moves T R (l.filterAuxM f acc) t from
    (this [] s (refl s)).bind fun _ _ _ _ => moves_pure
  induction l with
  | nil => exact fun _ t _ => moves_pure
  | cons x rest ih =>
    intro acc t before
    rw [List.filterAuxM]
    apply (step x List.mem_cons_self t before).bind
    intro y u _ moved
    exact ih (fun x mem => step x (List.mem_cons_of_mem _ mem)) _ u (IsTrans.trans _ _ _ before moved)

end Moves

end GoalCoverage.Procedure
