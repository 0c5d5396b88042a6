import GoalCoverage.Proofs.Diagram.Count
import Mathlib.Logic.Relation

/-!
What a choice adds to the arena. All decisions that are stored on the way are met below the region that is yielded, so
none of them is wasted; a choice whose region was there before stores nothing, and neither does one that is made again
at any later time (`choice_thrifty`).
-/

namespace GoalCoverage

namespace Request

variable {α β : Type}

/-- The requests that are answered by a single choice. -/
def isChoice : Request α → Bool
  | choose _ _ _ => true
  | complement _ => true
  | meet _ _ => true
  | join _ _ => true
  | _ => false

theorem isChoice_map (k : α → β) (request : Request α) : (request.map k).isChoice = request.isChoice := by
  cases request <;> rfl

theorem exists_choice {request : Request Region} (choice : request.isChoice = true) :
    ∃ f g h, request.perform = some <$> Diagram.choose f g h ∧
      ∀ r, r = f ∨ r = g ∨ r = h → r ∈ request.arguments ∨ r = .empty ∨ r = .all := by
  cases request with
  | choose f g h => exact ⟨f, g, h, rfl, by grind [arguments]⟩
  | complement f => exact ⟨f, .empty, .all, rfl, by grind [arguments]⟩
  | meet f g => exact ⟨f, g, .empty, rfl, by grind [arguments]⟩
  | join f g => exact ⟨f, .all, g, rfl, by grind [arguments]⟩
  | _ => cases choice

end Request

namespace Diagram

variable {d d' d1 d2 : Diagram} {f g h r s low high : Region} {level : Nat} {names : List String} {ledger : List Entry}

/-- `s` is one of the answers of the decision `r`. -/
def Answers (d : Diagram) (r s : Region) : Prop := 2 ≤ r.index ∧ (s = (d.decision r).low ∨ s = (d.decision r).high)

/-- `s` is met on the way down from `r`. -/
abbrev RestsOn (d : Diagram) : Region → Region → Prop := Relation.ReflTransGen d.Answers

/-- One diagram grows into another by requests about the regions that it has at the time. -/
abbrev Later : Diagram → Diagram → Prop :=
  Relation.ReflTransGen fun d d' => ∃ request : Request Region, (∀ r ∈ request.arguments, d.Has r) ∧ d' = (request.perform d).2

theorem RestsOn.index_le (wf : d.WellFormed) (has : d.Has r) (rests : d.RestsOn r s) : s.index ≤ r.index := by
  induction rests with
  | refl => exact Nat.le_refl _
  | @tail m s _ answers ih =>
    have there : d.Has m := Nat.lt_of_le_of_lt ih has
    obtain ⟨inner, rfl | rfl⟩ := answers
    · exact Nat.le_trans (Nat.le_of_lt (wf.low_lt m inner there)) ih
    · exact Nat.le_trans (Nat.le_of_lt (wf.high_lt m inner there)) ih

theorem Extends.restsOn (ext : d.Extends d') (wf : d.WellFormed) (has : d.Has r) (rests : d.RestsOn r s) :
    d'.RestsOn r s := by
  induction rests with
  | refl => exact .refl
  | @tail m s path answers ih =>
    have there : d.Has m := Nat.lt_of_le_of_lt (RestsOn.index_le wf has path) has
    rw [Answers, ← ext.decision_eq m there] at answers
    exact ih.tail answers

theorem Extends.isPrefix (ext : d.Extends d') : d.decisions.toList <+: d'.decisions.toList := by
  rw [List.prefix_iff_getElem?]
  intro i bound
  have old : i < d.decisions.size := bound
  have new : i < d'.decisions.size := Nat.lt_of_lt_of_le old ext.size_le
  have same := ext.decision_eq ⟨i⟩ old
  simp only [decision, Array.getD_eq_getD_getElem?, Array.getElem?_eq_getElem old, Array.getElem?_eq_getElem new,
    Option.getD_some] at same
  simp [new, same]

theorem Later.grows (later : Later d d') (wf : d.WellFormed) : d'.WellFormed ∧ d.Extends d' := by
  induction later with
  | refl => exact ⟨wf, .refl d⟩
  | tail _ step ih =>
    obtain ⟨request, has, rfl⟩ := step
    have granted := grants_perform ih.1 request has
    exact ⟨granted.wellFormed, ih.2.trans granted.grows⟩

/-- Storing a decision yields a region that rests on both answers, and adds nothing but that region. -/
theorem store_adds (wf : d.WellFormed) (level : Nat) (low high : Region) :
    (store level low high d).2.RestsOn (store level low high d).1 low ∧
      (store level low high d).2.RestsOn (store level low high d).1 high ∧
      ∀ s, d.size ≤ s.index → (store level low high d).2.Has s → s = (store level low high d).1 := by
  have rests : ∀ {d : Diagram} {r : Region}, 2 ≤ r.index → (d.decision r).low = low → (d.decision r).high = high →
      d.RestsOn r low ∧ d.RestsOn r high := fun inner toLow toHigh =>
    ⟨.single ⟨inner, .inl toLow.symm⟩, .single ⟨inner, .inr toHigh.symm⟩⟩
  rw [store]
  split_ifs with same
  · subst same
    exact ⟨.refl, .refl, fun s new old => absurd old (Nat.not_lt.2 new)⟩
  · dsimp only
    split
    next r found =>
      obtain ⟨inner, _, key⟩ := wf.stored_of_known _ r found
      simp only [Decision.key, Prod.mk.injEq] at key
      have both := rests inner (region_eq_of_index key.2.1) (region_eq_of_index key.2.2)
      exact ⟨both.1, both.2, fun s new old => absurd old (Nat.not_lt.2 new)⟩
    next =>
      have stored : (d.pushed ⟨level, low, high⟩).decision ⟨d.decisions.size⟩ = ⟨level, low, high⟩ := decision_pushed_new
      have both := rests (d := d.pushed ⟨level, low, high⟩) (r := ⟨d.decisions.size⟩) wf.terminals (by rw [stored]) (by rw [stored])
      exact ⟨both.1, both.2, fun s new has => (has_pushed has).resolve_left fun old => absurd old (Nat.not_lt.2 new)⟩

/-- A choice is settled at once, or it is the decision between the choices on both branches, and is remembered. -/
theorem chooseWithin_induction {P : Diagram → Region → Diagram → Prop}
    (settled : ∀ {d : Diagram} {r : Region}, d.Has r → P d r d)
    (decided : ∀ {d d1 d2 : Diagram} {f0 f1 g0 g1 h0 h1 low high : Region} (level : Nat) (f g h : Region),
      Chooses d f1 g1 h1 high d1 → P d high d1 → Chooses d1 f0 g0 h0 low d2 → P d1 low d2 → d2.Fits level low high →
      P d (store level low high d2).1 ((store level low high d2).2.remembered f g h (store level low high d2).1))
    (left : Nat) (wf : d.WellFormed) (hf : d.Has f) (hg : d.Has g) (hh : d.Has h)
    (enough : d.features.length + 1 < left + min (d.level f) (min (d.level g) (d.level h))) :
    P d (chooseWithin left f g h d).1 (chooseWithin left f g h d).2 := by
  induction left generalizing d f g h with
  | zero =>
    have := wf.level_le_terminal hf
    omega
  | succ left ih =>
    rw [chooseWithin]
    split_ifs with all empty
    · exact settled hg
    · exact settled hh
    · exact settled hg
    · exact settled hf
    cases found : d.computed[(f.index, g.index, h.index)]? with
    | some r =>
      simp only [found]
      obtain ⟨_, _, _, _, has, _⟩ := wf.computed f g h r found
      exact settled has
    | none =>
      simp only [found]
      have inner : 2 ≤ f.index := by
        rw [Region.isAll_iff] at all
        rw [Region.isEmpty_iff] at empty
        exact ((terminal_or_inner f).resolve_left empty).resolve_left all
      have deep : d.level f ≤ d.features.length := by
        rw [level_of_inner inner]
        exact wf.level_le f inner hf
      have positive : 1 ≤ min (d.level f) (min (d.level g) (d.level h)) := by
        have := wf.one_le_level hf
        have := wf.one_le_level hg
        have := wf.one_le_level hh
        omega
      generalize least : min (d.level f) (min (d.level g) (d.level h)) = level at enough positive ⊢
      have splitF := branches_splits level wf hf (by omega) (by omega)
      have splitG := branches_splits level wf hg (by omega) (by omega)
      have splitH := branches_splits level wf hh (by omega) (by omega)
      have enoughHigh := splitF.enough_high splitG splitH enough
      have highs := chooseWithin_chooses left wf splitF.has_high splitG.has_high splitH.has_high enoughHigh
      have enoughLow := highs.enough_low splitF splitG splitH enough
      have onF := highs.grows.has splitF.has_low
      have onG := highs.grows.has splitG.has_low
      have onH := highs.grows.has splitH.has_low
      have lows := chooseWithin_chooses left highs.wellFormed onF onG onH enoughLow
      exact decided level f g h highs (ih wf splitF.has_high splitG.has_high splitH.has_high enoughHigh) lows
        (ih highs.wellFormed onF onG onH enoughLow) (highs.fits positive (by omega) splitF splitG splitH lows)

/-- Whatever is in `d'` but not in `d` is met below `r`. -/
def Thrifty (d : Diagram) (r : Region) (d' : Diagram) : Prop := ∀ s, d.size ≤ s.index → d'.Has s → d'.RestsOn r s

/-- What was added for both answers is met below the decision between them. -/
theorem Thrifty.decide {f0 f1 g0 g1 h0 h1 : Region} (highs : Chooses d f1 g1 h1 high d1) (high_thrifty : Thrifty d high d1)
    (lows : Chooses d1 f0 g0 h0 low d2) (low_thrifty : Thrifty d1 low d2) (fits : d2.Fits level low high) :
    Thrifty d (store level low high d2).1 (store level low high d2).2 := by
  have stored := store_decides lows.wellFormed fits
  obtain ⟨toLow, toHigh, only⟩ := store_adds lows.wellFormed level low high
  intro s new has
  by_cases last : d2.size ≤ s.index
  · rw [only s last has]
  by_cases second : d1.size ≤ s.index
  · have rests := low_thrifty s second (Nat.lt_of_not_le last)
    exact toLow.trans (stored.grows.restsOn lows.wellFormed lows.has rests)
  · have rests := high_thrifty s new (Nat.lt_of_not_le second)
    exact toHigh.trans ((lows.grows.trans stored.grows).restsOn highs.wellFormed highs.has rests)

theorem choose_thrifty (wf : d.WellFormed) (hf : d.Has f) (hg : d.Has g) (hh : d.Has h) :
    Thrifty d (choose f g h d).1 (choose f g h d).2 := by
  apply chooseWithin_induction (P := Thrifty) _ _ _ wf hf hg hh
  · have := wf.one_le_level hf
    have := wf.one_le_level hg
    have := wf.one_le_level hh
    omega
  · intro d r _ s new old
    exact absurd old (Nat.not_lt.2 new)
  · intro d d1 d2 f0 f1 g0 g1 h0 h1 low high level f g h highs high_thrifty lows low_thrifty fits
    exact high_thrifty.decide highs lows low_thrifty fits

/-- Nothing is added for a region that was there before. -/
theorem Thrifty.size_eq (thrifty : Thrifty d r d') (grows : d.Extends d') (wf : d'.WellFormed) (old : d.Has r) :
    d'.size = d.size := by
  obtain same | more := Nat.eq_or_lt_of_le grows.size_le
  · exact same.symm
  · have rests := thrifty ⟨d.size⟩ (Nat.le_refl _) more
    exact absurd (rests.index_le wf (grows.has old)) (Nat.not_le.2 old)

/-- A choice that is made again in a diagram that has its region yields that region, and stores nothing. -/
theorem choose_again (wf : d.WellFormed) (hf : d.Has f) (hg : d.Has g) (hh : d.Has h)
    (wf' : d'.WellFormed) (ext : (choose f g h d).2.Extends d') :
    (choose f g h d').1 = (choose f g h d).1 ∧ (choose f g h d').2.size = d'.size := by
  have first := choose_chooses wf hf hg hh
  have before := first.grows.trans ext
  have again := choose_chooses wf' (before.has hf) (before.has hg) (before.has hh)
  have old : d'.Has (choose f g h d).1 := ext.has first.has
  have same : (choose f g h d').1 = (choose f g h d).1 := by
    apply again.wellFormed.eq_of_holds again.has (again.grows.has old)
    intro c
    rw [again.holds, before.holds_eq wf hf, before.holds_eq wf hg, before.holds_eq wf hh, ← first.holds,
      again.grows.holds_eq wf' old, ext.holds_eq first.wellFormed first.has]
  have thrifty := choose_thrifty wf' (before.has hf) (before.has hg) (before.has hh)
  exact ⟨same, thrifty.size_eq again.grows again.wellFormed (same ▸ old)⟩

/--
A choice, complement, meet or join about regions of a session only appends to the arena, and every decision it appends is
met below the region that it yields. If that region was there before, the size stays the same; in particular the same
request, made again at any later time, yields the same region and stores nothing.
-/
theorem choice_thrifty (session : Session d names ledger) (request : Request Entry) (choice : request.isChoice = true)
    (known : ∀ e ∈ request.arguments, e ∈ ledger) :
    ∃ r d', answer request d = (some r, d') ∧ d.decisions.toList <+: d'.decisions.toList ∧
      (∀ s, d.size ≤ s.index → d'.Has s → d'.RestsOn r s) ∧
      (d.Has r → d'.size = d.size) ∧
      ∀ d'', Later d' d'' → (answer request d'').1 = some r ∧ (answer request d'').2.size = d''.size := by
  have faithful := session.faithful
  have wf := faithful.wellFormed
  obtain ⟨f, g, h, perform, arguments⟩ :=
    Request.exists_choice ((request.isChoice_map Entry.region).trans choice)
  have has : ∀ r, r = f ∨ r = g ∨ r = h → d.Has r := by
    intro r part
    obtain argument | rfl | rfl := arguments r part
    · rw [Request.arguments_map, List.mem_map] at argument
      obtain ⟨e, mem, rfl⟩ := argument
      exact faithful.has e (known e mem)
    · exact wf.has_empty
    · exact wf.has_all
  have hf := has f (.inl rfl)
  have hg := has g (.inr (.inl rfl))
  have hh := has h (.inr (.inr rfl))
  have chosen := choose_chooses wf hf hg hh
  have thrifty := choose_thrifty wf hf hg hh
  have answered : ∀ d, answer request d = (some (choose f g h d).1, (choose f g h d).2) := fun d => by
    rw [answer, perform]
    rfl
  refine ⟨_, _, answered d, chosen.grows.isPrefix, thrifty, thrifty.size_eq chosen.grows chosen.wellFormed, ?_⟩
  intro d'' later
  obtain ⟨wf'', ext⟩ := later.grows chosen.wellFormed
  obtain ⟨same, size⟩ := choose_again wf hf hg hh wf'' ext
  rw [answered d'']
  exact ⟨congrArg some same, size⟩

section Example

def eitherComplemented : Diagram := (answer (.complement eitherEntry) fourDeclared).2

/-- Two decisions are stored; a fifth feature that is declared later does not matter for the same request. -/
theorem choice_thrifty_complement :
    (∃ ledger, Session fourDeclared ["D", "C", "B", "A"] ledger ∧ eitherEntry ∈ ledger) ∧
    fourDeclared.size = 7 ∧ eitherComplemented.size = 9 ∧ eitherComplemented.RestsOn ⟨8⟩ ⟨7⟩ ∧
    (answer (.complement eitherEntry) (answer (.declare "E") eitherComplemented).2).1 = some ⟨8⟩ := by
  obtain ⟨ledger, session, mem⟩ := session_four
  obtain ⟨r, d', asked, _, rests, _, again⟩ :=
    choice_thrifty session (.complement eitherEntry) rfl (by simpa [Request.arguments] using mem)
  have size : fourDeclared.size = 7 := by decide +kernel
  have size' : eitherComplemented.size = 9 := by decide +kernel
  have first : (answer (.complement eitherEntry) fourDeclared).1 = some ⟨8⟩ := by decide +kernel
  obtain rfl : r = ⟨8⟩ := Option.some.inj ((congrArg Prod.fst asked).symm.trans first)
  obtain rfl : eitherComplemented = d' := congrArg Prod.snd asked
  have later : Later eitherComplemented (answer (.declare "E") eitherComplemented).2 :=
    .single ⟨.declare "E", by simp [Request.arguments], rfl⟩
  refine ⟨⟨ledger, session, mem⟩, size, size', rests ⟨7⟩ ?_ ?_, (again _ later).1⟩
  · exact Nat.le_of_eq size
  · rw [Has, size']
    decide

end Example

end Diagram

end GoalCoverage
