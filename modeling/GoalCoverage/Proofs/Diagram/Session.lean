import GoalCoverage.Proofs.Diagram.Built
import GoalCoverage.Proofs.Diagram.Computation
import GoalCoverage.Proofs.Diagram.Features

/-!
Sessions with a diagram. A session starts with a fresh diagram and makes requests about the regions that were
handed out; its ledger notes next to every region the set that the request asks for, worked out without the
diagram. At any time all regions of the ledger denote what is noted next to them (`session_denotes`).
-/

namespace GoalCoverage

/-- A set of configurations, each given by the names of the features that are present in it. -/
abbrev Meaning := (String → Bool) → Bool

/-- A request about regions, or about whatever stands for them. -/
inductive Request (α : Type) where
  | declare (name : String)
  | feature (name : String)
  | choose (f g h : α)
  | complement (f : α)
  | meet (f g : α)
  | join (f g : α)
  | without (f g : α)
  | meetAll (fs : List α)
  | joinAll (fs : List α)

namespace Request

variable {α β γ : Type}

def arguments : Request α → List α
  | declare _ => []
  | feature _ => []
  | choose f g h => [f, g, h]
  | complement f => [f]
  | meet f g => [f, g]
  | join f g => [f, g]
  | without f g => [f, g]
  | meetAll fs => fs
  | joinAll fs => fs

def map (k : α → β) : Request α → Request β
  | declare name => declare name
  | feature name => feature name
  | choose f g h => choose (k f) (k g) (k h)
  | complement f => complement (k f)
  | meet f g => meet (k f) (k g)
  | join f g => join (k f) (k g)
  | without f g => without (k f) (k g)
  | meetAll fs => meetAll (fs.map k)
  | joinAll fs => joinAll (fs.map k)

/-- The names that a request declares. -/
def declares : Request α → List String
  | declare name => [name]
  | _ => []

/-- Only a feature that nobody declared has no region. -/
def perform : Request Region → StateM Diagram (Option Region)
  | declare name => some <$> Diagram.declare name
  | feature name => Diagram.feature? name
  | choose f g h => some <$> Diagram.choose f g h
  | complement f => some <$> Diagram.complement f
  | meet f g => some <$> Diagram.meet f g
  | join f g => some <$> Diagram.join f g
  | without f g => some <$> Diagram.without f g
  | meetAll fs => some <$> Diagram.meetAll fs
  | joinAll fs => some <$> Diagram.joinAll fs

/-- The set that a request about sets asks for. -/
def meaning : Request Meaning → Meaning
  | declare name => fun present => present name
  | feature name => fun present => present name
  | choose f g h => fun present => (f present && g present) || (!f present && h present)
  | complement f => fun present => !f present
  | meet f g => fun present => f present && g present
  | join f g => fun present => f present || g present
  | without f g => fun present => f present && !g present
  | meetAll fs => fun present => fs.all fun f => f present
  | joinAll fs => fun present => fs.any fun f => f present

theorem arguments_map (k : α → β) (request : Request α) : (request.map k).arguments = request.arguments.map k := by
  cases request <;> rfl

theorem map_map (k : α → β) (k' : β → γ) (request : Request α) :
    (request.map k).map k' = request.map fun a => k' (k a) := by
  cases request <;> simp [map]

theorem map_congr {k k' : α → β} (request : Request α) (same : ∀ a ∈ request.arguments, k a = k' a) :
    request.map k = request.map k' := by
  cases request <;> simp_all [map, arguments]

end Request

namespace Diagram

variable {d d' : Diagram} {r : Region} {name : String} {α : Type}

/-- The configurations of a region, by the features that are present in them. -/
def denotes (d : Diagram) (r : Region) : Meaning := fun present => d.holds r fun level => present (d.featureName level)

/-- A region that was handed out, and the set that it was asked for. -/
structure Entry where
  region : Region
  meaning : Meaning

/-- A request of a session, made of the diagram. -/
def answer (request : Request Entry) : StateM Diagram (Option Region) := (request.map Entry.region).perform

/-- What is noted when a request is answered. -/
def noted (request : Request Entry) (d : Diagram) : List Entry :=
  (answer request d).1.toList.map fun r => ⟨r, (request.map Entry.meaning).meaning⟩

/-- The diagram, the names declared so far and the ledger of a session. -/
inductive Session : Diagram → List String → List Entry → Prop
  | start : Session fresh [] [⟨.empty, fun _ => false⟩, ⟨.all, fun _ => true⟩]
  | ask {d : Diagram} {names : List String} {ledger : List Entry} (request : Request Entry) :
    Session d names ledger → (∀ e ∈ request.arguments, e ∈ ledger) →
    Session (answer request d).2 (request.declares ++ names) (noted request d ++ ledger)

section Names

theorem featureName_eq {level : Nat} (bound : level - 1 < d.features.length) :
    d.featureName level = d.features[level - 1] := by
  simp [featureName, bound]

theorem featureName_of_levelOf? {level : Nat} (known : d.levelOf? name = some level) : d.featureName level = name := by
  rw [levelOf?, Option.map_eq_some_iff] at known
  obtain ⟨i, found, rfl⟩ := known
  obtain ⟨bound, same, _⟩ := List.findIdx?_eq_some_iff_getElem.1 found
  rw [featureName_eq bound]
  exact eq_of_beq same

theorem levelOf?_eq_none : d.levelOf? name = none ↔ name ∉ d.features := by
  rw [levelOf?, Option.map_eq_none_iff, List.idxOf?_eq_none_iff]

theorem mem_features_of_levelOf? {level : Nat} (known : d.levelOf? name = some level) : name ∈ d.features := by
  have declared : ¬name ∉ d.features := mt levelOf?_eq_none.2 fun none => by
    rw [known] at none
    cases none
  exact Decidable.not_not.1 declared

theorem declare_of_known {level : Nat} (known : d.levelOf? name = some level) :
    declare name d = store level .empty .all d := by
  rw [declare, known]

theorem declare_of_new (new : d.levelOf? name = none) :
    declare name d = store (d.features.length + 1) .empty .all (d.widened name) := by
  rw [declare, new, widened]

theorem feature?_of_known {level : Nat} (known : d.levelOf? name = some level) :
    feature? name d = (some (store level .empty .all d).1, (store level .empty .all d).2) := by
  rw [feature?, known]
  rfl

theorem feature?_of_unknown (unknown : d.levelOf? name = none) : feature? name d = (none, d) := by
  rw [feature?, unknown]

theorem featureName_stays {level : Nat} (names : d.features <+: d'.features) (positive : 1 ≤ level)
    (bound : level ≤ d.features.length) : d'.featureName level = d.featureName level := by
  have inside : level - 1 < d.features.length := by omega
  rw [featureName_eq inside, featureName_eq (Nat.lt_of_lt_of_le inside names.length_le), names.getElem inside]

/-- Only the levels of the declared features matter for a region. -/
theorem WellFormed.holds_congr_features {c c' : Configuration} (wf : d.WellFormed) (has : d.Has r)
    (same : ∀ l, 1 ≤ l → l ≤ d.features.length → c l = c' l) : d.holds r c = d.holds r c' := by
  have first : d.holds r c = d.holds r fun l => if l = 0 then c' l else c l := by
    apply wf.holds_congr has
    intro l deep
    have := wf.one_le_level has
    exact (if_neg (by omega)).symm
  have second : d.holds r (fun l => if l = 0 then c' l else c l) = d.holds r c' := by
    apply wf.holds_congr_le has
    intro l bound
    by_cases zero : l = 0
    · exact if_pos zero
    · exact (if_neg zero).trans (same l (Nat.one_le_iff_ne_zero.2 zero) bound)
  exact first.trans second

/-- More decisions and more features change no region. -/
theorem Extends.denotes_eq (ext : d.Extends d') (names : d.features <+: d'.features) (wf : d.WellFormed) (has : d.Has r) :
    d'.denotes r = d.denotes r := by
  funext present
  rw [denotes, denotes, ext.holds_eq wf has]
  apply wf.holds_congr_features has
  intro l positive bound
  rw [featureName_stays names positive bound]

end Names

/-- `d'` extends `d`, and the answer `r` that was found with it denotes a set. -/
structure Grants (d : Diagram) (meaning : Meaning) (r : Option Region) (d' : Diagram) : Prop where
  grows : d.Extends d'
  wellFormed : d'.WellFormed
  names : d.features <+: d'.features
  has : ∀ s, r = some s → d'.Has s
  denotes : ∀ s, r = some s → d'.denotes s = meaning

section Grants

variable {m : StateM Diagram Region} {f g h : Region} {fs : List Region} {level : Nat}

/-- A computation that declares nothing is judged by what it does with levels. -/
theorem Yields.grants {set : Configuration → Bool} {meaning : Meaning} (stable : Stable m)
    (yields : Yields true m d fun r d' => d'.Has r ∧ ∀ c, d'.holds r c = set c)
    (same : ∀ present, set (fun level => present (d.featureName level)) = meaning present) :
    Grants d meaning (some (m d).1) (m d).2 where
  grows := yields.1
  wellFormed := yields.2.1 rfl
  names := (stable d).symm ▸ List.prefix_rfl
  has s found := by
    cases found
    exact yields.2.2.1
  denotes s found := by
    cases found
    funext present
    have names : (m d).2.featureName = d.featureName := by
      funext level
      rw [featureName, featureName, stable d]
    rw [Diagram.denotes, names, yields.2.2.2, same]

/-- The decision on one feature denotes the configurations that have it. -/
theorem grants_store (wf : d.WellFormed) (known : d.levelOf? name = some level) :
    Grants d (fun present => present name) (some (store level .empty .all d).1) (store level .empty .all d).2 := by
  have bounds := levelOf?_le known
  have stored := store_decides wf (fits_feature wf bounds.1 bounds.2)
  have yields : Yields true (store level .empty .all) d fun r d' => d'.Has r ∧ ∀ c, d'.holds r c = c level :=
    ⟨stored.grows, fun _ => stored.wellFormed, stored.has, fun c => by
      rw [stored.holds c, holds_all, holds_empty]
      cases c level <;> rfl⟩
  apply yields.grants (store_stable level .empty .all)
  intro present
  exact congrArg present (featureName_of_levelOf? known)

theorem levelOf?_widened (new : name ∉ d.features) : (d.widened name).levelOf? name = some (d.features.length + 1) := by
  rw [← List.idxOf?_eq_none_iff, List.idxOf?] at new
  simp [levelOf?, widened, List.idxOf?, List.findIdx?_append, new]

theorem grants_declare (wf : d.WellFormed) (name : String) :
    Grants d (fun present => present name) (some (declare name d).1) (declare name d).2 := by
  cases known : d.levelOf? name with
  | some level =>
    rw [declare_of_known known]
    exact grants_store wf known
  | none =>
    rw [declare_of_new known]
    have granted := grants_store (wf.widened name) (levelOf?_widened (levelOf?_eq_none.1 known))
    exact
      { granted with
        grows := (extends_widened d name).trans granted.grows
        names := (List.prefix_append d.features [name]).trans granted.names }

theorem grants_feature (wf : d.WellFormed) (name : String) :
    Grants d (fun present => present name) (feature? name d).1 (feature? name d).2 := by
  cases known : d.levelOf? name with
  | some level =>
    rw [feature?_of_known known]
    exact grants_store wf known
  | none =>
    rw [feature?_of_unknown known]
    exact ⟨.refl d, wf, List.prefix_rfl, fun _ found => (nomatch found), fun _ found => (nomatch found)⟩

theorem meetAll_stable (fs : List Region) : Stable (meetAll fs) := .foldlM meet_stable _

/-- Every request is answered by a region that denotes what the request asks for. -/
theorem grants_perform (wf : d.WellFormed) (request : Request Region) (has : ∀ r ∈ request.arguments, d.Has r) :
    Grants d (request.map d.denotes).meaning (request.perform d).1 (request.perform d).2 := by
  cases request with
  | declare name => exact grants_declare wf name
  | feature name => exact grants_feature wf name
  | choose f g h =>
    simp only [Request.arguments, List.forall_mem_cons] at has
    apply ((choose_chooses wf has.1 has.2.1 has.2.2.1).yields).grants (choose_stable f g h)
    intro present
    simp only [Request.map, Request.meaning, denotes]
    cases d.holds f _ <;> simp
  | complement f =>
    simp only [Request.arguments, List.forall_mem_cons] at has
    exact (complement_yields wf has.1).grants (complement_stable f) fun _ => rfl
  | meet f g =>
    simp only [Request.arguments, List.forall_mem_cons] at has
    exact (meet_yields wf has.1 has.2.1).grants (meet_stable f g) fun _ => rfl
  | join f g =>
    simp only [Request.arguments, List.forall_mem_cons] at has
    exact (join_yields wf has.1 has.2.1).grants (join_stable f g) fun _ => rfl
  | without f g =>
    simp only [Request.arguments, List.forall_mem_cons] at has
    exact (without_yields wf has.1 has.2.1).grants (without_stable f g) fun _ => rfl
  | meetAll fs =>
    apply (meetAll_yields wf has).grants (meetAll_stable fs)
    intro present
    simp [Request.map, Request.meaning, Request.arguments, denotes, Function.comp_def]
  | joinAll fs =>
    have yields : Yields true (joinAll fs) d fun r d' => d'.Has r ∧ ∀ c, d'.holds r c = fs.any fun f => d.holds f c := by
      apply (joinAll_yields wf has).mono
      intro r d' _ _ spec
      refine ⟨spec.1, fun c => ?_⟩
      rw [Bool.eq_iff_iff, spec.2 c, List.any_eq_true]
      rfl
    apply yields.grants (joinAll_stable fs)
    intro present
    simp [Request.map, Request.meaning, denotes, Function.comp_def]

/-- Only a declaration changes the features, and only by a new one. -/
theorem features_perform (request : Request Region) (d : Diagram) :
    (request.perform d).2.features = d.features ++ request.declares.filter (· ∉ d.features) := by
  have kept {m : StateM Diagram Region} (stable : Stable m) : (m d).2.features = d.features ++ [].filter (· ∉ d.features) := by
    simpa using stable d
  cases request with
  | declare name =>
    change (declare name d).2.features = d.features ++ [name].filter (· ∉ d.features)
    cases known : d.levelOf? name with
    | some level =>
      rw [declare_of_known known, store_stable]
      simp [mem_features_of_levelOf? known]
    | none =>
      rw [declare_of_new known, store_stable]
      simp [widened, levelOf?_eq_none.1 known]
  | feature name =>
    change (feature? name d).2.features = d.features ++ [].filter (· ∉ d.features)
    cases known : d.levelOf? name with
    | some level =>
      rw [feature?_of_known known]
      exact kept (store_stable level .empty .all)
    | none =>
      rw [feature?_of_unknown known]
      simp
  | choose f g h => exact kept (choose_stable f g h)
  | complement f => exact kept (complement_stable f)
  | meet f g => exact kept (meet_stable f g)
  | join f g => exact kept (join_stable f g)
  | without f g => exact kept (without_stable f g)
  | meetAll fs => exact kept (meetAll_stable fs)
  | joinAll fs => exact kept (joinAll_stable fs)

theorem perform_eq_none_iff {request : Request Region} :
    (request.perform d).1 = none ↔ ∃ name, request = .feature name ∧ name ∉ d.features := by
  cases request with
  | feature name =>
    change (feature? name d).1 = none ↔ _
    cases known : d.levelOf? name with
    | some level =>
      rw [feature?_of_known known]
      simp [mem_features_of_levelOf? known]
    | none =>
      rw [feature?_of_unknown known]
      simp [levelOf?_eq_none.1 known]
  | _ => exact ⟨fun none => (nomatch none), fun ⟨_, same, _⟩ => (nomatch same)⟩

end Grants

/-- What holds of a session at any time. -/
structure Faithful (d : Diagram) (names : List String) (ledger : List Entry) : Prop where
  grows : fresh.Extends d
  wellFormed : d.WellFormed
  nodup : d.features.Nodup
  declared : ∀ name, name ∈ d.features ↔ name ∈ names
  has : ∀ e ∈ ledger, d.Has e.region
  denotes : ∀ e ∈ ledger, d.denotes e.region = e.meaning

section Ledger

variable {names : List String} {ledger : List Entry} {request : Request Entry}

theorem faithful_start : Faithful fresh [] [⟨.empty, fun _ => false⟩, ⟨.all, fun _ => true⟩] where
  grows := .refl fresh
  wellFormed := wellFormed_fresh
  nodup := List.nodup_nil
  declared _ := Iff.rfl
  has := by simp [wellFormed_fresh.has_empty, wellFormed_fresh.has_all]
  denotes := by
    simp only [List.forall_mem_cons, List.not_mem_nil, false_imp_iff, implies_true, and_true]
    exact ⟨funext fun _ => holds_empty, funext fun _ => holds_all⟩

/-- The answer to a request about regions of the ledger. -/
theorem Faithful.grants (faithful : Faithful d names ledger) (known : ∀ e ∈ request.arguments, e ∈ ledger) :
    Grants d (request.map Entry.meaning).meaning (answer request d).1 (answer request d).2 := by
  have same : (request.map Entry.region).map d.denotes = request.map Entry.meaning := by
    rw [Request.map_map]
    exact request.map_congr fun e mem => faithful.denotes e (known e mem)
  rw [← same]
  apply grants_perform faithful.wellFormed
  rw [Request.arguments_map, List.forall_mem_map]
  exact fun e mem => faithful.has e (known e mem)

theorem Faithful.ask (faithful : Faithful d names ledger) (known : ∀ e ∈ request.arguments, e ∈ ledger) :
    Faithful (answer request d).2 (request.declares ++ names) (noted request d ++ ledger) := by
  have granted := faithful.grants known
  have features : (answer request d).2.features =
      d.features ++ (request.map Entry.region).declares.filter (· ∉ d.features) := features_perform _ d
  have declares : (request.map Entry.region).declares = request.declares := by cases request <;> rfl
  rw [declares] at features
  have new : ∀ e ∈ noted request d, (answer request d).1 = some e.region ∧ e.meaning = (request.map Entry.meaning).meaning := by
    intro e mem
    rw [noted, List.mem_map] at mem
    obtain ⟨r, found, rfl⟩ := mem
    exact ⟨Option.mem_toList.1 found, rfl⟩
  refine ⟨faithful.grows.trans granted.grows, granted.wellFormed, ?_, fun name => ?_, fun e mem => ?_, fun e mem => ?_⟩
  · rw [features, List.nodup_append]
    have single : request.declares.Nodup := by cases request <;> simp [Request.declares]
    refine ⟨faithful.nodup, single.filter _, fun name old name' new' same => ?_⟩
    rw [← same] at new'
    simpa [old] using (List.mem_filter.1 new').2
  · rw [features, List.mem_append, List.mem_append, List.mem_filter, ← faithful.declared]
    by_cases old : name ∈ d.features <;> simp [old]
  · obtain mem | mem := List.mem_append.1 mem
    · exact granted.has _ (new e mem).1
    · exact granted.grows.has (faithful.has e mem)
  · obtain mem | mem := List.mem_append.1 mem
    · rw [(new e mem).2]
      exact granted.denotes _ (new e mem).1
    · rw [granted.grows.denotes_eq granted.names faithful.wellFormed (faithful.has e mem)]
      exact faithful.denotes e mem

theorem Session.faithful (session : Session d names ledger) : Faithful d names ledger := by
  induction session with
  | start => exact faithful_start
  | ask request before known ih => exact ih.ask known

/--
In a session all regions denote what they were asked for, the answer to the next request included, which is
missing only for a feature that was not declared; and no request changes what earlier regions denote.
-/
theorem session_denotes (session : Session d names ledger) (request : Request Entry)
    (known : ∀ e ∈ request.arguments, e ∈ ledger) :
    (∀ e ∈ ledger, d.denotes e.region = e.meaning) ∧
    (∀ r, (answer request d).1 = some r → (answer request d).2.denotes r = (request.map Entry.meaning).meaning) ∧
    ((answer request d).1 = none ↔ ∃ name, request = .feature name ∧ name ∉ names) ∧
    ∀ e ∈ ledger, (answer request d).2.denotes e.region = d.denotes e.region := by
  have faithful := session.faithful
  have granted := faithful.grants known
  refine ⟨faithful.denotes, granted.denotes, ?_, fun e mem => ?_⟩
  · rw [answer, perform_eq_none_iff]
    simp only [faithful.declared]
    apply exists_congr
    intro name
    apply and_congr_left
    intro _
    cases request <;> simp [Request.map]
  · exact granted.grows.denotes_eq granted.names faithful.wellFormed (faithful.has e mem)

end Ledger

section Example

/-- The configurations that have the feature, as the first region of a session. -/
def featureEntry : Entry := ⟨⟨2⟩, fun present => present "A"⟩

def featureLedger : List Entry := [featureEntry, ⟨.empty, fun _ => false⟩, ⟨.all, fun _ => true⟩]

theorem session_feature : Session (answer (.declare "A") fresh).2 ["A"] featureLedger :=
  .ask (.declare "A") .start (by simp [Request.arguments])

theorem session_denotes_complement : ∃ r, (answer (.complement featureEntry) (answer (.declare "A") fresh).2).1 = some r ∧
    (answer (.complement featureEntry) (answer (.declare "A") fresh).2).2.denotes r = fun present => !present "A" := by
  have known : ∀ e ∈ (Request.complement featureEntry).arguments, e ∈ featureLedger := by
    simp [Request.arguments, featureLedger]
  exact ⟨_, rfl, (session_denotes session_feature (.complement featureEntry) known).2.1 _ rfl⟩

end Example

end Diagram

end GoalCoverage
