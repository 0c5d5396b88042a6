import GoalCoverage.Explorer
import GoalCoverage.Proofs.Hunt
import Mathlib.Data.List.Perm.Subperm
import Mathlib.Data.Set.Card
import Mathlib.Logic.Relation
import Mathlib.Order.Interval.Finset.Nat

/-!
Cycles of programs, and sets of locations that cut them. A cycle that can be reached from the entry is entered from
outside or passes the entry, and where it is entered control flow merges. So the joins of a program cut all its cycles if
they cut those through the entry (`cuts_joins`); the entry itself is no join if a single edge leads back to it. Where all
cycles are cut, a way that meets none of the cuts has an end: fewer and fewer locations are left for it (`reach_lt`).
-/

namespace GoalCoverage.Program

open Relation

variable {p : Program} {cuts : IdSet} {start n m : Location} {trace : List EdgeId} {e f : EdgeId} {edge other : Edge}

/-- Every walk that comes back to a location takes an edge to one of the cuts. -/
def CutAt (p : Program) (cuts : IdSet) (n : Location) : Prop :=
  ∀ trace, trace ≠ [] → p.Walk n trace n → ∃ e ∈ trace, ∃ edge : Edge, p.edges[e]? = some edge ∧ edge.target ∈ cuts

/-- An edge leads from `n` to `m`, which is none of the cuts. -/
def Slips (p : Program) (cuts : IdSet) (n m : Location) : Prop :=
  m ∉ cuts ∧ ∃ (e : EdgeId) (edge : Edge), p.edges[e]? = some edge ∧ edge.source = n ∧ edge.target = m

/-- No cycle that can be reached avoids the cuts. -/
def Cuts (p : Program) (cuts : IdSet) : Prop :=
  ∀ start trace n, p.entry = .ok start → p.Walk start trace n → ¬TransGen (p.Slips cuts) n n

theorem exists_walk_of_slips (way : TransGen (p.Slips cuts) n m) : ∃ trace, trace ≠ [] ∧ p.Walk n trace m ∧
    ∀ e ∈ trace, ∀ edge : Edge, p.edges[e]? = some edge → edge.target ∉ cuts := by
  induction way with
  | single slips =>
    obtain ⟨free, e, edge, there, source, rfl⟩ := slips
    refine ⟨[e], List.cons_ne_nil _ _, Walk.stay.step there source, fun f mem other there' => ?_⟩
    cases List.mem_singleton.1 mem
    cases there.symm.trans there'
    exact free
  | tail _ slips ih =>
    obtain ⟨trace, _, walk, frees⟩ := ih
    obtain ⟨free, e, edge, there, source, rfl⟩ := slips
    refine ⟨trace ++ [e], by simp, walk.step there source, fun f mem other there' => ?_⟩
    cases List.mem_append.1 mem with
    | inl before => exact frees f before other there'
    | inr last =>
      cases List.mem_singleton.1 last
      cases there.symm.trans there'
      exact free

theorem CutAt.not_slips (cut : p.CutAt cuts n) : ¬TransGen (p.Slips cuts) n n := by
  intro cycle
  obtain ⟨trace, long, walk, frees⟩ := exists_walk_of_slips cycle
  obtain ⟨e, mem, edge, there, met⟩ := cut trace long walk
  exact frees e mem edge there met

theorem walk_nil (walk : p.Walk start [] n) : n = start := by
  generalize none : [] = trace at walk
  cases walk with
  | stay => rfl
  | step _ _ _ => simp at none

/-- The cuts need not be met at the location itself if every edge that leads there comes from one of them. -/
theorem cutAt_of_edges (cut : ∀ edge ∈ p.edges, edge.target = n → edge.source ∈ cuts ∧ edge.source ≠ n) : p.CutAt cuts n := by
  intro trace long walk
  obtain ⟨before, e, rfl⟩ := List.eq_nil_or_concat' trace |>.resolve_left long
  obtain ⟨edge, there, walk, target⟩ := walk.exists_last
  obtain ⟨met, other⟩ := cut edge (Array.mem_of_getElem? there) target
  -- The walk to the source of the last edge has an edge that leads there.
  obtain rfl | ⟨before, f, rfl⟩ := List.eq_nil_or_concat' before
  · exact absurd (walk_nil walk) other
  · obtain ⟨edge', there', _, target'⟩ := walk.exists_last
    exact ⟨f, by simp, edge', there', target' ▸ met⟩

section Joins

theorem mem_entering : e ∈ p.entering n ↔ ∃ edge : Edge, p.edges[e]? = some edge ∧ edge.target = n := by
  simp only [entering, edgeIds, List.mem_filter, List.mem_range, Option.any_eq_true, beq_iff_eq]
  constructor
  · exact fun h => h.2
  · rintro ⟨edge, there, target⟩
    exact ⟨(Array.getElem?_eq_some_iff.1 there).1, edge, there, target⟩

/-- Where two edges lead, control flow merges. -/
theorem mem_joins (there : p.edges[e]? = some edge) (there' : p.edges[f]? = some other)
    (same : other.target = edge.target) (ne : e ≠ f) : edge.target ∈ p.joins := by
  have known : edge.target < p.locations.size := (p.ends_known edge (Array.mem_of_getElem? there)).2
  have both : [e, f] ⊆ p.entering edge.target := by
    intro g mem
    simp only [List.mem_cons, List.not_mem_nil, or_false] at mem
    rcases mem with rfl | rfl
    · exact mem_entering.2 ⟨edge, there, rfl⟩
    · exact mem_entering.2 ⟨other, there', same⟩
  have two : 2 ≤ (p.entering edge.target).length := (List.Nodup.subperm (by simpa using ne) both).length_le
  rw [joins, IdSet.mem_ofList, List.mem_filter, locationIds, List.mem_range]
  exact ⟨known, decide_eq_true two⟩

/-- A cycle without joins can only be left backwards at the entry. -/
theorem slips_start (walk : p.Walk start trace n) (cycle : TransGen (p.Slips p.joins) n n) :
    TransGen (p.Slips p.joins) start start := by
  induction walk with
  | stay => exact cycle
  | @step _ middle e edge _ there source ih =>
    -- The edge of the walk and the last one of the cycle lead to the same location, so they are one edge.
    obtain ⟨k, rest, free, f, other, there', source', target⟩ := TransGen.tail'_iff.1 cycle
    have same : e = f := by
      by_contra ne
      exact free (mem_joins there there' target ne)
    cases same
    cases there.symm.trans there'
    cases source.symm.trans source'
    exact ih (.head' ⟨free, e, edge, there, source, rfl⟩ rest)

/-- It is enough that the joins cut the cycles through the entry. -/
theorem cuts_joins (cut : ∀ n, p.entry = .ok n → p.CutAt p.joins n) : p.Cuts p.joins :=
  fun start _ _ entry walk cycle => (cut start entry).not_slips (slips_start walk cycle)

end Joins

section Reach

/-- How many locations can be reached without meeting any of the cuts. -/
noncomputable def reach (p : Program) (cuts : IdSet) (n : Location) : Nat := {m | TransGen (p.Slips cuts) n m}.ncard

theorem finite_reach : {m | TransGen (p.Slips cuts) n m}.Finite := by
  refine (Set.finite_Iio p.locations.size).subset fun m way => ?_
  obtain ⟨_, _, _, _, edge, there, _, target⟩ := TransGen.tail'_iff.1 way
  exact target ▸ (p.ends_known edge (Array.mem_of_getElem? there)).2

theorem reach_lt (slips : p.Slips cuts n m) (acyclic : ¬TransGen (p.Slips cuts) m m) : p.reach cuts m < p.reach cuts n := by
  refine Set.ncard_lt_ncard ⟨fun k way => .head slips way, fun all => acyclic (all ?_)⟩ finite_reach
  exact .single slips

end Reach

end GoalCoverage.Program
