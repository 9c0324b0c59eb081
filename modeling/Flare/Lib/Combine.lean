import Mathlib
import Flare.Lib.Fold
import Flare.Lib.GroupBy

/-!
# Combining by key

A combine-by-key folds the values of each key into a combiner: `g` makes the combiner of
one value, and `f` merges two combiners.  When `f` is associative, a combiner built from
a list of values by any bracketing is `reduce f` of the values' one-value combiners, the
*aggregate* of the list.  A combine-by-key is then a group-by-key seen through the
aggregate: every key once, with the aggregate of its values in some order.

The distributed algorithms combine in pieces: a run fold of sorted input, a split into
buckets, a merge of sorted buckets, a second run fold.  Each piece is followed here by the
group-by-key of `Flare.Lib.GroupBy` on the same input, entry by entry: `Aggregates g f e w`
says that the entry `e` is the image under the aggregate of the entry `w` of the grouping
run.  The relation travels along lists by `List.Forall₂`, through concatenation,
filtering and permutation, and through both run folds.

## Main definitions

* `aggregate g f vs` — `reduce f (vs.map g)`, the combiner of the values `vs`.
* `Aggregates g f e w` — same key, and `e`'s combiner is the aggregate of `w`'s values.
* `PrecombinesBy`, `CombinesBy` — combiners that aggregate, entry by entry, pregroups or
  groups of a list.

## Main results

* `forall₂_aggregates_foldRuns_singleton` — the run fold with `g` and a `merge_value`
  that merges the value's combiner aggregates the run fold that collects values.
* `forall₂_aggregates_foldRuns_id` — the run fold that merges combiners aggregates the run
  fold that appends value lists.
* `combinesBy_foldRuns` — closing key-sorted precombiners into combiners.
* `CombinesBy.count_keys`, `CombinesBy.exists_perm_of_mem` — what a combine-by-key holds.
-/

namespace KeyedList

open Folds

universe u v w

variable {κ : Type u} {β : Type v} {γ : Type w}

/-! ### Aggregates -/

section Aggregate

variable (g : β → γ) (f : γ → γ → γ)

/-- The combiner of the values `vs`: their one-value combiners merged from the left;
nothing for no value. -/
def aggregate (vs : List β) : Option γ := reduce f (vs.map g)

/-- **An entry aggregates an entry of value lists**: the same key, and the combiner is the
aggregate of the values. -/
def Aggregates (e : κ × γ) (e' : κ × List β) : Prop :=
  (e.1, some e.2) = (e'.1, aggregate g f e'.2)

@[simp] theorem aggregate_singleton (v : β) : aggregate g f [v] = some (g v) := rfl

theorem aggregate_append [Std.Associative f] (vs ws : List β) :
    aggregate g f (vs ++ ws) = Option.merge f (aggregate g f vs) (aggregate g f ws) := by
  rw [aggregate, List.map_append, reduce_append]
  rfl

variable {g f}

/-- Entry by entry, aggregating is an equation between the lists' projections. -/
theorem forall₂_aggregates_iff {m : List (κ × γ)} {l : List (κ × List β)} :
    List.Forall₂ (Aggregates g f) m l ↔
      m.map (fun e => (e.1, some e.2)) = l.map fun e => (e.1, aggregate g f e.2) := by
  rw [← List.forall₂_eq_eq_eq, List.forall₂_map_left_iff, List.forall₂_map_right_iff]
  rfl

/-- Entries that aggregate have the same keys. -/
theorem keys_eq_of_forall₂_aggregates {m : List (κ × γ)} {l : List (κ × List β)}
    (h : List.Forall₂ (Aggregates g f) m l) : keys m = keys l := by
  have hmap := congrArg (List.map Prod.fst) (forall₂_aggregates_iff.mp h)
  simpa [keys, Function.comp_def] using hmap

/-- Keeping the entries whose key satisfies `q` keeps the relation. -/
theorem forall₂_aggregates_filter {m : List (κ × γ)} {l : List (κ × List β)}
    (h : List.Forall₂ (Aggregates g f) m l) (q : κ → Bool) :
    List.Forall₂ (Aggregates g f) (m.filter fun e => q e.1) (l.filter fun e => q e.1) :=
  List.rel_filter (fun e e' he => by
    have hkey : e.1 = e'.1 := (Prod.mk.inj he).1
    simp only [hkey]) h

/-- **The run fold that builds combiners value by value** aggregates the run fold that
collects the values, when adding a value merges its one-value combiner. -/
theorem forall₂_aggregates_foldRuns_singleton [DecidableEq κ] [Std.Associative f] {mv : γ → β → γ}
    (hv : ∀ c b, mv c b = f c (g b)) (l : List (κ × β)) :
    List.Forall₂ (Aggregates g f) (foldRuns g mv l) (foldRuns (fun b => [b]) (fun c b => c ++ [b]) l) := by
  -- both sides project to the run fold of `Option` combiners
  let mergeOne : Option γ → β → Option γ := fun c b => Option.merge f c (some (g b))
  have hleft : (foldRuns g mv l).map (fun e => (e.1, some e.2)) =
      foldRuns (fun b => some (g b)) mergeOne (l.map fun e => (e.1, id e.2)) :=
    map_foldRuns g mv some id (fun b => some (g b)) mergeOne (fun _ => rfl)
      (fun c b => by simp [mergeOne, hv, Option.merge]) l
  have hright : (foldRuns (fun b => [b]) (fun c b => c ++ [b]) l).map
      (fun e => (e.1, aggregate g f e.2)) =
      foldRuns (fun b => some (g b)) mergeOne (l.map fun e => (e.1, id e.2)) :=
    map_foldRuns (fun b => [b]) (fun c b => c ++ [b]) (aggregate g f) id (fun b => some (g b))
      mergeOne (fun _ => rfl) (fun c b => by rw [aggregate_append, aggregate_singleton]; rfl) l
  exact forall₂_aggregates_iff.mpr (hleft.trans hright.symm)

/-- **The run fold that merges combiners** aggregates the run fold that appends value
lists, on inputs that aggregate. -/
theorem forall₂_aggregates_foldRuns_id [DecidableEq κ] [Std.Associative f] {m : List (κ × γ)}
    {l : List (κ × List β)} (h : List.Forall₂ (Aggregates g f) m l) :
    List.Forall₂ (Aggregates g f) (foldRuns id f m) (foldRuns id (fun c b => c ++ b) l) := by
  have hleft : (foldRuns id f m).map (fun e => (e.1, some e.2)) =
      foldRuns id (Option.merge f) (m.map fun e => (e.1, some e.2)) :=
    map_foldRuns id f some some id (Option.merge f) (fun _ => rfl) (fun _ _ => rfl) m
  have hright : (foldRuns id (fun c b => c ++ b) l).map (fun e => (e.1, aggregate g f e.2)) =
      foldRuns id (Option.merge f) (l.map fun e => (e.1, aggregate g f e.2)) :=
    map_foldRuns id (fun c b => c ++ b) (aggregate g f) (aggregate g f) id (Option.merge f)
      (fun _ => rfl) (fun c b => aggregate_append g f c b) l
  rw [forall₂_aggregates_iff] at h ⊢
  rw [hleft, hright, h]

end Aggregate

/-! ### Combining over a key predicate -/

section Notions

variable [DecidableEq κ] (g : β → γ) (f : γ → γ → γ) (p : κ → Prop)

/-- **Precombiners**: entry by entry, the aggregates of pregroups of `l` over `p`. -/
def PrecombinesBy (l : List (κ × β)) (m : List (κ × γ)) : Prop :=
  ∃ pre, Pregroups p l pre ∧ List.Forall₂ (Aggregates g f) m pre

/-- **Combining by key** over the keys satisfying `p`: entry by entry, the aggregates of
groups of `l` over `p`. -/
def CombinesBy (l : List (κ × β)) (out : List (κ × γ)) : Prop :=
  ∃ groups, GroupsBy p l groups ∧ List.Forall₂ (Aggregates g f) out groups

variable {g f p}

/-- The pieces may come in any order. -/
theorem PrecombinesBy.perm_right {l : List (κ × β)} {m m' : List (κ × γ)}
    (h : PrecombinesBy g f p l m) (hm : m.Perm m') : PrecombinesBy g f p l m' := by
  obtain ⟨pre, hpre, hagg⟩ := h
  -- the permutation carries the value lists along
  obtain ⟨pre', hagg', hperm⟩ := List.perm_comp_forall₂ hm.symm hagg
  exact ⟨pre', hpre.perm_right hperm.symm, hagg'⟩

/-- The combined list may be replaced by a permutation of it. -/
theorem PrecombinesBy.perm_left {l l' : List (κ × β)} {m : List (κ × γ)}
    (h : PrecombinesBy g f p l m) (hl : l.Perm l') : PrecombinesBy g f p l' m := by
  obtain ⟨pre, hpre, hagg⟩ := h
  exact ⟨pre, hpre.perm_left hl, hagg⟩

namespace CombinesBy

variable {l : List (κ × β)} {out : List (κ × γ)}

/-- The key predicate may be replaced by an equivalent one. -/
theorem of_iff {q : κ → Prop} (h : CombinesBy g f p l out) (hpq : ∀ k, p k ↔ q k) :
    CombinesBy g f q l out := by
  obtain ⟨groups, hgroups, hagg⟩ := h
  exact ⟨groups, hgroups.of_iff hpq, hagg⟩

/-- Combiners over two disjoint key sets concatenate. -/
theorem append {q : κ → Prop} {out₁ out₂ : List (κ × γ)} (h₁ : CombinesBy g f p l out₁)
    (h₂ : CombinesBy g f q l out₂) (hdisj : ∀ k, p k → ¬q k) :
    CombinesBy g f (fun k => p k ∨ q k) l (out₁ ++ out₂) := by
  obtain ⟨groups₁, hgroups₁, hagg₁⟩ := h₁
  obtain ⟨groups₂, hgroups₂, hagg₂⟩ := h₂
  exact ⟨_, hgroups₁.append hgroups₂ hdisj, List.rel_append hagg₁ hagg₂⟩

/-- **Every key once**: a key occurs once when it is a key of the list that satisfies `p`,
and not at all otherwise. -/
theorem count_keys [DecidablePred p] (h : CombinesBy g f p l out) (k : κ) :
    (keys out).count k = if k ∈ keys l ∧ p k then 1 else 0 := by
  obtain ⟨groups, hgroups, hagg⟩ := h
  rw [keys_eq_of_forall₂_aggregates hagg]
  exact hgroups.count_keys k

/-- **The combiner of a key** is the aggregate of its values, in some order. -/
theorem exists_perm_of_mem (h : CombinesBy g f p l out) {k : κ} {c : γ} (hmem : (k, c) ∈ out) :
    ∃ vs : List β, vs.Perm (valuesAt k l) ∧ reduce f (vs.map g) = some c := by
  obtain ⟨groups, hgroups, hagg⟩ := h
  -- the entry of the groups that `(k, c)` aggregates
  obtain ⟨i, hi, hget⟩ := List.getElem_of_mem hmem
  have hlen : i < groups.length := hagg.length_eq ▸ hi
  have hentry : Aggregates g f out[i] groups[i] := hagg.get hi hlen
  rw [hget] at hentry
  obtain ⟨hkey, hc⟩ := Prod.mk.inj hentry
  refine ⟨groups[i].2, ?_, hc.symm⟩
  have hmem' : (k, groups[i].2) ∈ groups := by
    rw [show k = groups[i].1 from hkey]
    exact List.getElem_mem hlen
  exact hgroups.perm_of_mem hmem'

end CombinesBy

end Notions

section Sorted

variable [LinearOrder κ] {g : β → γ} {f : γ → γ → γ} {p : κ → Prop}

/-- **Closing the combiners**: merging the combiners of equal adjacent keys of key-sorted
precombiners leaves every key once. -/
theorem combinesBy_foldRuns [Std.Associative f] {l : List (κ × β)}
    {m : List (κ × γ)} (h : PrecombinesBy g f p l m) (hsorted : (keys m).Pairwise (· ≤ ·)) :
    CombinesBy g f p l (foldRuns id f m) := by
  obtain ⟨pre, hpre, hagg⟩ := h
  have hsorted' : (keys pre).Pairwise (· ≤ ·) := keys_eq_of_forall₂_aggregates hagg ▸ hsorted
  exact ⟨_, groupsBy_foldRuns_append hpre hsorted', forall₂_aggregates_foldRuns_id hagg⟩

end Sorted

end KeyedList
