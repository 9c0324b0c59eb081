import Mathlib
import Flare.Lib.KeyRuns
import Flare.Lib.Join

/-!
# Grouping by key

What a combine-by-key is for, stated without an algorithm.  A list `l` of keyed
values is *grouped* over the keys satisfying `p` by a list `out` of keyed value
lists when every such key of `l` occurs in `out` exactly once, no other key
occurs, and the list stored with a key is a permutation of that key's values in
`l`.

A distributed group-by never holds a key's whole group at one place until the
last step: on the way, the values of one key are spread over several entries of
several lists.  `Pregroups` is that intermediate state, and the lemmas of this
file are the rules by which it travels: concatenation of pieces, permutation of
either side, restriction to a sub-predicate, and the two run folds that create
and close it.

## Main definitions

* `Pregroups p l m` — `m` holds exactly the keys of `l` satisfying `p`, and for
  each of them the lists stored in `m` concatenate to a permutation of the key's
  values in `l`.
* `GroupsBy p l out` — pregroups in which every key occurs once.

## Main results

* `Pregroups.append`, `Pregroups.flatMap`, `Pregroups.perm_left`,
  `Pregroups.perm_right`, `Pregroups.filter` — the rules of transport.
* `pregroups_foldRuns_singleton` — the run fold that starts a combiner with
  `[v]` and pushes every further value creates pregroups of its input.
* `groupsBy_foldRuns_append` — the run fold that appends combiners closes
  key-sorted pregroups into groups.
* `GroupsBy.perm_of_mem`, `GroupsBy.append`, `GroupsBy.count_keys`, `GroupsBy.of_iff`.
* `Pregroups.perm_flatMap_snd` — forgetting the keys, pregroups hold the values of the
  grouped part of the list.
-/

namespace KeyedList

universe u v

variable {κ : Type u} {β : Type v}

/-! ### Keys of filtered lists -/

section KeyLemmas

variable {γ : Type v}

theorem mem_keys_filter (q : κ → Bool) (k : κ) (m : List (κ × γ)) :
    k ∈ keys (m.filter fun e => q e.1) ↔ k ∈ keys m ∧ q k := by
  simp only [keys, List.mem_map, List.mem_filter]
  constructor
  · rintro ⟨e, ⟨he, hq⟩, rfl⟩
    exact ⟨⟨e, he, rfl⟩, hq⟩
  · rintro ⟨⟨e, he, rfl⟩, hq⟩
    exact ⟨e, ⟨he, hq⟩, rfl⟩

theorem mem_of_mem_keys {k : κ} {m : List (κ × γ)} {c : γ} (h : (k, c) ∈ m) : k ∈ keys m :=
  List.mem_map_of_mem (f := Prod.fst) h

end KeyLemmas

/-! ### The two notions -/

section Notions

variable [DecidableEq κ]

/-- **Pregroups**: the keys of `m` are exactly the keys of `l` satisfying `p`, and
for every such key the lists `m` stores under it concatenate to a permutation of
its values in `l`. -/
structure Pregroups (p : κ → Prop) (l : List (κ × β)) (m : List (κ × List β)) : Prop where
  mem_keys_iff : ∀ k, k ∈ keys m ↔ k ∈ keys l ∧ p k
  perm_flatten : ∀ k, p k → (valuesAt k m).flatten.Perm (valuesAt k l)

/-- **Grouping by key** over the keys satisfying `p`: pregroups in which every key
occurs once. -/
structure GroupsBy (p : κ → Prop) (l : List (κ × β)) (out : List (κ × List β)) : Prop
    extends Pregroups p l out where
  nodup : (keys out).Nodup

variable {p : κ → Prop}

/-! ### Transport of pregroups -/

namespace Pregroups

theorem nil : Pregroups p ([] : List (κ × β)) [] where
  mem_keys_iff k := by simp
  perm_flatten k _ := by simp

/-- Pregroups of two pieces concatenate. -/
theorem append {l₁ l₂ : List (κ × β)} {m₁ m₂ : List (κ × List β)}
    (h₁ : Pregroups p l₁ m₁) (h₂ : Pregroups p l₂ m₂) : Pregroups p (l₁ ++ l₂) (m₁ ++ m₂) where
  mem_keys_iff k := by
    rw [keys_append, keys_append, List.mem_append, List.mem_append, h₁.mem_keys_iff,
      h₂.mem_keys_iff, or_and_right]
  perm_flatten k hk := by
    rw [valuesAt_append, valuesAt_append, List.flatten_append]
    exact (h₁.perm_flatten k hk).append (h₂.perm_flatten k hk)

/-- Pregroups of any number of pieces concatenate. -/
theorem flatMap {ι : Type*} (f : ι → List (κ × β)) (g : ι → List (κ × List β)) :
    ∀ (xs : List ι), (∀ x ∈ xs, Pregroups p (f x) (g x)) →
      Pregroups p (xs.flatMap f) (xs.flatMap g)
  | [], _ => nil
  | x :: xs, h => by
      rw [List.flatMap_cons, List.flatMap_cons]
      exact (h x (by simp)).append (flatMap f g xs fun y hy => h y (by simp [hy]))

/-- The grouped list may be replaced by a permutation of it. -/
theorem perm_left {l l' : List (κ × β)} {m : List (κ × List β)} (h : Pregroups p l m)
    (hl : l.Perm l') : Pregroups p l' m where
  mem_keys_iff k := by
    have hkeys : (keys l).Perm (keys l') := hl.map Prod.fst
    rw [h.mem_keys_iff, hkeys.mem_iff]
  perm_flatten k hk := (h.perm_flatten k hk).trans (Perm.valuesAt hl k)

/-- The pieces may come in any order. -/
theorem perm_right {l : List (κ × β)} {m m' : List (κ × List β)} (h : Pregroups p l m)
    (hm : m.Perm m') : Pregroups p l m' where
  mem_keys_iff k := by
    have hkeys : (keys m).Perm (keys m') := hm.map Prod.fst
    rw [← hkeys.mem_iff, h.mem_keys_iff]
  perm_flatten k hk := ((Perm.valuesAt hm k).flatten).symm.trans (h.perm_flatten k hk)

/-- Keeping the pieces whose key satisfies `q` restricts the pregroups to `q`. -/
theorem filter {l : List (κ × β)} {m : List (κ × List β)} (h : Pregroups p l m)
    (q : κ → Bool) : Pregroups (fun k => p k ∧ q k) l (m.filter fun e => q e.1) where
  mem_keys_iff k := by
    rw [mem_keys_filter, h.mem_keys_iff, and_assoc]
  perm_flatten k hk := by
    rw [valuesAt_filter, if_pos hk.2]
    exact h.perm_flatten k hk.1

/-- The key predicate may be replaced by an equivalent one. -/
theorem of_iff {q : κ → Prop} {l : List (κ × β)} {m : List (κ × List β)} (h : Pregroups p l m)
    (hpq : ∀ k, p k ↔ q k) : Pregroups q l m where
  mem_keys_iff k := by rw [h.mem_keys_iff, hpq]
  perm_flatten k hk := h.perm_flatten k ((hpq k).mpr hk)

/-- Outside `p` a key has no entry, so for every key the lists stored under it
concatenate to a permutation of its values in the part of `l` that satisfies `p`. -/
theorem perm_flatten_filter [DecidablePred p] {l : List (κ × β)} {m : List (κ × List β)}
    (h : Pregroups p l m) (k : κ) :
    (valuesAt k m).flatten.Perm (valuesAt k (l.filter fun e => decide (p e.1))) := by
  rw [valuesAt_filter (fun k => decide (p k))]
  by_cases hk : p k
  · rw [if_pos (decide_eq_true hk)]
    exact h.perm_flatten k hk
  · have hnot : k ∉ keys m := fun hmem => hk ((h.mem_keys_iff k).mp hmem).2
    rw [if_neg (by simpa using hk), valuesAt_eq_nil_of_not_mem hnot]
    rfl

end Pregroups

/-! ### The values of pregroups -/

/-- Every value of keyed value lists, with its entry's key. -/
def spreadValues (m : List (κ × List β)) : List (κ × β) :=
  m.flatMap fun e => e.2.map (e.1, ·)

theorem count_spreadValues [DecidableEq β] (k : κ) (v : β) :
    ∀ m : List (κ × List β), (spreadValues m).count (k, v) = (valuesAt k m).flatten.count v
  | [] => rfl
  | (k', c) :: m => by
      have hcons : spreadValues ((k', c) :: m) = c.map (k', ·) ++ spreadValues m := rfl
      rw [hcons, List.count_append, count_spreadValues k v m, valuesAt_cons]
      by_cases hk : k' = k
      · subst hk
        rw [if_pos rfl, List.flatten_cons, List.count_append,
          List.count_map_of_injective _ _ (Prod.mk_right_injective k')]
      · have hnot : (k, v) ∉ c.map (k', ·) := by
          simp only [List.mem_map, Prod.mk.injEq, not_exists, not_and]
          exact fun _ _ h => absurd h hk
        rw [List.count_eq_zero_of_not_mem hnot, Nat.zero_add, if_neg hk]

/-- Forgetting the keys, pregroups hold the values of the part of the list they group. -/
theorem Pregroups.perm_flatMap_snd [DecidablePred p] {l : List (κ × β)} {m : List (κ × List β)}
    (h : Pregroups p l m) :
    (m.flatMap Prod.snd).Perm ((l.filter fun e => decide (p e.1)).map Prod.snd) := by
  classical
  -- with their keys, the values are the pairs of the grouped part
  have hspread : (spreadValues m).Perm (l.filter fun e => decide (p e.1)) := by
    rw [List.perm_iff_count]
    rintro ⟨k, v⟩
    rw [count_spreadValues, ← count_valuesAt]
    exact (h.perm_flatten_filter k).count_eq v
  have hsnd : (spreadValues m).map Prod.snd = m.flatMap Prod.snd := by
    simp [spreadValues, List.map_flatMap, Function.comp_def]
  rw [← hsnd]
  exact hspread.map Prod.snd

/-! ### The run folds that create and close groups -/

/-- The run fold that starts a combiner with `[v]` and pushes every further value
of the run keeps all values, each key's in order. -/
theorem pregroups_foldRuns_singleton (l : List (κ × β)) :
    Pregroups (fun _ => True) l (foldRuns (fun b => [b]) (fun c b => c ++ [b]) l) where
  mem_keys_iff k := by rw [mem_keys_foldRuns, and_true]
  perm_flatten k _ := by
    rw [flatten_valuesAt_foldRuns (fun b => [b]), List.flatMap_singleton']

end Notions

section Sorted

variable [LinearOrder κ] {p : κ → Prop}

/-- **Closing the groups**: on key-sorted pregroups, the run fold that appends the
lists of equal adjacent keys leaves every key once.  Key equality is the order's. -/
theorem groupsBy_foldRuns_append {l : List (κ × β)} {m : List (κ × List β)}
    (h : Pregroups p l m) (hsorted : (keys m).Pairwise (· ≤ ·)) :
    GroupsBy p l (foldRuns id (fun c b => c ++ b) m) where
  mem_keys_iff k := by rw [mem_keys_foldRuns, h.mem_keys_iff]
  perm_flatten k hk := by
    have hvalues : (valuesAt k (foldRuns id (fun c b => c ++ b) m)).flatten =
        (valuesAt k m).flatMap id :=
      flatten_valuesAt_foldRuns id k m
    rw [hvalues, List.flatMap_id]
    exact h.perm_flatten k hk
  nodup := (pairwise_lt_keys_foldRuns id (fun c b => c ++ b) hsorted).nodup

end Sorted

section Groups

variable [DecidableEq κ] {p : κ → Prop}

/-! ### Groups -/

namespace GroupsBy

variable {l : List (κ × β)} {out : List (κ × List β)}

/-- Nothing groups nothing. -/
theorem nil : GroupsBy p ([] : List (κ × β)) [] where
  toPregroups := Pregroups.nil
  nodup := List.nodup_nil

/-- The key predicate may be replaced by an equivalent one. -/
theorem of_iff {q : κ → Prop} (h : GroupsBy p l out) (hpq : ∀ k, p k ↔ q k) :
    GroupsBy q l out where
  mem_keys_iff k := by rw [h.mem_keys_iff, hpq]
  perm_flatten k hk := h.perm_flatten k ((hpq k).mpr hk)
  nodup := h.nodup

/-- The list stored with a key is a permutation of the key's values. -/
theorem perm_of_mem (h : GroupsBy p l out) {k : κ} {c : List β} (hmem : (k, c) ∈ out) :
    c.Perm (valuesAt k l) := by
  have hk : p k := ((h.mem_keys_iff k).mp (mem_of_mem_keys hmem)).2
  have hvalues := h.perm_flatten k hk
  rwa [valuesAt_eq_singleton h.nodup hmem, List.flatten_singleton] at hvalues

/-- Groups over two disjoint key sets concatenate. -/
theorem append {q : κ → Prop} {out₁ out₂ : List (κ × List β)} (h₁ : GroupsBy p l out₁)
    (h₂ : GroupsBy q l out₂) (hdisj : ∀ k, p k → ¬q k) :
    GroupsBy (fun k => p k ∨ q k) l (out₁ ++ out₂) where
  mem_keys_iff k := by
    rw [keys_append, List.mem_append, h₁.mem_keys_iff, h₂.mem_keys_iff, and_or_left]
  perm_flatten k hk := by
    rw [valuesAt_append, List.flatten_append]
    rcases hk with hp | hq
    · -- a key of the first set has no entry in the second list
      have hnot : k ∉ keys out₂ := fun hk => hdisj k hp ((h₂.mem_keys_iff k).mp hk).2
      rw [valuesAt_eq_nil_of_not_mem hnot, List.flatten_nil, List.append_nil]
      exact h₁.perm_flatten k hp
    · have hnot : k ∉ keys out₁ := fun hk => hdisj k ((h₁.mem_keys_iff k).mp hk).2 hq
      rw [valuesAt_eq_nil_of_not_mem hnot, List.flatten_nil, List.nil_append]
      exact h₂.perm_flatten k hq
  nodup := by
    rw [keys_append, List.nodup_append]
    refine ⟨h₁.nodup, h₂.nodup, ?_⟩
    rintro a ha b hb rfl
    exact hdisj a ((h₁.mem_keys_iff a).mp ha).2 ((h₂.mem_keys_iff a).mp hb).2

/-- **Every key once**: a key occurs once in the groups when it is a key of the
list that satisfies `p`, and not at all otherwise. -/
theorem count_keys [DecidablePred p] (h : GroupsBy p l out) (k : κ) :
    (keys out).count k = if k ∈ keys l ∧ p k then 1 else 0 := by
  split
  · rename_i hk
    exact List.count_eq_one_of_mem h.nodup ((h.mem_keys_iff k).mpr hk)
  · rename_i hk
    exact List.count_eq_zero_of_not_mem fun hmem => hk ((h.mem_keys_iff k).mp hmem)

end GroupsBy

end Groups

end KeyedList
