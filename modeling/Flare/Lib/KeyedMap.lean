import Mathlib
import Flare.Lib.KeyRuns
import Flare.Lib.Fold

/-!
# Hash maps as association lists

A hash map that is only ever written by "rewrite the entry of `k` if there is one,
otherwise insert one" is determined, up to the order of its entries, by the list of
its entries.  This file models such a map as that list, in insertion order, with the
one write the code performs, `upsert`, and the fold of it over an input list, which is
how a combine-by-key builds its map of combiners.

## Main definitions

* `KeyedList.upsert k f c m` — the entry of `k` rewritten by `f`, or `(k, c)` inserted.
* `KeyedList.foldUpsert init step acc l` — every entry `(k, b)` of `l` upserted into `acc`
  in turn: a new key gets `init b`, an old one's value is stepped with `b`.
* `KeyedList.firstFold init step` — what that fold leaves under a key that was not there:
  nothing for no value, else the first value created and the others stepped in.

## Main results

* `mem_keys_foldUpsert`, `nodup_keys_foldUpsert` — the keys are those of the start and of
  the input, each once.
* `valuesAt_foldUpsert` — under every key, the fold of that key's values.
* `mem_foldUpsert_nil_iff` — an entry of the map built from nothing is a key with the
  `firstFold` of its values; `firstFold_id` — started from a value itself, that is a reduce.
* `foldl_modify_foldUpsert` — upserting every entry into the bucket of its key's index is
  building one map per bucket.

## Design notes

A Rust `HashMap` iterates in an unspecified order.  The model iterates in insertion
order, and every result about an iteration is stated for a property closed under
permutation (membership, multiplicities of keys, `Nodup`), so it holds of every order.
-/

namespace KeyedList

universe u v w

variable {κ : Type u} {β : Type v} {γ : Type w} [DecidableEq κ]

/-! ### Values of concatenations -/

theorem valuesAt_flatMap {ι : Type*} (k : κ) (l : List ι) (f : ι → List (κ × γ)) :
    valuesAt k (l.flatMap f) = l.flatMap fun i => valuesAt k (f i) := by
  rw [valuesAt, List.filter_flatMap, List.map_flatMap]
  rfl

theorem valuesAt_flatten (k : κ) (ls : List (List (κ × γ))) :
    valuesAt k ls.flatten = ls.flatMap (valuesAt k) := by
  rw [← List.flatMap_id, valuesAt_flatMap]
  rfl

/-- A key occurs exactly when it has values. -/
theorem mem_keys_iff_valuesAt_ne_nil (k : κ) (l : List (κ × γ)) : k ∈ keys l ↔ valuesAt k l ≠ [] := by
  constructor
  · intro hk hnil
    obtain ⟨⟨k', c⟩, hmem, rfl⟩ := List.mem_map.mp hk
    have hc : c ∈ valuesAt k' l := List.mem_map_of_mem (List.mem_filter.mpr ⟨hmem, by simp⟩)
    rw [hnil] at hc
    exact List.not_mem_nil hc
  · intro hne
    by_contra hk
    exact hne (valuesAt_eq_nil_of_not_mem hk)

omit [DecidableEq κ] in
theorem mem_keys_flatten (k : κ) (ls : List (List (κ × γ))) :
    k ∈ keys ls.flatten ↔ ∃ l ∈ ls, k ∈ keys l := by
  rw [keys, List.map_flatten, List.mem_flatten]
  constructor
  · rintro ⟨ks, hks, hk⟩
    obtain ⟨l, hl, rfl⟩ := List.mem_map.mp hks
    exact ⟨l, hl, hk⟩
  · rintro ⟨l, hl, hk⟩
    exact ⟨keys l, List.mem_map_of_mem hl, hk⟩

/-- Rewriting every value by `g` rewrites the values stored under every key. -/
theorem valuesAt_map_snd {γ' : Type*} (g : γ → γ') (k : κ) (l : List (κ × γ)) :
    valuesAt k (l.map fun e => (e.1, g e.2)) = (valuesAt k l).map g := by
  induction l with
  | nil => rfl
  | cons e l ih => by_cases hk : e.1 = k <;> simp [hk, ih]

omit [DecidableEq κ] in
/-- Keeping the key of every entry that passes `p`, and unwrapping, gives the keys of the
entries that pass. -/
theorem filterMap_ite_fst (p : κ × γ → Bool) (l : List (κ × γ)) :
    (l.map fun e => if p e then some e.1 else none).filterMap id = keys (l.filter p) := by
  rw [List.filterMap_map, Function.id_comp]
  induction l with
  | nil => rfl
  | cons e l ih => by_cases hp : p e <;> simp [hp, ih]

/-! ### One write -/

/-- The entry `e` with its value rewritten by `f` when its key is `k`. -/
def updateAt (k : κ) (f : γ → γ) (e : κ × γ) : κ × γ :=
  if e.1 = k then (e.1, f e.2) else e

/-- **An update or an insert**: the entry of `k` gets `f` of its value when there is one
(`get_mut(&k)` and a write through it, or an occupied `entry(k)`); otherwise `(k, c)` is
inserted. -/
def upsert (k : κ) (f : γ → γ) (c : γ) (m : List (κ × γ)) : List (κ × γ) :=
  if k ∈ keys m then m.map (updateAt k f) else m ++ [(k, c)]

theorem keys_map_updateAt (k : κ) (f : γ → γ) (m : List (κ × γ)) :
    keys (m.map (updateAt k f)) = keys m := by
  unfold keys
  rw [List.map_map]
  congr 1
  funext e
  simp only [Function.comp, updateAt]
  split <;> rfl

theorem valuesAt_map_updateAt (k' k : κ) (f : γ → γ) (m : List (κ × γ)) :
    valuesAt k' (m.map (updateAt k f)) = if k' = k then (valuesAt k' m).map f else valuesAt k' m := by
  induction m with
  | nil => split <;> rfl
  | cons e m ih =>
      rw [List.map_cons, valuesAt_cons, valuesAt_cons, ih]
      by_cases hek : e.1 = k
      · -- the rewritten entry keeps its key
        have hupd : updateAt k f e = (e.1, f e.2) := if_pos hek
        rw [hupd]
        by_cases hk' : e.1 = k'
        · subst hk'
          simp [hek]
        · simp [hk']
      · have hupd : updateAt k f e = e := if_neg hek
        rw [hupd]
        by_cases hk' : e.1 = k'
        · subst hk'
          simp [hek]
        · simp [hk']

theorem mem_keys_upsert (k' k : κ) (f : γ → γ) (c : γ) (m : List (κ × γ)) :
    k' ∈ keys (upsert k f c m) ↔ k' = k ∨ k' ∈ keys m := by
  unfold upsert
  split
  · rename_i hk
    rw [keys_map_updateAt]
    constructor
    · exact Or.inr
    · rintro (rfl | h)
      · exact hk
      · exact h
  · rw [keys_append, List.mem_append]
    simp [or_comm]

theorem nodup_keys_upsert (k : κ) (f : γ → γ) (c : γ) {m : List (κ × γ)} (h : (keys m).Nodup) :
    (keys (upsert k f c m)).Nodup := by
  unfold upsert
  split
  · rwa [keys_map_updateAt]
  · rename_i hk
    rw [keys_append, List.nodup_append]
    exact ⟨h, List.nodup_singleton k, fun a ha b hb hab => hk (by simp_all)⟩

/-- Under its own key an upsert rewrites every value, or inserts the new one. -/
theorem valuesAt_upsert_self (k : κ) (f : γ → γ) (c : γ) (m : List (κ × γ)) :
    valuesAt k (upsert k f c m) = if k ∈ keys m then (valuesAt k m).map f else [c] := by
  unfold upsert
  split
  · rw [valuesAt_map_updateAt, if_pos rfl]
  · rename_i hk
    rw [valuesAt_append, valuesAt_eq_nil_of_not_mem hk]
    simp

/-- An upsert leaves the values of every other key. -/
theorem valuesAt_upsert_of_ne {k' k : κ} (h : k' ≠ k) (f : γ → γ) (c : γ) (m : List (κ × γ)) :
    valuesAt k' (upsert k f c m) = valuesAt k' m := by
  unfold upsert
  split
  · rw [valuesAt_map_updateAt, if_neg h]
  · rw [valuesAt_append, valuesAt_cons, valuesAt_nil, if_neg (Ne.symm h), List.append_nil]

/-! ### Lookups and inserts -/

/-- A hash map's `get(&k)`: the value stored under `k`. -/
def lookup (k : κ) (m : List (κ × γ)) : Option γ := (valuesAt k m).head?

/-- A hash map's `insert(k, v)`: the value of `k` replaced by `v`, or the entry `(k, v)`
added. -/
def insertValue (k : κ) (v : γ) (m : List (κ × γ)) : List (κ × γ) := upsert k (fun _ => v) v m

@[simp] theorem lookup_insertValue_self (k : κ) (v : γ) (m : List (κ × γ)) :
    lookup k (insertValue k v m) = some v := by
  rw [lookup, insertValue, valuesAt_upsert_self]
  split
  · rename_i hk
    obtain ⟨c, cs, hcs⟩ := List.exists_cons_of_ne_nil ((mem_keys_iff_valuesAt_ne_nil k m).mp hk)
    rw [hcs]
    rfl
  · rfl

theorem lookup_insertValue_of_ne {k' k : κ} (h : k' ≠ k) (v : γ) (m : List (κ × γ)) :
    lookup k' (insertValue k v m) = lookup k' m := by
  rw [lookup, insertValue, valuesAt_upsert_of_ne h, lookup]

/-- A write through `get_mut(&k)` changes the value of `k` only. -/
theorem lookup_map_updateAt (k' k : κ) (f : γ → γ) (m : List (κ × γ)) :
    lookup k' (m.map (updateAt k f)) = if k' = k then (lookup k' m).map f else lookup k' m := by
  rw [lookup, valuesAt_map_updateAt, lookup]
  split
  · exact List.head?_map
  · rfl

/-! ### The fold of upserts -/

section Fold

variable (init : β → γ) (step : γ → β → γ)

/-- Every entry `(k, b)` of `l` upserted into `acc` in turn: a new key gets `init b`, an
old key's value `c` becomes `step c b`. -/
def foldUpsert (acc : List (κ × γ)) (l : List (κ × β)) : List (κ × γ) :=
  l.foldl (fun m e => upsert e.1 (step · e.2) (init e.2) m) acc

/-- What the fold leaves under a key it did not start with: nothing for no value, else the
first value created and the others stepped in. -/
def firstFold : List β → Option γ
  | [] => none
  | b :: bs => some (bs.foldl step (init b))

@[simp] theorem foldUpsert_nil (acc : List (κ × γ)) : foldUpsert init step acc [] = acc := rfl

@[simp] theorem foldUpsert_cons (acc : List (κ × γ)) (e : κ × β) (l : List (κ × β)) :
    foldUpsert init step acc (e :: l) =
      foldUpsert init step (upsert e.1 (step · e.2) (init e.2) acc) l := rfl

theorem foldUpsert_append (acc : List (κ × γ)) (l₁ l₂ : List (κ × β)) :
    foldUpsert init step acc (l₁ ++ l₂) = foldUpsert init step (foldUpsert init step acc l₁) l₂ :=
  List.foldl_append

@[simp] theorem firstFold_nil : firstFold init step [] = none := rfl

@[simp] theorem firstFold_cons (b : β) (bs : List β) :
    firstFold init step (b :: bs) = some (bs.foldl step (init b)) := rfl

theorem firstFold_eq_none_iff {bs : List β} : firstFold init step bs = none ↔ bs = [] := by
  cases bs <;> simp

/-- Started from a singleton and stepped by pushes, the fold collects the values. -/
theorem flatten_toList_firstFold_singleton (bs : List β) :
    (firstFold (fun b => [b]) (fun c b => c ++ [b]) bs).toList.flatten = bs := by
  cases bs with
  | nil => rfl
  | cons b bs =>
      have hpush : ∀ acc : List β, bs.foldl (fun c b => c ++ [b]) acc = acc ++ bs := by
        induction bs with
        | nil => simp
        | cons b' bs ih => intro acc; simp [ih]
      simp [hpush]

/-- Started from a value itself, the fold is `Iterator::reduce`. -/
theorem firstFold_id (op : γ → γ → γ) : firstFold id op = Folds.reduce op := by
  funext bs
  cases bs <;> rfl

/-- **The keys of the fold** are those of the start and of the input. -/
theorem mem_keys_foldUpsert (k : κ) :
    ∀ (acc : List (κ × γ)) (l : List (κ × β)),
      k ∈ keys (foldUpsert init step acc l) ↔ k ∈ keys acc ∨ k ∈ keys l
  | acc, [] => by simp
  | acc, e :: l => by
      rw [foldUpsert_cons, mem_keys_foldUpsert k _ l, mem_keys_upsert, keys_cons, List.mem_cons]
      tauto

/-- **Every key once**: a fold into a map with distinct keys keeps them distinct. -/
theorem nodup_keys_foldUpsert :
    ∀ (acc : List (κ × γ)) (l : List (κ × β)), (keys acc).Nodup →
      (keys (foldUpsert init step acc l)).Nodup
  | _, [], h => h
  | acc, e :: l, h => by
      rw [foldUpsert_cons]
      exact nodup_keys_foldUpsert _ l (nodup_keys_upsert _ _ _ h)

/-- **The values of the fold**: a key of the start has its old values stepped with all of
its values in the input; another key has the `firstFold` of its values. -/
theorem valuesAt_foldUpsert (k : κ) :
    ∀ (acc : List (κ × γ)) (l : List (κ × β)),
      valuesAt k (foldUpsert init step acc l) =
        if k ∈ keys acc then (valuesAt k acc).map fun c => (valuesAt k l).foldl step c
        else (firstFold init step (valuesAt k l)).toList
  | acc, [] => by
      split
      · simp
      · rename_i hk
        rw [foldUpsert_nil, valuesAt_eq_nil_of_not_mem hk]
        rfl
  | acc, e :: l => by
      rw [foldUpsert_cons, valuesAt_foldUpsert k _ l, valuesAt_cons]
      by_cases he : e.1 = k
      · -- the entry's key: it is in the map after the upsert, whatever was there before
        subst he
        rw [if_pos ((mem_keys_upsert _ _ _ _ _).mpr (Or.inl rfl)), valuesAt_upsert_self,
          if_pos rfl]
        split
        · rw [List.map_map]
          rfl
        · rfl
      · have hmem : k ∈ keys (upsert e.1 (step · e.2) (init e.2) acc) ↔ k ∈ keys acc := by
          rw [mem_keys_upsert]
          exact ⟨fun h => h.resolve_left (Ne.symm he), Or.inr⟩
        rw [if_neg he, valuesAt_upsert_of_ne (Ne.symm he)]
        simp only [hmem]

end Fold

/-! ### Entries of maps with distinct keys -/

theorem mem_of_mem_valuesAt {k : κ} {c : γ} {m : List (κ × γ)} (h : c ∈ valuesAt k m) :
    (k, c) ∈ m := by
  obtain ⟨e, he, rfl⟩ := List.mem_map.mp h
  obtain ⟨hem, hek⟩ := List.mem_filter.mp he
  have hek : e.1 = k := of_decide_eq_true hek
  rw [← hek]
  exact hem

/-- In a map with distinct keys, an entry is a key whose only value it is. -/
theorem mem_iff_valuesAt_eq {m : List (κ × γ)} (hnodup : (keys m).Nodup) (k : κ) (c : γ) :
    (k, c) ∈ m ↔ valuesAt k m = [c] :=
  ⟨valuesAt_eq_singleton hnodup, fun h => mem_of_mem_valuesAt (h ▸ List.mem_singleton_self c)⟩

/-- **The map a fold builds from nothing**: its entries are the keys of the input, each with
the `firstFold` of its values. -/
theorem mem_foldUpsert_nil_iff (init : β → γ) (step : γ → β → γ) (l : List (κ × β)) (k : κ)
    (c : γ) : (k, c) ∈ foldUpsert init step [] l ↔ firstFold init step (valuesAt k l) = some c := by
  rw [mem_iff_valuesAt_eq (nodup_keys_foldUpsert init step [] l List.nodup_nil),
    valuesAt_foldUpsert, keys_nil, if_neg List.not_mem_nil]
  cases firstFold init step (valuesAt k l) <;> simp

/-! ### Maps in buckets -/

/-- **Upserting into buckets**: upserting every entry into the bucket of its key's index,
from `n` empty buckets, builds bucket by bucket the map of the entries with that index.
Entries whose index is `n` or more reach no bucket on either side. -/
theorem foldl_modify_foldUpsert (init : β → γ) (step : γ → β → γ) (idx : κ → ℕ) (n : ℕ)
    (l : List (κ × β)) :
    l.foldl (fun bs e => bs.modify (idx e.1) (upsert e.1 (step · e.2) (init e.2)))
        (List.replicate n []) =
      (bucketize idx n l).map (foldUpsert init step []) := by
  -- by induction from the end, the fold's last step being the last entry's write
  induction l using List.reverseRecOn with
  | nil => simp
  | append_singleton l e ih =>
      rw [List.foldl_append, ih, bucketize_concat, List.foldl_cons, List.foldl_nil]
      apply List.ext_getElem (by simp)
      intro b h₁ h₂
      rw [List.getElem_modify, List.getElem_map, List.getElem_map, List.getElem_modify]
      split
      · rw [foldUpsert_append]
        rfl
      · rfl

end KeyedList
