import Mathlib
import Flare.Plain.Shuffle
import Flare.CoGroup.Correctness

/-!
# The plain cogroup and what is built on it

Without the enclave, `CoGroupedRdd::compute` (`framework/src/rdd/co_grouped_rdd.rs`) fills one
hash map from the two sides of a split: every value of the first side is pushed to the first
list of its key's entry, every value of the second side to the second list, an entry
`(Vec::new(), Vec::new())` being created for a key seen first.  A side is either the
parent's split itself (a narrow dependency) or what `ShuffleFetcher::fetch` returns of the
parent's shuffle under the default aggregator.  `PairRdd::cogroup` of two parents whose
partitioner is not the cogroup's shuffles both; `PairRdd::join` flattens the cogroup's
entries into pairs, and `Rdd::intersection_with_num_partitions` and
`Rdd::subtract_with_num_partition` keep the keys of the cogroup of `(x, None)` pairs by the
emptiness of the two sides.

## Main definitions

* `Plain.CoGroupSplitDep`, `Plain.coGroupCompute` — the split of a cogroup and its compute.
* `Plain.cogroup`, `Plain.join` — `PairRdd::cogroup` and `PairRdd::join` of shuffled parents.
* `Plain.cogroupSelect`, `Plain.intersectionWithNumPartitions`,
  `Plain.subtractWithNumPartition` — the set operations.

## Main results

* `mem_coGroupCompute_iff` — an entry of a split is a key of either side with all of its
  values on both.
* `cogroup_keeps_keys` — every key of either parent is in the split of its partition once,
  with all of its values.
* `join_pairs` — the join's splits hold exactly the join's pairs.
* `intersection_count`, `subtract_count` — every element of the result once, exactly when it
  is in both inputs, or in the first and not the second.

## Design notes

Keys and values share one universe, as the enclave join's `joinValues` and `flatMapValues`
have them, so that the plain join reuses them.
-/

namespace Flare

namespace Plain

open KeyedList Folds

universe u

variable {K V W : Type u} [DecidableEq K]

/-! ### The split of a cogroup -/

/-- What one side of a split of a cogroup reads (`CoGroupSplitDep`): the parent's split for a
narrow dependency, or for a shuffle dependency what `ShuffleFetcher::fetch` returns of the
parent's shuffle, the default aggregator's lists of values. -/
inductive CoGroupSplitDep (K : Type u) (V : Type v)
  | narrow (pairs : List (K × V))
  | shuffle (fetched : List (K × List V))

/-- The loop over the first side in `CoGroupedRdd::compute` (`co_grouped_rdd.rs`:486-516):
every value pushed to the first list of its key's entry. -/
def pushFirst (agg : List (K × (List V × List W))) : CoGroupSplitDep K V → List (K × (List V × List W))
  | .narrow pairs => foldUpsert (fun v => ([v], [])) (fun c v => (c.1 ++ [v], c.2)) agg pairs
  | .shuffle fetched => foldUpsert (fun c => (c, [])) (fun p c => (p.1 ++ c, p.2)) agg fetched

/-- The loop over the second side in `CoGroupedRdd::compute` (`co_grouped_rdd.rs`:518-546):
every value pushed to the second list of its key's entry. -/
def pushSecond (agg : List (K × (List V × List W))) : CoGroupSplitDep K W → List (K × (List V × List W))
  | .narrow pairs => foldUpsert (fun w => ([], [w])) (fun c w => (c.1, c.2 ++ [w])) agg pairs
  | .shuffle fetched => foldUpsert (fun c => ([], c)) (fun p c => (p.1, p.2 ++ c)) agg fetched

/-- `CoGroupedRdd::compute` (`framework/src/rdd/co_grouped_rdd.rs`:483-549): the first side,
then the second, into one map. -/
def coGroupCompute (dep0 : CoGroupSplitDep K V) (dep1 : CoGroupSplitDep K W) :
    List (K × (List V × List W)) :=
  pushSecond (pushFirst [] dep0) dep1

/-- A side read as pairs gives what the same pairs would give as singleton lists. -/
def CoGroupSplitDep.lists : CoGroupSplitDep K V → List (K × List V)
  | .narrow pairs => pairs.map fun e => (e.1, [e.2])
  | .shuffle fetched => fetched

/-- Replacing the values of the input by `g` of them is folding with `init` and `step`
composed with `g`. -/
theorem foldUpsert_map_snd {β β' γ : Type*} (init : β' → γ) (step : γ → β' → γ) (g : β → β') :
    ∀ (acc : List (K × γ)) (l : List (K × β)),
      foldUpsert init step acc (l.map fun e => (e.1, g e.2)) =
        foldUpsert (fun b => init (g b)) (fun c b => step c (g b)) acc l
  | _, [] => rfl
  | _, _ :: l => foldUpsert_map_snd init step g _ l

theorem pushFirst_eq (agg : List (K × (List V × List W))) (dep : CoGroupSplitDep K V) :
    pushFirst agg dep = foldUpsert (fun c => (c, [])) (fun p c => (p.1 ++ c, p.2)) agg dep.lists := by
  cases dep with
  | narrow pairs =>
      exact (foldUpsert_map_snd (fun c => (c, [])) (fun p c => (p.1 ++ c, p.2)) (fun v => [v]) agg
        pairs).symm
  | shuffle fetched => rfl

theorem pushSecond_eq (agg : List (K × (List V × List W))) (dep : CoGroupSplitDep K W) :
    pushSecond agg dep = foldUpsert (fun c => ([], c)) (fun p c => (p.1, p.2 ++ c)) agg dep.lists := by
  cases dep with
  | narrow pairs =>
      exact (foldUpsert_map_snd (fun c => ([], c)) (fun p c => (p.1, p.2 ++ c)) (fun w => [w]) agg
        pairs).symm
  | shuffle fetched => rfl

/-- Appending lists to the first component. -/
theorem foldl_append_fst {γ : Type*} (cs : List (List V)) (p : List V × γ) :
    cs.foldl (fun p c => (p.1 ++ c, p.2)) p = (p.1 ++ cs.flatten, p.2) := by
  induction cs generalizing p with
  | nil => simp
  | cons c cs ih => rw [List.foldl_cons, ih, List.flatten_cons, List.append_assoc]

/-- Appending lists to the second component. -/
theorem foldl_append_snd {γ : Type*} (cs : List (List W)) (p : γ × List W) :
    cs.foldl (fun p c => (p.1, p.2 ++ c)) p = (p.1, p.2 ++ cs.flatten) := by
  induction cs generalizing p with
  | nil => simp
  | cons c cs ih => rw [List.foldl_cons, ih, List.flatten_cons, List.append_assoc]

/-- **The entries of a cogroup split**: under every key, one entry with the values of both
sides when the key occurs on either, and none otherwise. -/
theorem valuesAt_coGroupCompute (dep0 : CoGroupSplitDep K V) (dep1 : CoGroupSplitDep K W) (k : K) :
    valuesAt k (coGroupCompute dep0 dep1) =
      if k ∈ keys dep0.lists ∨ k ∈ keys dep1.lists then
        [((valuesAt k dep0.lists).flatten, (valuesAt k dep1.lists).flatten)]
      else [] := by
  have hfirst : valuesAt k (pushFirst [] dep0 : List (K × (List V × List W))) =
      if k ∈ keys dep0.lists then [((valuesAt k dep0.lists).flatten, [])] else [] := by
    rw [pushFirst_eq, valuesAt_foldUpsert, keys_nil, if_neg List.not_mem_nil]
    split
    · rename_i hk
      obtain ⟨c, cs, hcs⟩ := List.exists_cons_of_ne_nil ((mem_keys_iff_valuesAt_ne_nil k _).mp hk)
      rw [hcs, firstFold_cons, foldl_append_fst, List.flatten_cons]
      rfl
    · rename_i hk
      rw [valuesAt_eq_nil_of_not_mem hk]
      rfl
  have hkeys : k ∈ keys (pushFirst [] dep0 : List (K × (List V × List W))) ↔ k ∈ keys dep0.lists := by
    rw [pushFirst_eq, mem_keys_foldUpsert, keys_nil]
    simp
  rw [coGroupCompute, pushSecond_eq, valuesAt_foldUpsert]
  simp only [hkeys]
  rw [hfirst]
  by_cases h0 : k ∈ keys dep0.lists
  · -- the key's entry exists after the first side: the second side's values are appended
    rw [if_pos h0, if_pos h0, if_pos (Or.inl h0), List.map_singleton, foldl_append_snd,
      List.nil_append]
  · rw [if_neg h0, valuesAt_eq_nil_of_not_mem h0, List.flatten_nil]
    by_cases h1 : k ∈ keys dep1.lists
    · obtain ⟨c, cs, hcs⟩ := List.exists_cons_of_ne_nil ((mem_keys_iff_valuesAt_ne_nil k _).mp h1)
      rw [if_pos (Or.inr h1), hcs, firstFold_cons, foldl_append_snd, List.flatten_cons]
      rfl
    · rw [if_neg (by tauto), valuesAt_eq_nil_of_not_mem h1]
      rfl

theorem nodup_keys_coGroupCompute (dep0 : CoGroupSplitDep K V) (dep1 : CoGroupSplitDep K W) :
    (keys (coGroupCompute dep0 dep1)).Nodup := by
  rw [coGroupCompute, pushSecond_eq, pushFirst_eq]
  exact nodup_keys_foldUpsert _ _ _ _ (nodup_keys_foldUpsert _ _ _ _ List.nodup_nil)

/-- An entry of a cogroup split is a key of either side with all of its values on both. -/
theorem mem_coGroupCompute_iff (dep0 : CoGroupSplitDep K V) (dep1 : CoGroupSplitDep K W) (k : K)
    (vs : List V) (ws : List W) :
    (k, (vs, ws)) ∈ coGroupCompute dep0 dep1 ↔ (k ∈ keys dep0.lists ∨ k ∈ keys dep1.lists) ∧
      vs = (valuesAt k dep0.lists).flatten ∧ ws = (valuesAt k dep1.lists).flatten := by
  rw [mem_iff_valuesAt_eq (nodup_keys_coGroupCompute dep0 dep1), valuesAt_coGroupCompute]
  split
  · rename_i hk
    simp [hk, eq_comm]
  · rename_i hk
    simp [hk]

/-- The first lists a cogroup split stores under a key are the values fetched under it on
the first side. -/
theorem firstsAt_coGroupCompute (dep0 : CoGroupSplitDep K V) (dep1 : CoGroupSplitDep K W) (k : K) :
    firstsAt k (coGroupCompute dep0 dep1) = (valuesAt k dep0.lists).flatten := by
  rw [firstsAt, valuesAt_map_snd Prod.fst, valuesAt_coGroupCompute]
  split
  · simp
  · rename_i hk
    rw [valuesAt_eq_nil_of_not_mem fun h => hk (Or.inl h)]
    rfl

theorem secondsAt_coGroupCompute (dep0 : CoGroupSplitDep K V) (dep1 : CoGroupSplitDep K W) (k : K) :
    secondsAt k (coGroupCompute dep0 dep1) = (valuesAt k dep1.lists).flatten := by
  rw [secondsAt, valuesAt_map_snd Prod.snd, valuesAt_coGroupCompute]
  split
  · simp
  · rename_i hk
    rw [valuesAt_eq_nil_of_not_mem fun h => hk (Or.inr h)]
    rfl

/-! ### `cogroup` and `join` of shuffled parents -/

/-- The groups a split fetches under a key from a shuffle with the default aggregator hold,
up to order, the key's values of the input of the split's partition. -/
theorem flatten_valuesAt_fetch_default (partitioner : HashPartitioner K) (servers : List (List ℕ))
    (maps : List (List (K × V))) (hservers : servers.flatten.Perm (List.range maps.length)) {r : ℕ}
    (hr : r < partitioner.partitions) (k : K) :
    (valuesAt k (fetch servers (storedBuckets (Aggregator.default V) partitioner maps) r)).flatten.Perm
      (valuesAt k (maps.flatten.filter fun e => partitioner.getPartition e.1 = r)) := by
  rw [valuesAt_fetch_storedBuckets _ partitioner servers maps hr,
    valuesAt_filter fun k => decide (partitioner.getPartition k = r)]
  by_cases hk : partitioner.getPartition k = r
  · simp only [hk, decide_true, if_true]
    exact flatten_fetchedCombiners_default_perm servers maps hservers k
  · simp [hk]

section CoGroup

variable (partitioner : HashPartitioner K) (servers0 servers1 : List (List ℕ))
  (maps0 : List (List (K × V))) (maps1 : List (List (K × W)))

/-- **`PairRdd::cogroup(other, partitioner)` of two parents without that partitioner**
(`framework/src/rdd/pair_rdd.rs`:147-161; `CoGroupedRdd::new` and `get_dependencies`,
`co_grouped_rdd.rs`:94-124, 336-401): both parents shuffled with the default aggregator under
the partitioner, one split per partition, every split fetching both shuffles. -/
def cogroup : Option (List (List (K × (List V × List W)))) := do
  let stored0 ← maps0.mapM (shuffleWrite (Aggregator.default V) partitioner)
  let stored1 ← maps1.mapM (shuffleWrite (Aggregator.default W) partitioner)
  pure ((List.range partitioner.partitions).map fun r =>
    coGroupCompute (.shuffle (fetch servers0 stored0 r)) (.shuffle (fetch servers1 stored1 r)))

/-- Split `r` of the cogroup as the pipeline computes it. -/
abbrev coGroupSplit (r : ℕ) : List (K × (List V × List W)) :=
  coGroupCompute (.shuffle (fetch servers0 (storedBuckets (Aggregator.default V) partitioner maps0) r))
    (.shuffle (fetch servers1 (storedBuckets (Aggregator.default W) partitioner maps1) r))

/-- **The cogroup in closed form**: with at least one partition no map side panics. -/
theorem cogroup_eq (hn : 0 < partitioner.partitions) :
    cogroup partitioner servers0 servers1 maps0 maps1 =
      some ((List.range partitioner.partitions).map
        (coGroupSplit partitioner servers0 servers1 maps0 maps1)) := by
  rw [cogroup, Slices.mapM_eq_some_map fun pairs _ => shuffleWrite_eq _ partitioner hn pairs,
    Slices.mapM_eq_some_map fun pairs _ => shuffleWrite_eq _ partitioner hn pairs]
  rfl

/-- **Split `r` of the cogroup**: its entries are the keys of partition `r` fetched on either
side, each with the values fetched on both, in fetch order. -/
theorem mem_coGroupSplit_iff {r : ℕ} (hr : r < partitioner.partitions) (k : K) (vs : List V)
    (ws : List W) :
    (k, (vs, ws)) ∈ coGroupSplit partitioner servers0 servers1 maps0 maps1 r ↔
      partitioner.getPartition k = r ∧
        (fetchedCombiners (Aggregator.default V) servers0 maps0 k ≠ [] ∨
          fetchedCombiners (Aggregator.default W) servers1 maps1 k ≠ []) ∧
        vs = (fetchedCombiners (Aggregator.default V) servers0 maps0 k).flatten ∧
        ws = (fetchedCombiners (Aggregator.default W) servers1 maps1 k).flatten := by
  rw [coGroupSplit, mem_coGroupCompute_iff]
  simp only [CoGroupSplitDep.lists, mem_keys_iff_valuesAt_ne_nil,
    valuesAt_fetch_storedBuckets _ partitioner _ _ hr]
  by_cases hk : partitioner.getPartition k = r
  · simp only [hk, if_true, true_and]
  · simp [hk]

/-- **The plain cogroup keeps every key.**  For every partitioner with at least one partition
and two inputs spread over any map partitions, the fetch orders being any groupings of all
map ids: there is one split per partition, keys occur at most once in a split, split `r`
holds exactly the keys of partition `r` of either input, and the two lists stored with a key
are permutations of all of its values in the first and in the second input. -/
theorem cogroup_keeps_keys (hn : 0 < partitioner.partitions)
    (hservers0 : servers0.flatten.Perm (List.range maps0.length))
    (hservers1 : servers1.flatten.Perm (List.range maps1.length)) :
    ∃ out, cogroup partitioner servers0 servers1 maps0 maps1 = some out ∧
      out.length = partitioner.partitions ∧
      ∀ r (hr : r < out.length), (keys out[r]).Nodup ∧
        (∀ k, k ∈ keys out[r] ↔
          (k ∈ keys maps0.flatten ∨ k ∈ keys maps1.flatten) ∧ partitioner.getPartition k = r) ∧
        ∀ k vs ws, (k, (vs, ws)) ∈ out[r] →
          vs.Perm (valuesAt k maps0.flatten) ∧ ws.Perm (valuesAt k maps1.flatten) := by
  refine ⟨_, cogroup_eq partitioner servers0 servers1 maps0 maps1 hn, by simp, fun r hr => ?_⟩
  have hr : r < partitioner.partitions := by simpa using hr
  rw [List.getElem_map, List.getElem_range]
  refine ⟨nodup_keys_coGroupCompute _ _, fun k => ?_, fun k vs ws hmem => ?_⟩
  · constructor
    · rintro hk
      obtain ⟨⟨k', vs, ws⟩, hmem, rfl⟩ := List.mem_map.mp hk
      obtain ⟨hpart, hside, -⟩ := (mem_coGroupSplit_iff partitioner servers0 servers1 maps0 maps1 hr
        k' vs ws).mp hmem
      rw [fetchedCombiners_ne_nil_iff _ servers0 maps0 hservers0,
        fetchedCombiners_ne_nil_iff _ servers1 maps1 hservers1] at hside
      exact ⟨hside, hpart⟩
    · rintro ⟨hside, hpart⟩
      rw [← fetchedCombiners_ne_nil_iff _ servers0 maps0 hservers0,
        ← fetchedCombiners_ne_nil_iff _ servers1 maps1 hservers1] at hside
      exact mem_of_mem_keys ((mem_coGroupSplit_iff partitioner servers0 servers1 maps0 maps1 hr k
        _ _).mpr ⟨hpart, hside, rfl, rfl⟩)
  · obtain ⟨-, -, rfl, rfl⟩ := (mem_coGroupSplit_iff partitioner servers0 servers1 maps0 maps1 hr
      k vs ws).mp hmem
    exact ⟨flatten_fetchedCombiners_default_perm servers0 maps0 hservers0 k,
      flatten_fetchedCombiners_default_perm servers1 maps1 hservers1 k⟩

end CoGroup

/-- The cogroup of two inputs over two splits. -/
theorem cogroup_keeps_keys_two_splits :
    ∃ out, cogroup ⟨fun k : ℕ => k.toUInt64, 2⟩ [[0]] [[0]] [[(1, 5), (2, 6)]] [[(2, 7), (3, 8)]] =
        some out ∧
      out.length = (HashPartitioner.mk (fun k : ℕ => k.toUInt64) 2).partitions ∧
      ∀ r (hr : r < out.length), (keys out[r]).Nodup ∧
        (∀ k, k ∈ keys out[r] ↔ (k ∈ keys [[(1, 5), (2, 6)]].flatten ∨
          k ∈ keys [[(2, 7), (3, 8)]].flatten) ∧
          (HashPartitioner.mk (fun k : ℕ => k.toUInt64) 2).getPartition k = r) ∧
        ∀ k vs ws, (k, (vs, ws)) ∈ out[r] →
          vs.Perm (valuesAt k [[(1, 5), (2, 6)]].flatten) ∧
            ws.Perm (valuesAt k [[(2, 7), (3, 8)]].flatten) :=
  cogroup_keeps_keys ⟨fun k : ℕ => k.toUInt64, 2⟩ [[0]] [[0]] [[(1, 5), (2, 6)]] [[(2, 7), (3, 8)]]
    Nat.two_pos (List.Perm.refl _) (List.Perm.refl _)

/-- **`PairRdd::join(other, num_splits)` of two parents without `HashPartitioner::new(num_splits)`**
(`framework/src/rdd/pair_rdd.rs`:122-145): the cogroup, then `flat_map_values` of the
function pairing every value of the first list with every value of the second
(`FlatMappedValuesRdd::compute`, `pair_rdd.rs`:618-625). -/
def join (hash : K → UInt64) (numSplits : ℕ) (servers0 servers1 : List (List ℕ))
    (maps0 : List (List (K × V))) (maps1 : List (List (K × W))) :
    Option (List (List (K × (V × W)))) :=
  (cogroup ⟨hash, numSplits⟩ servers0 servers1 maps0 maps1).map fun out =>
    out.map (flatMapValues joinValues)

/-- **The plain join is the join.**  For every key hash, number of splits `n ≥ 1` and two
inputs spread over any map partitions, the fetch orders being any groupings of all map ids:
there is one split per partition, split `r` holds, up to order, exactly the pairs
`(k, (v, w))` of the two inputs whose key is of partition `r`, and all splits together hold
exactly the join's pairs. -/
theorem join_pairs (hash : K → UInt64) (numSplits : ℕ) (servers0 servers1 : List (List ℕ))
    (maps0 : List (List (K × V))) (maps1 : List (List (K × W))) (hn : 0 < numSplits)
    (hservers0 : servers0.flatten.Perm (List.range maps0.length))
    (hservers1 : servers1.flatten.Perm (List.range maps1.length)) :
    ∃ out, join hash numSplits servers0 servers1 maps0 maps1 = some out ∧ out.length = numSplits ∧
      (∀ r (hr : r < out.length), out[r].Perm ((joinPairs maps0.flatten maps1.flatten).filter
        fun e => (HashPartitioner.mk hash numSplits).getPartition e.1 = r)) ∧
      out.flatten.Perm (joinPairs maps0.flatten maps1.flatten) := by
  set partitioner : HashPartitioner K := ⟨hash, numSplits⟩
  -- the cogroup's split `r` has the join's pairs of partition `r`
  have hsplit : ∀ r < numSplits, (flatMapValues joinValues
      (coGroupSplit partitioner servers0 servers1 maps0 maps1 r)).Perm
      ((joinPairs maps0.flatten maps1.flatten).filter fun e => partitioner.getPartition e.1 = r) := by
    intro r hr
    rw [flatMapValues_joinValues, ← joinPairs_filter fun k => decide (partitioner.getPartition k = r)]
    refine groupPairs_perm_joinPairs (nodup_keys_coGroupCompute _ _) (fun k => ?_) fun k => ?_
    · rw [firstsAt_coGroupCompute]
      exact flatten_valuesAt_fetch_default partitioner servers0 maps0 hservers0 hr k
    · rw [secondsAt_coGroupCompute]
      exact flatten_valuesAt_fetch_default partitioner servers1 maps1 hservers1 hr k
  refine ⟨_, by rw [join, cogroup_eq partitioner servers0 servers1 maps0 maps1 hn]; rfl,
    by simp [partitioner], fun r hr => ?_, ?_⟩
  · have hr : r < numSplits := by simpa using hr
    rw [List.getElem_map, List.getElem_map, List.getElem_range]
    exact hsplit r hr
  · -- every pair lies in the split of its key
    simp only [List.map_map, ← List.flatMap_def]
    refine (List.Perm.flatMap_left _ fun r hr => hsplit r (List.mem_range.mp hr)).trans ?_
    exact perm_flatMap_range_filter (fun e : K × (V × W) => partitioner.getPartition e.1)
      numSplits _ fun e _ => partitioner.getPartition_lt hn e.1

/-- The join of `[(1, 5), (2, 6)]` with `[(1, 7)]` over two splits. -/
theorem join_pairs_two_splits :
    ∃ out, join (fun k : ℕ => k.toUInt64) 2 [[0]] [[0]] [[(1, 5), (2, 6)]] [[(1, 7)]] = some out ∧
      out.length = 2 ∧
      (∀ r (hr : r < out.length), out[r].Perm
        ((joinPairs [[(1, 5), (2, 6)]].flatten [[(1, 7)]].flatten).filter
          fun e => (HashPartitioner.mk (fun k : ℕ => k.toUInt64) 2).getPartition e.1 = r)) ∧
      out.flatten.Perm (joinPairs [[(1, 5), (2, 6)]].flatten [[(1, 7)]].flatten) :=
  join_pairs (fun k : ℕ => k.toUInt64) 2 [[0]] [[0]] [[(1, 5), (2, 6)]] [[(1, 7)]] Nat.two_pos
    (List.Perm.refl _) (List.Perm.refl _)

/-! ### Intersection and subtraction -/

section SetOps

variable {α : Type u} [DecidableEq α]

/-- Every element keyed with no value, `.map(|x| (x, None))`, as the set operations key both
RDDs. -/
def keyedNone (maps : List (List α)) : List (List (α × Option α)) :=
  maps.map fun part => part.map fun x => (x, none)

/-- **The pipeline the set operations share** (`Rdd::intersection_with_num_partitions` and
`Rdd::subtract_with_num_partition`, `framework/src/rdd/rdd.rs`:2427-2530): both RDDs keyed as
`(x, None)` and cogrouped under `HashPartitioner::new(num_splits)`, each entry mapped to
`Some(x)` when `select` holds of whether its two lists are non-empty, and every split's
`Some`s unwrapped by `map_partitions`. -/
def cogroupSelect (select : Bool → Bool → Bool) (hash : α → UInt64) (numSplits : ℕ)
    (servers0 servers1 : List (List ℕ)) (maps0 maps1 : List (List α)) : Option (List (List α)) :=
  (cogroup ⟨hash, numSplits⟩ servers0 servers1 (keyedNone maps0) (keyedNone maps1)).map
    fun cogrouped => cogrouped.map fun split =>
      (split.map fun e =>
        if select (decide (e.2.1.length ≥ 1)) (decide (e.2.2.length ≥ 1)) then some e.1
        else none).filterMap id

/-- `Rdd::intersection_with_num_partitions` (`rdd.rs`:2477-2530): the entries with values on
both sides. -/
def intersectionWithNumPartitions (hash : α → UInt64) (numSplits : ℕ)
    (servers0 servers1 : List (List ℕ)) (maps0 maps1 : List (List α)) : Option (List (List α)) :=
  cogroupSelect (fun v1 v2 => v1 && v2) hash numSplits servers0 servers1 maps0 maps1

/-- `Rdd::intersection` (`rdd.rs`:2404-2412): as many splits as `self` has. -/
def intersection (hash : α → UInt64) (servers0 servers1 : List (List ℕ))
    (maps0 maps1 : List (List α)) : Option (List (List α)) :=
  intersectionWithNumPartitions hash maps0.length servers0 servers1 maps0 maps1

/-- `Rdd::subtract_with_num_partition` (`rdd.rs`:2427-2475): the entries with values on exactly
one side, by the same pipeline with `^`, then intersected with `self`.  The two shuffles of the
intersection fetch in their own orders. -/
def subtractWithNumPartition (hash : α → UInt64) (numSplits : ℕ)
    (servers0 servers1 servers2 servers3 : List (List ℕ)) (maps0 maps1 : List (List α)) :
    Option (List (List α)) := do
  let rdd ← cogroupSelect (fun v1 v2 => v1 ^^ v2) hash numSplits servers0 servers1 maps0 maps1
  intersection hash servers2 servers3 maps0 rdd

omit [DecidableEq α] in
@[simp] theorem length_keyedNone (maps : List (List α)) : (keyedNone maps).length = maps.length :=
  List.length_map _

omit [DecidableEq α] in
theorem mem_keys_keyedNone (maps : List (List α)) (x : α) :
    x ∈ keys (keyedNone maps).flatten ↔ x ∈ maps.flatten := by
  rw [keyedNone, ← List.map_flatten, keys, List.map_map]
  simp

theorem valuesAt_keyedNone (maps : List (List α)) (x : α) :
    valuesAt x (keyedNone maps).flatten = List.replicate (maps.flatten.count x) none := by
  rw [keyedNone, ← List.map_flatten, valuesAt_map_pair]

/-- A side's lists under a key, fetched from the shuffle of keyed elements, hold one `None` for
every copy of the element in the input. -/
theorem length_flatten_fetchedCombiners_keyedNone {servers : List (List ℕ)} {maps : List (List α)}
    (hservers : servers.flatten.Perm (List.range maps.length)) (x : α) :
    (fetchedCombiners (Aggregator.default (Option α)) servers (keyedNone maps) x).flatten.length =
      maps.flatten.count x := by
  have hservers' : servers.flatten.Perm (List.range (keyedNone maps).length) := by
    rwa [length_keyedNone]
  rw [(flatten_fetchedCombiners_default_perm servers _ hservers' x).length_eq, valuesAt_keyedNone,
    List.length_replicate]

variable (select : Bool → Bool → Bool) (hash : α → UInt64) (numSplits : ℕ)
  (servers0 servers1 : List (List ℕ)) (maps0 maps1 : List (List α))

/-- Whether a cogroup entry is kept: `select` of whether its two lists are non-empty. -/
abbrev selected (e : α × (List (Option α) × List (Option α))) : Bool :=
  select (decide (e.2.1.length ≥ 1)) (decide (e.2.2.length ≥ 1))

/-- The shared pipeline in closed form: split `r` holds the keys of the kept entries of the
cogroup's split `r`. -/
theorem cogroupSelect_eq (hn : 0 < numSplits) :
    cogroupSelect select hash numSplits servers0 servers1 maps0 maps1 =
      some ((List.range numSplits).map fun r => keys ((coGroupSplit ⟨hash, numSplits⟩ servers0
        servers1 (keyedNone maps0) (keyedNone maps1) r).filter (selected select))) := by
  rw [cogroupSelect, cogroup_eq _ _ _ _ _ hn, Option.map_some, List.map_map]
  congr 1
  refine List.map_congr_left fun r _ => ?_
  exact filterMap_ite_fst (selected select) _

/-- **A split of the shared pipeline**: an element is kept in split `r` exactly when it lies
in either input, `select` holds of whether it lies in each, and its partition is `r`. -/
theorem mem_keys_filter_coGroupSplit (hservers0 : servers0.flatten.Perm (List.range maps0.length))
    (hservers1 : servers1.flatten.Perm (List.range maps1.length)) {r : ℕ} (hr : r < numSplits)
    (x : α) :
    x ∈ keys ((coGroupSplit ⟨hash, numSplits⟩ servers0 servers1 (keyedNone maps0)
        (keyedNone maps1) r).filter (selected select)) ↔
      ((x ∈ maps0.flatten ∨ x ∈ maps1.flatten) ∧
        select (decide (x ∈ maps0.flatten)) (decide (x ∈ maps1.flatten)) = true) ∧
      (HashPartitioner.mk hash numSplits).getPartition x = r := by
  have hservers0' : servers0.flatten.Perm (List.range (keyedNone maps0).length) := by
    rwa [length_keyedNone]
  have hservers1' : servers1.flatten.Perm (List.range (keyedNone maps1).length) := by
    rwa [length_keyedNone]
  -- a side is non-empty exactly when the element lies in that input
  have hside : (fetchedCombiners (Aggregator.default (Option α)) servers0 (keyedNone maps0) x ≠ [] ∨
      fetchedCombiners (Aggregator.default (Option α)) servers1 (keyedNone maps1) x ≠ []) ↔
      (x ∈ maps0.flatten ∨ x ∈ maps1.flatten) := by
    rw [fetchedCombiners_ne_nil_iff _ servers0 _ hservers0', mem_keys_keyedNone,
      fetchedCombiners_ne_nil_iff _ servers1 _ hservers1', mem_keys_keyedNone]
  have hsel : selected select (x, ((fetchedCombiners (Aggregator.default (Option α)) servers0
      (keyedNone maps0) x).flatten, (fetchedCombiners (Aggregator.default (Option α)) servers1
      (keyedNone maps1) x).flatten)) = select (decide (x ∈ maps0.flatten))
        (decide (x ∈ maps1.flatten)) := by
    simp only [selected, length_flatten_fetchedCombiners_keyedNone hservers0,
      length_flatten_fetchedCombiners_keyedNone hservers1, ge_iff_le, Nat.one_le_iff_ne_zero, ne_eq,
      List.count_eq_zero, not_not]
  constructor
  · intro hx
    obtain ⟨⟨x', vs, ws⟩, hmem, rfl⟩ := List.mem_map.mp hx
    obtain ⟨hmem, hkept⟩ := List.mem_filter.mp hmem
    obtain ⟨hpart, hne, rfl, rfl⟩ := (mem_coGroupSplit_iff _ servers0 servers1 _ _ hr x' _ _).mp hmem
    exact ⟨⟨hside.mp hne, hsel ▸ hkept⟩, hpart⟩
  · rintro ⟨⟨hin, hkept⟩, hpart⟩
    refine mem_of_mem_keys (List.mem_filter.mpr ⟨(mem_coGroupSplit_iff _ servers0 servers1 _ _ hr x
      _ _).mpr ⟨hpart, hside.mpr hin, rfl, rfl⟩, ?_⟩)
    rw [hsel]
    exact hkept

/-- **The counts of the shared pipeline**: with at least one split, an element occurs once in
the split of its partition when it lies in either input and `select` holds of whether it lies
in each, and nowhere else. -/
theorem count_cogroupSelect (hn : 0 < numSplits)
    (hservers0 : servers0.flatten.Perm (List.range maps0.length))
    (hservers1 : servers1.flatten.Perm (List.range maps1.length)) :
    ∃ out, cogroupSelect select hash numSplits servers0 servers1 maps0 maps1 = some out ∧
      out.length = numSplits ∧
      (∀ r (hr : r < out.length) x, out[r].count x =
        if ((x ∈ maps0.flatten ∨ x ∈ maps1.flatten) ∧
            select (decide (x ∈ maps0.flatten)) (decide (x ∈ maps1.flatten)) = true) ∧
          (HashPartitioner.mk hash numSplits).getPartition x = r then 1 else 0) ∧
      ∀ x, out.flatten.count x =
        if (x ∈ maps0.flatten ∨ x ∈ maps1.flatten) ∧
          select (decide (x ∈ maps0.flatten)) (decide (x ∈ maps1.flatten)) = true then 1 else 0 := by
  have hcount : ∀ r < numSplits, ∀ x, (keys ((coGroupSplit ⟨hash, numSplits⟩ servers0 servers1
      (keyedNone maps0) (keyedNone maps1) r).filter (selected select))).count x =
      if ((x ∈ maps0.flatten ∨ x ∈ maps1.flatten) ∧
          select (decide (x ∈ maps0.flatten)) (decide (x ∈ maps1.flatten)) = true) ∧
        (HashPartitioner.mk hash numSplits).getPartition x = r then 1 else 0 := by
    intro r hr x
    -- the kept keys are among the split's keys, which occur once each
    have hnodup : (keys ((coGroupSplit ⟨hash, numSplits⟩ servers0 servers1 (keyedNone maps0)
        (keyedNone maps1) r).filter (selected select))).Nodup :=
      (List.filter_sublist.map Prod.fst).nodup (nodup_keys_coGroupCompute _ _)
    have hiff := mem_keys_filter_coGroupSplit select hash numSplits servers0 servers1 maps0 maps1
      hservers0 hservers1 hr x
    split
    · exact List.count_eq_one_of_mem hnodup (hiff.mpr (by assumption))
    · exact List.count_eq_zero_of_not_mem fun hmem => by simp_all
  refine ⟨_, cogroupSelect_eq select hash numSplits servers0 servers1 maps0 maps1 hn, by simp,
    fun r hr x => ?_, fun x => ?_⟩
  · have hr : r < numSplits := by simpa using hr
    rw [List.getElem_map, List.getElem_range]
    exact hcount r hr x
  · -- each element lies in the split of its partition, and in no other
    rw [List.count_flatten, List.map_map, Function.comp_def, List.map_congr_left fun r hr =>
      hcount r (List.mem_range.mp hr) x, sum_range_ite_eq]
    simp only [(HashPartitioner.mk hash numSplits).getPartition_lt hn x, and_true]

/-- **The plain intersection keeps each common element once.**  For every element hash, number
of splits `n ≥ 1` and two inputs spread over any map partitions, the fetch orders being any
groupings of all map ids: there are `n` splits, and an element that lies in both inputs occurs
once, in the split of its partition, while any other element occurs nowhere. -/
theorem intersection_count (hash : α → UInt64) (numSplits : ℕ) (servers0 servers1 : List (List ℕ))
    (maps0 maps1 : List (List α)) (hn : 0 < numSplits)
    (hservers0 : servers0.flatten.Perm (List.range maps0.length))
    (hservers1 : servers1.flatten.Perm (List.range maps1.length)) :
    ∃ out, intersectionWithNumPartitions hash numSplits servers0 servers1 maps0 maps1 = some out ∧
      out.length = numSplits ∧
      (∀ r (hr : r < out.length) x, out[r].count x =
        if x ∈ maps0.flatten ∧ x ∈ maps1.flatten ∧
          (HashPartitioner.mk hash numSplits).getPartition x = r then 1 else 0) ∧
      ∀ x, out.flatten.count x = if x ∈ maps0.flatten ∧ x ∈ maps1.flatten then 1 else 0 := by
  -- in either input, and in both: in both
  have hboth : ∀ x, ((x ∈ maps0.flatten ∨ x ∈ maps1.flatten) ∧
      (decide (x ∈ maps0.flatten) && decide (x ∈ maps1.flatten)) = true) ↔
      x ∈ maps0.flatten ∧ x ∈ maps1.flatten := by
    intro x
    rw [Bool.and_eq_true, decide_eq_true_iff, decide_eq_true_iff]
    exact ⟨And.right, fun h => ⟨Or.inl h.1, h⟩⟩
  obtain ⟨out, hout, hlen, hsplit, hall⟩ := count_cogroupSelect (fun v1 v2 => v1 && v2) hash
    numSplits servers0 servers1 maps0 maps1 hn hservers0 hservers1
  refine ⟨out, hout, hlen, fun r hr x => ?_, fun x => ?_⟩
  · rw [hsplit r hr x]
    exact if_congr (by rw [hboth x, and_assoc]) rfl rfl
  · rw [hall x]
    exact if_congr (hboth x) rfl rfl

/-- The intersection of `[1, 2, 3]` and `[2, 3, 4]` over two splits. -/
theorem intersection_count_two_splits :
    ∃ out, intersectionWithNumPartitions (fun x : ℕ => x.toUInt64) 2 [[0]] [[0]] [[1, 2, 3]]
        [[2, 3, 4]] = some out ∧
      out.length = 2 ∧
      (∀ r (hr : r < out.length) x, out[r].count x =
        if x ∈ [[1, 2, 3]].flatten ∧ x ∈ [[2, 3, 4]].flatten ∧
          (HashPartitioner.mk (fun x : ℕ => x.toUInt64) 2).getPartition x = r then 1 else 0) ∧
      ∀ x, out.flatten.count x = if x ∈ [[1, 2, 3]].flatten ∧ x ∈ [[2, 3, 4]].flatten then 1 else 0 :=
  intersection_count (fun x : ℕ => x.toUInt64) 2 [[0]] [[0]] [[1, 2, 3]] [[2, 3, 4]] Nat.two_pos
    (by decide) (by decide)

/-- Splits in which an element occurs once when `c` holds of it, and never otherwise, hold
exactly the elements `c` holds of. -/
theorem mem_flatten_of_count {out : List (List α)} {c : α → Prop} [DecidablePred c]
    (hall : ∀ x, out.flatten.count x = if c x then 1 else 0) (x : α) : x ∈ out.flatten ↔ c x := by
  rw [← List.count_pos_iff, hall x]
  split
  · rename_i hc
    exact iff_of_true Nat.one_pos hc
  · rename_i hc
    exact iff_of_false (Nat.lt_irrefl 0) hc

/-- **The plain subtraction keeps each element of `self` missing from `other` once.**  For every
element hash, number of splits `n ≥ 1` of the first cogroup and inputs spread over map
partitions, `self` over at least one, the four fetch orders being any groupings of all map ids
of their shuffles: there are as many splits as `self` has, and an element of `self` that is not
in `other` occurs once, in the split of its partition under that many partitions, while any
other element occurs nowhere. -/
theorem subtract_count (hash : α → UInt64) (numSplits : ℕ)
    (servers0 servers1 servers2 servers3 : List (List ℕ)) (maps0 maps1 : List (List α))
    (hn : 0 < numSplits) (hself : 0 < maps0.length)
    (hservers0 : servers0.flatten.Perm (List.range maps0.length))
    (hservers1 : servers1.flatten.Perm (List.range maps1.length))
    (hservers2 : servers2.flatten.Perm (List.range maps0.length))
    (hservers3 : servers3.flatten.Perm (List.range numSplits)) :
    ∃ out, subtractWithNumPartition hash numSplits servers0 servers1 servers2 servers3 maps0 maps1 =
        some out ∧
      out.length = maps0.length ∧
      (∀ r (hr : r < out.length) x, out[r].count x =
        if x ∈ maps0.flatten ∧ x ∉ maps1.flatten ∧
          (HashPartitioner.mk hash maps0.length).getPartition x = r then 1 else 0) ∧
      ∀ x, out.flatten.count x = if x ∈ maps0.flatten ∧ x ∉ maps1.flatten then 1 else 0 := by
  obtain ⟨rdd, hrdd, hlen, -, hall⟩ := count_cogroupSelect (fun v1 v2 => v1 ^^ v2) hash numSplits
    servers0 servers1 maps0 maps1 hn hservers0 hservers1
  have hservers3' : servers3.flatten.Perm (List.range rdd.length) := by rwa [hlen]
  obtain ⟨out, hout, hlen', hsplit, hall'⟩ := count_cogroupSelect (fun v1 v2 => v1 && v2) hash
    maps0.length servers2 servers3 maps0 rdd hself hservers2 hservers3'
  -- in `self` and in exactly one input: in `self` and not in `other`
  have hiff : ∀ x, ((x ∈ maps0.flatten ∨ x ∈ rdd.flatten) ∧
      (decide (x ∈ maps0.flatten) && decide (x ∈ rdd.flatten)) = true) ↔
      x ∈ maps0.flatten ∧ x ∉ maps1.flatten := by
    intro x
    rw [Bool.and_eq_true, decide_eq_true_iff, decide_eq_true_iff, mem_flatten_of_count hall x]
    by_cases h0 : x ∈ maps0.flatten <;> by_cases h1 : x ∈ maps1.flatten <;> simp [h0, h1]
  refine ⟨out, by rw [subtractWithNumPartition, hrdd]; exact hout, hlen', fun r hr x => ?_,
    fun x => ?_⟩
  · rw [hsplit r hr x]
    exact if_congr (by rw [hiff x, and_assoc]) rfl rfl
  · rw [hall' x]
    exact if_congr (hiff x) rfl rfl

/-- `[1, 2, 3]` minus `[2]`, with `self` over two map partitions. -/
theorem subtract_count_two_splits :
    ∃ out, subtractWithNumPartition (fun x : ℕ => x.toUInt64) 2 [[0, 1]] [[0]] [[1], [0]] [[0, 1]]
        [[1, 2], [3]] [[2]] = some out ∧
      out.length = [[1, 2], [3]].length ∧
      (∀ r (hr : r < out.length) x, out[r].count x =
        if x ∈ [[1, 2], [3]].flatten ∧ x ∉ [[2]].flatten ∧
          (HashPartitioner.mk (fun x : ℕ => x.toUInt64) [[1, 2], [3]].length).getPartition x = r
        then 1 else 0) ∧
      ∀ x, out.flatten.count x = if x ∈ [[1, 2], [3]].flatten ∧ x ∉ [[2]].flatten then 1 else 0 :=
  subtract_count (fun x : ℕ => x.toUInt64) 2 [[0, 1]] [[0]] [[1], [0]] [[0, 1]] [[1, 2], [3]] [[2]]
    Nat.two_pos (by decide) (by decide) (by decide) (by decide) (by decide)

end SetOps

end Plain

end Flare
