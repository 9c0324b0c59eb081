import Mathlib
import Flare.Basic
import Flare.Lib.KeyedMap
import Flare.Lib.Slices
import Flare.Shuffle.Correctness

/-!
# The plain shuffle

An RDD that is not secure is shuffled by the framework alone.  The map side is the
branch of `ShuffleDependency::do_shuffle_task` for such an RDD
(`framework/src/dependency.rs`): every pair of the map partition is combined into the
hash map of its bucket, created with `create_combiner` for a new key and merged with
`merge_value` for an old one, and bucket `i` is stored under
`(shuffle_id, partition, i)`.  `ShuffleFetcher::fetch` collects, for one reduce id, the
stored buckets of every map partition, server by server, and `ShuffledRdd::compute`
merges the combiners of equal keys with `merge_combiners`.  `PairRdd::combine_by_key`,
`group_by_key` and `reduce_by_key` are this shuffle, and `Rdd::count_by_value` and
`Rdd::distinct_with_num_partitions` are built on `reduce_by_key`.

## Main definitions

* `Plain.shuffleWrite`, `Plain.fetch`, `Plain.compute` — the three stages.
* `Plain.combineByKey` — the pipeline over all map partitions and reduce splits.
* `Plain.groupByKey`, `Plain.reduceByKey`, `Plain.countByValue`,
  `Plain.distinctWithNumPartitions` — the operators built on it.
* `Plain.fetchedCombiners` — what a reduce split merges for a key: the combiners the map
  partitions built for it, in fetch order.

## Main results

* `shuffleWrite_eq` — the map side buckets the pairs and builds one map per bucket.
* `mem_compute_fetch_iff` — reduce split `r` holds a key of partition `r` with
  `merge_combiners` of its fetched combiners.
* `combineByKey_spec`, `groupByKey_groups`, `reduceByKey_reduces`, `countByValue_counts`,
  `distinct_count` — the operators, end to end.

## Design notes

The stored buckets are the buckets, not their `bincode` bytes; the transfer of bytes is
modelled in `Flare.Shuffle.Transfer`.  `ShuffledRdd::compute` keeps its combiners as
`HashMap<K, Option<C>>` only to move a combiner out of the map while merging it: `Some`
is the only value ever stored, so `take().unwrap()` and the final `unwrap()` never
panic, and the model stores the combiner itself.  The fetch order is the grouping
`servers` of the map ids by server, in the order the fetch tasks pop them from the
queue; the results hold for every grouping of all map ids.  The framework's
`Aggregator` has no `is_default` flag; the plain path never reads the flag of
`Flare.Aggregator`.
-/

namespace Flare

namespace Plain

open KeyedList Folds

universe u v w

variable {K : Type u} {V : Type v} {C : Type w} [DecidableEq K]

/-! ### The three stages -/

/-- The map side (`ShuffleDependency::do_shuffle_task` for an RDD that is not secure,
`framework/src/dependency.rs`:333-402): one hash map per output split, and every pair
`(k, v)` combined into the map of bucket `get_partition(k)`; indexing the bucket vector
past its end panics. -/
def shuffleWrite (agg : Aggregator V C) (partitioner : HashPartitioner K) (pairs : List (K × V)) :
    Option (List (List (K × C))) :=
  pairs.foldlM
    (fun buckets e =>
      if partitioner.getPartition e.1 < buckets.length then
        some (buckets.modify (partitioner.getPartition e.1)
          (upsert e.1 (agg.mergeValue · e.2) (agg.createCombiner e.2)))
      else none)
    (List.replicate partitioner.partitions [])

/-- `ShuffleFetcher::fetch(shuffle_id, reduce_id)` (`framework/src/shuffle/shuffle_fetcher.rs`:19-133):
server by server, the buckets `reduce_id` the map partitions it holds stored, in order,
concatenated. -/
def fetch (servers : List (List ℕ)) (stored : List (List (List (K × C)))) (reduceId : ℕ) :
    List (K × C) :=
  servers.flatMap fun inputIds =>
    inputIds.flatMap fun inputId => (stored.getD inputId []).getD reduceId []

/-- `ShuffledRdd::compute` (`framework/src/rdd/shuffled_rdd.rs`:258-280): the fetched
combiners of equal keys merged with `merge_combiners`, in fetch order. -/
def compute (agg : Aggregator V C) (fetched : List (K × C)) : List (K × C) :=
  foldUpsert id agg.mergeCombiners [] fetched

/-- **`PairRdd::combine_by_key` of an RDD that is not secure**
(`framework/src/rdd/pair_rdd.rs`:27-40): a `ShuffledRdd` with one split per partition of
the partitioner; the map side runs on every map partition, then every reduce split
fetches and merges. -/
def combineByKey (agg : Aggregator V C) (partitioner : HashPartitioner K) (servers : List (List ℕ))
    (maps : List (List (K × V))) : Option (List (List (K × C))) := do
  let stored ← maps.mapM (shuffleWrite agg partitioner)
  pure ((List.range partitioner.partitions).map fun reduceId =>
    compute agg (fetch servers stored reduceId))

/-- The combiners a reduce split merges for `k`: for every map id in the order the fetch
meets it, the combiner that map partition built for `k`, when `k` occurs in it. -/
def fetchedCombiners (agg : Aggregator V C) (servers : List (List ℕ)) (maps : List (List (K × V)))
    (k : K) : List C :=
  servers.flatten.flatMap fun m =>
    (firstFold agg.createCombiner agg.mergeValue (valuesAt k (maps.getD m []))).toList

/-! ### The map side -/

section MapSide

variable (agg : Aggregator V C) (partitioner : HashPartitioner K)

/-- **The map side buckets and combines**: with at least one output split, it never
panics, and bucket `i` is the map of combiners of the pairs of partition `i`. -/
theorem shuffleWrite_eq (hn : 0 < partitioner.partitions) (pairs : List (K × V)) :
    shuffleWrite agg partitioner pairs =
      some ((bucketize partitioner.getPartition partitioner.partitions pairs).map
        (foldUpsert agg.createCombiner agg.mergeValue [])) := by
  rw [shuffleWrite, Folds.foldlM_eq_some_foldl
      (fun buckets : List (List (K × C)) => buckets.length = partitioner.partitions) _
      (fun buckets e => buckets.modify (partitioner.getPartition e.1)
        (upsert e.1 (agg.mergeValue · e.2) (agg.createCombiner e.2))) _ _ pairs _
      (List.length_replicate ..), foldl_modify_foldUpsert]
  · intro buckets e hlen
    rw [if_pos (hlen ▸ partitioner.getPartition_lt hn e.1)]
  · intro buckets e hlen
    rw [List.length_modify, hlen]

/-- What map partition `m` stored for reduce id `r`: the map of combiners of its pairs of
partition `r`.  Past the last map partition both sides are empty. -/
theorem getD_getD_stored (maps : List (List (K × V))) (m : ℕ) {r : ℕ}
    (hr : r < partitioner.partitions) :
    ((maps.map fun pairs => (bucketize partitioner.getPartition partitioner.partitions pairs).map
        (foldUpsert agg.createCombiner agg.mergeValue [])).getD m []).getD r [] =
      foldUpsert agg.createCombiner agg.mergeValue []
        ((maps.getD m []).filter fun e => partitioner.getPartition e.1 = r) := by
  by_cases hm : m < maps.length
  · have hstored : (maps.map fun pairs => (bucketize partitioner.getPartition
          partitioner.partitions pairs).map (foldUpsert agg.createCombiner agg.mergeValue [])).getD
          m [] = (bucketize partitioner.getPartition partitioner.partitions maps[m]).map
          (foldUpsert agg.createCombiner agg.mergeValue []) := by
      rw [List.getD_eq_getElem _ _ (by simpa using hm), List.getElem_map]
    rw [hstored, List.getD_eq_getElem _ _ (by simpa using hr), List.getElem_map,
      getElem_bucketize, List.getD_eq_getElem _ _ hm]
  · -- past the last map partition nothing was stored
    have hm : maps.length ≤ m := Nat.le_of_not_lt hm
    have hstored : (maps.map fun pairs => (bucketize partitioner.getPartition
        partitioner.partitions pairs).map (foldUpsert agg.createCombiner agg.mergeValue [])).getD
        m [] = [] := List.getD_eq_default _ _ (by simpa using hm)
    rw [hstored, List.getD_nil, List.getD_eq_default _ _ hm, List.filter_nil, foldUpsert_nil]

/-- Under one key, the bucket of partition `r` holds the combiner of the key's values when
the key is of partition `r`, and nothing otherwise. -/
theorem valuesAt_foldUpsert_filter (k : K) (r : ℕ) (pairs : List (K × V)) :
    valuesAt k (foldUpsert agg.createCombiner agg.mergeValue []
        (pairs.filter fun e => partitioner.getPartition e.1 = r)) =
      if partitioner.getPartition k = r then
        (firstFold agg.createCombiner agg.mergeValue (valuesAt k pairs)).toList
      else [] := by
  rw [valuesAt_foldUpsert, keys_nil, if_neg List.not_mem_nil,
    valuesAt_filter (fun k => decide (partitioner.getPartition k = r))]
  by_cases hk : partitioner.getPartition k = r
  · rw [if_pos (decide_eq_true hk), if_pos hk]
  · rw [if_neg (by simpa using hk), if_neg hk]
    rfl

end MapSide

/-! ### The fetch and the reduce side -/

theorem valuesAt_fetch (servers : List (List ℕ)) (stored : List (List (List (K × C)))) (r : ℕ)
    (k : K) :
    valuesAt k (fetch servers stored r) =
      servers.flatten.flatMap fun m => valuesAt k ((stored.getD m []).getD r []) := by
  rw [fetch, valuesAt_flatMap, ← List.flatMap_id, List.flatMap_assoc]
  refine List.flatMap_congr fun inputIds _ => ?_
  rw [valuesAt_flatMap]
  rfl

section ReduceSide

variable (agg : Aggregator V C)

/-- **The reduce side**: an entry is a fetched key with the reduce, by `merge_combiners`,
of its fetched combiners. -/
theorem mem_compute_iff (fetched : List (K × C)) (k : K) (c : C) :
    (k, c) ∈ compute agg fetched ↔ reduce agg.mergeCombiners (valuesAt k fetched) = some c := by
  rw [compute, mem_foldUpsert_nil_iff, firstFold_id]

theorem nodup_keys_compute (fetched : List (K × C)) : (keys (compute agg fetched)).Nodup :=
  nodup_keys_foldUpsert _ _ [] fetched List.nodup_nil

end ReduceSide

/-! ### The pipeline -/

section Pipeline

variable (agg : Aggregator V C) (partitioner : HashPartitioner K) (servers : List (List ℕ))
  (maps : List (List (K × V)))

/-- The buckets every map partition stores. -/
abbrev storedBuckets : List (List (List (K × C))) :=
  maps.map fun pairs => (bucketize partitioner.getPartition partitioner.partitions pairs).map
    (foldUpsert agg.createCombiner agg.mergeValue [])

/-- **The pipeline in closed form**: with at least one reduce split no map side panics,
and reduce split `r` merges what the fetch of `r` returns from the stored buckets. -/
theorem combineByKey_eq (hn : 0 < partitioner.partitions) :
    combineByKey agg partitioner servers maps =
      some ((List.range partitioner.partitions).map fun r =>
        compute agg (fetch servers (storedBuckets agg partitioner maps) r)) := by
  rw [combineByKey, Slices.mapM_eq_some_map fun pairs _ => shuffleWrite_eq agg partitioner hn pairs]
  rfl

/-- Under one key, the fetch of reduce id `r` holds the fetched combiners of the key when the
key is of partition `r`, and nothing otherwise. -/
theorem valuesAt_fetch_storedBuckets {r : ℕ} (hr : r < partitioner.partitions) (k : K) :
    valuesAt k (fetch servers (storedBuckets agg partitioner maps) r) =
      if partitioner.getPartition k = r then fetchedCombiners agg servers maps k else [] := by
  rw [valuesAt_fetch]
  simp only [getD_getD_stored agg partitioner maps _ hr, valuesAt_foldUpsert_filter]
  split
  · rfl
  · simp

/-- **Reduce split `r`**: its entries are the keys of partition `r` with the reduce, by
`merge_combiners`, of the combiners the map partitions built for them, in fetch order. -/
theorem mem_compute_fetch_iff {r : ℕ} (hr : r < partitioner.partitions) (k : K) (c : C) :
    (k, c) ∈ compute agg (fetch servers (storedBuckets agg partitioner maps) r) ↔
      partitioner.getPartition k = r ∧
        reduce agg.mergeCombiners (fetchedCombiners agg servers maps k) = some c := by
  rw [mem_compute_iff, valuesAt_fetch_storedBuckets agg partitioner servers maps hr]
  split
  · rename_i hk
    simp [hk]
  · rename_i hk
    simp [hk]

/-- With every map id fetched once, the fetched combiners of a key are, up to order, the
combiners of the map partitions. -/
theorem fetchedCombiners_perm (hservers : servers.flatten.Perm (List.range maps.length)) (k : K) :
    (fetchedCombiners agg servers maps k).Perm
      (maps.flatMap fun pairs =>
        (firstFold agg.createCombiner agg.mergeValue (valuesAt k pairs)).toList) := by
  rw [fetchedCombiners, ← flatMap_range_getD maps [] fun pairs =>
    (firstFold agg.createCombiner agg.mergeValue (valuesAt k pairs)).toList]
  exact hservers.flatMap_right _

/-- With every map id fetched once, a key has fetched combiners exactly when it occurs in the
input. -/
theorem fetchedCombiners_ne_nil_iff (hservers : servers.flatten.Perm (List.range maps.length))
    (k : K) : fetchedCombiners agg servers maps k ≠ [] ↔ k ∈ keys maps.flatten := by
  rw [← List.length_pos_iff, (fetchedCombiners_perm agg servers maps hservers k).length_eq,
    List.length_pos_iff, Ne, List.flatMap_eq_nil_iff, mem_keys_flatten]
  simp only [Option.toList_eq_nil_iff, firstFold_eq_none_iff, not_forall,
    mem_keys_iff_valuesAt_ne_nil]
  constructor
  · rintro ⟨pairs, hpairs, hne⟩
    exact ⟨pairs, hpairs, hne⟩
  · rintro ⟨pairs, hpairs, hne⟩
    exact ⟨pairs, hpairs, hne⟩

/-- **The keys of reduce split `r`**, with every map id fetched once: the keys of the
input of partition `r`. -/
theorem mem_keys_compute_fetch_iff (hservers : servers.flatten.Perm (List.range maps.length))
    {r : ℕ} (hr : r < partitioner.partitions) (k : K) :
    k ∈ keys (compute agg (fetch servers (storedBuckets agg partitioner maps) r)) ↔
      k ∈ keys maps.flatten ∧ partitioner.getPartition k = r := by
  rw [← fetchedCombiners_ne_nil_iff agg servers maps hservers k, mem_keys_iff_valuesAt_ne_nil,
    compute, valuesAt_foldUpsert, keys_nil, if_neg List.not_mem_nil, firstFold_id,
    valuesAt_fetch_storedBuckets agg partitioner servers maps hr]
  split
  · rename_i hk
    simp only [hk, and_true, Ne, Option.toList_eq_nil_iff, reduce_eq_none_iff]
  · rename_i hk
    simp [hk]

/-- **`combine_by_key` without the enclave.**  For every aggregator, partitioner with at least
one partition and input spread over any map partitions, the fetch order being any grouping
of all map ids: no map side panics, there is one output per partition, every key occurs at
most once in its output, the keys of output `r` are the keys of the input of partition `r`,
and the combiner of such a key is the reduce by `merge_combiners`, in fetch order, of the
combiners the map partitions built for it with `create_combiner` and `merge_value`. -/
theorem combineByKey_spec (hn : 0 < partitioner.partitions)
    (hservers : servers.flatten.Perm (List.range maps.length)) :
    ∃ out, combineByKey agg partitioner servers maps = some out ∧
      out.length = partitioner.partitions ∧
      ∀ r (hr : r < out.length), (keys out[r]).Nodup ∧
        (∀ k, k ∈ keys out[r] ↔ k ∈ keys maps.flatten ∧ partitioner.getPartition k = r) ∧
        ∀ k c, (k, c) ∈ out[r] ↔ partitioner.getPartition k = r ∧
          reduce agg.mergeCombiners (fetchedCombiners agg servers maps k) = some c := by
  refine ⟨_, combineByKey_eq agg partitioner servers maps hn, by simp, fun r hr => ?_⟩
  have hr : r < partitioner.partitions := by simpa using hr
  rw [List.getElem_map, List.getElem_range]
  exact ⟨nodup_keys_compute agg _, mem_keys_compute_fetch_iff agg partitioner servers maps hservers hr,
    mem_compute_fetch_iff agg partitioner servers maps hr⟩

end Pipeline

/-- `combine_by_key` of the default aggregator on two map partitions over two splits. -/
theorem combineByKey_spec_two_splits :
    ∃ out, combineByKey (Aggregator.default ℕ) ⟨fun k : ℕ => k.toUInt64, 2⟩ [[1], [0]]
        [[(1, 5), (2, 6)], [(1, 7)]] = some out ∧
      out.length = 2 ∧
      ∀ r (hr : r < out.length), (keys out[r]).Nodup ∧
        (∀ k, k ∈ keys out[r] ↔ k ∈ keys [[(1, 5), (2, 6)], [(1, 7)]].flatten ∧
          (HashPartitioner.mk (fun k : ℕ => k.toUInt64) 2).getPartition k = r) ∧
        ∀ k c, (k, c) ∈ out[r] ↔ (HashPartitioner.mk (fun k : ℕ => k.toUInt64) 2).getPartition k = r ∧
          reduce (Aggregator.default ℕ).mergeCombiners
            (fetchedCombiners (Aggregator.default ℕ) [[1], [0]] [[(1, 5), (2, 6)], [(1, 7)]] k) =
            some c :=
  combineByKey_spec (Aggregator.default ℕ) ⟨fun k : ℕ => k.toUInt64, 2⟩ [[1], [0]]
    [[(1, 5), (2, 6)], [(1, 7)]] (by decide) (by decide)

/-! ### `group_by_key` -/

section GroupByKey

variable (hash : K → UInt64) (numSplits : ℕ) (servers : List (List ℕ)) (maps : List (List (K × V)))

/-- `PairRdd::group_by_key(num_splits)` (`framework/src/rdd/pair_rdd.rs`:43-61):
`combine_by_key` of the default aggregator under `HashPartitioner::new(num_splits)`. -/
def groupByKey : Option (List (List (K × List V))) :=
  combineByKey (Aggregator.default V) ⟨hash, numSplits⟩ servers maps

/-- For the default aggregator the fetched combiners of a key hold, in fetch order, the
key's values of every map partition. -/
theorem flatten_fetchedCombiners_default (k : K) :
    (fetchedCombiners (Aggregator.default V) servers maps k).flatten =
      servers.flatten.flatMap fun m => valuesAt k (maps.getD m []) := by
  rw [fetchedCombiners, ← List.flatMap_id, List.flatMap_assoc]
  refine List.flatMap_congr fun m _ => ?_
  rw [List.flatMap_id]
  exact flatten_toList_firstFold_singleton _

/-- With every map id fetched once, the default aggregator's fetched combiners of a key hold
all of its values, in some order. -/
theorem flatten_fetchedCombiners_default_perm
    (hservers : servers.flatten.Perm (List.range maps.length)) (k : K) :
    (fetchedCombiners (Aggregator.default V) servers maps k).flatten.Perm (valuesAt k maps.flatten) := by
  rw [flatten_fetchedCombiners_default, valuesAt_flatten, ← flatMap_range_getD maps [] (valuesAt k)]
  exact hservers.flatMap_right _

/-- With every map id fetched once, reduce split `r` of the default aggregator groups the
input of partition `r`. -/
theorem groupsBy_compute_fetch_default (hservers : servers.flatten.Perm (List.range maps.length))
    {r : ℕ} (hr : r < numSplits) :
    GroupsBy (fun k => (HashPartitioner.mk hash numSplits).getPartition k = r) maps.flatten
      (compute (Aggregator.default V)
        (fetch servers (storedBuckets (Aggregator.default V) ⟨hash, numSplits⟩ maps) r)) where
  mem_keys_iff := mem_keys_compute_fetch_iff _ ⟨hash, numSplits⟩ servers maps hservers hr
  perm_flatten k hk := by
    by_cases hmem : k ∈ keys (compute (Aggregator.default V)
        (fetch servers (storedBuckets (Aggregator.default V) ⟨hash, numSplits⟩ maps) r))
    · -- the one entry of the key holds the concatenation of its fetched combiners
      obtain ⟨⟨k', c⟩, hc, rfl⟩ := List.mem_map.mp hmem
      rw [valuesAt_eq_singleton (nodup_keys_compute _ _) hc, List.flatten_singleton]
      obtain ⟨-, hreduce⟩ := (mem_compute_fetch_iff _ _ servers maps hr k' c).mp hc
      rw [Folds.eq_flatten_of_reduce_append hreduce]
      exact flatten_fetchedCombiners_default_perm servers maps hservers k'
    · have hnot : k ∉ keys maps.flatten := fun hk' =>
        hmem ((mem_keys_compute_fetch_iff _ _ servers maps hservers hr k).mpr ⟨hk', hk⟩)
      rw [valuesAt_eq_nil_of_not_mem hmem, valuesAt_eq_nil_of_not_mem hnot]
      rfl
  nodup := nodup_keys_compute _ _

/-- **`group_by_key` without the enclave groups by key.**  For every key hash, number of
splits `n ≥ 1` and input spread over any map partitions, the fetch order being any grouping
of all map ids: there is one output per split, a key occurs in output `r` once when it is a
key of the input of partition `r` and never otherwise, and the list stored with it is a
permutation of all of its values in the input. -/
theorem groupByKey_groups (hn : 0 < numSplits)
    (hservers : servers.flatten.Perm (List.range maps.length)) :
    ∃ out, groupByKey hash numSplits servers maps = some out ∧ out.length = numSplits ∧
      ∀ r (hr : r < out.length) k,
        (keys out[r]).count k =
            (if k ∈ keys maps.flatten ∧ (HashPartitioner.mk hash numSplits).getPartition k = r
              then 1 else 0) ∧
          ∀ c, (k, c) ∈ out[r] → c.Perm (valuesAt k maps.flatten) := by
  refine ⟨_, combineByKey_eq (Aggregator.default V) ⟨hash, numSplits⟩ servers maps hn, by simp,
    fun r hr k => ?_⟩
  have hr : r < numSplits := by simpa using hr
  simp only [List.getElem_map, List.getElem_range]
  have hgroups := groupsBy_compute_fetch_default hash numSplits servers maps hservers hr
  exact ⟨hgroups.count_keys k, fun c hc => hgroups.perm_of_mem hc⟩

/-- `group_by_key` of two map partitions over two splits. -/
theorem groupByKey_groups_two_splits :
    ∃ out, groupByKey (fun k : ℕ => k.toUInt64) 2 [[0, 1]] [[(1, 5), (2, 6)], [(1, 7)]] = some out ∧
      out.length = 2 ∧
      ∀ r (hr : r < out.length) k,
        (keys out[r]).count k =
            (if k ∈ keys [[(1, 5), (2, 6)], [(1, 7)]].flatten ∧
              (HashPartitioner.mk (fun k : ℕ => k.toUInt64) 2).getPartition k = r then 1 else 0) ∧
          ∀ c, (k, c) ∈ out[r] → c.Perm (valuesAt k [[(1, 5), (2, 6)], [(1, 7)]].flatten) :=
  groupByKey_groups (fun k : ℕ => k.toUInt64) 2 [[0, 1]] [[(1, 5), (2, 6)], [(1, 7)]] (by decide)
    (by decide)

end GroupByKey

/-! ### `reduce_by_key` -/

section ReduceByKey

/-- The aggregator of `reduce_by_key` (`framework/src/rdd/pair_rdd.rs`:76-92): a value is its
own combiner, and values and combiners alike are merged with `func`. -/
def reduceAggregator (func : V → V → V) : Aggregator V V where
  createCombiner v := v
  mergeValue := func
  mergeCombiners := func
  isDefault := false

/-- `PairRdd::reduce_by_key(func, num_splits)` (`framework/src/rdd/pair_rdd.rs`:64-92). -/
def reduceByKey (func : V → V → V) (hash : K → UInt64) (numSplits : ℕ) (servers : List (List ℕ))
    (maps : List (List (K × V))) : Option (List (List (K × V))) :=
  combineByKey (reduceAggregator func) ⟨hash, numSplits⟩ servers maps

/-- For a commutative associative function the reduce of the fetched combiners of a key is
the reduce of all of its values, whatever the fetch order. -/
theorem reduce_fetchedCombiners_reduceAggregator (func : V → V → V) [Std.Associative func]
    [Std.Commutative func] (servers : List (List ℕ)) (maps : List (List (K × V)))
    (hservers : servers.flatten.Perm (List.range maps.length)) (k : K) :
    reduce func (fetchedCombiners (reduceAggregator func) servers maps k) =
      reduce func (valuesAt k maps.flatten) := by
  have hfirst : firstFold (reduceAggregator func).createCombiner (reduceAggregator func).mergeValue =
      reduce func :=
    firstFold_id func
  calc reduce func (fetchedCombiners (reduceAggregator func) servers maps k)
      = reduce func (maps.flatMap fun pairs => (reduce func (valuesAt k pairs)).toList) := by
        rw [reduce_perm func (fetchedCombiners_perm _ servers maps hservers k), hfirst]
    _ = reduce func ((maps.map (valuesAt k)).flatMap fun vs => (reduce func vs).toList) := by
        rw [List.flatMap_map]
    _ = reduce func (valuesAt k maps.flatten) := by
        rw [reduce_flatMap, valuesAt_flatten]
        rfl

/-- **`reduce_by_key` without the enclave reduces by key.**  For every commutative associative
`func`, key hash, number of splits `n ≥ 1` and input spread over any map partitions, the
fetch order being any grouping of all map ids: there is one output per split, keys occur at
most once in an output, and output `r` holds exactly the keys `k` of partition `r` that
occur in the input, each with the reduce by `func` of all of its values. -/
theorem reduceByKey_reduces (func : V → V → V) [Std.Associative func] [Std.Commutative func]
    (hash : K → UInt64) (numSplits : ℕ) (servers : List (List ℕ)) (maps : List (List (K × V)))
    (hn : 0 < numSplits) (hservers : servers.flatten.Perm (List.range maps.length)) :
    ∃ out, reduceByKey func hash numSplits servers maps = some out ∧ out.length = numSplits ∧
      ∀ r (hr : r < out.length), (keys out[r]).Nodup ∧
        ∀ k c, (k, c) ∈ out[r] ↔ (HashPartitioner.mk hash numSplits).getPartition k = r ∧
          reduce func (valuesAt k maps.flatten) = some c := by
  refine ⟨_, combineByKey_eq (reduceAggregator func) ⟨hash, numSplits⟩ servers maps hn, by simp,
    fun r hr => ?_⟩
  have hr : r < numSplits := by simpa using hr
  simp only [List.getElem_map, List.getElem_range]
  refine ⟨nodup_keys_compute _ _, fun k c => ?_⟩
  rw [mem_compute_fetch_iff _ _ servers maps hr k c]
  exact and_congr_right fun _ => by
    rw [show (reduceAggregator func).mergeCombiners = func from rfl,
      reduce_fetchedCombiners_reduceAggregator func servers maps hservers k]

/-- `reduce_by_key` of the sum on two map partitions over two splits. -/
theorem reduceByKey_reduces_two_splits :
    ∃ out, reduceByKey (· + ·) (fun k : ℕ => k.toUInt64) 2 [[0], [1]]
        [[(1, 5), (2, 6)], [(1, 7)]] = some out ∧ out.length = 2 ∧
      ∀ r (hr : r < out.length), (keys out[r]).Nodup ∧
        ∀ k c, (k, c) ∈ out[r] ↔ (HashPartitioner.mk (fun k : ℕ => k.toUInt64) 2).getPartition k = r ∧
          reduce (· + ·) (valuesAt k [[(1, 5), (2, 6)], [(1, 7)]].flatten) = some c :=
  reduceByKey_reduces (· + ·) (fun k : ℕ => k.toUInt64) 2 [[0], [1]] [[(1, 5), (2, 6)], [(1, 7)]]
    (by decide) (by decide)

end ReduceByKey

/-! ### `count_by_value` and `distinct` -/

section Values

variable {α : Type u} [DecidableEq α]

/-- Every element with the same value. -/
theorem valuesAt_map_pair (x : α) (b : β) (l : List α) :
    valuesAt x (l.map fun y => (y, b)) = List.replicate (l.count x) b := by
  induction l with
  | nil => rfl
  | cons y l ih =>
      rw [List.map_cons, valuesAt_cons, ih, List.count_cons]
      by_cases hy : y = x
      · simp [hy, List.replicate_succ]
      · simp [hy]

/-- The `u64` sum of `n + 1` ones. -/
theorem reduce_add_replicate_one (n : ℕ) :
    reduce (· + ·) (List.replicate (n + 1) (1 : UInt64)) = some (UInt64.ofNat (n + 1)) := by
  have hsum : ∀ (m : ℕ) (a : UInt64),
      (List.replicate m (1 : UInt64)).foldl (· + ·) a = a + UInt64.ofNat m := by
    intro m
    induction m with
    | zero => intro a; simp
    | succ m ih =>
        intro a
        rw [List.replicate_succ, List.foldl_cons, ih, UInt64.ofNat_add, UInt64.add_assoc,
          UInt64.add_comm 1]
        rfl
  rw [List.replicate_succ, reduce, hsum, UInt64.ofNat_add, UInt64.add_comm]
  rfl

/-- `Rdd::count_by_value` (`framework/src/rdd/rdd.rs`:1866-1877): every element paired with
`1u64`, then `reduce_by_key` of the `u64` sum over as many splits as the RDD has. -/
def countByValue (hash : α → UInt64) (servers : List (List ℕ)) (maps : List (List α)) :
    Option (List (List (α × UInt64))) :=
  reduceByKey (· + ·) hash maps.length servers (maps.map fun part => part.map fun x => (x, 1))

/-- **`count_by_value` without the enclave counts.**  For every element hash and input
spread over any map partitions, the fetch order being any grouping of all map ids: there
is one output per input partition, elements occur at most once in an output, and output
`r` holds exactly the elements of partition `r` that occur in the input, each with the
number of its occurrences as a `u64`. -/
theorem countByValue_counts (hash : α → UInt64) (servers : List (List ℕ)) (maps : List (List α))
    (hservers : servers.flatten.Perm (List.range maps.length)) :
    ∃ out, countByValue hash servers maps = some out ∧ out.length = maps.length ∧
      ∀ r (hr : r < out.length), (keys out[r]).Nodup ∧
        ∀ x c, (x, c) ∈ out[r] ↔ (HashPartitioner.mk hash maps.length).getPartition x = r ∧
          x ∈ maps.flatten ∧ c = UInt64.ofNat (maps.flatten.count x) := by
  rcases Nat.eq_zero_or_pos maps.length with hzero | hn
  · -- no map partition: no split
    obtain rfl : maps = [] := List.eq_nil_of_length_eq_zero hzero
    exact ⟨[], rfl, rfl, fun r hr => absurd hr (Nat.not_lt_zero r)⟩
  have hservers' : servers.flatten.Perm
      (List.range (maps.map fun part => part.map fun x => (x, (1 : UInt64))).length) := by
    rwa [List.length_map]
  refine ⟨_, combineByKey_eq (reduceAggregator (· + ·)) ⟨hash, maps.length⟩ servers _
    (by simpa using hn), by simp, fun r hr => ?_⟩
  have hr : r < maps.length := by simpa using hr
  simp only [List.getElem_map, List.getElem_range]
  refine ⟨nodup_keys_compute _ _, fun x c => ?_⟩
  have hvalues : valuesAt x (maps.map fun part => part.map fun x => (x, (1 : UInt64))).flatten =
      List.replicate (maps.flatten.count x) 1 := by
    rw [← List.map_flatten, valuesAt_map_pair]
  rw [mem_compute_fetch_iff _ _ servers _ (by simpa using hr) x c]
  refine and_congr_right fun _ => ?_
  rw [show (reduceAggregator (fun a b : UInt64 => a + b)).mergeCombiners = (· + ·) from rfl,
    reduce_fetchedCombiners_reduceAggregator _ servers _ hservers' x, hvalues]
  -- an element occurs in the input exactly when its count is positive
  rcases Nat.eq_zero_or_pos (maps.flatten.count x) with hcount | hcount
  · rw [hcount, List.replicate_zero, reduce_nil]
    simp [List.count_eq_zero.mp hcount]
  · obtain ⟨n, hn⟩ := Nat.exists_eq_add_of_lt hcount
    rw [hn, Nat.zero_add, reduce_add_replicate_one]
    simp [List.count_pos_iff.mp hcount, eq_comm]

/-- `count_by_value` of two partitions. -/
theorem countByValue_counts_two_partitions :
    ∃ out, countByValue (fun x : ℕ => x.toUInt64) [[0], [1]] [[3, 4], [3]] = some out ∧
      out.length = [[3, 4], [3]].length ∧
      ∀ r (hr : r < out.length), (keys out[r]).Nodup ∧
        ∀ x c, (x, c) ∈ out[r] ↔
          (HashPartitioner.mk (fun x : ℕ => x.toUInt64) [[3, 4], [3]].length).getPartition x = r ∧
          x ∈ [[3, 4], [3]].flatten ∧ c = UInt64.ofNat ([[3, 4], [3]].flatten.count x) :=
  countByValue_counts (fun x : ℕ => x.toUInt64) [[0], [1]] [[3, 4], [3]] (by decide)

omit [DecidableEq α] in
/-- Unwrapping keys that are all `Some`: `unwrap()` of each key does not panic, and gives the
keys without their `Some`. -/
theorem mapM_fst_eq_some {β : Type*} :
    ∀ (part : List (Option α × β)), (∀ e ∈ part, e.1.isSome) →
      part.mapM (fun e => e.1) = some ((keys part).filterMap id)
  | [], _ => rfl
  | e :: part, h => by
      obtain ⟨x, hx⟩ := Option.isSome_iff_exists.mp (h e List.mem_cons_self)
      rw [List.mapM_cons, hx, mapM_fst_eq_some part fun e' he' => h e' (List.mem_cons_of_mem _ he'),
        keys_cons, hx]
      rfl

theorem count_filterMap_id (l : List (Option α)) (x : α) :
    (l.filterMap id).count x = l.count (some x) := by
  rw [List.count_filterMap, List.count_eq_countP]
  rfl

/-- The number of splits a value lies in, over all splits: one when it lies in some split. -/
theorem sum_range_ite_eq (p : Prop) [Decidable p] (f : ℕ) :
    ∀ n, ((List.range n).map fun r => if p ∧ f = r then 1 else 0).sum = if p ∧ f < n then 1 else 0
  | 0 => by simp
  | n + 1 => by
      rw [List.range_succ, List.map_append, List.sum_append, sum_range_ite_eq p f n,
        List.map_singleton, List.sum_singleton]
      by_cases hp : p
      · by_cases hf : f < n
        · have hne : f ≠ n := Nat.ne_of_lt hf
          simp [hp, hf, hne, Nat.lt_succ_of_lt hf]
        · by_cases heq : f = n
          · simp [hp, heq]
          · have hf' : ¬f < n + 1 := by omega
            simp [hp, hf, heq, hf']
      · simp [hp]

/-- `Rdd::distinct_with_num_partitions` (`framework/src/rdd/rdd.rs`:1924-1942): every element `x`
keyed as `(Some(x), None)`, `reduce_by_key` of `|(_x, y)| y` over `num_partitions` splits,
then the key of every entry unwrapped. -/
def distinctWithNumPartitions (hash : Option α → UInt64) (numPartitions : ℕ)
    (servers : List (List ℕ)) (maps : List (List α)) : Option (List (List α)) := do
  let reduced ← reduceByKey (fun _ y => y) hash numPartitions servers
    (maps.map fun part => part.map fun x => (some x, (none : Option α)))
  reduced.mapM fun part => part.mapM fun e => e.1

/-- `Rdd::distinct` (`framework/src/rdd/rdd.rs`:1944-1951): as many splits as the RDD has. -/
def distinct (hash : Option α → UInt64) (servers : List (List ℕ)) (maps : List (List α)) :
    Option (List (List α)) :=
  distinctWithNumPartitions hash maps.length servers maps

/-- **`distinct` without the enclave keeps every element once.**  For every hash of the keys,
number of partitions `n ≥ 1` and input spread over any map partitions, the fetch order being
any grouping of all map ids: no unwrap panics, there is one output per partition, output `r`
holds each element of the input whose key `Some(x)` is of partition `r` exactly once and
nothing else, and all outputs together hold every element of the input exactly once. -/
theorem distinct_count (hash : Option α → UInt64) (numPartitions : ℕ) (servers : List (List ℕ))
    (maps : List (List α)) (hn : 0 < numPartitions)
    (hservers : servers.flatten.Perm (List.range maps.length)) :
    ∃ out, distinctWithNumPartitions hash numPartitions servers maps = some out ∧
      out.length = numPartitions ∧
      (∀ r (hr : r < out.length) x, out[r].count x =
        if x ∈ maps.flatten ∧ (HashPartitioner.mk hash numPartitions).getPartition (some x) = r
        then 1 else 0) ∧
      ∀ x, out.flatten.count x = if x ∈ maps.flatten then 1 else 0 := by
  set pairs := maps.map fun part => part.map fun x => (some x, (none : Option α)) with hpairs
  have hservers' : servers.flatten.Perm (List.range pairs.length) := by
    rwa [hpairs, List.length_map]
  have hkeys : ∀ k, k ∈ keys pairs.flatten ↔ ∃ x ∈ maps.flatten, k = some x := by
    intro k
    rw [hpairs, ← List.map_flatten, keys, List.map_map, List.mem_map]
    constructor
    · rintro ⟨x, hx, rfl⟩
      exact ⟨x, hx, rfl⟩
    · rintro ⟨x, hx, rfl⟩
      exact ⟨x, hx, rfl⟩
  set reduced : ℕ → List (Option α × Option α) := fun r => compute (reduceAggregator fun _ y => y)
    (fetch servers (storedBuckets (reduceAggregator fun _ y => y) ⟨hash, numPartitions⟩ pairs) r)
    with hreduced
  -- every split's entries are keyed by elements of the input
  have hsome : ∀ r < numPartitions, ∀ e ∈ reduced r, e.1.isSome := by
    intro r hr e he
    have hmem := (mem_keys_compute_fetch_iff _ _ servers pairs hservers' hr e.1).mp
      (mem_of_mem_keys (c := e.2) he)
    obtain ⟨x, -, hx⟩ := (hkeys e.1).mp hmem.1
    rw [hx]
    rfl
  have hcount : ∀ r < numPartitions, ∀ x, ((keys (reduced r)).filterMap id).count x =
      if x ∈ maps.flatten ∧ (HashPartitioner.mk hash numPartitions).getPartition (some x) = r
      then 1 else 0 := by
    intro r hr x
    rw [count_filterMap_id]
    have hiff := mem_keys_compute_fetch_iff (reduceAggregator fun _ y => y) ⟨hash, numPartitions⟩
      servers pairs hservers' hr (some x)
    have hx : some x ∈ keys pairs.flatten ↔ x ∈ maps.flatten := by
      rw [hkeys]
      simp
    split
    · rename_i hin
      exact List.count_eq_one_of_mem (nodup_keys_compute _ _) (hiff.mpr ⟨hx.mpr hin.1, hin.2⟩)
    · rename_i hin
      exact List.count_eq_zero_of_not_mem fun hmem =>
        hin ⟨hx.mp (hiff.mp hmem).1, (hiff.mp hmem).2⟩
  have hout : distinctWithNumPartitions hash numPartitions servers maps =
      some ((List.range numPartitions).map fun r => (keys (reduced r)).filterMap id) := by
    rw [distinctWithNumPartitions, reduceByKey, ← hpairs,
      combineByKey_eq _ ⟨hash, numPartitions⟩ servers pairs hn]
    show ((List.range numPartitions).map reduced).mapM _ = _
    rw [List.mapM_map, Function.comp_def, Slices.mapM_eq_some_map fun r hr =>
      mapM_fst_eq_some _ (hsome r (List.mem_range.mp hr))]
  refine ⟨_, hout, by simp, fun r hr x => ?_, fun x => ?_⟩
  · have hr : r < numPartitions := by simpa using hr
    rw [List.getElem_map, List.getElem_range]
    exact hcount r hr x
  · -- each element lies in the split of its key, and in no other
    rw [List.count_flatten, List.map_map, Function.comp_def, List.map_congr_left fun r hr =>
      hcount r (List.mem_range.mp hr) x, sum_range_ite_eq]
    have hlt := HashPartitioner.getPartition_lt (HashPartitioner.mk hash numPartitions) hn (some x)
    simp only [hlt, and_true]

/-- `distinct` of two partitions with a repeated element, over two partitions. -/
theorem distinct_count_two_partitions :
    ∃ out, distinctWithNumPartitions (fun o : Option ℕ => (o.getD 0).toUInt64) 2 [[0, 1]]
        [[3, 4], [3]] = some out ∧
      out.length = 2 ∧
      (∀ r (hr : r < out.length) x, out[r].count x =
        if x ∈ [[3, 4], [3]].flatten ∧
          (HashPartitioner.mk (fun o : Option ℕ => (o.getD 0).toUInt64) 2).getPartition (some x) = r
        then 1 else 0) ∧
      ∀ x, out.flatten.count x = if x ∈ [[3, 4], [3]].flatten then 1 else 0 :=
  distinct_count (fun o : Option ℕ => (o.getD 0).toUInt64) 2 [[0, 1]] [[3, 4], [3]] (by decide)
    (by decide)

end Values

end Plain

end Flare
