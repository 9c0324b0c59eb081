import Mathlib
import Flare.Shuffle.MapSide
import Flare.Shuffle.Exchange
import Flare.Shuffle.ReduceSide
import Flare.Lib.Combine

/-!
# The secure shuffle, end to end

`secureShuffle` chains the three halves of a secure `ShuffledRdd`: the
shuffle-map task of every map partition (the enclave's `do_shuffle_task` on each
of its calls, then the framework's bucket layout and `chunks_exact`), the fetch
of chunk `r` of every map output for each reduce id `r`, and
`ShuffledRdd::secure_compute_prev` with the enclave's `compute_inner` on what was
fetched.

## Main results

* `secureShuffle_eq` — for every aggregator, the pipeline never panics on calls
  with blocks, and reduce partition `r` is, group by group, the `merge_core` of
  bucket `r * (MAX_THREAD + 1) + j` of every sub-part, the sub-parts in fetch
  order.
* `subPartBucket_eq` — both branches of `do_shuffle_task_core` put the run fold
  of the sorted sub-part into the buckets.
* `combinesBy_reduceOutput` — for a lawful aggregator that output combines the
  input over the keys whose reduce id is `r`.
* `secureShuffle_combines` — the two together: every key of the input occurs once
  in exactly one reduce partition, no other key occurs, and its combiner is the
  aggregate of all of its values.

## Design notes

Which server answers first, and so the order in which map outputs are appended,
is the argument `servers`: the map ids grouped by server in fetch order.  The
profiling flags of every enclave call are arguments too.  The layout is proved
for every sub-part order; only the sub-parts as a whole are a permutation of the
input.

The combiners are followed through the pipeline by the default aggregator's run on
the same sub-parts (`Flare.Lib.Combine`): entry by entry, each combiner is the
aggregate of the values the default aggregator collects in its place.
-/

namespace Flare

open KeyedList Slices Shuffled

universe u v w

variable {K : Type u} {V : Type v} {C : Type w} [LinearOrder K]

/-! ### The pipeline -/

/-- The secure branch of the framework's `ShuffleDependency::do_shuffle_task` for
one map partition (framework `dependency.rs`:276-332), on the blocks of each of
its enclave calls: every call's bucket rows laid out, then cut into the chunks
that `SHUFFLE_CACHE` stores under each reduce id.  `isParaShuf i` is the
profiling flag of call `i`; `none` is a panic in the enclave. -/
def shuffleMapTask (sortUnstableBy : SortBy (K × V) fun a b => a.1 ≤ b.1) (agg : Aggregator V C)
    (partitioner : HashPartitioner K) (deepSizeOf : List (K × V) → ℕ) (limit : ℕ)
    (isParaShuf : ℕ → Bool) (calls : List (List (List (K × V)))) :
    Option (List (List (List (List (ItemE (List (K × C))))))) :=
  (calls.zipIdx.mapM fun (results, i) =>
      doShuffleTask sortUnstableBy agg partitioner deepSizeOf limit (isParaShuf i) results).map
    (secureShuffleWrite partitioner.partitions)

/-- **The secure shuffle of a `ShuffledRdd`**: the shuffle-map task of every map
partition `m` (its calls' flags `isParaShuf m`), then for every reduce id `r` the
fetch of chunk `r` of every map output, the map ids grouped by server as in
`servers`, and `ShuffledRdd::secure_compute_prev` on what was fetched (flags
`isPara r`).  The result lists the reduce partitions' encrypted blocks. -/
def secureShuffle (sortUnstableBy : SortBy (K × V) fun a b => a.1 ≤ b.1)
    (kmergeBy : KMergeBy (K × C) fun a b => a.1 ≤ b.1) (agg : Aggregator V C)
    (partitioner : HashPartitioner K) (deepSizeOf : List (K × V) → ℕ) (limit : ℕ)
    (isParaShuf : ℕ → ℕ → Bool) (isPara : ℕ → Bool × Bool) (servers : List (List ℕ))
    (maps : List (List (List (List (K × V))))) : Option (List (List (ItemE (List (K × C))))) := do
  let stored ← maps.zipIdx.mapM fun (calls, m) =>
    shuffleMapTask sortUnstableBy agg partitioner deepSizeOf limit (isParaShuf m) calls
  (List.range partitioner.partitions).mapM fun r => do
    let fetched ← secureFetch (servers.map fun mapIds =>
      mapIds.map fun m => (stored.getD m []).getD r [])
    secureComputePrev kmergeBy agg (isPara r).1 (isPara r).2 fetched

/-- The reduce partition of a key: its bucket under the widened partitioner,
divided by the `MAX_THREAD + 1` buckets of a chunk. -/
def reduceId (partitioner : HashPartitioner K) (k : K) : ℕ :=
  (partitioner.setNumOfPartitions (partitioner.partitions * (maxThread + 1))).getPartition k /
    (maxThread + 1)

omit [LinearOrder K] in
theorem reduceId_lt (partitioner : HashPartitioner K) (hn : 0 < partitioner.partitions) (k : K) :
    reduceId partitioner k < partitioner.partitions := by
  have hbucket := HashPartitioner.getPartition_lt
    (partitioner.setNumOfPartitions (partitioner.partitions * (maxThread + 1)))
    (by simp [hn]) k
  simp only [HashPartitioner.setNumOfPartitions_partitions] at hbucket
  apply Nat.div_lt_of_lt_mul
  rw [Nat.mul_comm (maxThread + 1)]
  exact hbucket

/-! ### What each stage computes -/

section Stages

variable (sortUnstableBy : SortBy (K × V) fun a b => a.1 ≤ b.1) (agg : Aggregator V C)
  (partitioner : HashPartitioner K) (deepSizeOf : List (K × V) → ℕ) (limit : ℕ)

/-- The bucket row the map side makes of one sub-part: sorted, shuffled over the
widened partitioner, every bucket encrypted. -/
def subPartRow (subPart : List (K × V)) : List (List (ItemE (List (K × C)))) :=
  (doShuffleTaskCore agg
    (partitioner.setNumOfPartitions (partitioner.partitions * (maxThread + 1))).getPartition
    (partitioner.partitions * (maxThread + 1)) (sortUnstableBy.sort subPart)).map batchEncrypt

/-- Bucket `i` of one sub-part, before encryption. -/
def subPartBucket (i : ℕ) (subPart : List (K × V)) : List (K × C) :=
  (doShuffleTaskCore agg
    (partitioner.setNumOfPartitions (partitioner.partitions * (maxThread + 1))).getPartition
    (partitioner.partitions * (maxThread + 1)) (sortUnstableBy.sort subPart)).getD i []

/-- The sub-parts of one map partition, in the order their rows are laid out. -/
def mapSubParts (calls : List (List (List (K × V)))) : List (List (K × V)) :=
  calls.flatMap fun results => sampleFirst (groupSubParts deepSizeOf limit [] 0 results)

/-- The rows of one enclave call. -/
def callRows (results : List (List (K × V))) : List (List (List (ItemE (List (K × C))))) :=
  (sampleFirst (groupSubParts deepSizeOf limit [] 0 results)).map
    (subPartRow sortUnstableBy agg partitioner)

theorem getElem?_subPartRow {i : ℕ} (hi : i < partitioner.partitions * (maxThread + 1))
    (subPart : List (K × V)) :
    (subPartRow sortUnstableBy agg partitioner subPart)[i]? =
      some (batchEncrypt (subPartBucket sortUnstableBy agg partitioner i subPart)) := by
  unfold subPartRow subPartBucket
  set core := doShuffleTaskCore agg
    (partitioner.setNumOfPartitions (partitioner.partitions * (maxThread + 1))).getPartition
    (partitioner.partitions * (maxThread + 1)) (sortUnstableBy.sort subPart) with hcore
  -- the core fills every bucket of the widened partitioner
  have hi' : i < core.length := by
    rw [hcore, length_doShuffleTaskCore]
    exact hi
  rw [List.getElem?_map, List.getElem?_eq_getElem hi', Option.map_some, List.getD_eq_getElem]

/-- `mapM` over an enumeration, of a function that never fails and ignores the
index. -/
theorem mapM_zipIdx_eq_some_map {α : Type*} {γ : Type*} {f : α × ℕ → Option γ} {g : α → γ}
    {l : List α} (h : ∀ x ∈ l, ∀ i, f (x, i) = some (g x)) :
    l.zipIdx.mapM f = some (l.map g) := by
  have hmap : l.zipIdx.mapM f = some (l.zipIdx.map fun x => g x.1) :=
    mapM_eq_some_map fun x hx =>
      h x.1 (List.mem_of_getElem? (List.mem_zipIdx_iff_getElem?.mp hx)) x.2
  rw [hmap]
  congr 1
  calc l.zipIdx.map (fun x => g x.1) = (l.zipIdx.map Prod.fst).map g := by rw [List.map_map]; rfl
    _ = l.map g := by rw [List.zipIdx_map_fst]

/-- **One map partition**: calls with blocks never panic, and every call's rows
are laid out. -/
theorem shuffleMapTask_eq (isParaShuf : ℕ → Bool) {calls : List (List (List (K × V)))}
    (hcalls : ∀ results ∈ calls, results ≠ []) :
    shuffleMapTask sortUnstableBy agg partitioner deepSizeOf limit isParaShuf calls =
      some (secureShuffleWrite partitioner.partitions
        (calls.map (callRows sortUnstableBy agg partitioner deepSizeOf limit))) := by
  unfold shuffleMapTask
  rw [mapM_zipIdx_eq_some_map fun results h i =>
    doShuffleTask_eq_some sortUnstableBy agg partitioner deepSizeOf limit (isParaShuf i)
      (hcalls results h)]
  rfl

/-- **What a map partition stores**: group `j` of chunk `r` holds bucket
`r * (MAX_THREAD + 1) + j` of each of its sub-parts, encrypted. -/
theorem getD_getD_secureShuffleWrite_callRows (calls : List (List (List (K × V))))
    {r : ℕ} (hr : r < partitioner.partitions) {j : ℕ} (hj : j < maxThread + 1) :
    ((secureShuffleWrite partitioner.partitions
        (calls.map (callRows sortUnstableBy agg partitioner deepSizeOf limit))).getD r []).getD j [] =
      (mapSubParts deepSizeOf limit calls).map fun subPart =>
        batchEncrypt (subPartBucket sortUnstableBy agg partitioner (r * (maxThread + 1) + j) subPart) := by
  have hidx : r * (maxThread + 1) + j < partitioner.partitions * (maxThread + 1) := bucket_lt hr hj
  -- the rows of all calls are the rows of the map partition's sub-parts
  have hrows : (calls.map (callRows sortUnstableBy agg partitioner deepSizeOf limit)).flatten =
      (mapSubParts deepSizeOf limit calls).map (subPartRow sortUnstableBy agg partitioner) := by
    rw [mapSubParts, List.map_flatMap, List.flatMap_def]
    rfl
  rw [secureShuffleWrite_getD _ _ hr hj, hrows, List.filterMap_map]
  exact List.filterMap_eq_map_iff_forall_eq_some.mpr fun subPart _ =>
    getElem?_subPartRow sortUnstableBy agg partitioner hidx subPart

/-- Every sub-part of every map partition, in the order the fetch meets them. -/
def fetchedSubParts (servers : List (List ℕ)) (maps : List (List (List (List (K × V))))) :
    List (List (K × V)) :=
  servers.flatten.flatMap fun m => mapSubParts deepSizeOf limit (maps.getD m [])

/-- Reduce partition `r` as the pipeline computes it from the fetched sub-parts:
nothing when there are none, otherwise, group by group, the `merge_core` of
bucket `r * (MAX_THREAD + 1) + j` of every sub-part. -/
def reduceOutput (kmergeBy : KMergeBy (K × C) fun a b => a.1 ≤ b.1) (subParts : List (List (K × V)))
    (r : ℕ) : List (ItemE (List (K × C))) :=
  if subParts = [] then []
  else (List.range (maxThread + 1)).flatMap fun j =>
    batchEncrypt (mergeCore kmergeBy
      (subParts.map (subPartBucket sortUnstableBy agg partitioner (r * (maxThread + 1) + j))) agg)

/-- **Every map partition**: calls with blocks never panic. -/
theorem mapM_shuffleMapTask (isParaShuf : ℕ → ℕ → Bool) {maps : List (List (List (List (K × V))))}
    (hcalls : ∀ calls ∈ maps, ∀ results ∈ calls, results ≠ []) :
    (maps.zipIdx.mapM fun (calls, m) =>
        shuffleMapTask sortUnstableBy agg partitioner deepSizeOf limit (isParaShuf m) calls) =
      some (maps.map fun calls => secureShuffleWrite partitioner.partitions
        (calls.map (callRows sortUnstableBy agg partitioner deepSizeOf limit))) :=
  mapM_zipIdx_eq_some_map fun calls h m =>
    shuffleMapTask_eq sortUnstableBy agg partitioner deepSizeOf limit (isParaShuf m) (hcalls calls h)

/-- **The fetch of reduce id `r`**: group `j` is bucket `r * (MAX_THREAD + 1) + j`
of every fetched sub-part; with no map output there is nothing at all. -/
theorem secureFetch_stored {servers : List (List ℕ)} {maps : List (List (List (List (K × V))))}
    (hids : ∀ m ∈ servers.flatten, m < maps.length) {r : ℕ} (hr : r < partitioner.partitions) :
    secureFetch (servers.map fun mapIds => mapIds.map fun m =>
        ((maps.map fun calls => secureShuffleWrite partitioner.partitions
          (calls.map (callRows sortUnstableBy agg partitioner deepSizeOf limit))).getD m []).getD r []) =
      some (if servers.flatten = [] then []
        else (List.range (maxThread + 1)).map fun j =>
          (fetchedSubParts deepSizeOf limit servers maps).map fun subPart =>
            batchEncrypt (subPartBucket sortUnstableBy agg partitioner (r * (maxThread + 1) + j) subPart)) := by
  set chunkOf := fun m => ((maps.map fun calls => secureShuffleWrite partitioner.partitions
    (calls.map (callRows sortUnstableBy agg partitioner deepSizeOf limit))).getD m []).getD r []
    with hchunkOf
  -- the chunk fetched from map output `m`
  have hchunk : ∀ m ∈ servers.flatten, chunkOf m = (secureShuffleWrite partitioner.partitions
      ((maps.getD m []).map (callRows sortUnstableBy agg partitioner deepSizeOf limit))).getD r [] := by
    intro m hm
    have hlt := hids m hm
    have hstored : (maps.map fun calls => secureShuffleWrite partitioner.partitions
        (calls.map (callRows sortUnstableBy agg partitioner deepSizeOf limit))).getD m [] =
        secureShuffleWrite partitioner.partitions
          ((maps.getD m []).map (callRows sortUnstableBy agg partitioner deepSizeOf limit)) := by
      rw [List.getD_eq_getElem _ _ (by simpa using hlt), List.getElem_map,
        List.getD_eq_getElem _ _ hlt]
    simp only [hchunkOf, hstored]
  have hflat : (servers.map fun mapIds => mapIds.map chunkOf).flatten = servers.flatten.map chunkOf :=
    List.map_flatten.symm
  have hall : ∀ chunks ∈ (servers.map fun mapIds => mapIds.map chunkOf).flatten,
      chunks.length = maxThread + 1 := by
    rw [hflat]
    intro chunks hchunks
    obtain ⟨m, hm, rfl⟩ := List.mem_map.mp hchunks
    rw [hchunk m hm]
    exact length_getD_secureShuffleWrite _ _ hr
  rw [secureFetch_eq (Nat.succ_pos maxThread) _ hall, hflat]
  by_cases hnil : servers.flatten = []
  · simp [hnil]
  rw [if_neg (by simpa using hnil), if_neg hnil]
  congr 1
  unfold concatChunks
  apply List.map_congr_left
  intro j hj
  -- group `j` of every fetched chunk, concatenated in fetch order
  have hgroup : ∀ m ∈ servers.flatten, (chunkOf m).getD j [] =
      (mapSubParts deepSizeOf limit (maps.getD m [])).map fun subPart =>
        batchEncrypt (subPartBucket sortUnstableBy agg partitioner (r * (maxThread + 1) + j) subPart) := by
    intro m hm
    rw [hchunk m hm]
    exact getD_getD_secureShuffleWrite_callRows sortUnstableBy agg partitioner deepSizeOf limit _ hr
      (List.mem_range.mp hj)
  rw [List.map_map, List.map_congr_left fun m hm => by exact hgroup m hm, fetchedSubParts,
    List.map_flatMap, List.flatMap_def]

/-- **The reduce side of reduce id `r`** on what the fetch returned. -/
theorem secureComputePrev_fetched (kmergeBy : KMergeBy (K × C) fun a b => a.1 ≤ b.1)
    (isParaEnc isParaMer : Bool) (subParts : List (List (K × V))) (r : ℕ) :
    secureComputePrev kmergeBy agg isParaEnc isParaMer
        ((List.range (maxThread + 1)).map fun j => subParts.map fun subPart =>
          batchEncrypt (subPartBucket sortUnstableBy agg partitioner (r * (maxThread + 1) + j) subPart)) =
      some (reduceOutput sortUnstableBy agg partitioner kmergeBy subParts r) := by
  by_cases hnil : subParts = []
  · -- every group is empty and the framework skips the enclave
    subst hnil
    rw [secureComputePrev_of_eq_nil]
    · simp [reduceOutput]
    · intro subPart h
      obtain ⟨j, -, rfl⟩ := List.mem_map.mp h
      rfl
  · have hne : ∀ subPart ∈ (List.range (maxThread + 1)).map (fun j => subParts.map fun subPart =>
        batchEncrypt (subPartBucket sortUnstableBy agg partitioner (r * (maxThread + 1) + j) subPart)),
        subPart ≠ [] := by
      intro subPart h
      obtain ⟨j, -, rfl⟩ := List.mem_map.mp h
      simpa using hnil
    rw [secureComputePrev_of_ne_nil _ _ _ _ hne (by simp), computeInner_eq _ _ _ _ (by simp),
      reduceOutput, if_neg hnil, List.flatMap_map]
    congr 1
    apply List.flatMap_congr
    intro j _
    rw [List.map_map]
    simp [Function.comp_def]

/-- **The pipeline in closed form**: for every aggregator, map ids in range and
calls with blocks, nothing panics and reduce partition `r` is `reduceOutput` of
the fetched sub-parts. -/
theorem secureShuffle_eq (kmergeBy : KMergeBy (K × C) fun a b => a.1 ≤ b.1)
    (isParaShuf : ℕ → ℕ → Bool) (isPara : ℕ → Bool × Bool) {servers : List (List ℕ)}
    {maps : List (List (List (List (K × V))))} (hids : ∀ m ∈ servers.flatten, m < maps.length)
    (hcalls : ∀ calls ∈ maps, ∀ results ∈ calls, results ≠ []) :
    secureShuffle sortUnstableBy kmergeBy agg partitioner deepSizeOf limit isParaShuf isPara
        servers maps =
      some ((List.range partitioner.partitions).map
        (reduceOutput sortUnstableBy agg partitioner kmergeBy
          (fetchedSubParts deepSizeOf limit servers maps))) := by
  unfold secureShuffle
  rw [mapM_shuffleMapTask sortUnstableBy agg partitioner deepSizeOf limit isParaShuf hcalls,
    Option.bind_eq_bind, Option.bind_some]
  apply mapM_eq_some_map
  intro r hr
  rw [secureFetch_stored sortUnstableBy agg partitioner deepSizeOf limit hids (List.mem_range.mp hr),
    Option.bind_eq_bind, Option.bind_some]
  by_cases hnil : servers.flatten = []
  · -- no map output: nothing fetched, nothing computed
    have hsub : fetchedSubParts deepSizeOf limit servers maps = [] := by
      simp [fetchedSubParts, hnil]
    rw [if_pos hnil, hsub, secureComputePrev_of_eq_nil _ _ _ _ (by simp)]
    simp [reduceOutput]
  · rw [if_neg hnil]
    exact secureComputePrev_fetched sortUnstableBy agg partitioner _ _ _ _ _

end Stages

/-! ### The buckets of a sub-part -/

section Buckets

variable (sortUnstableBy : SortBy (K × V) fun a b => a.1 ≤ b.1) (agg : Aggregator V C)
  (partitioner : HashPartitioner K)

/-- **Bucket `i` of a sub-part is the run fold of the sorted sub-part**, restricted to the
keys of bucket `i`, for every aggregator: the `is_default` branch computes it on every
input, and the general branch on sorted input. -/
theorem subPartBucket_eq {i : ℕ} (hi : i < partitioner.partitions * (maxThread + 1))
    (subPart : List (K × V)) :
    subPartBucket sortUnstableBy agg partitioner i subPart =
      (foldRuns agg.createCombiner agg.mergeValue (sortUnstableBy.sort subPart)).filter
        fun e => (partitioner.setNumOfPartitions
          (partitioner.partitions * (maxThread + 1))).getPartition e.1 = i := by
  set widened := partitioner.setNumOfPartitions (partitioner.partitions * (maxThread + 1))
  have hcore : doShuffleTaskCore agg widened.getPartition (partitioner.partitions * (maxThread + 1))
      (sortUnstableBy.sort subPart) =
      bucketize widened.getPartition (partitioner.partitions * (maxThread + 1))
        (foldRuns agg.createCombiner agg.mergeValue (sortUnstableBy.sort subPart)) := by
    cases hdefault : agg.isDefault
    · -- the general branch sees the sub-part sorted, and every key has a bucket
      have hwidth : 0 < widened.partitions := by
        simp only [widened, HashPartitioner.setNumOfPartitions_partitions]
        omega
      have hpart : ∀ k, widened.getPartition k < partitioner.partitions * (maxThread + 1) := by
        intro k
        have hlt := HashPartitioner.getPartition_lt widened hwidth k
        simpa only [widened, HashPartitioner.setNumOfPartitions_partitions] using hlt
      exact doShuffleTaskCore_of_sorted agg _ _ hdefault hpart
        (List.pairwise_map.mpr (sortUnstableBy.sorted subPart))
    · exact doShuffleTaskCore_of_isDefault agg _ _ hdefault _
  unfold subPartBucket
  rw [hcore, List.getD_eq_getElem _ _ (by simpa using hi), getElem_bucketize]

/-- Every bucket is strictly sorted by key, being a part of the run fold of a sorted
sub-part. -/
theorem pairwise_keys_subPartBucket {i : ℕ} (hi : i < partitioner.partitions * (maxThread + 1))
    (subPart : List (K × V)) :
    (keys (subPartBucket sortUnstableBy agg partitioner i subPart)).Pairwise (· ≤ ·) := by
  rw [subPartBucket_eq sortUnstableBy agg partitioner hi]
  have hsort : (keys (sortUnstableBy.sort subPart)).Pairwise (· ≤ ·) :=
    List.pairwise_map.mpr (sortUnstableBy.sorted subPart)
  have hruns := pairwise_lt_keys_foldRuns agg.createCombiner agg.mergeValue hsort
  have hsub : (keys ((foldRuns agg.createCombiner agg.mergeValue
      (sortUnstableBy.sort subPart)).filter fun e => (partitioner.setNumOfPartitions
        (partitioner.partitions * (maxThread + 1))).getPartition e.1 = i)).Sublist
      (keys (foldRuns agg.createCombiner agg.mergeValue (sortUnstableBy.sort subPart))) :=
    List.filter_sublist.map Prod.fst
  exact (hruns.sublist hsub).imp le_of_lt

end Buckets

/-! ### The default aggregator -/

section Default

variable (sortUnstableBy : SortBy (K × V) fun a b => a.1 ≤ b.1) (partitioner : HashPartitioner K)

/-- For the default aggregator, bucket `i` of a sub-part is the run fold of the sorted
sub-part that collects values, restricted to the keys of bucket `i`. -/
theorem subPartBucket_default {i : ℕ} (hi : i < partitioner.partitions * (maxThread + 1))
    (subPart : List (K × V)) :
    subPartBucket sortUnstableBy (Aggregator.default V) partitioner i subPart =
      (foldRuns (fun v => [v]) (fun c v => c ++ [v]) (sortUnstableBy.sort subPart)).filter
        fun e => (partitioner.setNumOfPartitions
          (partitioner.partitions * (maxThread + 1))).getPartition e.1 = i :=
  subPartBucket_eq sortUnstableBy (Aggregator.default V) partitioner hi subPart

/-- Bucket `i` of a sub-part of one pair holds the pair when its key falls in
bucket `i`, and nothing otherwise. -/
theorem subPartBucket_singleton {i : ℕ} (hi : i < partitioner.partitions * (maxThread + 1))
    (x : K × V) :
    subPartBucket sortUnstableBy (Aggregator.default V) partitioner i [x] =
      if (partitioner.setNumOfPartitions (partitioner.partitions * (maxThread + 1))).getPartition x.1 = i
      then [(x.1, [x.2])] else [] := by
  have hruns : foldRuns (fun v => [v]) (fun c v => c ++ [v]) [x] = [(x.1, [x.2])] := rfl
  rw [subPartBucket_default sortUnstableBy partitioner hi, sortUnstableBy.sort_singleton, hruns,
    List.filter_singleton, Bool.cond_decide]

/-- The buckets `i` of all sub-parts hold pregroups of the sub-parts over the keys
of bucket `i`. -/
theorem pregroups_subPartBucket {i : ℕ} (hi : i < partitioner.partitions * (maxThread + 1))
    (subParts : List (List (K × V))) :
    Pregroups (fun k => True ∧ decide ((partitioner.setNumOfPartitions
        (partitioner.partitions * (maxThread + 1))).getPartition k = i) = true)
      subParts.flatten
      (subParts.map (subPartBucket sortUnstableBy (Aggregator.default V) partitioner i)).flatten := by
  have hpieces : Pregroups (fun k => True ∧ decide ((partitioner.setNumOfPartitions
        (partitioner.partitions * (maxThread + 1))).getPartition k = i) = true)
      (subParts.flatMap sortUnstableBy.sort)
      (subParts.flatMap (subPartBucket sortUnstableBy (Aggregator.default V) partitioner i)) :=
    Pregroups.flatMap _ _ subParts fun subPart _ => by
      rw [subPartBucket_default sortUnstableBy partitioner hi]
      exact (pregroups_foldRuns_singleton _).filter _
  -- sorting each sub-part only permutes it
  have hsorted : (subParts.flatMap sortUnstableBy.sort).Perm subParts.flatten := by
    rw [← List.flatMap_id]
    exact List.Perm.flatMap_left subParts fun subPart _ => sortUnstableBy.perm subPart
  rw [← List.flatMap_def]
  exact hpieces.perm_left hsorted

end Default

section Lists

variable {α : Type*} {γ : Type*}

/-- Reading a list back through its indices. -/
theorem flatMap_range_getD (l : List α) (d : α) (g : α → List γ) :
    (List.range l.length).flatMap (fun i => g (l.getD i d)) = l.flatMap g := by
  have hidx : (List.range l.length).map (fun i => l.getD i d) = l := by
    apply List.ext_getElem (by simp)
    intro i h₁ h₂
    simp [List.getElem?_eq_getElem h₂]
  rw [List.flatMap_def, List.flatMap_def]
  conv_rhs => rw [← hidx]
  rw [List.map_map]
  rfl

theorem flatMap_flatten_flatten (ls : List (List (List (List α)))) :
    (ls.flatMap fun l => l.flatten.flatten) = ls.flatten.flatten.flatten := by
  induction ls with
  | nil => rfl
  | cons l ls ih =>
      rw [List.flatMap_cons, ih, List.flatten_cons, List.flatten_append, List.flatten_append]

end Lists

omit [LinearOrder K] in
/-- The fetched sub-parts are a permutation of the input of all map partitions. -/
theorem flatten_fetchedSubParts_perm (deepSizeOf : List (K × V) → ℕ) (limit : ℕ)
    {servers : List (List ℕ)} {maps : List (List (List (List (K × V))))}
    (hservers : servers.flatten.Perm (List.range maps.length)) :
    (fetchedSubParts deepSizeOf limit servers maps).flatten.Perm maps.flatten.flatten.flatten := by
  -- one map partition's sub-parts hold its blocks
  have hmap : ∀ calls : List (List (List (K × V))),
      (mapSubParts deepSizeOf limit calls).flatten.Perm calls.flatten.flatten := by
    intro calls
    rw [mapSubParts, flatten_flatMap, List.flatten_flatten, ← List.flatMap_def]
    apply List.Perm.flatMap_left
    intro results _
    have hgroups := flatten_groupSubParts deepSizeOf limit results [] 0
    rw [List.flatten_nil, List.nil_append] at hgroups
    exact hgroups ▸ (sampleFirst_perm _).flatten
  calc (fetchedSubParts deepSizeOf limit servers maps).flatten
      = servers.flatten.flatMap fun m => (mapSubParts deepSizeOf limit (maps.getD m [])).flatten := by
        rw [fetchedSubParts, flatten_flatMap]
    List.Perm _ ((List.range maps.length).flatMap fun m =>
          (mapSubParts deepSizeOf limit (maps.getD m [])).flatten) :=
        hservers.flatMap_right _
    _ = maps.flatMap fun calls => (mapSubParts deepSizeOf limit calls).flatten :=
        flatMap_range_getD maps [] fun calls => (mapSubParts deepSizeOf limit calls).flatten
    List.Perm _ (maps.flatMap fun calls => calls.flatten.flatten) :=
        List.Perm.flatMap_left maps fun calls _ => hmap calls
    _ = maps.flatten.flatten.flatten := flatMap_flatten_flatten maps

/-! ### Correctness for every lawful aggregator -/

section Lawful

variable (sortUnstableBy : SortBy (K × V) fun a b => a.1 ≤ b.1) {agg : Aggregator V C}
  (hagg : agg.Lawful) (partitioner : HashPartitioner K)
include hagg

/-- Bucket `i` of a sub-part aggregates, entry by entry, its bucket under the default
aggregator: each combiner is the aggregate of the values the default aggregator collects. -/
theorem forall₂_aggregates_subPartBucket {i : ℕ}
    (hi : i < partitioner.partitions * (maxThread + 1)) (subPart : List (K × V)) :
    List.Forall₂ (Aggregates agg.createCombiner agg.mergeCombiners)
      (subPartBucket sortUnstableBy agg partitioner i subPart)
      (subPartBucket sortUnstableBy (Aggregator.default V) partitioner i subPart) := by
  have : Std.Associative agg.mergeCombiners := ⟨hagg.assoc⟩
  rw [subPartBucket_eq sortUnstableBy agg partitioner hi, subPartBucket_default sortUnstableBy partitioner hi]
  exact forall₂_aggregates_filter (forall₂_aggregates_foldRuns_singleton hagg.mergeValue_eq _)
    fun k => decide ((partitioner.setNumOfPartitions
      (partitioner.partitions * (maxThread + 1))).getPartition k = i)

/-- The buckets `i` of all sub-parts precombine the sub-parts over the keys of bucket `i`. -/
theorem precombinesBy_subPartBucket {i : ℕ} (hi : i < partitioner.partitions * (maxThread + 1))
    (subParts : List (List (K × V))) :
    PrecombinesBy agg.createCombiner agg.mergeCombiners
      (fun k => True ∧ decide ((partitioner.setNumOfPartitions
        (partitioner.partitions * (maxThread + 1))).getPartition k = i) = true)
      subParts.flatten (subParts.map (subPartBucket sortUnstableBy agg partitioner i)).flatten := by
  refine ⟨_, pregroups_subPartBucket sortUnstableBy partitioner hi subParts, List.rel_flatten ?_⟩
  rw [List.forall₂_map_left_iff, List.forall₂_map_right_iff]
  exact List.forall₂_same.mpr fun subPart _ =>
    forall₂_aggregates_subPartBucket sortUnstableBy hagg partitioner hi subPart

/-- **One reduce partition is a combine-by-key**: for a lawful aggregator, reduce partition
`r` combines the input over the keys whose reduce id is `r`. -/
theorem combinesBy_reduceOutput (kmergeBy : KMergeBy (K × C) fun a b => a.1 ≤ b.1)
    {subParts : List (List (K × V))} {input : List (K × V)} (hperm : subParts.flatten.Perm input)
    {r : ℕ} (hr : r < partitioner.partitions) :
    CombinesBy agg.createCombiner agg.mergeCombiners (fun k => reduceId partitioner k = r) input
      (batchDecrypt (reduceOutput sortUnstableBy agg partitioner kmergeBy subParts r)) := by
  have : Std.Associative agg.mergeCombiners := ⟨hagg.assoc⟩
  by_cases hnil : subParts = []
  · -- no sub-part: the input is empty too
    subst hnil
    have hinput : input = [] := List.Perm.nil_eq hperm |>.symm
    subst hinput
    exact ⟨[], GroupsBy.nil, by simp [reduceOutput]⟩
  -- the two groups of the chunk: buckets `2r` and `2r + 1`
  have hidx : ∀ j < maxThread + 1, r * (maxThread + 1) + j < partitioner.partitions * (maxThread + 1) :=
    fun _ hj => bucket_lt hr hj
  have hgroup : ∀ j < maxThread + 1, CombinesBy agg.createCombiner agg.mergeCombiners
      (fun k => True ∧ decide ((partitioner.setNumOfPartitions
        (partitioner.partitions * (maxThread + 1))).getPartition k = r * (maxThread + 1) + j) = true)
      input (mergeCore kmergeBy (subParts.map (subPartBucket sortUnstableBy agg
        partitioner (r * (maxThread + 1) + j))) agg) := by
    intro j hj
    apply combinesBy_mergeCore kmergeBy agg
    · exact (precombinesBy_subPartBucket sortUnstableBy hagg partitioner (hidx j hj) subParts).perm_left
        hperm
    · intro bucket hbucket
      obtain ⟨subPart, -, rfl⟩ := List.mem_map.mp hbucket
      exact pairwise_keys_subPartBucket sortUnstableBy agg partitioner (hidx j hj) subPart
  have hout : batchDecrypt (reduceOutput sortUnstableBy agg partitioner kmergeBy subParts r) =
      mergeCore kmergeBy (subParts.map (subPartBucket sortUnstableBy agg
        partitioner (r * (maxThread + 1) + 0))) agg ++
      mergeCore kmergeBy (subParts.map (subPartBucket sortUnstableBy agg
        partitioner (r * (maxThread + 1) + 1))) agg := by
    rw [reduceOutput, if_neg hnil, show List.range (maxThread + 1) = [0, 1] from rfl]
    simp
  rw [hout]
  refine ((hgroup 0 (by decide)).append (hgroup 1 (by decide)) ?_).of_iff ?_
  · intro k h0 h1
    simp only [true_and, decide_eq_true_iff] at h0 h1
    omega
  · intro k
    simp only [true_and, decide_eq_true_iff]
    simp only [reduceId, maxThread]
    omega

end Lawful

/-! ### The end-to-end theorem -/

/-- **The secure shuffle is a combine-by-key over the reduce partitions.**  For every lawful
aggregator (both branches of `do_shuffle_task_core`), every sort and k-way merge, every
partitioner hash and number of reduce partitions, every grouping into sub-parts and every
profiling flag, the fetch order being any grouping of all map ids: the shuffle returns one
output per reduce partition, every key has a reduce partition, a key occurs in partition `r`
once when it is a key of the input with reduce id `r` and never otherwise, and its combiner
is the aggregate of all of its values in the input, taken in some order: `reduce` by
`merge_combiners` of their `create_combiner`s.  The order is that of the unstable sort and
of the fetch; for a commutative `merge_combiners` it does not matter. -/
theorem secureShuffle_combines (sortUnstableBy : SortBy (K × V) fun a b => a.1 ≤ b.1)
    (kmergeBy : KMergeBy (K × C) fun a b => a.1 ≤ b.1) (agg : Aggregator V C) (hagg : agg.Lawful)
    (partitioner : HashPartitioner K) (deepSizeOf : List (K × V) → ℕ) (limit : ℕ)
    (isParaShuf : ℕ → ℕ → Bool) (isPara : ℕ → Bool × Bool) (servers : List (List ℕ))
    (maps : List (List (List (List (K × V))))) (hn : 0 < partitioner.partitions)
    (hservers : servers.flatten.Perm (List.range maps.length))
    (hcalls : ∀ calls ∈ maps, ∀ results ∈ calls, results ≠ []) :
    ∃ out, secureShuffle sortUnstableBy kmergeBy agg partitioner deepSizeOf limit isParaShuf
        isPara servers maps = some out ∧
      out.length = partitioner.partitions ∧
      (∀ k, reduceId partitioner k < out.length) ∧
      ∀ r (hr : r < out.length) k,
        (keys (batchDecrypt out[r])).count k =
            (if k ∈ keys maps.flatten.flatten.flatten ∧ reduceId partitioner k = r then 1 else 0) ∧
          ∀ c, (k, c) ∈ batchDecrypt out[r] → ∃ vs : List V,
            vs.Perm (valuesAt k maps.flatten.flatten.flatten) ∧
              Folds.reduce agg.mergeCombiners (vs.map agg.createCombiner) = some c := by
  have hids : ∀ m ∈ servers.flatten, m < maps.length :=
    fun m hm => List.mem_range.mp (hservers.subset hm)
  refine ⟨_, secureShuffle_eq sortUnstableBy agg partitioner deepSizeOf limit kmergeBy isParaShuf
    isPara hids hcalls, by simp, fun k => by simpa using reduceId_lt partitioner hn k, ?_⟩
  intro r hr k
  simp only [List.length_map, List.length_range] at hr
  have hcombines := combinesBy_reduceOutput sortUnstableBy hagg partitioner kmergeBy
    (flatten_fetchedSubParts_perm deepSizeOf limit hservers) hr
  rw [List.getElem_map, List.getElem_range]
  exact ⟨hcombines.count_keys k, fun c hc => hcombines.exists_perm_of_mem hc⟩

/-- Sorting pairs of naturals by key with the core merge sort. -/
def sortByKey : SortBy (ℕ × ℕ) fun a b => a.1 ≤ b.1 :=
  SortBy.ofMergeSort _ (fun _ _ _ => le_trans) fun a b => le_total a.1 b.1

/-- Merging keyed lists of naturals by key with the core merge. -/
def kmergeByKey : KMergeBy (ℕ × List ℕ) fun a b => a.1 ≤ b.1 :=
  KMergeBy.ofMerge _ (fun _ _ _ => le_trans) fun a b => le_total a.1 b.1

/-- Merging keyed naturals by key with the core merge. -/
def kmergeBySum : KMergeBy (ℕ × ℕ) fun a b => a.1 ≤ b.1 :=
  KMergeBy.ofMerge _ (fun _ _ _ => le_trans) fun a b => le_total a.1 b.1

/-- The aggregator of `reduce_by_key(|a, b| a + b)`: the general branch, summing. -/
def sumAggregator : Aggregator ℕ ℕ := ⟨id, (· + ·), (· + ·), false⟩

theorem secureShuffle_combines_sum :
    ∃ out, secureShuffle sortByKey kmergeBySum sumAggregator ⟨fun k => k.toUInt64, 2⟩ List.length 0
        (fun _ _ => false) (fun _ => (false, false)) [[0]] [[[[(1, 5), (2, 6)], [(1, 7)]]]] = some out ∧
      out.length = 2 ∧
      (∀ k, reduceId ⟨fun k : ℕ => k.toUInt64, 2⟩ k < out.length) ∧
      ∀ r (hr : r < out.length) k,
        (keys (batchDecrypt out[r])).count k =
            (if k ∈ keys [[[[(1, 5), (2, 6)], [(1, 7)]]]].flatten.flatten.flatten ∧
              reduceId ⟨fun k : ℕ => k.toUInt64, 2⟩ k = r then 1 else 0) ∧
          ∀ c, (k, c) ∈ batchDecrypt out[r] → ∃ vs : List ℕ,
            vs.Perm (valuesAt k [[[[(1, 5), (2, 6)], [(1, 7)]]]].flatten.flatten.flatten) ∧
              Folds.reduce sumAggregator.mergeCombiners (vs.map sumAggregator.createCombiner) = some c :=
  secureShuffle_combines sortByKey kmergeBySum sumAggregator ⟨Nat.add_assoc, fun _ _ => rfl⟩
    ⟨fun k => k.toUInt64, 2⟩ List.length 0 (fun _ _ => false) (fun _ => (false, false)) [[0]]
    [[[[(1, 5), (2, 6)], [(1, 7)]]]] (by decide) (by decide) (by decide)

end Flare
