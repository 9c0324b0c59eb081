import Mathlib
import Flare.Shuffle.Correctness
import Flare.CoGroup.ReduceSide

/-!
# The secure cogroup and join, end to end

`secureCoGroup` chains the halves of a secure `CoGroupedRdd` whose two parents
both reach it through a shuffle dependency (neither parent is partitioned by
the cogroup's partitioner): the shuffle-map task of every map partition of each
parent with the default aggregator, the fetch of chunk `r` of every map output
of each parent, and `CoGroupedRdd::secure_compute_prev` with the enclave's
`CoGrouped::compute_inner` on the two fetches.  `secureJoin` is `Pair::join`:
the cogroup with `is_for_join` set, then `flat_map_values` of the pairing
function on every block.

## Main results

* `secureCoGroup_eq` — for calls with blocks nothing panics, and reduce partition
  `r` is, group by group from the last, the reshaped `merge_core` of bucket
  `r * (MAX_THREAD + 1) + j` of the sub-parts of the two sides.
* `groupPairs_coGroupOutput_perm` — for a join, the pairs of reduce partition `r`
  are the join's pairs whose key has reduce id `r`.
* `secureJoin_pairs` — the join's output, partition by partition and as a whole.
-/

namespace Flare

open KeyedList Slices Shuffled CoGrouped

universe u

variable {K V W : Type u} [LinearOrder K]

/-! ### The pipeline -/

/-- **The secure cogroup of two shuffled parents** (framework
`CoGroupedRdd::secure_compute_prev`, `co_grouped_rdd.rs`:126-270, with
`ShuffleCoGroupSplitDep` on both sides): the shuffle-map tasks of both parents
with `Aggregator::default()`, then for every reduce id `r` the fetch of chunk `r`
of every map output of each parent and the cogroup's reduce side on the two
fetches (flag `isParaMer r`).  The result lists the reduce partitions' encrypted
blocks. -/
def secureCoGroup (sortUnstableByA : SortBy (K × V) fun a b => a.1 ≤ b.1)
    (sortUnstableByB : SortBy (K × W) fun a b => a.1 ≤ b.1)
    (kmergeByA : KMergeBy (K × List V) fun a b => a.1 ≤ b.1)
    (kmergeByB : KMergeBy (K × List W) fun a b => a.1 ≤ b.1) (partitioner : HashPartitioner K)
    (deepSizeOfA : List (K × V) → ℕ) (deepSizeOfB : List (K × W) → ℕ) (limit : ℕ)
    (deepSizeOfV : List V → ℕ) (deepSizeOfW : List W → ℕ) (isForJoin : Bool)
    (isParaShufA isParaShufB : ℕ → ℕ → Bool) (isParaMer : ℕ → Bool)
    (serversA serversB : List (List ℕ)) (mapsA : List (List (List (List (K × V)))))
    (mapsB : List (List (List (List (K × W))))) :
    Option (List (List (ItemE (List (K × (List V × List W)))))) := do
  let storedA ← mapsA.zipIdx.mapM fun (calls, m) =>
    shuffleMapTask sortUnstableByA (Aggregator.default V) partitioner deepSizeOfA limit
      (isParaShufA m) calls
  let storedB ← mapsB.zipIdx.mapM fun (calls, m) =>
    shuffleMapTask sortUnstableByB (Aggregator.default W) partitioner deepSizeOfB limit
      (isParaShufB m) calls
  (List.range partitioner.partitions).mapM fun r => do
    let fetchedA ← secureFetch (serversA.map fun mapIds =>
      mapIds.map fun m => (storedA.getD m []).getD r [])
    let fetchedB ← secureFetch (serversB.map fun mapIds =>
      mapIds.map fun m => (storedB.getD m []).getD r [])
    CoGrouped.secureComputePrev kmergeByA kmergeByB deepSizeOfV deepSizeOfW isForJoin (isParaMer r)
      fetchedA fetchedB

/-- The function `Pair::join` hands to `flat_map_values` (`pair_op.rs`:139-145):
every value of the first list with every value of the second. -/
def joinValues (vw : List V × List W) : List (V × W) :=
  vw.1.flatMap fun v => vw.2.map fun w => (v, w)

/-- `FlatMappedValues::compute` on one block (`pair_op.rs`:843-846): every value
replaced by the values `f` gives for it, under the same key. -/
def flatMapValues {A B : Type u} (f : A → List B) (block : List (K × A)) : List (K × B) :=
  block.flatMap fun e => (f e.2).map fun x => (e.1, x)

/-- **`Pair::join` of two shuffled parents** (`pair_op.rs`:130-150): the cogroup
with `is_for_join` set (`Pair::cogroup`) under `HashPartitioner::new(num_splits)`,
then `flat_map_values` of `joinValues` on every decrypted block of every reduce
partition. -/
def secureJoin (sortUnstableByA : SortBy (K × V) fun a b => a.1 ≤ b.1)
    (sortUnstableByB : SortBy (K × W) fun a b => a.1 ≤ b.1)
    (kmergeByA : KMergeBy (K × List V) fun a b => a.1 ≤ b.1)
    (kmergeByB : KMergeBy (K × List W) fun a b => a.1 ≤ b.1) (hash : K → UInt64) (numSplits : ℕ)
    (deepSizeOfA : List (K × V) → ℕ) (deepSizeOfB : List (K × W) → ℕ) (limit : ℕ)
    (deepSizeOfV : List V → ℕ) (deepSizeOfW : List W → ℕ)
    (isParaShufA isParaShufB : ℕ → ℕ → Bool) (isParaMer : ℕ → Bool)
    (serversA serversB : List (List ℕ)) (mapsA : List (List (List (List (K × V)))))
    (mapsB : List (List (List (List (K × W))))) : Option (List (List (K × (V × W)))) :=
  (secureCoGroup sortUnstableByA sortUnstableByB kmergeByA kmergeByB ⟨hash, numSplits⟩ deepSizeOfA
      deepSizeOfB limit deepSizeOfV deepSizeOfW true isParaShufA isParaShufB isParaMer serversA
      serversB mapsA mapsB).map fun out =>
    out.map fun blocks => blocks.flatMap fun block => flatMapValues joinValues (serDecrypt block)

omit [LinearOrder K] in
/-- `flat_map_values` of the pairing function gives the pairs of the cogroup
entries. -/
theorem flatMapValues_joinValues (block : List (K × (List V × List W))) :
    flatMapValues joinValues block = groupPairs block := by
  unfold flatMapValues joinValues groupPairs entryPairs
  refine List.flatMap_congr fun e _ => ?_
  rw [List.map_flatMap]
  refine List.flatMap_congr fun v _ => ?_
  rw [List.map_map]
  rfl

/-! ### The cogroup in closed form -/

section Stages

variable (sortUnstableByA : SortBy (K × V) fun a b => a.1 ≤ b.1)
  (sortUnstableByB : SortBy (K × W) fun a b => a.1 ≤ b.1)
  (kmergeByA : KMergeBy (K × List V) fun a b => a.1 ≤ b.1)
  (kmergeByB : KMergeBy (K × List W) fun a b => a.1 ≤ b.1) (partitioner : HashPartitioner K)
  (deepSizeOfV : List V → ℕ) (deepSizeOfW : List W → ℕ) (isForJoin : Bool)

/-- Reduce partition `r` of the cogroup as the pipeline computes it from the
fetched sub-parts of the two sides: nothing when a side has none, otherwise,
group by group from the last, the reshaped `merge_core` of bucket
`r * (MAX_THREAD + 1) + j` of every sub-part of each side. -/
def coGroupOutput (subPartsA : List (List (K × V))) (subPartsB : List (List (K × W))) (r : ℕ) :
    List (ItemE (List (K × (List V × List W)))) :=
  if subPartsA = [] ∨ subPartsB = [] then []
  else (List.range (maxThread + 1)).reverse.flatMap fun j =>
    (reshape deepSizeOfV deepSizeOfW isForJoin (mergeCore kmergeByA kmergeByB
      (subPartsA.map (subPartBucket sortUnstableByA (Aggregator.default V) partitioner
        (r * (maxThread + 1) + j)))
      (subPartsB.map (subPartBucket sortUnstableByB (Aggregator.default W) partitioner
        (r * (maxThread + 1) + j))))).flatMap batchEncrypt

/-- A side without sub-parts fetches groups without buckets. -/
theorem fetched_eq_nil {X Y : Type u} {c : Prop} [Decidable c] (f : ℕ → X → Y) :
    ∀ g ∈ (if c then [] else (List.range (maxThread + 1)).map fun j => ([] : List X).map (f j)),
      g = [] := by
  split
  · intro g hg
    simp at hg
  · intro g hg
    obtain ⟨j, -, rfl⟩ := List.mem_map.mp hg
    rfl

/-- A side with sub-parts fetches groups that all hold buckets. -/
theorem groups_ne_nil {X Y : Type u} {subParts : List X} (hsub : subParts ≠ []) (f : ℕ → X → Y) :
    ∀ g ∈ (List.range (maxThread + 1)).map (fun j => subParts.map (f j)), g ≠ [] := by
  intro g hg
  obtain ⟨j, -, rfl⟩ := List.mem_map.mp hg
  simpa using hsub

/-- **The cogroup's reduce side on what the fetches returned.**  `cA` and `cB`
stand for "the side has no map output", when the fetch returns no group. -/
theorem secureComputePrev_fetched_groups (isParaMer : Bool) (subPartsA : List (List (K × V)))
    (subPartsB : List (List (K × W))) (r : ℕ) {cA cB : Prop} [Decidable cA] [Decidable cB]
    (hcA : cA → subPartsA = []) (hcB : cB → subPartsB = []) :
    CoGrouped.secureComputePrev kmergeByA kmergeByB deepSizeOfV deepSizeOfW isForJoin isParaMer
        (if cA then [] else (List.range (maxThread + 1)).map fun j => subPartsA.map fun subPart =>
          batchEncrypt (subPartBucket sortUnstableByA (Aggregator.default V) partitioner
            (r * (maxThread + 1) + j) subPart))
        (if cB then [] else (List.range (maxThread + 1)).map fun j => subPartsB.map fun subPart =>
          batchEncrypt (subPartBucket sortUnstableByB (Aggregator.default W) partitioner
            (r * (maxThread + 1) + j) subPart)) =
      some (coGroupOutput sortUnstableByA sortUnstableByB kmergeByA kmergeByB partitioner deepSizeOfV
        deepSizeOfW isForJoin subPartsA subPartsB r) := by
  by_cases hA : subPartsA = []
  · -- the first side fetched no bucket: the framework skips the enclave
    subst hA
    rw [secureComputePrev_of_eq_nil_left]
    · simp [coGroupOutput]
    · exact fetched_eq_nil _
  by_cases hB : subPartsB = []
  · subst hB
    rw [secureComputePrev_of_eq_nil_right]
    · simp [coGroupOutput]
    · exact fetched_eq_nil _
  rw [if_neg (fun h => hA (hcA h)), if_neg (fun h => hB (hcB h)),
    secureComputePrev_of_ne_nil _ _ _ _ _ _ (groups_ne_nil hA _) (groups_ne_nil hB _) (by simp)
      (by simp),
    computeInner_eq _ _ _ _ _ _ (by simp) (by simp), coGroupOutput, if_neg (not_or.mpr ⟨hA, hB⟩),
    show List.range (maxThread + 1) = [0, 1] from rfl]
  simp [Function.comp_def]

/-- **The cogroup pipeline in closed form**: for map ids in range and calls with
blocks, nothing panics and reduce partition `r` is `coGroupOutput` of the
fetched sub-parts of the two sides. -/
theorem secureCoGroup_eq (deepSizeOfA : List (K × V) → ℕ) (deepSizeOfB : List (K × W) → ℕ)
    (limit : ℕ) (isParaShufA isParaShufB : ℕ → ℕ → Bool) (isParaMer : ℕ → Bool)
    {serversA serversB : List (List ℕ)} {mapsA : List (List (List (List (K × V))))}
    {mapsB : List (List (List (List (K × W))))}
    (hidsA : ∀ m ∈ serversA.flatten, m < mapsA.length)
    (hidsB : ∀ m ∈ serversB.flatten, m < mapsB.length)
    (hcallsA : ∀ calls ∈ mapsA, ∀ results ∈ calls, results ≠ [])
    (hcallsB : ∀ calls ∈ mapsB, ∀ results ∈ calls, results ≠ []) :
    secureCoGroup sortUnstableByA sortUnstableByB kmergeByA kmergeByB partitioner deepSizeOfA
        deepSizeOfB limit deepSizeOfV deepSizeOfW isForJoin isParaShufA isParaShufB isParaMer
        serversA serversB mapsA mapsB =
      some ((List.range partitioner.partitions).map
        (coGroupOutput sortUnstableByA sortUnstableByB kmergeByA kmergeByB partitioner deepSizeOfV
          deepSizeOfW isForJoin (fetchedSubParts deepSizeOfA limit serversA mapsA)
          (fetchedSubParts deepSizeOfB limit serversB mapsB))) := by
  -- no map output, no sub-part
  have hnilA : serversA.flatten = [] → fetchedSubParts deepSizeOfA limit serversA mapsA = [] := by
    intro h
    simp [fetchedSubParts, h]
  have hnilB : serversB.flatten = [] → fetchedSubParts deepSizeOfB limit serversB mapsB = [] := by
    intro h
    simp [fetchedSubParts, h]
  unfold secureCoGroup
  rw [mapM_shuffleMapTask sortUnstableByA (Aggregator.default V) partitioner deepSizeOfA limit
      isParaShufA hcallsA, Option.bind_eq_bind, Option.bind_some,
    mapM_shuffleMapTask sortUnstableByB (Aggregator.default W) partitioner deepSizeOfB limit
      isParaShufB hcallsB, Option.bind_eq_bind, Option.bind_some]
  apply mapM_eq_some_map
  intro r hr
  have hlt := List.mem_range.mp hr
  rw [secureFetch_stored sortUnstableByA (Aggregator.default V) partitioner deepSizeOfA limit hidsA hlt,
    Option.bind_eq_bind, Option.bind_some,
    secureFetch_stored sortUnstableByB (Aggregator.default W) partitioner deepSizeOfB limit hidsB hlt,
    Option.bind_eq_bind, Option.bind_some]
  exact secureComputePrev_fetched_groups sortUnstableByA sortUnstableByB kmergeByA kmergeByB
    partitioner deepSizeOfV deepSizeOfW isForJoin (isParaMer r) _ _ r hnilA hnilB

end Stages

/-- **The secure cogroup loses a key.**  With one reduce partition and the key
hash the identity, the key `0`, present only in the first parent, and the key
`2`, present only in the second, fall in the same bucket; `merge_core` overwrites
the entry of `0` by the entry of `2`, and the cogroup has no entry for `0`. -/
theorem secureCoGroup_loses_key :
    secureCoGroup sortByKey sortByKey kmergeByKey kmergeByKey ⟨fun k => k.toUInt64, 1⟩ List.length
        List.length 0 List.length List.length true (fun _ _ => false) (fun _ _ => false)
        (fun _ => false) [[0]] [[0]] [[[[(0, 5)]]]] [[[[(2, 6)]]]] =
      some [[serEncrypt [(2, ([], [6]))]]] := by
  have hsubA : fetchedSubParts (List.length : List (ℕ × ℕ) → ℕ) 0 [[0]] [[[[(0, 5)]]]] = [[(0, 5)]] := by
    decide
  have hsubB : fetchedSubParts (List.length : List (ℕ × ℕ) → ℕ) 0 [[0]] [[[[(2, 6)]]]] = [[(2, 6)]] := by
    decide
  -- both keys fall in bucket `0` of the widened partitioner, nothing in bucket `1`
  have hA0 : subPartBucket sortByKey (Aggregator.default ℕ) ⟨fun k => k.toUInt64, 1⟩
      (0 * (maxThread + 1) + 0) [(0, 5)] = [(0, [5])] := by
    rw [subPartBucket_singleton _ _ (by decide), if_pos (by decide)]
  have hA1 : subPartBucket sortByKey (Aggregator.default ℕ) ⟨fun k => k.toUInt64, 1⟩
      (0 * (maxThread + 1) + 1) [(0, 5)] = [] := by
    rw [subPartBucket_singleton _ _ (by decide), if_neg (by decide)]
  have hB0 : subPartBucket sortByKey (Aggregator.default ℕ) ⟨fun k => k.toUInt64, 1⟩
      (0 * (maxThread + 1) + 0) [(2, 6)] = [(2, [6])] := by
    rw [subPartBucket_singleton _ _ (by decide), if_pos (by decide)]
  have hB1 : subPartBucket sortByKey (Aggregator.default ℕ) ⟨fun k => k.toUInt64, 1⟩
      (0 * (maxThread + 1) + 1) [(2, 6)] = [] := by
    rw [subPartBucket_singleton _ _ (by decide), if_neg (by decide)]
  have hmerge0 := mergeCore_overwrites kmergeByKey kmergeByKey (show (0 : ℕ) < 2 by decide) [5] [6]
  have hmerge1 : CoGrouped.mergeCore kmergeByKey kmergeByKey [([] : List (ℕ × List ℕ))]
      [([] : List (ℕ × List ℕ))] = [] :=
    mergeCore_eq_nil _ _ rfl rfl
  have hreshape0 : reshape (List.length : List ℕ → ℕ) List.length true [(2, ([], [6]))] =
      [[(2, ([], [6]))]] := by
    decide
  have hreshape1 : reshape (List.length : List ℕ → ℕ) List.length true
      ([] : List (ℕ × (List ℕ × List ℕ))) = [] := by
    decide
  have hencrypt : batchEncrypt [(2, (([] : List ℕ), [6]))] = [serEncrypt [(2, ([], [6]))]] :=
    batchEncrypt_of_length_le (List.cons_ne_nil _ _) (by decide)
  rw [secureCoGroup_eq _ _ _ _ _ _ _ _ _ _ _ _ _ _ (by decide) (by decide) (by decide) (by decide),
    hsubA, hsubB]
  simp only [show List.range 1 = [0] from rfl, List.map_cons, List.map_nil]
  rw [coGroupOutput, if_neg (by simp)]
  simp only [List.map_cons, List.map_nil, show (List.range (maxThread + 1)).reverse = [1, 0] from rfl,
    List.flatMap_cons, List.flatMap_nil, hA0, hA1, hB0, hB1, hmerge0, hmerge1, hreshape0, hreshape1,
    hencrypt, List.append_nil, List.nil_append]

/-! ### The join, partition by partition -/

section Join

variable (sortUnstableByA : SortBy (K × V) fun a b => a.1 ≤ b.1)
  (sortUnstableByB : SortBy (K × W) fun a b => a.1 ≤ b.1)
  (kmergeByA : KMergeBy (K × List V) fun a b => a.1 ≤ b.1)
  (kmergeByB : KMergeBy (K × List W) fun a b => a.1 ≤ b.1) (partitioner : HashPartitioner K)
  (deepSizeOfV : List V → ℕ) (deepSizeOfW : List W → ℕ)

omit [LinearOrder K] in
/-- The two buckets of reduce id `r`, side by side, hold the part of a list whose
reduce id is `r`. -/
theorem buckets_filter_perm {X : Type u} (l : List (K × X)) (r : ℕ) :
    ((List.range (maxThread + 1)).reverse.flatMap fun j => l.filter fun e =>
        (partitioner.setNumOfPartitions (partitioner.partitions * (maxThread + 1))).getPartition e.1 =
          r * (maxThread + 1) + j).Perm
      (l.filter fun e => reduceId partitioner e.1 = r) := by
  rw [show (List.range (maxThread + 1)).reverse = [1, 0] from rfl, List.flatMap_cons,
    List.flatMap_cons, List.flatMap_nil, List.append_nil]
  refine List.perm_append_comm.trans (filter_append_filter_perm _ _ _ l ?_ ?_)
  · intro e
    rw [Bool.eq_iff_iff]
    simp only [Bool.or_eq_true, decide_eq_true_iff]
    simp only [reduceId, maxThread]
    omega
  · intro e h₀
    simp only [decide_eq_true_iff] at h₀
    simp only [h₀, decide_eq_false_iff_not]
    omega

/-- **Reduce partition `r` of a join**: when the sub-parts of the two sides hold
the two inputs, the pairs of the partition's entries are the join's pairs whose
key has reduce id `r`. -/
theorem groupPairs_coGroupOutput_perm {subPartsA : List (List (K × V))}
    {subPartsB : List (List (K × W))} {inputA : List (K × V)} {inputB : List (K × W)}
    (hpermA : subPartsA.flatten.Perm inputA) (hpermB : subPartsB.flatten.Perm inputB) {r : ℕ}
    (hr : r < partitioner.partitions) :
    (groupPairs (batchDecrypt (coGroupOutput sortUnstableByA sortUnstableByB kmergeByA kmergeByB
        partitioner deepSizeOfV deepSizeOfW true subPartsA subPartsB r))).Perm
      ((joinPairs inputA inputB).filter fun e => reduceId partitioner e.1 = r) := by
  by_cases hA : subPartsA = []
  · -- no sub-part on the first side: its input is empty too
    subst hA
    have hinput : inputA = [] := (List.Perm.nil_eq hpermA).symm
    subst hinput
    simp [coGroupOutput]
  by_cases hB : subPartsB = []
  · subst hB
    have hinput : inputB = [] := (List.Perm.nil_eq hpermB).symm
    subst hinput
    simp [coGroupOutput]
  have hidx : ∀ j < maxThread + 1,
      r * (maxThread + 1) + j < partitioner.partitions * (maxThread + 1) :=
    fun _ hj => bucket_lt hr hj
  -- one group: the bucket of the two sides joined
  have hgroup : ∀ j ∈ (List.range (maxThread + 1)).reverse,
      (groupPairs (batchDecrypt ((reshape deepSizeOfV deepSizeOfW true (mergeCore kmergeByA kmergeByB
        (subPartsA.map (subPartBucket sortUnstableByA (Aggregator.default V) partitioner
          (r * (maxThread + 1) + j)))
        (subPartsB.map (subPartBucket sortUnstableByB (Aggregator.default W) partitioner
          (r * (maxThread + 1) + j))))).flatMap batchEncrypt))).Perm
        ((joinPairs inputA inputB).filter fun e =>
          (partitioner.setNumOfPartitions (partitioner.partitions * (maxThread + 1))).getPartition e.1 =
            r * (maxThread + 1) + j) := by
    intro j hj
    have hj' : j < maxThread + 1 := List.mem_range.mp (List.mem_reverse.mp hj)
    have hiff : ∀ k, (True ∧ decide ((partitioner.setNumOfPartitions
        (partitioner.partitions * (maxThread + 1))).getPartition k = r * (maxThread + 1) + j) = true) ↔
        (partitioner.setNumOfPartitions (partitioner.partitions * (maxThread + 1))).getPartition k =
          r * (maxThread + 1) + j := by
      intro k
      simp only [true_and, decide_eq_true_iff]
    have hpreA := ((pregroups_subPartBucket sortUnstableByA partitioner (hidx j hj') subPartsA).perm_left
      hpermA).of_iff hiff
    have hpreB := ((pregroups_subPartBucket sortUnstableByB partitioner (hidx j hj') subPartsB).perm_left
      hpermB).of_iff hiff
    have hmerge := groupPairs_mergeCore_perm kmergeByA kmergeByB hpreA hpreB
      (fun bucket hb => by
        obtain ⟨subPart, -, rfl⟩ := List.mem_map.mp hb
        exact pairwise_keys_subPartBucket sortUnstableByA (Aggregator.default _) partitioner (hidx j hj') subPart)
      (fun bucket hb => by
        obtain ⟨subPart, -, rfl⟩ := List.mem_map.mp hb
        exact pairwise_keys_subPartBucket sortUnstableByB (Aggregator.default _) partitioner (hidx j hj') subPart)
    rw [batchDecrypt_flatMap, reshape, if_pos rfl]
    simp only [batchDecrypt_batchEncrypt]
    rw [List.flatMap_id', ← joinPairs_filter fun k => decide ((partitioner.setNumOfPartitions
      (partitioner.partitions * (maxThread + 1))).getPartition k = r * (maxThread + 1) + j)]
    exact (groupPairs_joinReshape_perm deepSizeOfV deepSizeOfW _).trans hmerge
  rw [coGroupOutput, if_neg (not_or.mpr ⟨hA, hB⟩), batchDecrypt_flatMap, groupPairs_flatMap]
  exact (List.Perm.flatMap_left _ hgroup).trans (buckets_filter_perm partitioner _ r)

end Join

/-! ### The end-to-end theorem -/

/-- The join's output in closed form: reduce partition `r` is the pairs of the
cogroup's partition `r`. -/
theorem secureJoin_eq (sortUnstableByA : SortBy (K × V) fun a b => a.1 ≤ b.1)
    (sortUnstableByB : SortBy (K × W) fun a b => a.1 ≤ b.1)
    (kmergeByA : KMergeBy (K × List V) fun a b => a.1 ≤ b.1)
    (kmergeByB : KMergeBy (K × List W) fun a b => a.1 ≤ b.1) (hash : K → UInt64) (numSplits : ℕ)
    (deepSizeOfA : List (K × V) → ℕ) (deepSizeOfB : List (K × W) → ℕ) (limit : ℕ)
    (deepSizeOfV : List V → ℕ) (deepSizeOfW : List W → ℕ)
    (isParaShufA isParaShufB : ℕ → ℕ → Bool) (isParaMer : ℕ → Bool)
    {serversA serversB : List (List ℕ)} {mapsA : List (List (List (List (K × V))))}
    {mapsB : List (List (List (List (K × W))))}
    (hidsA : ∀ m ∈ serversA.flatten, m < mapsA.length)
    (hidsB : ∀ m ∈ serversB.flatten, m < mapsB.length)
    (hcallsA : ∀ calls ∈ mapsA, ∀ results ∈ calls, results ≠ [])
    (hcallsB : ∀ calls ∈ mapsB, ∀ results ∈ calls, results ≠ []) :
    secureJoin sortUnstableByA sortUnstableByB kmergeByA kmergeByB hash numSplits deepSizeOfA
        deepSizeOfB limit deepSizeOfV deepSizeOfW isParaShufA isParaShufB isParaMer serversA serversB
        mapsA mapsB =
      some ((List.range numSplits).map fun r =>
        groupPairs (batchDecrypt (coGroupOutput sortUnstableByA sortUnstableByB kmergeByA kmergeByB
          ⟨hash, numSplits⟩ deepSizeOfV deepSizeOfW true
          (fetchedSubParts deepSizeOfA limit serversA mapsA)
          (fetchedSubParts deepSizeOfB limit serversB mapsB) r))) := by
  unfold secureJoin
  rw [secureCoGroup_eq _ _ _ _ _ _ _ _ _ _ _ _ _ _ hidsA hidsB hcallsA hcallsB, Option.map_some,
    List.map_map]
  congr 2
  funext r
  simp only [Function.comp_apply, flatMapValues_joinValues]
  rw [batchDecrypt, groupPairs_flatMap]

/-- **The secure join is the join.**  For every two inputs spread over any map
partitions and enclave calls, every sort and k-way merge, every key hash and
number of partitions, every grouping into sub-parts and every profiling flag,
the fetch orders being any groupings of the map ids: `Pair::join` returns one
list per reduce partition, partition `r` holds, up to order, exactly the pairs
`(k, (v, w))` of the two inputs whose key has reduce id `r`, and all partitions
together hold exactly the join's pairs. -/
theorem secureJoin_pairs (sortUnstableByA : SortBy (K × V) fun a b => a.1 ≤ b.1)
    (sortUnstableByB : SortBy (K × W) fun a b => a.1 ≤ b.1)
    (kmergeByA : KMergeBy (K × List V) fun a b => a.1 ≤ b.1)
    (kmergeByB : KMergeBy (K × List W) fun a b => a.1 ≤ b.1) (hash : K → UInt64) (numSplits : ℕ)
    (deepSizeOfA : List (K × V) → ℕ) (deepSizeOfB : List (K × W) → ℕ) (limit : ℕ)
    (deepSizeOfV : List V → ℕ) (deepSizeOfW : List W → ℕ)
    (isParaShufA isParaShufB : ℕ → ℕ → Bool) (isParaMer : ℕ → Bool)
    (serversA serversB : List (List ℕ)) (mapsA : List (List (List (List (K × V)))))
    (mapsB : List (List (List (List (K × W))))) (hn : 0 < numSplits)
    (hserversA : serversA.flatten.Perm (List.range mapsA.length))
    (hserversB : serversB.flatten.Perm (List.range mapsB.length))
    (hcallsA : ∀ calls ∈ mapsA, ∀ results ∈ calls, results ≠ [])
    (hcallsB : ∀ calls ∈ mapsB, ∀ results ∈ calls, results ≠ []) :
    ∃ out, secureJoin sortUnstableByA sortUnstableByB kmergeByA kmergeByB hash numSplits deepSizeOfA
        deepSizeOfB limit deepSizeOfV deepSizeOfW isParaShufA isParaShufB isParaMer serversA serversB
        mapsA mapsB = some out ∧
      out.length = numSplits ∧
      (∀ r (hr : r < out.length), out[r].Perm ((joinPairs mapsA.flatten.flatten.flatten
        mapsB.flatten.flatten.flatten).filter fun e => reduceId ⟨hash, numSplits⟩ e.1 = r)) ∧
      out.flatten.Perm (joinPairs mapsA.flatten.flatten.flatten mapsB.flatten.flatten.flatten) := by
  have hidsA : ∀ m ∈ serversA.flatten, m < mapsA.length :=
    fun m hm => List.mem_range.mp (hserversA.subset hm)
  have hidsB : ∀ m ∈ serversB.flatten, m < mapsB.length :=
    fun m hm => List.mem_range.mp (hserversB.subset hm)
  have hpart : ∀ r < numSplits, (groupPairs (batchDecrypt (coGroupOutput sortUnstableByA
      sortUnstableByB kmergeByA kmergeByB ⟨hash, numSplits⟩ deepSizeOfV deepSizeOfW true
      (fetchedSubParts deepSizeOfA limit serversA mapsA)
      (fetchedSubParts deepSizeOfB limit serversB mapsB) r))).Perm
      ((joinPairs mapsA.flatten.flatten.flatten mapsB.flatten.flatten.flatten).filter fun e =>
        reduceId ⟨hash, numSplits⟩ e.1 = r) :=
    fun r hr => groupPairs_coGroupOutput_perm sortUnstableByA sortUnstableByB kmergeByA kmergeByB
      ⟨hash, numSplits⟩ deepSizeOfV deepSizeOfW (flatten_fetchedSubParts_perm deepSizeOfA limit hserversA)
      (flatten_fetchedSubParts_perm deepSizeOfB limit hserversB) hr
  refine ⟨_, secureJoin_eq sortUnstableByA sortUnstableByB kmergeByA kmergeByB hash numSplits
    deepSizeOfA deepSizeOfB limit deepSizeOfV deepSizeOfW isParaShufA isParaShufB isParaMer hidsA
    hidsB hcallsA hcallsB, by simp, ?_, ?_⟩
  · intro r hr
    simp only [List.length_map, List.length_range] at hr
    rw [List.getElem_map, List.getElem_range]
    exact hpart r hr
  · -- every pair lies in the partition of its reduce id
    rw [← List.flatMap_def]
    refine (List.Perm.flatMap_left _ fun r hr => hpart r (List.mem_range.mp hr)).trans ?_
    exact perm_flatMap_range_filter (fun e : K × (V × W) => reduceId ⟨hash, numSplits⟩ e.1)
      numSplits _ fun e _ => reduceId_lt ⟨hash, numSplits⟩ hn e.1

/-- The join of `[(1, 5), (2, 6)]` with `[(1, 7)]` over two reducers. -/
theorem secureJoin_pairs_two_reducers :
    ∃ out, secureJoin sortByKey sortByKey kmergeByKey kmergeByKey (fun k => k.toUInt64) 2 List.length
        List.length 0 List.length List.length (fun _ _ => false) (fun _ _ => false) (fun _ => false)
        [[0]] [[0]] [[[[(1, 5), (2, 6)]]]] [[[[(1, 7)]]]] = some out ∧
      out.length = 2 ∧
      (∀ r (hr : r < out.length), out[r].Perm ((joinPairs [[[[(1, 5), (2, 6)]]]].flatten.flatten.flatten
        [[[[(1, 7)]]]].flatten.flatten.flatten).filter fun e : ℕ × (ℕ × ℕ) =>
          reduceId ⟨fun k : ℕ => k.toUInt64, 2⟩ e.1 = r)) ∧
      out.flatten.Perm (joinPairs [[[[(1, 5), (2, 6)]]]].flatten.flatten.flatten
        [[[[(1, 7)]]]].flatten.flatten.flatten) :=
  secureJoin_pairs sortByKey sortByKey kmergeByKey kmergeByKey (fun k => k.toUInt64) 2 List.length
    List.length 0 List.length List.length (fun _ _ => false) (fun _ _ => false) (fun _ => false)
    [[0]] [[0]] [[[[(1, 5), (2, 6)]]]] [[[[(1, 7)]]]] (by decide) (by decide) (by decide)
    (by decide) (by decide)

end Flare
