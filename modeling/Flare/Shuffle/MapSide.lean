import Mathlib
import Flare.Basic
import Flare.Lib.KeyRuns

/-!
# Map side of the secure shuffle

The enclave half of a shuffle-map task (`enclave/src/dependency.rs`):
`ShuffleDependency::do_shuffle_task` groups the narrow output blocks into
sub-parts, sorts every sub-part by key on a worker thread, and hands each one to
`do_shuffle_task_core`, which spreads the sorted pairs over the buckets of the
widened partitioner, combining adjacent pairs with equal keys.

## Main definitions

* `doShuffleTaskCore` — both branches of `do_shuffle_task_core`: the
  `is_default` loop, which compares every key with the last key it pushed, and
  the general loop, which compares it with the last entry of its own bucket.
* `groupSubParts`, `splitOffThreads`, `shuffleHandler`, `doShuffleTask` — the
  sub-part grouping, the split over `MAX_THREAD` threads, one handler of the
  second loop, and the whole enclave call.

## Main results

* `doShuffleTaskCore_of_isDefault` — the `is_default` branch is the run fold of
  its input, bucketized, on every input.
* `doShuffleTaskCore_of_sorted` — the general branch is the same on key-sorted
  input.
* `doShuffleTask_eq_some` — a non-empty block list never panics, and the result
  has one bucket row per sub-part, the profiling sample first.
-/

namespace Flare

open KeyedList Slices

universe u v w

variable {K : Type u} {V : Type v} {C : Type w}

/-! ### `do_shuffle_task_core` -/

section Core

variable [DecidableEq K]

/-- The loop of the `is_default` branch of `do_shuffle_task_core`
(`dependency.rs`:341-356): `last_k` is the key of the entry pushed or extended
last and `bucket_id` its bucket.  An equal key extends that entry in place
(`last_mut().1.push(v)`), any other key opens an entry in its own bucket.  For
`Aggregator::default()`, the only aggregator with `is_default` set,
`createCombiner v = vec![v]` and `mergeValue` pushes, so the aggregator's
closures are the code's own `vec![v]` and `push`. -/
def doShuffleTaskCoreDefaultLoop (agg : Aggregator V C) (getPartition : K → ℕ) :
    List (List (K × C)) → ℕ → K → List (K × V) → List (List (K × C))
  | buckets, _, _, [] => buckets
  | buckets, bucketId, lastK, (k, v) :: rest =>
      if lastK = k then
        doShuffleTaskCoreDefaultLoop agg getPartition
          (buckets.modify bucketId (List.modifyLast fun p => (p.1, agg.mergeValue p.2 v)))
          bucketId lastK rest
      else
        doShuffleTaskCoreDefaultLoop agg getPartition
          (buckets.modify (getPartition k) (· ++ [(k, agg.createCombiner v)]))
          (getPartition k) k rest

/-- The loop of the general branch of `do_shuffle_task_core`
(`dependency.rs`:363-373): a pair is merged into the last entry of its bucket
when that entry has the same key, and opens a new entry otherwise. -/
def doShuffleTaskCoreLoop (agg : Aggregator V C) (getPartition : K → ℕ) :
    List (List (K × C)) → List (K × V) → List (List (K × C))
  | buckets, [] => buckets
  | buckets, (k, v) :: rest =>
      let bucketId := getPartition k
      if ((buckets.getD bucketId []).getLast?.map Prod.fst) = some k then
        doShuffleTaskCoreLoop agg getPartition
          (buckets.modify bucketId (List.modifyLast fun p => (p.1, agg.mergeValue p.2 v))) rest
      else
        doShuffleTaskCoreLoop agg getPartition
          (buckets.modify bucketId (· ++ [(k, agg.createCombiner v)])) rest

/-- `do_shuffle_task_core`: `num_output_splits` empty buckets, filled by the loop
of the branch `aggregator.is_default` selects. -/
def doShuffleTaskCore (agg : Aggregator V C) (getPartition : K → ℕ) (numOutputSplits : ℕ)
    (data : List (K × V)) : List (List (K × C)) :=
  let buckets : List (List (K × C)) := List.replicate numOutputSplits []
  if agg.isDefault then
    match data with
    | [] => buckets
    | (k, v) :: rest =>
        doShuffleTaskCoreDefaultLoop agg getPartition
          (buckets.modify (getPartition k) (· ++ [(k, agg.createCombiner v)]))
          (getPartition k) k rest
  else doShuffleTaskCoreLoop agg getPartition buckets data

variable (agg : Aggregator V C) (getPartition : K → ℕ) (n : ℕ)

/-- Both loops only modify buckets in place. -/
theorem length_doShuffleTaskCore (data : List (K × V)) :
    (doShuffleTaskCore agg getPartition n data).length = n := by
  have hdefault : ∀ (rest : List (K × V)) (buckets : List (List (K × C))) bucketId lastK,
      (doShuffleTaskCoreDefaultLoop agg getPartition buckets bucketId lastK rest).length =
        buckets.length := by
    intro rest
    induction rest with
    | nil => intro buckets _ _; rfl
    | cons e rest ih =>
        intro buckets bucketId lastK
        obtain ⟨k, v⟩ := e
        simp only [doShuffleTaskCoreDefaultLoop]
        split <;> rw [ih, List.length_modify]
  have hgeneral : ∀ (rest : List (K × V)) (buckets : List (List (K × C))),
      (doShuffleTaskCoreLoop agg getPartition buckets rest).length = buckets.length := by
    intro rest
    induction rest with
    | nil => intro buckets; rfl
    | cons e rest ih =>
        intro buckets
        obtain ⟨k, v⟩ := e
        simp only [doShuffleTaskCoreLoop]
        split <;> rw [ih, List.length_modify]
  unfold doShuffleTaskCore
  split
  · split
    · exact List.length_replicate
    · rw [hdefault, List.length_modify, List.length_replicate]
  · rw [hgeneral, List.length_replicate]

/-- **Invariant of the `is_default` loop**: the buckets are the buckets of the
runs folded so far, whose last entry has key `last_k` in bucket `bucket_id`. -/
theorem doShuffleTaskCoreDefaultLoop_eq :
    ∀ (rest : List (K × V)) (acc : List (K × C)) (last : K × C),
      doShuffleTaskCoreDefaultLoop agg getPartition
          (bucketize getPartition n (acc ++ [last])) (getPartition last.1) last.1 rest =
        bucketize getPartition n
          (rest.foldl (runsPush agg.createCombiner agg.mergeValue) (acc ++ [last])) := by
  intro rest
  induction rest with
  | nil => intro acc last; rfl
  | cons e rest ih =>
      intro acc last
      obtain ⟨k, v⟩ := e
      rw [List.foldl_cons, runsPush_concat]
      by_cases hk : last.1 = k
      · -- equal key: the last run grows in place
        have hbuckets := bucketize_concat_modifyLast getPartition n acc last
          (fun p => (p.1, agg.mergeValue p.2 v)) rfl
        simp only [doShuffleTaskCoreDefaultLoop, hk, if_true]
        rw [← hk, ← hbuckets]
        exact ih acc (last.1, agg.mergeValue last.2 v)
      · -- new key: a new run opens in the key's own bucket
        have hbuckets := bucketize_concat getPartition n (acc ++ [last]) (k, agg.createCombiner v)
        have hassoc : acc ++ [last, (k, agg.createCombiner v)] =
            acc ++ [last] ++ [(k, agg.createCombiner v)] := by simp
        simp only [doShuffleTaskCoreDefaultLoop, hk, if_false]
        rw [← hbuckets, hassoc]
        exact ih (acc ++ [last]) (k, agg.createCombiner v)

/-- **The `is_default` branch is the bucketized run fold**, on every input. -/
theorem doShuffleTaskCore_of_isDefault (hdefault : agg.isDefault = true) (data : List (K × V)) :
    doShuffleTaskCore agg getPartition n data =
      bucketize getPartition n (foldRuns agg.createCombiner agg.mergeValue data) := by
  rcases data with _ | ⟨⟨k, v⟩, rest⟩
  · simp [doShuffleTaskCore, hdefault]
  · have hstart : (List.replicate n ([] : List (K × C))).modify (getPartition k)
        (· ++ [(k, agg.createCombiner v)]) =
        bucketize getPartition n ([] ++ [(k, agg.createCombiner v)]) := by
      rw [bucketize_concat, bucketize_nil]
    simp only [doShuffleTaskCore, hdefault, if_true]
    rw [hstart]
    exact doShuffleTaskCoreDefaultLoop_eq agg getPartition n rest [] (k, agg.createCombiner v)

/-- **Invariant of the general loop on sorted input**: the buckets are the buckets
of the runs folded so far.  Only sortedness makes the last entry of a key's own
bucket tell whether the key continues the current run. -/
theorem doShuffleTaskCoreLoop_eq [LinearOrder K] (hpart : ∀ k, getPartition k < n) :
    ∀ (rest : List (K × V)) (acc : List (K × C)),
      (keys acc).Pairwise (· < ·) →
      (∀ a ∈ keys acc, ∀ b ∈ keys rest, a ≤ b) →
      (keys rest).Pairwise (· ≤ ·) →
      doShuffleTaskCoreLoop agg getPartition (bucketize getPartition n acc) rest =
        bucketize getPartition n (rest.foldl (runsPush agg.createCombiner agg.mergeValue) acc) := by
  intro rest
  induction rest with
  | nil => intro acc _ _ _; rfl
  | cons e rest ih =>
      intro acc hacc hbelow hsorted
      obtain ⟨k, v⟩ := e
      simp only [keys_cons, List.pairwise_cons] at hsorted
      have hle_k : ∀ a ∈ keys acc, a ≤ k := fun a ha => hbelow a ha k (by simp)
      have hkey := bucketize_getLast?_key_iff getPartition n (hpart k) hacc hle_k
      rw [List.foldl_cons]
      by_cases hlast : (keys acc).getLast? = some k
      · -- `k` continues the last run, which sits last in `k`'s bucket
        obtain ⟨pre, x, rfl⟩ : ∃ pre x, acc = pre ++ [x] := by
          rcases List.eq_nil_or_concat' acc with rfl | hcons
          · simp at hlast
          · exact hcons
        have hx : x.1 = k := by simpa [keys, List.getLast?_map] using hlast
        have hbuckets := bucketize_concat_modifyLast getPartition n pre x
          (fun p => (p.1, agg.mergeValue p.2 v)) rfl
        simp only [doShuffleTaskCoreLoop, hkey.mpr hlast, if_true]
        rw [runsPush_concat, if_pos hx, ← hx, ← hbuckets]
        apply ih _ _ _ hsorted.2
        · simpa [keys] using hacc
        · intro a ha b hb
          exact hbelow a (by simpa [keys] using ha) b (by simp [hb])
      · -- `k` opens a new run at the end of its bucket
        have hbuckets := bucketize_concat getPartition n acc (k, agg.createCombiner v)
        simp only [doShuffleTaskCoreLoop, show ¬(_ = some k) from fun h => hlast (hkey.mp h),
          if_false]
        rw [runsPush_of_getLast?_ne _ _ acc (k, v) hlast, ← hbuckets]
        apply ih _ _ _ hsorted.2
        · -- every earlier key is below `k`: it is at most `k` and `k` is not last
          have hlt : ∀ a ∈ keys acc, a < k := by
            intro a ha
            refine lt_of_le_of_ne (hle_k a ha) ?_
            rintro rfl
            exact hlast (getLast?_eq_of_mem_of_pairwise_lt hacc hle_k ha)
          simpa [List.pairwise_append] using And.intro hacc hlt
        · intro a ha b hb
          simp only [keys_append, keys_cons, keys_nil, List.mem_append,
            List.mem_singleton] at ha
          rcases ha with ha | rfl
          · exact hbelow a ha b (by simp [hb])
          · exact hsorted.1 b hb

/-- **The general branch is the bucketized run fold on key-sorted input.** -/
theorem doShuffleTaskCore_of_sorted [LinearOrder K] (hdefault : agg.isDefault = false)
    (hpart : ∀ k, getPartition k < n) {data : List (K × V)}
    (hsorted : (keys data).Pairwise (· ≤ ·)) :
    doShuffleTaskCore agg getPartition n data =
      bucketize getPartition n (foldRuns agg.createCombiner agg.mergeValue data) := by
  simp only [doShuffleTaskCore, hdefault]
  rw [← bucketize_nil getPartition n]
  exact doShuffleTaskCoreLoop_eq agg getPartition n hpart data [] (by simp) (by simp) hsorted

end Core

/-! ### `do_shuffle_task` -/

section Task

variable {α : Type u}

/-- The grouping loop of `do_shuffle_task` (`dependency.rs`:183-197): a block joins
the last sub-part while that sub-part's running size stays within `limit`
(`CACHE_LIMIT/MAX_THREAD/input.get_parallel()`), else it opens a new sub-part.
`deepSizeOf` is the `deep_size_of` of a block. -/
def groupSubParts (deepSizeOf : List α → ℕ) (limit : ℕ) :
    List (List α) → ℕ → List (List α) → List (List α)
  | subParts, _, [] => subParts
  | subParts, subPartSize, block :: rest =>
      let blockSize := deepSizeOf block
      if ¬subParts.isEmpty ∧ subPartSize + blockSize ≤ limit then
        groupSubParts deepSizeOf limit (subParts.modifyLast (· ++ block))
          (subPartSize + blockSize) rest
      else
        groupSubParts deepSizeOf limit (subParts ++ [block]) blockSize rest

variable (deepSizeOf : List α → ℕ) (limit : ℕ)

/-- Grouping loses and duplicates no element: the sub-parts concatenate to the
blocks. -/
theorem flatten_groupSubParts :
    ∀ (rest : List (List α)) (subParts : List (List α)) (subPartSize : ℕ),
      (groupSubParts deepSizeOf limit subParts subPartSize rest).flatten =
        subParts.flatten ++ rest.flatten := by
  intro rest
  induction rest with
  | nil => intro subParts _; simp [groupSubParts]
  | cons block rest ih =>
      intro subParts subPartSize
      simp only [groupSubParts]
      split
      · rename_i hjoin
        obtain ⟨pre, last, rfl⟩ : ∃ pre last, subParts = pre ++ [last] := by
          rcases List.eq_nil_or_concat' subParts with rfl | hcons
          · simp at hjoin
          · exact hcons
        rw [ih, List.modifyLast_concat]
        simp
      · rw [ih]
        simp

/-- A non-empty block list gives at least one sub-part. -/
theorem groupSubParts_ne_nil :
    ∀ (rest : List (List α)) (subParts : List (List α)) (subPartSize : ℕ),
      subParts ≠ [] ∨ rest ≠ [] →
      groupSubParts deepSizeOf limit subParts subPartSize rest ≠ [] := by
  intro rest
  induction rest with
  | nil =>
      intro subParts _ hne
      simpa [groupSubParts] using hne
  | cons block rest ih =>
      intro subParts subPartSize _
      simp only [groupSubParts]
      split
      · rename_i hjoin
        obtain ⟨pre, last, rfl⟩ : ∃ pre last, subParts = pre ++ [last] := by
          rcases List.eq_nil_or_concat' subParts with rfl | hcons
          · simp at hjoin
          · exact hcons
        apply ih
        left
        rw [List.modifyLast_concat]
        simp
      · exact ih _ _ (Or.inl (by simp))

/-- The `MAX_THREAD` calls `sub_parts.split_off(sub_parts.len().saturating_sub(r))`
(`dependency.rs`:201-212): each thread in turn takes the last `r` sub-parts still
left.  The second component is what no thread took, asserted to be empty. -/
def splitOffThreads (r : ℕ) : ℕ → List α → List (List α) × List α
  | 0, subParts => ([], subParts)
  | t + 1, subParts =>
      let taken := subParts.drop (subParts.length - r)
      let next := splitOffThreads r t (subParts.take (subParts.length - r))
      (taken :: next.1, next.2)

/-- The order in which one enclave call emits its sub-parts' rows: the profiling
sample, the last sub-part, first, then the others in order. -/
def sampleFirst (subParts : List α) : List α :=
  subParts.getLast?.toList ++ subParts.dropLast

theorem sampleFirst_perm (subParts : List α) : (sampleFirst subParts).Perm subParts := by
  rcases List.eq_nil_or_concat' subParts with rfl | ⟨pre, sample, rfl⟩
  · rfl
  · simp only [sampleFirst, List.getLast?_concat, Option.toList_some, List.dropLast_concat]
    exact List.perm_append_comm

/-- With one thread and `r` the number of sub-parts, the thread takes them all. -/
theorem splitOffThreads_one_length (l : List α) :
    splitOffThreads l.length 1 l = ([l], []) := by
  simp [splitOffThreads]

end Task

section Handler

/-- One handler of the second loop of `do_shuffle_task` (`dependency.rs`:222-273).
The first handler pops its last sub-part as the profiling sample
(`sub_parts.pop().unwrap()`, a panic when it has none) and shuffles it first;
`is_para_shuf`, set from the allocation count of that sample, only moves the
remaining work between this thread and the encryption thread.  Either way every
sub-part's buckets are `batch_encrypt`ed and pushed in the same order. -/
def shuffleHandler (core : List (K × V) → List (List (K × C))) (isFirst isParaShuf : Bool)
    (subParts : List (List (K × V))) : Option (List (List (List (ItemE (List (K × C)))))) :=
  let encrypt : List (List (K × C)) → List (List (ItemE (List (K × C)))) :=
    List.map batchEncrypt
  if isFirst then
    match subParts.getLast? with
    | none => none
    | some sample =>
        let bucketsCol := [core sample]
        let subParts := subParts.dropLast
        if isParaShuf then
          -- the encryption thread takes the sample's buckets, then shuffles the rest
          some (bucketsCol.map encrypt ++ subParts.map fun subPart => encrypt (core subPart))
        else
          -- the rest is shuffled here and the encryption thread gets every row
          some ((bucketsCol ++ subParts.map core).map encrypt)
  else if isParaShuf then some (subParts.map fun subPart => encrypt (core subPart))
  else some ((subParts.map core).map encrypt)

/-- The first handler on a non-empty sub-part list: the sample first, then the
others in order, whatever `is_para_shuf` says. -/
theorem shuffleHandler_first (core : List (K × V) → List (List (K × C))) (isParaShuf : Bool)
    {subParts : List (List (K × V))} (hne : subParts ≠ []) :
    shuffleHandler core true isParaShuf subParts =
      some ((subParts.getLast hne :: subParts.dropLast).map fun subPart =>
        (core subPart).map batchEncrypt) := by
  simp only [shuffleHandler, List.getLast?_eq_some_getLast hne, if_true]
  cases isParaShuf <;> simp [Function.comp_def]

variable [LinearOrder K]

/-- `ShuffleDependency::do_shuffle_task` (enclave, `dependency.rs`:178-280) on the
narrow output blocks `results`: group them into sub-parts, split those over the
`MAX_THREAD` threads, sort each sub-part by key (`sort_unstable_by`), widen the
partitioner to `n * (MAX_THREAD + 1)` buckets and run every handler, appending
their rows in handler order.  `none` is a panic. -/
def doShuffleTask (sortUnstableBy : SortBy (K × V) fun a b => a.1 ≤ b.1)
    (agg : Aggregator V C) (partitioner : HashPartitioner K)
    (deepSizeOf : List (K × V) → ℕ) (limit : ℕ) (isParaShuf : Bool)
    (results : List (List (K × V))) : Option (List (List (List (ItemE (List (K × C)))))) :=
  let subParts := groupSubParts deepSizeOf limit [] 0 results
  let r := (subParts.length - 1) / maxThread + 1
  let split := splitOffThreads r maxThread subParts
  if !split.2.isEmpty then none
  else
    let handlers := split.1.map fun subParts => subParts.map sortUnstableBy.sort
    let numOutputSplits := partitioner.partitions * (maxThread + 1)
    let partitioner := partitioner.setNumOfPartitions numOutputSplits
    let core := doShuffleTaskCore agg partitioner.getPartition numOutputSplits
    (handlers.zipIdx.mapM fun (subParts, i) =>
      shuffleHandler core (i == 0) isParaShuf subParts).map List.flatten

/-- **The map side never panics on a non-empty block list**: it returns one bucket
row per sub-part, the sample first, each sub-part sorted and shuffled over the
widened partitioner. -/
theorem doShuffleTask_eq_some (sortUnstableBy : SortBy (K × V) fun a b => a.1 ≤ b.1)
    (agg : Aggregator V C) (partitioner : HashPartitioner K)
    (deepSizeOf : List (K × V) → ℕ) (limit : ℕ) (isParaShuf : Bool)
    {results : List (List (K × V))} (hne : results ≠ []) :
    doShuffleTask sortUnstableBy agg partitioner deepSizeOf limit isParaShuf results =
      some ((sampleFirst (groupSubParts deepSizeOf limit [] 0 results)).map fun subPart =>
        (doShuffleTaskCore agg
          (partitioner.setNumOfPartitions (partitioner.partitions * (maxThread + 1))).getPartition
          (partitioner.partitions * (maxThread + 1))
          (sortUnstableBy.sort subPart)).map batchEncrypt) := by
  set grouped := groupSubParts deepSizeOf limit [] 0 results with hgrouped
  have hgne : grouped ≠ [] := groupSubParts_ne_nil deepSizeOf limit results [] 0 (Or.inr hne)
  -- with one thread, the single handler takes every sub-part
  have hr : (grouped.length - 1) / maxThread + 1 = grouped.length := by
    have hpos : 0 < grouped.length := List.length_pos_iff.mpr hgne
    simp only [maxThread, Nat.div_one]
    omega
  have hsorted_ne : grouped.map sortUnstableBy.sort ≠ [] := by simpa using hgne
  have horder : sampleFirst grouped = grouped.getLast hgne :: grouped.dropLast := by
    simp [sampleFirst, List.getLast?_eq_some_getLast hgne]
  simp only [doShuffleTask, ← hgrouped, hr]
  rw [show maxThread = 1 from rfl, splitOffThreads_one_length]
  simp only [List.isEmpty_nil, Bool.not_true, Bool.false_eq_true, if_false, List.map_cons,
    List.map_nil, List.zipIdx_cons, List.zipIdx_nil, List.mapM_cons, List.mapM_nil]
  rw [show ((0 : ℕ) == 0) = true from rfl, shuffleHandler_first _ _ hsorted_ne, horder]
  simp [List.getLast_map, Function.comp_def]

/-- An enclave call without a block panics: the first handler finds no sample. -/
theorem doShuffleTask_nil (sortUnstableBy : SortBy (K × V) fun a b => a.1 ≤ b.1)
    (agg : Aggregator V C) (partitioner : HashPartitioner K)
    (deepSizeOf : List (K × V) → ℕ) (limit : ℕ) (isParaShuf : Bool) :
    doShuffleTask sortUnstableBy agg partitioner deepSizeOf limit isParaShuf [] = none := by
  simp [doShuffleTask, groupSubParts, splitOffThreads, shuffleHandler, maxThread]

end Handler

end Flare
