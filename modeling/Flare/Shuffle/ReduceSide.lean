import Mathlib
import Flare.Basic
import Flare.Lib.Combine

/-!
# Reduce side of the secure shuffle

The enclave half of a shuffle read (`enclave/src/op/shuffled_op.rs`) and the
framework step that calls it (`ShuffledRdd::secure_compute_prev`,
`framework/src/rdd/shuffled_rdd.rs`).  The fetched data of one reduce partition
holds `MAX_THREAD + 1` groups of encrypted buckets; `Shuffled::compute_inner`
decrypts each group, merges its buckets by key with `merge_core` and encrypts
the combiners, group `0` first as the profiling sample.

## Main definitions

* `Shuffled.mergeCore` — `kmerge_by` of the buckets, then the loop that combines
  adjacent entries with equal keys.
* `Shuffled.computeInner` — the four branches selected by the profiling flags.
* `Shuffled.secureComputePrev` — the framework's filter of empty groups around
  the enclave call.

## Main results

* `Shuffled.mergeCore_eq` — `merge_core` is the run fold of the merged buckets.
* `Shuffled.combinesBy_mergeCore` — for an associative `merge_combiners`, `merge_core`
  turns key-sorted precombiners into combiners.
* `Shuffled.computeInner_eq` — whatever the flags, the result is every group's
  merge, encrypted, in group order.

## Design notes

`is_para_enc` and `is_para_mer` are derived from allocator counters and are
arbitrary arguments here.  The `pop().unwrap()` loops hand the groups to the
threads from the last one back; with `MAX_THREAD = 1` they take the single
remaining group, so the reversal is invisible in the result, but `popN` keeps it
in the model.
-/

namespace Flare

namespace Shuffled

open KeyedList Slices

universe u v w

variable {K : Type u} {V : Type v} {C : Type w} [LinearOrder K]

/-! ### `merge_core` -/

/-- The loop of `merge_core` (`shuffled_op.rs`:91-98): an entry whose key equals the
key of the last combiner is merged into it with `merge_combiners`, any other is
pushed.  The combiners are never empty inside the loop, so `last().unwrap()`
never panics and the comparison reads the last key through `getLast?`. -/
def mergeCoreLoop (agg : Aggregator V C) : List (K × C) → List (K × C) → List (K × C)
  | combiners, [] => combiners
  | combiners, (k, c) :: iter =>
      if combiners.getLast?.map Prod.fst = some k then
        mergeCoreLoop agg (combiners.modifyLast fun pair => (pair.1, agg.mergeCombiners pair.2 c))
          iter
      else mergeCoreLoop agg (combiners ++ [(k, c)]) iter

/-- `merge_core` (`shuffled_op.rs`:84-100): the buckets merged by key
(`kmerge_by(|a, b| a.0 < b.0)`), the first entry opening the combiners. -/
def mergeCore (kmergeBy : KMergeBy (K × C) fun a b => a.1 ≤ b.1) (buckets : List (List (K × C)))
    (agg : Aggregator V C) : List (K × C) :=
  match kmergeBy.kmerge buckets with
  | [] => []
  | first :: iter => mergeCoreLoop agg [first] iter

/-- One step of the loop is one step of the run fold that starts a run with the
combiner itself. -/
theorem runsPush_id (agg : Aggregator V C) (combiners : List (K × C)) (k : K) (c : C) :
    runsPush id agg.mergeCombiners combiners (k, c) =
      if combiners.getLast?.map Prod.fst = some k then
        combiners.modifyLast fun pair => (pair.1, agg.mergeCombiners pair.2 c)
      else combiners ++ [(k, c)] := by
  unfold runsPush
  cases combiners.getLast? with
  | none => simp
  | some last => simp

theorem mergeCoreLoop_eq (agg : Aggregator V C) :
    ∀ (iter combiners : List (K × C)),
      mergeCoreLoop agg combiners iter = iter.foldl (runsPush id agg.mergeCombiners) combiners := by
  intro iter
  induction iter with
  | nil => intro combiners; rfl
  | cons e iter ih =>
      intro combiners
      obtain ⟨k, c⟩ := e
      rw [List.foldl_cons, runsPush_id, mergeCoreLoop]
      split <;> exact ih _

/-- **`merge_core` is the run fold of the merged buckets**, each run's combiners
merged with `merge_combiners`. -/
theorem mergeCore_eq (kmergeBy : KMergeBy (K × C) fun a b => a.1 ≤ b.1)
    (buckets : List (List (K × C))) (agg : Aggregator V C) :
    mergeCore kmergeBy buckets agg = foldRuns id agg.mergeCombiners (kmergeBy.kmerge buckets) := by
  unfold mergeCore
  cases kmergeBy.kmerge buckets with
  | nil => rfl
  | cons first iter =>
      rw [foldRuns, List.foldl_cons, runsPush_nil, ← mergeCoreLoop_eq]
      rfl

/-- **`merge_core` closes the combiners**: for an associative `merge_combiners`, buckets
whose keys are sorted and that together precombine `l` merge into combiners of `l`. -/
theorem combinesBy_mergeCore (kmergeBy : KMergeBy (K × C) fun a b => a.1 ≤ b.1)
    (agg : Aggregator V C) [Std.Associative agg.mergeCombiners] {p : K → Prop} {l : List (K × V)}
    {buckets : List (List (K × C))}
    (hpre : PrecombinesBy agg.createCombiner agg.mergeCombiners p l buckets.flatten)
    (hsorted : ∀ bucket ∈ buckets, (keys bucket).Pairwise (· ≤ ·)) :
    CombinesBy agg.createCombiner agg.mergeCombiners p l (mergeCore kmergeBy buckets agg) := by
  have hmerged : (kmergeBy.kmerge buckets).Pairwise fun a b => a.1 ≤ b.1 :=
    kmergeBy.sorted buckets fun bucket hb => List.pairwise_map.mp (hsorted bucket hb)
  rw [mergeCore_eq]
  exact combinesBy_foldRuns (hpre.perm_right (kmergeBy.perm buckets).symm)
    (List.pairwise_map.mpr hmerged)

/-! ### `compute_inner` -/

section Pop

variable {α : Type u}

/-- `t` calls of `pop().unwrap()` on a vector: the popped elements in the order
they come, `none` when the vector runs out. -/
def popN : ℕ → List α → Option (List α)
  | 0, _ => some []
  | t + 1, xs =>
      match xs.getLast? with
      | none => none
      | some x => (popN t xs.dropLast).map (x :: ·)

end Pop

/-- `Shuffled::compute_inner` (`shuffled_op.rs`:83-194) on the fetched groups of
encrypted buckets.  The length assertion fails (`none`) unless there are
`MAX_THREAD + 1` groups.  Group `0`, the profiling sample, is merged and encrypted
first; the other groups are merged in the branch the two flags select:
* sequential decryption, sequential merge: merged here, popped, encrypted in threads;
* sequential decryption, parallel merge: popped, merged and encrypted in threads;
* parallel decryption (with either merge): handled in order `1..MAX_THREAD+1`. -/
def computeInner (kmergeBy : KMergeBy (K × C) fun a b => a.1 ≤ b.1) (agg : Aggregator V C)
    (isParaEnc isParaMer : Bool) (dataEnc : List (List (List (ItemE (List (K × C)))))) :
    Option (List (ItemE (List (K × C)))) :=
  if dataEnc.length = maxThread + 1 then
    let decrypt : List (List (ItemE (List (K × C)))) → List (List (K × C)) := List.map batchDecrypt
    let merge := fun buckets => mergeCore kmergeBy buckets agg
    let acc := batchEncrypt (merge (decrypt (dataEnc.getD 0 [])))
    let data := ((dataEnc.drop 1).take maxThread).map decrypt
    let handlers : Option (List (List (ItemE (List (K × C))))) :=
      if isParaEnc then some (data.map fun buckets => batchEncrypt (merge buckets))
      else if isParaMer then (popN maxThread data).map (List.map fun buckets => batchEncrypt (merge buckets))
      else (popN maxThread (data.map merge)).map (List.map batchEncrypt)
    handlers.map fun results => acc ++ results.flatten
  else none

/-- **`compute_inner` is every group's merge, in group order**, whatever the
profiling flags say. -/
theorem computeInner_eq (kmergeBy : KMergeBy (K × C) fun a b => a.1 ≤ b.1) (agg : Aggregator V C)
    (isParaEnc isParaMer : Bool) {dataEnc : List (List (List (ItemE (List (K × C)))))}
    (hlen : dataEnc.length = maxThread + 1) :
    computeInner kmergeBy agg isParaEnc isParaMer dataEnc =
      some (dataEnc.flatMap fun bucketsEnc =>
        batchEncrypt (mergeCore kmergeBy (bucketsEnc.map batchDecrypt) agg)) := by
  -- with one thread there are exactly two groups: the sample and one more
  obtain ⟨sample, group, rfl⟩ : ∃ sample group, dataEnc = [sample, group] := by
    match dataEnc, hlen with
    | [sample, group], _ => exact ⟨sample, group, rfl⟩
  unfold computeInner
  rw [if_pos hlen]
  cases isParaEnc <;> cases isParaMer <;> simp [maxThread, popN]

/-- `ShuffledRdd::secure_compute_prev` after the fetch (framework
`shuffled_rdd.rs`:105-118): groups without a bucket are dropped
(`sub_part.len() > 0`); with none left the partition yields no block, otherwise
the enclave runs `compute_inner` on the groups kept. -/
def secureComputePrev (kmergeBy : KMergeBy (K × C) fun a b => a.1 ≤ b.1) (agg : Aggregator V C)
    (isParaEnc isParaMer : Bool) (fetched : List (List (List (ItemE (List (K × C)))))) :
    Option (List (ItemE (List (K × C)))) :=
  let buckets := fetched.filter fun subPart => 0 < subPart.length
  if buckets.length = 0 then some []
  else computeInner kmergeBy agg isParaEnc isParaMer buckets

/-- Fetched groups that all hold buckets go to the enclave whole. -/
theorem secureComputePrev_of_ne_nil (kmergeBy : KMergeBy (K × C) fun a b => a.1 ≤ b.1)
    (agg : Aggregator V C) (isParaEnc isParaMer : Bool)
    {fetched : List (List (List (ItemE (List (K × C)))))}
    (hne : ∀ subPart ∈ fetched, subPart ≠ []) (hlen : fetched.length = maxThread + 1) :
    secureComputePrev kmergeBy agg isParaEnc isParaMer fetched =
      computeInner kmergeBy agg isParaEnc isParaMer fetched := by
  have hkeep : (fetched.filter fun subPart => 0 < subPart.length) = fetched :=
    List.filter_eq_self.mpr fun subPart h => by simpa [List.length_pos_iff] using hne subPart h
  unfold secureComputePrev
  rw [hkeep, if_neg (by rw [hlen]; omega)]

/-- Fetched groups without a single bucket give an empty partition. -/
theorem secureComputePrev_of_eq_nil (kmergeBy : KMergeBy (K × C) fun a b => a.1 ≤ b.1)
    (agg : Aggregator V C) (isParaEnc isParaMer : Bool)
    {fetched : List (List (List (ItemE (List (K × C)))))}
    (hnil : ∀ subPart ∈ fetched, subPart = []) :
    secureComputePrev kmergeBy agg isParaEnc isParaMer fetched = some [] := by
  have hdrop : (fetched.filter fun subPart => 0 < subPart.length) = [] :=
    List.filter_eq_nil_iff.mpr fun subPart h => by simp [hnil subPart h]
  unfold secureComputePrev
  rw [hdrop]
  rfl

end Shuffled

end Flare
