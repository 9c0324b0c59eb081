import Mathlib
import Flare.Coalesced
import Flare.Plain.Shuffle

/-!
# Repartitioning

`Rdd::repartition(num_partitions)` (`framework/src/rdd/rdd.rs`:1972-1977) is
`coalesce(num_partitions, true)` (1741-1775).  Every partition keys its items by the
positions after a random start (the closure `distributed_partition`),
`PairRdd::partition_by_key` (`rdd/pair_rdd.rs`:161-177) shuffles them under
`HashPartitioner::new(num_partitions)` with the default aggregator and flattens the
grouped values, and a `CoalescedRdd` of at most `num_partitions` splits
(`rdd/coalesced_rdd.rs`:162-180, 253-268) reads the shuffled splits in groups.

## Main definitions

* `Plain.distributedPartition` — the keying of one partition.
* `Plain.partitionByKey` — the shuffle, each split's groups flattened to their values.
* `Plain.coalescedCompute`, `Plain.coalescedRdd` — the coalesced splits and what each reads.
* `Plain.repartition` — the three, composed.

## Main results

* `partitionByKey_perm` — the shuffle keeps every value once, over the partitioner's splits.
* `coalescedRdd_perm_of_no_locality` — without preferred locations the coalesced splits
  read every parent split once.
* `repartition_keeps_elements` — `repartition` returns `num_partitions` splits holding
  every input item once.

## Design notes

`distributed_partition` draws its start by `gen_range(0, num_partitions)` from a
generator seeded with the hash of the partition's index; `start index` is that draw, and
the results hold for every draw.  The comment there says that the hash of a position is the
position itself, but the partitioner hashes positions with MetroHash: the results hold for
every `hash`.  A position is a `usize` that would wrap only after `2^64` items.  Neither
the flat-mapped shuffle output nor a `ShuffledRdd` overrides `preferred_locations`, so the
coalescer sees a parent without preferred locations; a location (`Ipv4Addr`) is a
`UInt32`.  Panics are `none`.
-/

namespace Flare

namespace Plain

open KeyedList

universe u v

variable {α : Type u}

/-! ### The stages -/

/-- The closure `distributed_partition` of `Rdd::coalesce` with `shuffle`
(`rdd.rs`:1747-1759) for a partition whose drawn start is `position`:
`gen_range(0, num_partitions)` panics on an empty range, and the items are keyed by the
positions after `position`. -/
def distributedPartition (numPartitions position : ℕ) (items : List α) :
    Option (List (ℕ × α)) :=
  if numPartitions = 0 then none
  else some (items.mapIdx fun j t => (position + j + 1, t))

/-- `PairRdd::partition_by_key` (`pair_rdd.rs`:161-177) of an RDD that is not secure: the
`ShuffledRdd` of the default aggregator, each split's groups flattened to their values. -/
def partitionByKey {K : Type v} {V : Type u} [DecidableEq K] (partitioner : HashPartitioner K)
    (servers : List (List ℕ)) (maps : List (List (K × V))) : Option (List (List V)) :=
  (combineByKey (Aggregator.default V) partitioner servers maps).map fun out =>
    out.map fun split => split.flatMap Prod.snd

/-- `CoalescedRdd::compute` (`coalesced_rdd.rs`:253-268): the parent's splits whose index
the split's `parent_indices` holds, in the parent's order, one after another. -/
def coalescedCompute (parent : List (List α)) (parentIndices : List ℕ) : List α :=
  (parent.zipIdx.filter fun p => p.2 ∈ parentIndices).flatMap Prod.fst

/-- A `CoalescedRdd` of at most `max_partitions` splits over a parent whose split `i` holds
`parent[i]` and prefers the locations `prefLocs[i]`: `splits` (162-180) coalesces the parent's
splits, and each split computes its group. -/
def coalescedRdd {Loc : Type v} [DecidableEq Loc] (expectedCoupons2 : ℕ → ℕ)
    (rng : Coalesced.Rng) (slack maxPartitions : ℕ) (prefLocs : List (List Loc))
    (parent : List (List α)) : Option (List (List α)) :=
  (Coalesced.coalesce expectedCoupons2 rng slack maxPartitions prefLocs).map fun gs =>
    gs.map fun g => coalescedCompute parent g.partitions

/-- **`Rdd::repartition(num_partitions)`** of an RDD that is not secure (`rdd.rs`:1972-1977),
that is `coalesce(num_partitions, true)` (1741-1775): the partitions keyed from their drawn
starts, shuffled by position and flattened, then coalesced into at most `num_partitions`
splits. -/
def repartition (start : ℕ → ℕ) (hash : ℕ → UInt64) (numPartitions : ℕ)
    (servers : List (List ℕ)) (expectedCoupons2 : ℕ → ℕ) (rng : Coalesced.Rng) (slack : ℕ)
    (maps : List (List α)) : Option (List (List α)) := do
  let mapSteep ← maps.zipIdx.mapM fun p => distributedPartition numPartitions (start p.2) p.1
  let mapSteepPart ← partitionByKey ⟨hash, numPartitions⟩ servers mapSteep
  -- the shuffled splits prefer no location
  coalescedRdd expectedCoupons2 rng slack numPartitions
    (mapSteepPart.map fun _ => ([] : List UInt32)) mapSteepPart

/-! ### Keying -/

section Keying

variable (start : ℕ → ℕ) {numPartitions : ℕ}

/-- The items of the keyed partitions, in order, are the items. -/
theorem map_snd_keyed (maps : List (List α)) :
    ((maps.zipIdx.map fun p => p.1.mapIdx fun j t => (start p.2 + j + 1, t)).flatten.map
      Prod.snd) = maps.flatten := by
  rw [List.map_flatten, List.map_map]
  have hsnd : ∀ p ∈ maps.zipIdx,
      (List.map Prod.snd ∘ fun p : List α × ℕ => p.1.mapIdx fun j t => (start p.2 + j + 1, t)) p =
        p.1 := by
    intro p _
    simp [List.mapIdx_eq_zipIdx_map, List.map_map, Function.comp_def]
  rw [List.map_congr_left hsnd, List.zipIdx_map_fst]

/-- With at least one partition, every partition is keyed. -/
theorem mapM_distributedPartition (hn : 0 < numPartitions) (maps : List (List α)) :
    maps.zipIdx.mapM (fun p => distributedPartition numPartitions (start p.2) p.1) =
      some (maps.zipIdx.map fun p => p.1.mapIdx fun j t => (start p.2 + j + 1, t)) :=
  Slices.mapM_eq_some_map fun _ _ => if_neg hn.ne'

end Keying

/-! ### The shuffle -/

section PartitionByKey

variable {K : Type v} {V : Type u} [DecidableEq K] (hash : K → UInt64) (numSplits : ℕ)
  (servers : List (List ℕ)) (maps : List (List (K × V)))

/-- **`partition_by_key` keeps every value once**: with at least one split and every map id
fetched once, there is one split per partition and, together, they hold the input's values. -/
theorem partitionByKey_perm (hn : 0 < numSplits)
    (hservers : servers.flatten.Perm (List.range maps.length)) :
    ∃ parent, partitionByKey ⟨hash, numSplits⟩ servers maps = some parent ∧
      parent.length = numSplits ∧ parent.flatten.Perm (maps.flatten.map Prod.snd) := by
  refine ⟨_, by rw [partitionByKey, combineByKey_eq _ _ servers maps hn, Option.map_some], by simp,
    ?_⟩
  simp only [List.map_map, Function.comp_def]
  rw [← List.flatMap_def]
  -- split `r` holds the values of the input of partition `r`
  have hsplit : ∀ r ∈ List.range numSplits,
      ((compute (Aggregator.default V)
        (fetch servers (storedBuckets (Aggregator.default V) ⟨hash, numSplits⟩ maps) r)).flatMap
          Prod.snd).Perm ((maps.flatten.filter fun e =>
            decide ((HashPartitioner.mk hash numSplits).getPartition e.1 = r)).map Prod.snd) :=
    fun r hr => (groupsBy_compute_fetch_default hash numSplits servers maps hservers
      (List.mem_range.mp hr)).toPregroups.perm_flatMap_snd
  refine (List.Perm.flatMap_left _ hsplit).trans ?_
  rw [← List.map_flatMap]
  exact (perm_flatMap_range_filter (fun e => (HashPartitioner.mk hash numSplits).getPartition e.1)
    numSplits maps.flatten fun e _ => Nat.mod_lt _ hn).map Prod.snd

end PartitionByKey

/-! ### The coalesced splits -/

section Coalesce

variable {Loc : Type v} [DecidableEq Loc]

/-- The coalesced splits of groups that hold every parent index once read, together, every
parent split once. -/
theorem flatten_coalescedCompute_perm (parent : List (List α)) {gs : List (List ℕ)}
    (hgs : gs.flatten.Perm (List.range parent.length)) :
    (gs.map (coalescedCompute parent)).flatten.Perm parent.flatten := by
  have hflat : (gs.map (coalescedCompute parent)).flatten =
      (gs.flatMap fun ids => parent.zipIdx.filter fun p => p.2 ∈ ids).flatMap Prod.fst := by
    rw [← List.flatMap_def, List.flatMap_assoc]
    rfl
  have hparent : parent.zipIdx.flatMap Prod.fst = parent.flatten := by
    rw [List.flatMap_def, List.zipIdx_map_fst]
  rw [hflat, ← hparent]
  exact (Slices.perm_flatMap_filter_zipIdx parent hgs).flatMap_right _

/-- **Without preferred locations the coalesced splits read every parent split once**:
`min(n, max_partitions)` splits, holding together the items of the parent. -/
theorem coalescedRdd_perm_of_no_locality (expectedCoupons2 : ℕ → ℕ) (rng : Coalesced.Rng)
    (slack : ℕ) {maxPartitions : ℕ} (prefLocs : List (List Loc)) (parent : List (List α))
    (hno : ∀ locs ∈ prefLocs, locs = []) (hlen : prefLocs.length = parent.length)
    (hmax : 0 < maxPartitions) :
    ∃ out, coalescedRdd expectedCoupons2 rng slack maxPartitions prefLocs parent = some out ∧
      out.length = min parent.length maxPartitions ∧ out.flatten.Perm parent.flatten := by
  obtain ⟨gs, hgs, hgslen, -, hperm⟩ :=
    Coalesced.coalesce_of_no_locality expectedCoupons2 rng slack prefLocs hno hmax
  refine ⟨_, by rw [coalescedRdd, hgs, Option.map_some], by rw [List.length_map, hgslen, hlen], ?_⟩
  have hids : (gs.map Coalesced.PartitionGroup.partitions).flatten.Perm
      (List.range parent.length) := by
    rw [← List.flatMap_def, ← hlen]
    exact hperm
  have hcompute := flatten_coalescedCompute_perm parent hids
  rwa [List.map_map] at hcompute

end Coalesce

/-! ### `repartition` -/

/-- **`repartition` keeps every item once.**  For every draw of the start positions, every
hash of the positions, every coalescer estimate and generator, and every grouping of the map
ids by fetch server: with `num_partitions ≥ 1`, `repartition(num_partitions)` does not panic
and returns `num_partitions` splits that hold, together, a permutation of the input's items. -/
theorem repartition_keeps_elements (start : ℕ → ℕ) (hash : ℕ → UInt64) (numPartitions : ℕ)
    (servers : List (List ℕ)) (expectedCoupons2 : ℕ → ℕ) (rng : Coalesced.Rng) (slack : ℕ)
    (maps : List (List α)) (hn : 0 < numPartitions)
    (hservers : servers.flatten.Perm (List.range maps.length)) :
    ∃ out, repartition start hash numPartitions servers expectedCoupons2 rng slack maps = some out ∧
      out.length = numPartitions ∧ out.flatten.Perm maps.flatten := by
  set mapSteep := maps.zipIdx.map fun p => p.1.mapIdx fun j t => (start p.2 + j + 1, t)
  have hsteep : mapSteep.length = maps.length := by simp [mapSteep]
  obtain ⟨parent, hparent, hlen, hperm⟩ :=
    partitionByKey_perm hash numPartitions servers mapSteep hn (by rwa [hsteep])
  obtain ⟨out, hout, houtlen, houtperm⟩ := coalescedRdd_perm_of_no_locality expectedCoupons2 rng
    slack (parent.map fun _ => ([] : List UInt32)) parent (by simp) (by simp) hn
  refine ⟨out, ?_, by rw [houtlen, hlen, min_self], ?_⟩
  · simp only [repartition, mapM_distributedPartition start hn, Option.bind_eq_bind,
      Option.bind_some, hparent, hout, mapSteep]
  · rw [← map_snd_keyed start maps]
    exact houtperm.trans hperm

/-- Two partitions of three items repartitioned into two splits. -/
theorem repartition_keeps_elements_two_splits :
    ∃ out, repartition (fun i => i) (fun k => k.toUInt64) 2 [[0, 1]] (fun _ => 0)
        ⟨fun _ _ => 0, fun _ _ h => h⟩ 0 [[5, 6], [7]] = some out ∧
      out.length = 2 ∧ out.flatten.Perm [[5, 6], [7]].flatten :=
  repartition_keeps_elements (fun i => i) (fun k => k.toUInt64) 2 [[0, 1]] (fun _ => 0)
    ⟨fun _ _ => 0, fun _ _ h => h⟩ 0 [[5, 6], [7]] (by decide) (by decide)

end Plain

end Flare
