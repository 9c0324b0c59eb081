import Mathlib
import Flare.Narrow.Narrow

/-!
# Caching an RDD across enclave calls and jobs

An RDD marked `cache()` is copied into the framework's secure cache by the job
that first computes it, and read back by later jobs.  The copy is the ciphertext
a `narrow` call ships out under the caching key (`OpCache::send`), which
`ocall_cache_to_outside` stores with `put_sdata` (`rdd/rdd.rs`:158-168,
`cache.rs`:85-111); a later job finds the entry (`secure_compute_cached`), names
the RDD as cached, and its head reads it through `get_and_remove_cached_data`,
which consults the operator's `cache_space` first.

## Main results

* `unionCalls_entry` — a partitioner-aware union that is cached under a further
  operator is computed by one enclave call per parent; each call replaces the
  secure-cache entry, which ends with the last parent's copy only.
* `cachingUnion_stores_last_parent` — two parents `[1]` and `[2]`: the union's
  partition is `[1, 2]`, its cached copy decrypts to `[2]`.
* `narrow_of_empty_entry` — a cached read that finds an empty `cache_space`
  entry for its head panics.
* `narrow_leaves_empty_entry` — a call with one profiling flag set on at most one
  block leaves such an entry behind.
* `cachedRead_twice_panics` — two reads of a one-block cached partition, the
  first with one profiling flag set: the first leaves such an entry behind, the
  second panics.
-/

namespace Flare

namespace Narrow

universe u

variable {α γ β : Type u}

/-- `put_sdata` under one key (`ocall_cache_to_outside`, `BoundedMemoryCache::sput`):
a shipped copy replaces the entry (`DashMap::insert`); a call that ships nothing
leaves it.  The capacity check of `sput` is not modelled: every copy fits. -/
def putSdata {σ : Type u} (entry sent : Option σ) : Option σ :=
  sent.or entry

/-! ### A cached partitioner-aware union -/

/-- One enclave call of a partitioner-aware union: the chain from a parent's head
through the union (the caching RDD) to the final RDD, its profiling flags and the
parent's blocks. -/
structure ParentCall (α γ β : Type u) where
  chain : Chain α γ β
  decPara : Bool
  narPara : Bool
  dataEnc : List (ItemE (List α))

/-- `UnionRdd::secure_compute_prev` (`rdd/union_rdd.rs`:108-126) for a
partitioner-aware union being cached: one enclave call per parent, in order, each
a `narrow` call whose copy `put_sdata` stores under the union's key.  Returns the
calls' results and the secure-cache entry. -/
def unionCalls (needEnc : Bool) :
    List (ParentCall α γ β) → Option (List (ItemE (List α)) ⊕ List (ItemE (List γ))) →
      Option (List (List (ItemE (List β)) ⊕ List (List β)) ×
        Option (List (ItemE (List α)) ⊕ List (ItemE (List γ))))
  | [], entry => some ([], entry)
  | call :: calls, entry => do
      let (out, _) ←
        narrow call.chain call.decPara call.narPara needEnc false none call.dataEnc CacheState.empty
      let (outs, entry) ← unionCalls needEnc calls (putSdata entry out.sent)
      return (out.result :: outs, entry)

/-- The union's partition as its lineage defines it (`UnionRdd::compute`,
`PartitionerAware`): each parent's partition through the chain up to the union,
one after the other. -/
def unionPartition (calls : List (ParentCall α γ β)) : List γ :=
  calls.flatMap fun call => ((plainBlocks call.dataEnc).map call.chain.pre).flatten

/-- The copy one parent's call ships when the union is the caching RDD. -/
theorem copyOf_inner {c : Chain α γ β} (hc : c.cacheAt = .inner) (blocks : List (List α)) :
    copyOf c blocks = some (.inr ((blocks.map c.pre).flatMap batchEncrypt)) := by
  simp [copyOf, hc]

/-- **The secure cache keeps the last parent's copy.**  Whatever the flags and
blocks of each parent, the entry under the union's key ends as the copy of the
last call: every call's `put_sdata` replaces what the previous one stored. -/
theorem unionCalls_entry (needEnc : Bool) (calls : List (ParentCall α γ β))
    (hinner : ∀ call ∈ calls, call.chain.cacheAt = .inner)
    (entry : Option (List (ItemE (List α)) ⊕ List (ItemE (List γ)))) :
    (unionCalls needEnc calls entry).map Prod.snd =
      some (match calls.getLast? with
        | none => entry
        | some call => some (.inr (((plainBlocks call.dataEnc).map call.chain.pre).flatMap batchEncrypt))) := by
  induction calls generalizing entry with
  | nil => rfl
  | cons call calls ih =>
      -- the head call ships its copy, which replaces the entry
      have hcall := hinner call List.mem_cons_self
      have hrest : ∀ c ∈ calls, c.chain.cacheAt = .inner := fun c hc =>
        hinner c (List.mem_cons_of_mem _ hc)
      have hput : putSdata entry (copyOf call.chain (plainBlocks call.dataEnc)) =
          some (.inr (((plainBlocks call.dataEnc).map call.chain.pre).flatMap batchEncrypt)) := by
        rw [copyOf_inner hcall]
        rfl
      obtain ⟨q, hq, hqv⟩ := Option.map_eq_some_iff.mp (ih hrest
        (some (.inr (((plainBlocks call.dataEnc).map call.chain.pre).flatMap batchEncrypt))))
      simp only [unionCalls, narrow_eq, Option.bind_eq_bind, Option.bind_some, hput, hq, Option.pure_def,
        Option.map_some, hqv]
      cases calls with
      | nil => rfl
      | cons next calls =>
          -- a later call is the last one: the entry is its copy
          rw [List.getLast?_cons_cons, List.getLast?_eq_some_getLast (List.cons_ne_nil next calls)]

/-- **A partitioner-aware union cached under a further `map` loses its first
parent.**  Two parents with one block each, `[1]` and `[2]`, each computed by its
own enclave call: the union's partition is `[1, 2]`, but its entry in the secure
cache decrypts to `[2]`. -/
theorem cachingUnion_stores_last_parent :
    unionPartition [(⟨⟨id, id, .inner⟩, false, false, [serEncrypt [1]]⟩ : ParentCall ℕ ℕ ℕ),
        ⟨⟨id, id, .inner⟩, false, false, [serEncrypt [2]]⟩] = [1, 2] ∧
      (unionCalls false [(⟨⟨id, id, .inner⟩, false, false, [serEncrypt [1]]⟩ : ParentCall ℕ ℕ ℕ),
          ⟨⟨id, id, .inner⟩, false, false, [serEncrypt [2]]⟩] none).map
        (fun r => r.2.map (Sum.map batchDecrypt batchDecrypt)) = some (some (.inr [2])) := by
  refine ⟨rfl, ?_⟩
  have hentry := unionCalls_entry false
    [(⟨⟨id, id, .inner⟩, false, false, [serEncrypt [1]]⟩ : ParentCall ℕ ℕ ℕ),
      ⟨⟨id, id, .inner⟩, false, false, [serEncrypt [2]]⟩] (by simp) none
  obtain ⟨r, hr, hr2⟩ := Option.map_eq_some_iff.mp hentry
  rw [hr, Option.map_some, hr2]
  simp [plainBlocks, sampleBlock]

/-! ### Reading a cached head -/

/-- **An empty `cache_space` entry makes a cached read panic.**  The profiling
sample is popped from the entry (`entry.pop().unwrap()`), which has nothing. -/
theorem narrow_of_empty_entry (c : Chain α γ β) (decPara narPara needEnc : Bool)
    (fromOutside : Option (List (ItemE (List α)))) (dataEnc : List (ItemE (List α)))
    {st : CacheState α γ} (hspace : st.space = some []) :
    narrow c decPara narPara needEnc true fromOutside dataEnc st = none := by
  simp [narrow, chainCompute, headCompute, getAndRemoveCachedData, hspace]

/-- **A one-step-parallel call on at most one block leaves an empty `cache_space` entry, on
which the next cached read panics.**  For every chain and output mode, with exactly one of
the two profiling flags set and a partition of at most one block: the call returns, but the
detour through `cache_space` takes back a range of length zero, which returns nothing and
keeps the head's key (the branch of a non-empty range removes a key it empties).  The entry
stays, empty, and every later call that reads the head from the cache, whatever its chain,
flags and blocks, pops its profiling sample from it and panics. -/
theorem narrow_leaves_empty_entry (c : Chain α γ β) (decPara narPara needEnc : Bool)
    (fromOutside : Option (List (ItemE (List α)))) (dataEnc : List (ItemE (List α)))
    (hflags : decPara ≠ narPara) (hlen : dataEnc.length ≤ 1) :
    ∃ out st', narrow c decPara narPara needEnc false fromOutside dataEnc CacheState.empty =
        some (out, st') ∧ st'.space = some [] ∧
      ∀ (c' : Chain α γ β) (decPara' narPara' needEnc' : Bool)
        (fromOutside' : Option (List (ItemE (List α)))) (dataEnc' : List (ItemE (List α))),
        narrow c' decPara' narPara' needEnc' true fromOutside' dataEnc' st' = none := by
  -- the state `narrow_eq` leaves: the empty entry, exactly under these flags and lengths
  have hspace : (⟨if decPara ≠ narPara ∧ dataEnc.length ≤ 1 then some [] else none, none, none⟩ :
      CacheState α γ).space = some [] := if_pos ⟨hflags, hlen⟩
  exact ⟨_, _, narrow_eq c decPara narPara needEnc fromOutside dataEnc, hspace,
    fun c' decPara' narPara' needEnc' fromOutside' dataEnc' =>
      narrow_of_empty_entry c' decPara' narPara' needEnc' fromOutside' dataEnc' hspace⟩

theorem narrow_leaves_empty_entry_one_block :
    true ≠ false ∧ ([serEncrypt [5]] : List (ItemE (List ℕ))).length ≤ 1 ∧
      ∃ out st', narrow (⟨id, List.map Nat.succ, .nowhere⟩ : Chain ℕ ℕ ℕ) true false false false
          none [serEncrypt [5]] CacheState.empty = some (out, st') ∧ st'.space = some [] ∧
        ∀ (c' : Chain ℕ ℕ ℕ) (decPara' narPara' needEnc' : Bool)
          (fromOutside' : Option (List (ItemE (List ℕ)))) (dataEnc' : List (ItemE (List ℕ))),
          narrow c' decPara' narPara' needEnc' true fromOutside' dataEnc' st' = none :=
  ⟨by decide, by decide, narrow_leaves_empty_entry _ true false false none _ (by decide) (by decide)⟩

/-- **Two reads of a cached one-block partition.**  The first read, with the
decryption step profiled as parallel and the narrow step as sequential, returns
the block and leaves an empty `cache_space` entry for the head (the zero-length
range it takes back does not remove the key); the second read of the same
partition panics on it. -/
theorem cachedRead_twice_panics :
    (narrow (⟨id, List.map Nat.succ, .nowhere⟩ : Chain ℕ ℕ ℕ) true false false true
        (some [serEncrypt [5]]) [] CacheState.empty).map (fun r => (r.1.result, r.2.space)) =
      some (.inr [[6]], some []) ∧
    ((narrow (⟨id, List.map Nat.succ, .nowhere⟩ : Chain ℕ ℕ ℕ) true false false true
        (some [serEncrypt [5]]) [] CacheState.empty).bind fun r =>
      narrow (⟨id, List.map Nat.succ, .nowhere⟩ : Chain ℕ ℕ ℕ) false false false true
        (some [serEncrypt [5]]) [] r.2) = none :=
  ⟨rfl, rfl⟩

end Narrow

end Flare
