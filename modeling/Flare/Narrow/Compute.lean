import Mathlib
import Flare.Basic

/-!
# The compute chain of a narrow enclave call

How an enclave call computes the blocks of a partition through a chain of
narrow operators (`enclave/src/op/mod.rs` and the operators' `compute`): the
head operator decrypts its input blocks in `parallel_control`, or reads them
back from the enclave-side cache in `get_and_remove_cached_data`; every further
operator transforms each block on its own; the caching RDD, if the call has
one, copies every block it outputs to the ciphertext `CACHE.out_map` keeps for
the framework (`set_cached_data`, `cache_to_outside`).

## Main definitions

* `Narrow.CallSeq` — the fields of `NextOpId` these functions read and write.
* `Narrow.CacheState` — the head operator's `cache_space` entry under its key,
  and the ciphertext accumulated under the caching key.
* `Narrow.parallelControl`, `Narrow.getAndRemoveCachedData`,
  `Narrow.headCompute`, `Narrow.chainCompute`.

## Design notes

Every operator of the chains considered here (`Mapper`, `FlatMapper`,
`MapPartitions`, `Values`, `MappedValues`, `FlatMappedValues`, `Union`) maps
each block on its own, so a chain is two block functions: `pre`, from the head
up to the caching RDD, and `post`, after it.  The caching RDD is the head, an
inner operator, or absent (a call whose final RDD caches leaves the copy to the
framework, `is_caching_final_rdd`).  Its copy is kept at the type of its blocks,
as `ItemE` records.  The iterators of the source are lazy; every caller collects
them at once, block by block, so the side effects happen in block order and are
written as such.  The profiling flag `is_step_para.0` is set from allocator
counters and is an argument (`decPara`).
-/

namespace Flare

namespace Narrow

universe u

variable {α γ β : Type u}

/-- Where the RDD being cached (`cache_meta.caching_rdd_id`) sits in the call. -/
inductive CacheAt
  | nowhere
  | head
  | inner
deriving DecidableEq, Repr

/-- A chain of block-wise narrow operators over a head operator with blocks of
`α`: `pre` up to the caching RDD, whose blocks are of `γ`, then `post`. -/
structure Chain (α γ β : Type u) where
  pre : List α → List γ
  post : List γ → List β
  cacheAt : CacheAt

/-- What the chain makes of one block of the head. -/
def Chain.run (c : Chain α γ β) (block : List α) : List β :=
  c.post (c.pre block)

/-- The fields of `NextOpId` a narrow call reads and writes: the block range
`para_range`, the profiling flags `is_step_para.0` (parallel decryption) and
`is_step_para.1` (parallel narrow processing), and whether `cache_meta` names
the head as the cached RDD. -/
structure CallSeq where
  paraRange : Option (ℕ × ℕ)
  isStepPara : Bool × Bool
  cachedAtHead : Bool
deriving DecidableEq, Repr

/-- The enclave state a narrow call touches: the head operator's `cache_space`
entry under the head's key (`none` when the key is absent), and the ciphertext
`CACHE.out_map` holds under the caching key, at the type of the head or of an
inner caching RDD. -/
structure CacheState (α γ : Type u) where
  space : Option (List (List α))
  outHead : Option (List (ItemE (List α)))
  outInner : Option (List (ItemE (List γ)))

/-! ### Copies to the framework -/

section Out

variable {δ : Type u}

/-- `cache_to_outside` (`op/mod.rs`:1071-1093): the block encrypted and appended
to the ciphertext under the key, which is created if absent. -/
def cacheToOutside (slot : Option (List (ItemE (List δ)))) (value : List δ) :
    Option (List (ItemE (List δ))) :=
  some (slot.getD [] ++ batchEncrypt value)

/-- Copying blocks one after the other appends them, in order. -/
theorem foldl_cacheToOutside (blocks : List (List δ)) :
    ∀ slot : Option (List (ItemE (List δ))),
      blocks.foldl cacheToOutside slot =
        if blocks = [] then slot else some (slot.getD [] ++ blocks.flatMap batchEncrypt) := by
  induction blocks with
  | nil => intro slot; rfl
  | cons block blocks ih =>
      intro slot
      rw [List.foldl_cons, ih, if_neg (List.cons_ne_nil _ _)]
      split
      · rename_i hnil
        subst hnil
        simp [cacheToOutside]
      · simp [cacheToOutside]

end Out

/-! ### The head operator -/

/-- `data_enc.get(b..e)`, decrypted: the blocks of the range, nothing when the
range is not one of the slice. -/
def rangeBlocks (dataEnc : List (ItemE (List α))) (b e : ℕ) : List (List α) :=
  if b ≤ e ∧ e ≤ dataEnc.length then ((dataEnc.drop b).take (e - b)).map serDecrypt else []

/-- The profiling sample `parallel_control` decrypts: block `0`, or an empty
block when there is none. -/
def sampleBlock (dataEnc : List (ItemE (List α))) : List α :=
  match dataEnc with
  | [] => []
  | block :: _ => serDecrypt block

/-- `parallel_control` (`op/mod.rs`:1231-1281).  Without a range it decrypts the
sample, records the range `(1, len)` of the other blocks and the decryption
flag.  With a range it decrypts the range; when exactly one of the two steps is
parallel, the blocks go to `cache_space` under the head's key instead (and to
the framework's copy when the head is the caching RDD), and nothing is
returned. -/
def parallelControl (cacheAt : CacheAt) (decPara : Bool) (cs : CallSeq)
    (dataEnc : List (ItemE (List α))) (st : CacheState α γ) :
    List (List α) × CallSeq × CacheState α γ :=
  match cs.paraRange with
  | some (b, e) =>
      let data := rangeBlocks dataEnc b e
      let cs := { cs with paraRange := none }
      if cs.isStepPara.1 != cs.isStepPara.2 then
        let outHead := if cacheAt = .head then data.foldl cacheToOutside st.outHead else st.outHead
        ([], cs, { st with space := some (st.space.getD [] ++ data), outHead })
      else (data, cs, st)
  | none =>
      ([sampleBlock dataEnc],
        { cs with paraRange := some (1, dataEnc.length), isStepPara := (decPara, cs.isStepPara.2) }, st)

/-- `get_and_remove_cached_data` (`op/mod.rs`:1095-1148).  With an entry in
`cache_space`: given a range, the last `e - b` blocks are split off, the key
removed when nothing is left, and a zero-length range takes nothing and keeps
the key; without a range the last block is popped as the sample and the range
`(0, len - 1)` recorded.  Without an entry, the framework's copy
(`cache_from_outside`, here `fromOutside`) goes through `parallel_control`.
`none` is a panic: a split past the start, a pop from an empty entry, or no
copy outside. -/
def getAndRemoveCachedData (cacheAt : CacheAt) (decPara : Bool)
    (fromOutside : Option (List (ItemE (List α)))) (cs : CallSeq) (st : CacheState α γ) :
    Option (List (List α) × CallSeq × CacheState α γ) :=
  match st.space with
  | some v =>
      match cs.paraRange with
      | some (b, e) =>
          let r := e - b
          if r = 0 then some ([], { cs with paraRange := none }, st)
          else if r ≤ v.length then
            let rest := v.take (v.length - r)
            some (v.drop (v.length - r), { cs with paraRange := none },
              { st with space := if rest.isEmpty then none else some rest })
          else none
      | none =>
          match v.getLast? with
          | some sample =>
              some ([sample], { cs with paraRange := some (0, v.length - 1) },
                { st with space := some v.dropLast })
          | none => none
  | none => fromOutside.map fun dataEnc => parallelControl cacheAt decPara cs dataEnc st

/-- The default `compute` of a head operator (`op/mod.rs`:1018-1039): the cached
copy when the call names the head as cached, else `parallel_control`; a head
that is the caching RDD copies the blocks it returns (`set_cached_data`). -/
def headCompute (cacheAt : CacheAt) (decPara : Bool) (fromOutside : Option (List (ItemE (List α))))
    (cs : CallSeq) (dataEnc : List (ItemE (List α))) (st : CacheState α γ) :
    Option (List (List α) × CallSeq × CacheState α γ) :=
  if cs.cachedAtHead then getAndRemoveCachedData cacheAt decPara fromOutside cs st
  else
    let (blocks, cs, st) := parallelControl cacheAt decPara cs dataEnc st
    let outHead := if cacheAt = .head then blocks.foldl cacheToOutside st.outHead else st.outHead
    some (blocks, cs, { st with outHead })

/-- The `compute` of the final operator, through the chain: the head's blocks,
each through `pre`, copied by an inner caching RDD (`set_cached_data`), then
through `post`. -/
def chainCompute (c : Chain α γ β) (decPara : Bool) (fromOutside : Option (List (ItemE (List α))))
    (cs : CallSeq) (dataEnc : List (ItemE (List α))) (st : CacheState α γ) :
    Option (List (List β) × CallSeq × CacheState α γ) :=
  (headCompute c.cacheAt decPara fromOutside cs dataEnc st).map fun (blocks, cs, st) =>
    let mid := blocks.map c.pre
    let outInner := if c.cacheAt = .inner then mid.foldl cacheToOutside st.outInner else st.outInner
    (mid.map c.post, cs, { st with outInner })

/-! ### What the chain computes -/

/-- The range `(1, len)` is every block but the sample. -/
theorem rangeBlocks_one_length (dataEnc : List (ItemE (List α))) :
    rangeBlocks dataEnc 1 dataEnc.length = dataEnc.tail.map serDecrypt := by
  unfold rangeBlocks
  cases dataEnc with
  | nil => rfl
  | cons block rest =>
      rw [if_pos ⟨by simp, le_rfl⟩, List.length_cons, Nat.add_sub_cancel, List.drop_one,
        List.tail_cons, List.take_length]

/-- A range inside the slice has as many blocks as it is long; one that starts
past its end has none, which the saturating length `e - b` also says. -/
theorem length_rangeBlocks {dataEnc : List (ItemE (List α))} (b : ℕ) {e : ℕ}
    (he : e ≤ dataEnc.length) : (rangeBlocks dataEnc b e).length = e - b := by
  unfold rangeBlocks
  split
  · simp only [List.length_map, List.length_take, List.length_drop]
    omega
  · rw [List.length_nil]
    omega

/-- The blocks a narrow call processes: the sample, then every other block. -/
def plainBlocks (dataEnc : List (ItemE (List α))) : List (List α) :=
  sampleBlock dataEnc :: dataEnc.tail.map serDecrypt

/-- The copies the caching RDD makes of a list of head blocks. -/
def copyOut (c : Chain α γ β) (blocks : List (List α)) (st : CacheState α γ) : CacheState α γ :=
  { st with
    outHead := if c.cacheAt = .head then blocks.foldl cacheToOutside st.outHead else st.outHead
    outInner := if c.cacheAt = .inner then (blocks.map c.pre).foldl cacheToOutside st.outInner
      else st.outInner }

@[simp] theorem copyOut_space (c : Chain α γ β) (blocks : List (List α)) (st : CacheState α γ) :
    (copyOut c blocks st).space = st.space := rfl

/-- Copying two runs of blocks one after the other copies them in order. -/
theorem copyOut_copyOut (c : Chain α γ β) (l₁ l₂ : List (List α)) (st : CacheState α γ) :
    copyOut c l₂ (copyOut c l₁ st) = copyOut c (l₁ ++ l₂) st := by
  cases hc : c.cacheAt <;> simp [copyOut, hc, List.foldl_append]

/-- **The sample**: without a range, the chain computes block `0` and records the
range of the other blocks and the decryption flag. -/
theorem chainCompute_sample (c : Chain α γ β) (decPara : Bool)
    (fromOutside : Option (List (ItemE (List α)))) (flags : Bool × Bool)
    (dataEnc : List (ItemE (List α))) (st : CacheState α γ) :
    chainCompute c decPara fromOutside ⟨none, flags, false⟩ dataEnc st =
      some ([c.run (sampleBlock dataEnc)], ⟨some (1, dataEnc.length), (decPara, flags.2), false⟩,
        copyOut c [sampleBlock dataEnc] st) := by
  rfl

/-- **A sequential range**: with both steps parallel or neither, the chain
computes the blocks of the range. -/
theorem chainCompute_range (c : Chain α γ β) (decPara : Bool)
    (fromOutside : Option (List (ItemE (List α)))) (flags : Bool × Bool)
    (hflags : flags.1 = flags.2) (b e : ℕ) (dataEnc : List (ItemE (List α)))
    (st : CacheState α γ) :
    chainCompute c decPara fromOutside ⟨some (b, e), flags, false⟩ dataEnc st =
      some ((rangeBlocks dataEnc b e).map c.run, ⟨none, flags, false⟩,
        copyOut c (rangeBlocks dataEnc b e) st) := by
  have hxor : (flags.1 != flags.2) = false := by simp [hflags]
  simp only [chainCompute, headCompute, parallelControl, hxor, Bool.false_eq_true, if_false,
    Option.map_some, List.map_map]
  rfl

/-- **The decryption step**: with exactly one step parallel, the chain returns
nothing; the blocks of the range go to `cache_space`, and to the framework's copy
when the head caches. -/
theorem chainCompute_stash (c : Chain α γ β) (decPara : Bool)
    (fromOutside : Option (List (ItemE (List α)))) (flags : Bool × Bool)
    (hflags : flags.1 ≠ flags.2) (b e : ℕ) (dataEnc : List (ItemE (List α)))
    (st : CacheState α γ) :
    chainCompute c decPara fromOutside ⟨some (b, e), flags, false⟩ dataEnc st =
      some ([], ⟨none, flags, false⟩,
        { st with
          space := some (st.space.getD [] ++ rangeBlocks dataEnc b e)
          outHead := if c.cacheAt = .head then (rangeBlocks dataEnc b e).foldl cacheToOutside st.outHead
            else st.outHead }) := by
  have hxor : (flags.1 != flags.2) = true := by simpa using hflags
  simp only [chainCompute, headCompute, parallelControl, hxor, Bool.false_eq_true, ↓reduceIte,
    Option.map_some, List.map_nil, List.foldl_nil, ite_self]

/-- **The stashed blocks**: when the call names the head as cached and the range
covers the whole entry, the chain computes the stashed blocks and the key is
removed; an empty entry is left in place. -/
theorem chainCompute_cached (c : Chain α γ β) (decPara : Bool)
    (fromOutside : Option (List (ItemE (List α)))) (flags : Bool × Bool) {b e : ℕ}
    (v : List (List α)) (hlen : e - b = v.length) (dataEnc : List (ItemE (List α)))
    (st : CacheState α γ) (hspace : st.space = some v) :
    chainCompute c decPara fromOutside ⟨some (b, e), flags, true⟩ dataEnc st =
      some (v.map c.run, ⟨none, flags, true⟩,
        { st with
          space := if v = [] then some [] else none
          outInner := if c.cacheAt = .inner then (v.map c.pre).foldl cacheToOutside st.outInner
            else st.outInner }) := by
  unfold chainCompute headCompute getAndRemoveCachedData
  simp only [if_true, hspace]
  rcases List.eq_nil_or_concat' v with rfl | ⟨w, last, rfl⟩
  · -- an empty entry: nothing taken, the key stays
    rw [if_pos (by simpa using hlen)]
    simp [hspace]
  · -- the whole entry is split off
    have hr : e - b ≠ 0 := by simp [hlen]
    rw [if_neg hr, if_pos (by omega), hlen, Nat.sub_self, List.drop_zero, List.take_zero]
    simp [List.map_map, Chain.run]

/-- **The detour through `cache_space`**: stashing the blocks of a range and
reading them back under the head's key gives the blocks of the range, with the
copies the direct computation makes; the key is removed unless the range was
empty. -/
theorem chainCompute_detour (c : Chain α γ β) (decPara : Bool)
    (fromOutside : Option (List (ItemE (List α)))) (flags : Bool × Bool)
    (hflags : flags.1 ≠ flags.2) (b : ℕ) {e : ℕ} {dataEnc : List (ItemE (List α))}
    (he : e ≤ dataEnc.length) {st : CacheState α γ} (hspace : st.space = none) :
    ∃ st₂, chainCompute c decPara fromOutside ⟨some (b, e), flags, false⟩ dataEnc st =
        some ([], ⟨none, flags, false⟩, st₂) ∧
      chainCompute c decPara fromOutside ⟨some (b, e), flags, true⟩ dataEnc st₂ =
        some ((rangeBlocks dataEnc b e).map c.run, ⟨none, flags, true⟩,
          { copyOut c (rangeBlocks dataEnc b e) st with
            space := if rangeBlocks dataEnc b e = [] then some [] else none }) := by
  refine ⟨_, chainCompute_stash c decPara fromOutside flags hflags b e dataEnc st, ?_⟩
  have hstashed : (some (st.space.getD [] ++ rangeBlocks dataEnc b e)) =
      some (rangeBlocks dataEnc b e) := by
    rw [hspace, Option.getD_none, List.nil_append]
  rw [chainCompute_cached c decPara fromOutside flags (rangeBlocks dataEnc b e)
    (length_rangeBlocks b he).symm dataEnc _ hstashed]
  rfl

end Narrow

end Flare
