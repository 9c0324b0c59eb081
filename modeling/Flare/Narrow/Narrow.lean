import Mathlib
import Flare.Narrow.Compute

/-!
# `Op::narrow`: the profiled, parallel narrow call

`Op::narrow` (`enclave/src/op/mod.rs`:1355-1456) computes one partition through
a chain of narrow operators.  It runs block `0` alone as a profiling sample,
which fixes the two flags `is_step_para` (parallel decryption, parallel narrow
processing) from allocator counters, and then processes the other blocks in one
of three ways: sequentially; with exactly one step parallel, first stashing the
decrypted blocks in the head's `cache_space` and then reading them back under a
rewritten `cached_rdd_id`; or on decryption-and-narrow threads.  At the end the
copy accumulated under the caching key is shipped out (`OpCache::send`).

## Main results

* `narrowBranch_eq` — each of the four flag settings processes the blocks after
  the sample once, in order.
* `narrow_eq` — the whole call from a fresh state, for every flag setting: the
  sample followed by the other blocks, the caching RDD's copy of the same
  blocks, and the `cache_space` entry that the one-step-parallel path leaves
  behind when there are fewer than two blocks.

## Design notes

`MAX_THREAD` is `1`, so every `spawn_*` helper starts one thread.  Its handle is
joined before anything else touches the state it changes, so a thread is its
computation run at the point it is spawned.  The helpers are written for any
`maxThread`, as the source loops are; the lemmas evaluate them at `1`.
-/

namespace Flare

namespace Narrow

universe u

variable {α γ β : Type u}

/-! ### Threads -/

/-- The slices `spawn_enc_thread` (`op/mod.rs`:1283-1300) gives its threads: each
splits the last `min r remaining` blocks off `results`. -/
def encThreadData (r : ℕ) : ℕ → List (List β) → ℕ → List (List (List β))
  | _, _, 0 => []
  | remaining, results, n + 1 =>
      let k := min r remaining
      results.drop (results.length - k) ::
        encThreadData r (remaining - r) (results.take (results.length - k)) n

/-- `spawn_enc_thread`: one handle per thread, each the ciphertext of its slice,
block after block. -/
def spawnEncThread (results : List (List β)) : List (List (ItemE (List β))) :=
  (encThreadData ((results.length - 1) / maxThread + 1) results.length results maxThread).map
    fun data => data.flatMap batchEncrypt

/-- With one thread, all the blocks are encrypted in order. -/
theorem spawnEncThread_eq (results : List (List β)) :
    spawnEncThread results = [results.flatMap batchEncrypt] := by
  have hk : results.length - min ((results.length - 1) / 1 + 1) results.length = 0 := by omega
  simp only [spawnEncThread, maxThread, encThreadData, hk, List.drop_zero, List.map_cons,
    List.map_nil]

/-- The ranges `spawn_dec_nar_thread` gives its threads: from `b`, steps of `r`
cut at `len`. -/
def threadRanges (r len : ℕ) : ℕ → ℕ → List (ℕ × ℕ)
  | _, 0 => []
  | b, n + 1 => (b, min (b + r) len) :: threadRanges r len (min (b + r) len) n

/-- With one thread the range is the whole `(s, len)`, also when it is empty or
starts past its end. -/
theorem threadRanges_maxThread (s len : ℕ) :
    threadRanges ((len - s - 1) / maxThread + 1) len s maxThread = [(s, len)] := by
  have he : min (s + ((len - s - 1) / 1 + 1)) len = len := by omega
  simp only [maxThread, threadRanges, he]

/-- What a thread of `spawn_dec_nar_thread` hands back: an `only_dec` thread
asserts that the chain returned nothing (the blocks went to `cache_space`) and
returns nothing. -/
def threadResult (onlyDec : Bool) (results : List (List β)) : Option (List (List β)) :=
  if onlyDec then (if results.flatten.isEmpty then some [] else none) else some results

@[simp] theorem threadResult_false (results : List (List β)) :
    threadResult false results = some results := rfl

@[simp] theorem threadResult_true_nil : threadResult true ([] : List (List β)) = some [] := rfl

/-- The threads of `spawn_dec_nar_thread`, one range each, in the order they
are joined. -/
def runThreads (c : Chain α γ β) (decPara : Bool) (fromOutside : Option (List (ItemE (List α))))
    (cs : CallSeq) (dataEnc : List (ItemE (List α))) (onlyDec : Bool) :
    List (ℕ × ℕ) → CacheState α γ → Option (List (List (List β)) × CacheState α γ)
  | [], st => some ([], st)
  | range :: ranges, st => do
      let (results, _, st) ←
        chainCompute c decPara fromOutside { cs with paraRange := some range } dataEnc st
      let mine ← threadResult onlyDec results
      let (others, st) ← runThreads c decPara fromOutside cs dataEnc onlyDec ranges st
      return (mine :: others, st)

/-- `spawn_dec_nar_thread` (`op/mod.rs`:1302-1325): the threads over the call's
range `(s, len)`, which must be set. -/
def spawnDecNarThread (c : Chain α γ β) (decPara : Bool)
    (fromOutside : Option (List (ItemE (List α)))) (cs : CallSeq) (dataEnc : List (ItemE (List α)))
    (onlyDec : Bool) (st : CacheState α γ) : Option (List (List (List β)) × CacheState α γ) :=
  match cs.paraRange with
  | some (s, len) =>
      runThreads c decPara fromOutside cs dataEnc onlyDec
        (threadRanges ((len - s - 1) / maxThread + 1) len s maxThread) st
  | none => none

/-- `spawn_dec_nar_enc_thread` (`op/mod.rs`:1327-1353): the same threads, each
encrypting its blocks in order; an `only_dec` thread returns an empty
ciphertext, the encryption of its empty result. -/
def spawnDecNarEncThread (c : Chain α γ β) (decPara : Bool)
    (fromOutside : Option (List (ItemE (List α)))) (cs : CallSeq) (dataEnc : List (ItemE (List α)))
    (onlyDec : Bool) (st : CacheState α γ) : Option (List (List (ItemE (List β))) × CacheState α γ) :=
  (spawnDecNarThread c decPara fromOutside cs dataEnc onlyDec st).map fun (handlers, st) =>
    (handlers.map fun results => results.flatMap batchEncrypt, st)

/-- With one thread, `spawn_dec_nar_thread` is the chain run once on the call's
range. -/
theorem spawnDecNarThread_eq (c : Chain α γ β) (decPara : Bool)
    (fromOutside : Option (List (ItemE (List α)))) {cs : CallSeq} (hrange : cs.paraRange.isSome)
    (dataEnc : List (ItemE (List α))) (onlyDec : Bool) (st : CacheState α γ) :
    spawnDecNarThread c decPara fromOutside cs dataEnc onlyDec st =
      (chainCompute c decPara fromOutside cs dataEnc st).bind fun x =>
        (threadResult onlyDec x.1).map fun mine => ([mine], x.2.2) := by
  obtain ⟨⟨s, len⟩, hsl⟩ := Option.isSome_iff_exists.mp hrange
  have hcs : { cs with paraRange := some (s, len) } = cs := by
    cases cs
    simp only at hsl
    rw [hsl]
  simp only [spawnDecNarThread, hsl, threadRanges_maxThread, runThreads, hcs]
  rcases chainCompute c decPara fromOutside cs dataEnc st with _ | ⟨results, cs', st'⟩
  · rfl
  · cases h : threadResult onlyDec results <;> simp [h]

/-! ### The call -/

/-- What `narrow` holds between its steps: the plaintext `results`, the handles
of the encrypting and of the plaintext threads, and the enclave state. -/
structure Progress (α γ β : Type u) where
  results : List (List β)
  handlersCt : List (List (ItemE (List β)))
  handlersPt : List (List (List β))
  state : CacheState α γ

/-- After the sample: with `need_enc` its ciphertext is in `acc` (kept apart),
else it is the first of `results`. -/
def Progress.start (needEnc : Bool) (sampleData : List β) (st : CacheState α γ) : Progress α γ β :=
  ⟨if needEnc then [] else [sampleData], [], [], st⟩

/-- The value `narrow` returns: `acc` and the encrypting threads' ciphertext with
`need_enc`, else `results` and the plaintext threads' blocks. -/
def Progress.output (needEnc : Bool) (acc : List (ItemE (List β))) (p : Progress α γ β) :
    List (ItemE (List β)) ⊕ List (List β) :=
  if needEnc then .inl (acc ++ p.handlersCt.flatten) else .inr (p.results ++ p.handlersPt.flatten)

/-- The chain run on the call's range on the main thread; the blocks join
`results`, and with `need_enc` all of `results` goes to `spawn_enc_thread`. -/
def seqStep (c : Chain α γ β) (decPara needEnc : Bool) (fromOutside : Option (List (ItemE (List α))))
    (cs : CallSeq) (dataEnc : List (ItemE (List α))) (p : Progress α γ β) : Option (Progress α γ β) :=
  (chainCompute c decPara fromOutside cs dataEnc p.state).map fun (rest, _, st) =>
    let results := p.results ++ rest
    if needEnc then { p with results := [], handlersCt := p.handlersCt ++ spawnEncThread results, state := st }
    else { p with results, state := st }

/-- The decryption-and-narrow threads, encrypting with `need_enc`. -/
def spawnStep (c : Chain α γ β) (decPara needEnc : Bool) (fromOutside : Option (List (ItemE (List α))))
    (cs : CallSeq) (dataEnc : List (ItemE (List α))) (onlyDec : Bool) (p : Progress α γ β) :
    Option (Progress α γ β) :=
  if needEnc then
    (spawnDecNarEncThread c decPara fromOutside cs dataEnc onlyDec p.state).map fun (hs, st) =>
      { p with handlersCt := p.handlersCt ++ hs, state := st }
  else
    (spawnDecNarThread c decPara fromOutside cs dataEnc onlyDec p.state).map fun (hs, st) =>
      { p with handlersPt := p.handlersPt ++ hs, state := st }

/-- The branch with exactly one step parallel (`op/mod.rs`:1392-1432).  When the
range starts at `1` (the sample came from `parallel_control`), a decryption step
stashes the other blocks in `cache_space`, sequentially or on `only_dec`
threads, and the cached RDD is rewritten to the head.  Then the narrow step reads
them back, on the main thread after joining the decryption threads, or on
threads. -/
def xorBranch (c : Chain α γ β) (decPara needEnc : Bool) (fromOutside : Option (List (ItemE (List α))))
    (cs : CallSeq) (dataEnc : List (ItemE (List α))) (p : Progress α γ β) : Option (Progress α γ β) :=
  match cs.paraRange with
  | some (s, _) => do
      let (p, cs) ←
        if s = 1 then
          let decrypted :=
            if !cs.isStepPara.1 then
              (chainCompute c decPara fromOutside cs dataEnc p.state).bind fun (blocks, _, st) =>
                if blocks.flatten.isEmpty then some { p with state := st } else none
            else spawnStep c decPara needEnc fromOutside cs dataEnc true p
          decrypted.map fun p => (p, { cs with cachedAtHead := true })
        else some (p, cs)
      if !cs.isStepPara.2 then
        if p.handlersCt.all List.isEmpty then
          seqStep c decPara needEnc fromOutside cs dataEnc { p with handlersCt := [], handlersPt := [] }
        else none
      else spawnStep c decPara needEnc fromOutside cs dataEnc false p
  | none => none

/-- The three ways `narrow` processes the blocks after the sample. -/
def narrowBranch (c : Chain α γ β) (decPara needEnc : Bool)
    (fromOutside : Option (List (ItemE (List α)))) (cs : CallSeq) (dataEnc : List (ItemE (List α)))
    (p : Progress α γ β) : Option (Progress α γ β) :=
  if !cs.isStepPara.1 && !cs.isStepPara.2 then seqStep c decPara needEnc fromOutside cs dataEnc p
  else if cs.isStepPara.1 != cs.isStepPara.2 then xorBranch c decPara needEnc fromOutside cs dataEnc p
  else spawnStep c decPara needEnc fromOutside cs dataEnc false p

/-- `OpCache::send` (`op/mod.rs`:537-543): the ciphertext under the caching key
leaves `out_map` for the framework. -/
def CacheState.send (cacheAt : CacheAt) (st : CacheState α γ) :
    Option (List (ItemE (List α)) ⊕ List (ItemE (List γ))) × CacheState α γ :=
  match cacheAt with
  | .nowhere => (none, st)
  | .head => (st.outHead.map .inl, { st with outHead := none })
  | .inner => (st.outInner.map .inr, { st with outInner := none })

/-- The state of a call that finds no `cache_space` entry for its head and nothing
under its caching key. -/
def CacheState.empty : CacheState α γ := ⟨none, none, none⟩

/-- What a narrow call hands back: its result, and the caching RDD's copy shipped
out by `OpCache::send`. -/
structure NarrowOut (α γ β : Type u) where
  result : List (ItemE (List β)) ⊕ List (List β)
  sent : Option (List (ItemE (List α)) ⊕ List (ItemE (List γ)))

/-- `Op::narrow` (`op/mod.rs`:1355-1456).  `decPara` and `narPara` are what the
allocator counters make of the profiling runs, `cachedAtHead` whether the call
reads the head from the cache, and `fromOutside` the framework's copy of it.
`none` is a panic. -/
def narrow (c : Chain α γ β) (decPara narPara needEnc cachedAtHead : Bool)
    (fromOutside : Option (List (ItemE (List α)))) (dataEnc : List (ItemE (List α)))
    (st : CacheState α γ) : Option (NarrowOut α γ β × CacheState α γ) := do
  -- the profiling run of block `0`, on a copy of the call sequence
  let (sample, csSample, st) ←
    chainCompute c decPara fromOutside ⟨none, (true, true), cachedAtHead⟩ dataEnc st
  let sampleData ← sample.head?
  let cs : CallSeq := ⟨csSample.paraRange, (csSample.isStepPara.1, narPara), cachedAtHead⟩
  let acc := if needEnc then batchEncrypt sampleData else []
  let p ← narrowBranch c decPara needEnc fromOutside cs dataEnc (Progress.start needEnc sampleData st)
  let (sent, st) := p.state.send c.cacheAt
  return (⟨p.output needEnc acc, sent⟩, st)

/-! ### The branches -/

section Steps

variable (c : Chain α γ β) (decPara needEnc : Bool) (fromOutside : Option (List (ItemE (List α))))
  (dataEnc : List (ItemE (List α)))

/-- The threads of `narrow`, with one thread: the chain on the call's range,
its blocks one handle. -/
theorem spawnStep_eq {cs : CallSeq} (hrange : cs.paraRange.isSome) (onlyDec : Bool)
    (p : Progress α γ β) :
    spawnStep c decPara needEnc fromOutside cs dataEnc onlyDec p =
      (chainCompute c decPara fromOutside cs dataEnc p.state).bind fun x =>
        (threadResult onlyDec x.1).map fun mine =>
          if needEnc then { p with handlersCt := p.handlersCt ++ [mine.flatMap batchEncrypt], state := x.2.2 }
          else { p with handlersPt := p.handlersPt ++ [mine], state := x.2.2 } := by
  unfold spawnStep spawnDecNarEncThread
  rw [spawnDecNarThread_eq c decPara fromOutside hrange dataEnc onlyDec]
  rcases chainCompute c decPara fromOutside cs dataEnc p.state with _ | ⟨rest, cs', st'⟩
  · cases needEnc <;> rfl
  · cases h : threadResult onlyDec rest <;> cases needEnc <;> simp [h]

end Steps

/-- **The blocks after the sample.**  From a call whose sample came from
`parallel_control` (range `(1, len)`, head not cached, no `cache_space` entry),
each flag setting processes the other blocks once, in order, and makes the same
copies of them; the one-step-parallel branch leaves an empty `cache_space` entry
behind when there is no other block. -/
theorem narrowBranch_eq (c : Chain α γ β) (decPara needEnc : Bool)
    (fromOutside : Option (List (ItemE (List α)))) (flags : Bool × Bool)
    (dataEnc : List (ItemE (List α))) (sampleData : List β) (acc : List (ItemE (List β)))
    (st : CacheState α γ) (hspace : st.space = none) :
    (narrowBranch c decPara needEnc fromOutside ⟨some (1, dataEnc.length), flags, false⟩ dataEnc
        (Progress.start needEnc sampleData st)).map (fun q => (q.output needEnc acc, q.state)) =
      some (if needEnc then .inl (acc ++ (dataEnc.tail.map serDecrypt).flatMap fun b => batchEncrypt (c.run b))
        else .inr (sampleData :: (dataEnc.tail.map serDecrypt).map c.run),
        { copyOut c (dataEnc.tail.map serDecrypt) st with
          space := if flags.1 ≠ flags.2 ∧ dataEnc.length ≤ 1 then some [] else none }) := by
  set rest := dataEnc.tail.map serDecrypt with hrest
  have hblocks : rangeBlocks dataEnc 1 dataEnc.length = rest := rangeBlocks_one_length dataEnc
  have hnil : rest = [] ↔ dataEnc.length ≤ 1 := by
    rw [← List.length_eq_zero_iff, ← hblocks, length_rangeBlocks 1 le_rfl]
    omega
  obtain ⟨f₁, f₂⟩ := flags
  cases f₁ <;> cases f₂
  case false.false =>
    -- sequential: the chain on the range `(1, len)`, on the main thread
    have hrun := chainCompute_range c decPara fromOutside (false, false) rfl 1 dataEnc.length dataEnc st
    rw [hblocks] at hrun
    cases needEnc <;> simp [narrowBranch, seqStep, spawnEncThread_eq, Progress.start, Progress.output,
      hrun, copyOut, hspace, List.flatMap_map]
  case true.true =>
    -- both parallel: one decryption-and-narrow thread on the range
    have hrun := chainCompute_range c decPara fromOutside (true, true) rfl 1 dataEnc.length dataEnc st
    rw [hblocks] at hrun
    cases needEnc <;> simp [narrowBranch, spawnStep_eq, Progress.start, Progress.output, hrun, copyOut,
      hspace, List.flatMap_map]
  case false.true =>
    -- decryption on the main thread into `cache_space`, then one narrow thread reads it back
    obtain ⟨st₂, hstash, hcached⟩ := chainCompute_detour c decPara fromOutside (false, true)
      (by decide) 1 le_rfl hspace
    rw [hblocks] at hcached
    cases needEnc <;> simp [narrowBranch, xorBranch, spawnStep_eq, Progress.start, Progress.output,
      hstash, hcached, hnil, List.flatMap_map]
  case true.false =>
    -- an `only_dec` thread fills `cache_space`, then the main thread reads it back
    obtain ⟨st₂, hstash, hcached⟩ := chainCompute_detour c decPara fromOutside (true, false)
      (by decide) 1 le_rfl hspace
    rw [hblocks] at hcached
    cases needEnc <;> simp [narrowBranch, xorBranch, spawnStep_eq, seqStep, spawnEncThread_eq,
      Progress.start, Progress.output, hstash, hcached, hnil, List.flatMap_map]

/-! ### The whole call -/

/-- The copy the caching RDD ships out for a run of head blocks: its output on
each block, encrypted block by block. -/
def copyOf (c : Chain α γ β) (blocks : List (List α)) :
    Option (List (ItemE (List α)) ⊕ List (ItemE (List γ))) :=
  match c.cacheAt with
  | .nowhere => none
  | .head => some (.inl (blocks.flatMap batchEncrypt))
  | .inner => some (.inr ((blocks.map c.pre).flatMap batchEncrypt))

/-- The copy of a nonempty run of blocks made from an empty `out_map` is what
`OpCache::send` ships out, and it leaves the caching key empty. -/
theorem send_copyOut (c : Chain α γ β) {blocks : List (List α)} (hne : blocks ≠ [])
    (space : Option (List (List α))) :
    ({ copyOut c blocks CacheState.empty with space } : CacheState α γ).send c.cacheAt =
      (copyOf c blocks, ⟨space, none, none⟩) := by
  cases hc : c.cacheAt <;>
    simp [CacheState.send, copyOut, copyOf, CacheState.empty, hc, foldl_cacheToOutside, hne]

/-- `Op::narrow` from a fresh state, in closed form, for every chain, both
profiling flags and both output modes: the chain's output on the sample and on
every other block, in order (encrypted block by block with `need_enc`); the copy
of the caching RDD's output on the same blocks; and the head's `cache_space`
entry, left behind empty exactly when one flag is set and there are fewer than
two blocks. -/
theorem narrow_eq (c : Chain α γ β) (decPara narPara needEnc : Bool)
    (fromOutside : Option (List (ItemE (List α)))) (dataEnc : List (ItemE (List α))) :
    narrow c decPara narPara needEnc false fromOutside dataEnc CacheState.empty =
      some (⟨if needEnc then .inl ((plainBlocks dataEnc).flatMap fun b => batchEncrypt (c.run b))
          else .inr ((plainBlocks dataEnc).map c.run),
          copyOf c (plainBlocks dataEnc)⟩,
        ⟨if decPara ≠ narPara ∧ dataEnc.length ≤ 1 then some [] else none, none, none⟩) := by
  -- the branch after the sample, from the state the sample leaves
  obtain ⟨q, hq, hqv⟩ := Option.map_eq_some_iff.mp
    (narrowBranch_eq c decPara needEnc fromOutside (decPara, narPara) dataEnc (c.run (sampleBlock dataEnc))
      (if needEnc then batchEncrypt (c.run (sampleBlock dataEnc)) else [])
      (copyOut c [sampleBlock dataEnc] CacheState.empty) rfl)
  simp only [Prod.mk.injEq] at hqv
  obtain ⟨hout, hstate⟩ := hqv
  have hsend : q.state.send c.cacheAt = (copyOf c (plainBlocks dataEnc),
      ⟨if decPara ≠ narPara ∧ dataEnc.length ≤ 1 then some [] else none, none, none⟩) := by
    rw [hstate, copyOut_copyOut]
    exact send_copyOut c (List.cons_ne_nil _ _) _
  simp only [narrow, chainCompute_sample, Option.bind_eq_bind, Option.bind_some, List.head?_cons, hq,
    hsend, hout]
  cases needEnc <;> simp [plainBlocks]

/-- A partition without blocks still yields the profiling sample: one empty block
of `Mapper(+1)` output where the input has no block at all. -/
example :
    (narrow (⟨id, List.map Nat.succ, .nowhere⟩ : Chain ℕ ℕ ℕ) false false false false none []
        CacheState.empty).map (fun r => r.1.result) = some (.inr [[]]) := by
  rfl

end Narrow

end Flare
