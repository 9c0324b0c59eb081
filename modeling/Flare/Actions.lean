import Mathlib
import Flare.Lib.Fold
import Flare.Narrow.Narrow

/-!
# Two-phase secure actions

`secure_fold`, `secure_reduce`, `secure_aggregate` and `secure_count` (`rdd/rdd.rs`:1522-1862)
evaluate in three levels.  In each result task the partition's blocks go through `narrow`,
with the action's operator last for `Fold` and `Reduced` (the operator's `compute`, block by
block) and without it for `Aggregated` and `Count`; the task then calls the enclave with
dependency type 4 on the partition's ciphertexts (`compute_start`), which yields the
partition's result encrypted alone.  The driver gathers the tasks' results in partition
order and calls the enclave with dependency type 3, and pops the last ciphertext of its
answer (`temp.pop().unwrap()`).

## Main definitions

* `perBlock` — the first level, in `narrow`.
* `secureFold`, `secureReduce`, `secureAggregate`, `secureCount` — the actions.

## Main results

* `secureFold_eq`, `secureAggregate_eq`, `secureCount_eq` — the actions compute the fold,
  the aggregate and the count of all elements in partition order.
* `secureReduce_eq` — `secure_reduce` is the reduce of all elements, and nothing when there
  is no element.
* `secureReduce_empty_panics` — with every partition empty, `secure_reduce` panics.

## Design notes

A partition is the list of blocks `narrow` makes of it: `perBlock` is what `Narrow.narrow`
returns for a chain that caches nothing (`Narrow.narrow_eq`).  Ciphertexts of blocks are
`ItemE (List T)` and those of single values `ItemE T`: the two encodings the levels use.
`secure_count`'s `u64` sum is a natural number here.
-/

namespace Flare

namespace Actions

universe u

variable {α T U : Type u}

/-- The first level, in `narrow`: each block through the operator's `compute`, encrypted
(`batch_encrypt`). -/
def perBlock (compute : List T → List U) (blocks : List (List T)) : List (ItemE (List U)) :=
  blocks.flatMap fun b => batchEncrypt (compute b)

@[simp] theorem batchDecrypt_perBlock (compute : List T → List U) (blocks : List (List T)) :
    batchDecrypt (perBlock compute blocks) = blocks.flatMap compute := by
  simp [perBlock]

/-! ### `Fold` -/

/-- `Fold::compute` on one block: the block folded from `init` (`iter.fold(init, f)`). -/
def Fold.compute (init : T) (f : T → T → T) (block : List T) : List T :=
  [block.foldl f init]

/-- `Fold::compute_start`, dependency type 4: the partition's blocks decrypted and
concatenated, folded, and the result encrypted alone. -/
def Fold.computeStartLocal (init : T) (f : T → T → T) (dataEnc : List (ItemE (List T))) :
    List (ItemE T) :=
  [serEncrypt ((batchDecrypt dataEnc).foldl f init)]

/-- `Fold::compute_start`, dependency type 3: the partitions' results decrypted and folded. -/
def Fold.computeStartGlobal (init : T) (f : T → T → T) (dataEnc : List (ItemE T)) :
    List (ItemE T) :=
  [serEncrypt ((dataEnc.map serDecrypt).foldl f init)]

/-- `secure_fold` of an RDD given as its partitions' blocks; `none` where `pop().unwrap()`
panics. -/
def secureFold (init : T) (f : T → T → T) (partitions : List (List (List T))) : Option (ItemE T) :=
  let data := partitions.flatMap fun blocks =>
    Fold.computeStartLocal init f (perBlock (Fold.compute init f) blocks)
  (Fold.computeStartGlobal init f data).getLast?

/-! ### `Reduced` -/

/-- `Reduced::compute` on one block: `iter.reduce(f)`, as a vector of at most one element. -/
def Reduced.compute (f : T → T → T) (block : List T) : List T :=
  (Folds.reduce f block).toList

/-- `Reduced::compute_start`, dependency type 4. -/
def Reduced.computeStartLocal (f : T → T → T) (dataEnc : List (ItemE (List T))) : List (ItemE T) :=
  (Folds.reduce f (batchDecrypt dataEnc)).toList.map serEncrypt

/-- `Reduced::compute_start`, dependency type 3. -/
def Reduced.computeStartGlobal (f : T → T → T) (dataEnc : List (ItemE T)) : List (ItemE T) :=
  (Folds.reduce f (dataEnc.map serDecrypt)).toList.map serEncrypt

/-- `secure_reduce`; `none` where `pop().unwrap()` panics. -/
def secureReduce (f : T → T → T) (partitions : List (List (List T))) : Option (ItemE T) :=
  let data := partitions.flatMap fun blocks =>
    Reduced.computeStartLocal f (perBlock (Reduced.compute f) blocks)
  (Reduced.computeStartGlobal f data).getLast?

/-! ### `Aggregated` and `Count` -/

/-- `Aggregated::compute_start`, dependency type 4: each ciphertext (a chunk of the
partition's blocks) decrypted and folded with `seq_fn` from `init`, the chunks' results
folded with `comb_fn` from `init`. -/
def Aggregated.computeStartLocal (init : U) (seqFn : U → T → U) (combFn : U → U → U)
    (dataEnc : List (ItemE (List T))) : List (ItemE U) :=
  [serEncrypt ((dataEnc.map fun c => (serDecrypt c).foldl seqFn init).foldl combFn init)]

/-- `Aggregated::compute_start`, dependency type 3. -/
def Aggregated.computeStartGlobal (init : U) (combFn : U → U → U) (dataEnc : List (ItemE U)) :
    List (ItemE U) :=
  [serEncrypt ((dataEnc.map serDecrypt).foldl combFn init)]

/-- `secure_aggregate`: the tasks run the RDD's own blocks, without the operator. -/
def secureAggregate (init : U) (seqFn : U → T → U) (combFn : U → U → U)
    (partitions : List (List (List T))) : Option (ItemE U) :=
  let data := partitions.flatMap fun blocks =>
    Aggregated.computeStartLocal init seqFn combFn (perBlock id blocks)
  (Aggregated.computeStartGlobal init combFn data).getLast?

/-- `Count::compute_start`, dependency type 4: the lengths of the decrypted chunks, summed. -/
def Count.computeStartLocal (dataEnc : List (ItemE (List T))) : List ℕ :=
  [(dataEnc.map fun c => (serDecrypt c).length).sum]

/-- `secure_count`: the tasks' counts, summed by the driver. -/
def secureCount (partitions : List (List (List T))) : ℕ :=
  (partitions.flatMap fun blocks => Count.computeStartLocal (perBlock id blocks)).sum

/-! ### What the actions compute -/

/-- The ciphertexts' plaintexts, in order, are the blocks' `batch_decrypt`. -/
theorem flatten_map_serDecrypt (dataEnc : List (ItemE (List T))) :
    (dataEnc.map serDecrypt).flatten = batchDecrypt dataEnc := by
  simp [batchDecrypt, List.flatMap_def]

/-- **`secure_fold` folds all elements in partition order**, for an associative `f` with
`init` as identity. -/
theorem secureFold_eq (init : T) (f : T → T → T) [Std.Associative f] [Std.LawfulIdentity f init]
    (partitions : List (List (List T))) :
    secureFold init f partitions = some (serEncrypt (partitions.flatten.flatten.foldl f init)) := by
  -- a task folds the folds of its blocks, which is the fold of its partition
  have hlocal : ∀ blocks : List (List T),
      Fold.computeStartLocal init f (perBlock (Fold.compute init f) blocks) =
        [serEncrypt (blocks.flatten.foldl f init)] := by
    intro blocks
    have hblocks : blocks.flatMap (Fold.compute init f) = blocks.map (List.foldl f init) :=
      List.map_eq_flatMap.symm
    rw [Fold.computeStartLocal, batchDecrypt_perBlock, hblocks, Folds.foldl_flatten_of_identity]
  -- the driver folds the partitions' folds
  have hdata : (partitions.flatMap fun blocks => [serEncrypt (blocks.flatten.foldl f init)]).map
      serDecrypt = (partitions.map List.flatten).map (List.foldl f init) := by
    rw [← List.map_eq_flatMap, List.map_map, List.map_map]
    rfl
  have hglobal : ((partitions.flatMap fun blocks => [serEncrypt (blocks.flatten.foldl f init)]).map
      serDecrypt).foldl f init = partitions.flatten.flatten.foldl f init := by
    rw [hdata, Folds.foldl_flatten_of_identity, ← List.flatten_flatten]
  simp only [secureFold, hlocal, Fold.computeStartGlobal, hglobal, List.getLast?_singleton]

/-- **`secure_aggregate` folds all elements with `seq_fn`**, when combining a partial result
with a fold from `init` is folding on from the partial result. -/
theorem secureAggregate_eq (init : U) (seqFn : U → T → U) (combFn : U → U → U)
    (hcomb : ∀ (u : U) (xs : List T), combFn u (xs.foldl seqFn init) = xs.foldl seqFn u)
    (partitions : List (List (List T))) :
    secureAggregate init seqFn combFn partitions =
      some (serEncrypt (partitions.flatten.flatten.foldl seqFn init)) := by
  -- a task combines the folds of its chunks, which is the fold of its partition
  have hlocal : ∀ blocks : List (List T),
      Aggregated.computeStartLocal init seqFn combFn (perBlock id blocks) =
        [serEncrypt (blocks.flatten.foldl seqFn init)] := by
    intro blocks
    have hchunks := Folds.foldl_map_foldl seqFn combFn init hcomb
      ((perBlock id blocks).map serDecrypt) init
    rw [List.map_map, flatten_map_serDecrypt, batchDecrypt_perBlock, List.flatMap_id] at hchunks
    rw [Aggregated.computeStartLocal, ← hchunks]
    rfl
  -- the driver combines the partitions' folds
  have hdata : (partitions.flatMap fun blocks => [serEncrypt (blocks.flatten.foldl seqFn init)]).map
      serDecrypt = (partitions.map List.flatten).map (List.foldl seqFn init) := by
    rw [← List.map_eq_flatMap, List.map_map, List.map_map]
    rfl
  have hglobal : ((partitions.flatMap fun blocks => [serEncrypt (blocks.flatten.foldl seqFn init)]).map
      serDecrypt).foldl combFn init = partitions.flatten.flatten.foldl seqFn init := by
    rw [hdata, Folds.foldl_map_foldl seqFn combFn init hcomb, ← List.flatten_flatten]
  simp only [secureAggregate, hlocal, Aggregated.computeStartGlobal, hglobal,
    List.getLast?_singleton]

/-- **`secure_count` counts all elements.** -/
theorem secureCount_eq (partitions : List (List (List T))) :
    secureCount partitions = partitions.flatten.flatten.length := by
  have hlocal : ∀ blocks : List (List T),
      Count.computeStartLocal (perBlock id blocks) = [blocks.flatten.length] := by
    intro blocks
    have hlen := congrArg List.length (flatten_map_serDecrypt (perBlock id blocks))
    rw [List.length_flatten, List.map_map, batchDecrypt_perBlock, List.flatMap_id] at hlen
    rw [Count.computeStartLocal, ← hlen]
    rfl
  simp only [secureCount, hlocal]
  rw [← List.map_eq_flatMap, List.flatten_flatten, List.length_flatten, List.map_map]
  rfl

/-- **`secure_reduce` reduces all elements in partition order**, for an associative `f`; it
gives nothing exactly when there is no element. -/
theorem secureReduce_eq (f : T → T → T) [Std.Associative f] (partitions : List (List (List T))) :
    secureReduce f partitions = (Folds.reduce f partitions.flatten.flatten).map serEncrypt := by
  -- a task reduces the reduces of its blocks, which is the reduce of its partition
  have hlocal : ∀ blocks : List (List T),
      Reduced.computeStartLocal f (perBlock (Reduced.compute f) blocks) =
        (Folds.reduce f blocks.flatten).toList.map serEncrypt := by
    intro blocks
    rw [Reduced.computeStartLocal, batchDecrypt_perBlock]
    exact congrArg (fun o => o.toList.map serEncrypt) (Folds.reduce_flatMap f blocks)
  have hglobal : (partitions.flatMap fun blocks =>
      (Folds.reduce f blocks.flatten).toList.map serEncrypt).map serDecrypt =
        (partitions.map List.flatten).flatMap fun l => (Folds.reduce f l).toList := by
    simp [List.flatMap_def, Function.comp_def, List.map_flatten]
  simp only [secureReduce, hlocal, Reduced.computeStartGlobal, hglobal, Folds.reduce_flatMap,
    List.flatten_flatten]
  cases Folds.reduce f (partitions.map List.flatten).flatten <;> rfl

/-- **With every partition empty, `secure_reduce` panics**: no task has a partial result,
the driver's global step returns no ciphertext, and `temp.pop().unwrap()` finds none. -/
theorem secureReduce_empty_panics (f : T → T → T) (partitions : List (List (List T)))
    (hempty : partitions.flatten.flatten = []) : secureReduce f partitions = none := by
  have hblocks : ∀ blocks ∈ partitions, ∀ b ∈ blocks, b = [] := by
    intro blocks hblocks b hb
    simp only [List.flatten_eq_nil_iff, List.mem_flatten] at hempty
    exact hempty b ⟨blocks, hblocks, hb⟩
  -- no block has a reduce, so no task has a partial result
  have hdata : (partitions.flatMap fun blocks =>
      Reduced.computeStartLocal f (perBlock (Reduced.compute f) blocks)) = [] := by
    refine List.flatMap_eq_nil_iff.mpr fun blocks hmem => ?_
    have hnil : blocks.flatMap (Reduced.compute f) = [] :=
      List.flatMap_eq_nil_iff.mpr fun b hb => by simp [hblocks blocks hmem b hb, Reduced.compute]
    simp [Reduced.computeStartLocal, hnil]
  simp [secureReduce, hdata, Reduced.computeStartGlobal]

theorem secureReduce_two_empty_partitions :
    ([[[]], []] : List (List (List ℕ))).flatten.flatten = [] ∧
      secureReduce Nat.add [[[]], []] = none :=
  ⟨rfl, secureReduce_empty_panics Nat.add [[[]], []] rfl⟩

/-! ### `take` -/

/-- The number of partitions a round of `take` tries: one at first; twice those scanned while
nothing was found; otherwise `⌈1.5 * left * parts_scanned / found⌉`, capped at twice those
scanned.  The source computes it in `f64`; this is the exact value. -/
def numPartsToTry (partsScanned left found : ℕ) : ℕ :=
  if partsScanned = 0 then 1
  else if found = 0 then partsScanned * 2
  else min ((3 * left * partsScanned + 2 * found - 1) / (2 * found)) (partsScanned * 2)

/-- A round tries at least one partition while elements are missing. -/
theorem numPartsToTry_pos (partsScanned found left : ℕ) (hleft : 0 < left) :
    0 < numPartsToTry partsScanned left found := by
  unfold numPartsToTry
  split_ifs with hps hfound
  · exact Nat.one_pos
  · omega
  · have hnum : 2 * found ≤ 3 * left * partsScanned + 2 * found - 1 := by
      have : 1 ≤ left * partsScanned := Nat.one_le_iff_ne_zero.mpr (by positivity)
      have : 3 ≤ 3 * left * partsScanned := by rw [Nat.mul_assoc]; omega
      omega
    have hdiv : 1 ≤ (3 * left * partsScanned + 2 * found - 1) / (2 * found) :=
      (Nat.one_le_div_iff (by omega)).mpr hnum
    omega

/-- The partitions of a round, `parts_scanned..min(total_parts, parts_scanned + try)`, in
order. -/
def roundParts {β : Type u} (partitions : List β) (partsScanned numPartsToTry : ℕ) : List β :=
  (partitions.drop partsScanned).take
    (min partitions.length (partsScanned + numPartsToTry) - partsScanned)

theorem length_roundParts {β : Type u} (partitions : List β) (partsScanned numPartsToTry : ℕ) :
    (roundParts partitions partsScanned numPartsToTry).length =
      min partitions.length (partsScanned + numPartsToTry) - partsScanned := by
  simp only [roundParts, List.length_take, List.length_drop]
  omega

/-- A round tries at least one partition while elements are missing and partitions are left. -/
theorem length_roundParts_pos {β : Type u} (partitions : List β) {partsScanned left : ℕ}
    (found : ℕ) (hleft : 0 < left) (hscan : partsScanned < partitions.length) :
    0 < (roundParts partitions partsScanned (numPartsToTry partsScanned left found)).length := by
  have hn := numPartsToTry_pos partsScanned found left hleft
  rw [length_roundParts]
  omega

/-- The `while` loop of `take`, from the partitions scanned and the elements found: each task
takes the first `left` elements of its partition, and the driver keeps what still fits. -/
def takeLoop (partitions : List (List T)) (num partsScanned : ℕ) (buf : List T) : List T :=
  if _h : buf.length < num ∧ partsScanned < partitions.length then
    let left := num - buf.length
    let tried := roundParts partitions partsScanned (numPartsToTry partsScanned left buf.length)
    let res := tried.map (·.take left)
    takeLoop partitions num (partsScanned + tried.length)
      (res.foldl (fun buf r => buf ++ r.take (num - buf.length)) buf)
  else buf
termination_by partitions.length - partsScanned
decreasing_by
  -- the round tries at least one partition
  obtain ⟨hfew, hscan⟩ := _h
  have := length_roundParts_pos partitions buf.length (Nat.sub_pos_of_lt hfew) hscan
  omega

/-- `Rdd::take` of an RDD whose partitions hold `partitions`. -/
def take (partitions : List (List T)) (num : ℕ) : List T :=
  if num = 0 then [] else takeLoop partitions num 0 []

/-- `take_` in the enclave (`wrapper_take`): the first `should_take` elements of the
decrypted blocks, encrypted, and how many they are. -/
def takeE (dataEnc : List (ItemE (List T))) (shouldTake : ℕ) : List (ItemE (List T)) × ℕ :=
  let data := (batchDecrypt dataEnc).take shouldTake
  (batchEncrypt data, data.length)

/-- The driver's step of `secure_take` on a task's result: the enclave takes what still fits,
unless nothing does. -/
def secureTakeStep (num : ℕ) (acc : ℕ × List (ItemE (List T))) (r : List (ItemE (List T))) :
    ℕ × List (ItemE (List T)) :=
  let shouldTake := num - acc.1
  if shouldTake ≠ 0 then
    -- `(temp, have_take)`
    let taken := takeE r shouldTake
    (acc.1 + taken.2, acc.2 ++ taken.1)
  else acc

/-- The `while` loop of `secure_take`, with the partitions' ciphertext blocks: `count` is the
number of elements found, `buf` their blocks. -/
def secureTakeLoop (partitions : List (List (ItemE (List T)))) (num partsScanned count : ℕ)
    (buf : List (ItemE (List T))) : List (ItemE (List T)) :=
  if _h : count < num ∧ partsScanned < partitions.length then
    let left := num - count
    let tried := roundParts partitions partsScanned (numPartsToTry partsScanned left count)
    let res := tried.map fun data => (takeE data left).1
    let acc := res.foldl (secureTakeStep num) (count, buf)
    secureTakeLoop partitions num (partsScanned + tried.length) acc.1 acc.2
  else buf
termination_by partitions.length - partsScanned
decreasing_by
  obtain ⟨hfew, hscan⟩ := _h
  have := length_roundParts_pos partitions count (Nat.sub_pos_of_lt hfew) hscan
  omega

/-- `Rdd::secure_take`. -/
def secureTake (partitions : List (List (ItemE (List T)))) (num : ℕ) : List (ItemE (List T)) :=
  if num = 0 then [] else secureTakeLoop partitions num 0 0 []

/-! ### What `take` returns -/

/-- A partition's elements join the prefix found so far, up to `num`. -/
theorem take_append_take_sub (X p : List T) (num : ℕ) :
    X.take num ++ p.take (num - (X.take num).length) = (X ++ p).take num := by
  rw [List.take_append, List.length_take]
  congr 2
  omega

/-- A round's partitions follow those scanned before. -/
theorem take_append_roundParts {β : Type u} (partitions : List β) (partsScanned numPartsToTry : ℕ) :
    partitions.take partsScanned ++ roundParts partitions partsScanned numPartsToTry =
      partitions.take (partsScanned + (roundParts partitions partsScanned numPartsToTry).length) := by
  rw [length_roundParts, List.take_add, roundParts]

/-- Once enough elements are found, or every partition is scanned, the prefix found is the
prefix of all elements. -/
theorem take_flatten_of_done (partitions : List (List T)) (num partsScanned : ℕ)
    (h : ¬(((partitions.take partsScanned).flatten.take num).length < num ∧
      partsScanned < partitions.length)) :
    (partitions.take partsScanned).flatten.take num = partitions.flatten.take num := by
  have hsplit : partitions.flatten =
      (partitions.take partsScanned).flatten ++ (partitions.drop partsScanned).flatten := by
    rw [← List.flatten_append, List.take_append_drop]
  rw [hsplit]
  by_cases hscan : partsScanned < partitions.length
  · -- enough elements found among the partitions scanned
    have hnum : num ≤ (partitions.take partsScanned).flatten.length := by
      have := List.length_take_le' num (partitions.take partsScanned).flatten
      rw [List.length_take] at h
      omega
    rw [List.take_append_of_le_length hnum]
  · rw [List.drop_eq_nil_of_le (by omega), List.flatten_nil, List.append_nil]

/-- **The driver's round of `take`**: with `buf` the first `num` elements of `X`, the tasks'
results, each of the first `left` elements of its partition, make `buf` the first `num`
elements of `X` and of the round's partitions. -/
theorem foldl_take_round (num left : ℕ) :
    ∀ (tried : List (List T)) (X : List T), num - (X.take num).length ≤ left →
      (tried.map (·.take left)).foldl (fun buf r => buf ++ r.take (num - buf.length)) (X.take num) =
        (X ++ tried.flatten).take num
  | [], X, _ => by simp
  | p :: tried, X, hleft => by
      -- the prefix only grows, so what is missing stays within `left`
      have hgrow : num - ((X ++ p).take num).length ≤ left := by
        rw [List.length_take, List.length_append]
        rw [List.length_take] at hleft
        omega
      rw [List.map_cons, List.foldl_cons, List.take_take, Nat.min_eq_left hleft, take_append_take_sub,
        foldl_take_round num left tried (X ++ p) hgrow, List.flatten_cons, List.append_assoc]

/-- **The loop of `take` returns the first `num` elements**, from any number of partitions
scanned with their prefix found. -/
theorem takeLoop_eq (partitions : List (List T)) (num : ℕ) (partsScanned : ℕ) :
    takeLoop partitions num partsScanned ((partitions.take partsScanned).flatten.take num) =
      partitions.flatten.take num := by
  induction hm : partitions.length - partsScanned using Nat.strong_induction_on
    generalizing partsScanned with
  | _ m ih =>
      rw [takeLoop]
      split_ifs with h
      · -- a round, over partitions `parts_scanned..` that follow those scanned
        set tried := roundParts partitions partsScanned
          (numPartsToTry partsScanned (num - ((partitions.take partsScanned).flatten.take num).length)
            ((partitions.take partsScanned).flatten.take num).length)
        have hlen : 0 < tried.length :=
          length_roundParts_pos partitions _ (Nat.sub_pos_of_lt h.1) h.2
        have hround := foldl_take_round num (num - ((partitions.take partsScanned).flatten.take num).length)
          tried (partitions.take partsScanned).flatten le_rfl
        have hnext : (partitions.take partsScanned).flatten ++ tried.flatten =
            (partitions.take (partsScanned + tried.length)).flatten := by
          rw [← List.flatten_append, take_append_roundParts]
        dsimp only
        rw [hround, hnext]
        exact ih (partitions.length - (partsScanned + tried.length)) (by omega) _ rfl
      · exact take_flatten_of_done partitions num partsScanned h

/-- The prefix `take` returns. -/
theorem take_eq (partitions : List (List T)) (num : ℕ) :
    take partitions num = partitions.flatten.take num := by
  unfold take
  split_ifs with hnum
  · rw [hnum, List.take_zero]
  · simpa using takeLoop_eq partitions num 0

/-! ### What `secure_take` returns -/

/-- The enclave's take: the blocks' first `should_take` elements, and how many. -/
theorem batchDecrypt_takeE (dataEnc : List (ItemE (List T))) (shouldTake : ℕ) :
    batchDecrypt (takeE dataEnc shouldTake).1 = (batchDecrypt dataEnc).take shouldTake ∧
      (takeE dataEnc shouldTake).2 = ((batchDecrypt dataEnc).take shouldTake).length := by
  simp [takeE]

/-- The driver's state in `secure_take`: `count` and `buf` are the first `num` elements of `X`. -/
def Found (num : ℕ) (X : List T) (acc : ℕ × List (ItemE (List T))) : Prop :=
  acc.1 = (X.take num).length ∧ batchDecrypt acc.2 = X.take num

/-- A step of the driver on a task's result, the first `left` elements of a partition `p`:
the state becomes the first `num` elements of `X` and `p`. -/
theorem Found.step {num left : ℕ} {X : List T} {acc : ℕ × List (ItemE (List T))}
    (h : Found num X acc) (hleft : num - acc.1 ≤ left) (p : List (ItemE (List T))) :
    Found num (X ++ batchDecrypt p) (secureTakeStep num acc (takeE p left).1) := by
  obtain ⟨hcount, hbuf⟩ := h
  unfold secureTakeStep
  dsimp only
  split_ifs with hmore
  · -- the enclave takes what still fits of the task's result
    obtain ⟨hdec, hhave⟩ := batchDecrypt_takeE (takeE p left).1 (num - acc.1)
    rw [(batchDecrypt_takeE p left).1, List.take_take, Nat.min_eq_left hleft] at hdec hhave
    have hfit : X.take num ++ (batchDecrypt p).take (num - acc.1) = (X ++ batchDecrypt p).take num := by
      rw [hcount, take_append_take_sub]
    refine ⟨?_, ?_⟩
    · show acc.1 + (takeE (takeE p left).1 (num - acc.1)).2 = _
      rw [hhave, ← hfit, List.length_append, hcount]
    · show batchDecrypt (acc.2 ++ (takeE (takeE p left).1 (num - acc.1)).1) = _
      rw [batchDecrypt_append, hdec, hbuf, hfit]
  · -- `num` elements are found: nothing changes
    have hnum : num ≤ X.length := by
      have := List.length_take_le' num X
      rw [List.length_take] at hcount
      omega
    unfold Found
    rw [List.take_append_of_le_length hnum]
    exact ⟨hcount, hbuf⟩

/-- **The driver's round of `secure_take`**, as `foldl_take_round`. -/
theorem foldl_secureTakeStep_round (num left : ℕ) :
    ∀ (tried : List (List (ItemE (List T)))) (X : List T) (acc : ℕ × List (ItemE (List T))),
      Found num X acc → num - acc.1 ≤ left →
      Found num (X ++ (tried.map batchDecrypt).flatten)
        ((tried.map fun data => (takeE data left).1).foldl (secureTakeStep num) acc)
  | [], X, acc, h, _ => by simpa using h
  | p :: tried, X, acc, h, hleft => by
      have h' := h.step hleft p
      -- the count only grows
      have hgrow : num - (secureTakeStep num acc (takeE p left).1).1 ≤ left := by
        rw [h'.1, List.length_take, List.length_append]
        rw [h.1, List.length_take] at hleft
        omega
      have hrest := foldl_secureTakeStep_round num left tried (X ++ batchDecrypt p) _ h' hgrow
      simpa [List.append_assoc] using hrest

/-- **The loop of `secure_take` finds the first `num` elements**, from any number of
partitions scanned with their prefix found. -/
theorem secureTakeLoop_eq (partitions : List (List (ItemE (List T)))) (num : ℕ) (partsScanned : ℕ)
    (acc : ℕ × List (ItemE (List T)))
    (h : Found num ((partitions.take partsScanned).map batchDecrypt).flatten acc) :
    batchDecrypt (secureTakeLoop partitions num partsScanned acc.1 acc.2) =
      (partitions.map batchDecrypt).flatten.take num := by
  induction hm : partitions.length - partsScanned using Nat.strong_induction_on
    generalizing partsScanned acc with
  | _ m ih =>
      rw [secureTakeLoop]
      split_ifs with hloop
      · set tried := roundParts partitions partsScanned (numPartsToTry partsScanned (num - acc.1) acc.1)
        have hlen : 0 < tried.length :=
          length_roundParts_pos partitions acc.1 (Nat.sub_pos_of_lt hloop.1) hloop.2
        have hround := foldl_secureTakeStep_round num (num - acc.1) tried _ acc h le_rfl
        have hnext : ((partitions.take partsScanned).map batchDecrypt).flatten ++ (tried.map batchDecrypt).flatten =
            ((partitions.take (partsScanned + tried.length)).map batchDecrypt).flatten := by
          rw [← List.flatten_append, ← List.map_append, take_append_roundParts]
        rw [hnext] at hround
        exact ih (partitions.length - (partsScanned + tried.length)) (by omega) _ _ hround rfl
      · have hdone := take_flatten_of_done (partitions.map batchDecrypt) num partsScanned
          (by rw [← List.map_take, ← h.1, List.length_map]; exact hloop)
        rw [← List.map_take] at hdone
        rw [h.2, hdone]

/-- **`take` returns the prefix**: for every RDD and every `num`, `take(num)` terminates with
the first `min(num, N)` elements of the partitions in order, and the blocks of
`secure_take(num)` decrypt to the same elements. -/
theorem take_prefix :
    (∀ (partitions : List (List T)) (num : ℕ), take partitions num = partitions.flatten.take num) ∧
      ∀ (partitions : List (List (ItemE (List T)))) (num : ℕ),
        batchDecrypt (secureTake partitions num) = (partitions.map batchDecrypt).flatten.take num := by
  refine ⟨take_eq, fun partitions num => ?_⟩
  unfold secureTake
  split_ifs with hnum
  · rw [hnum, List.take_zero, batchDecrypt_nil]
  · exact secureTakeLoop_eq partitions num 0 (0, []) ⟨by simp, by simp⟩

end Actions

end Flare
