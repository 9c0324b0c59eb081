import Mathlib
import Flare.Basic
import Flare.Lib.Slices

/-!
# The untrusted exchange of a secure shuffle

Between the two enclave halves of a shuffle the framework moves ciphertext it
cannot read.  The shuffle-map task (secure branch of
`ShuffleDependency::do_shuffle_task`, `framework/src/dependency.rs`) lays the
encrypted bucket rows of every enclave result out by bucket index and stores
chunk `i` of `MAX_THREAD + 1` consecutive buckets in `SHUFFLE_CACHE` under the
reduce id `i`.  The reduce task fetches chunk `reduce_id` of every map output
(`ShuffleFetcher::secure_fetch`, `framework/src/shuffle/shuffle_fetcher.rs`) and
appends the chunks index-wise.

## Main definitions

* `pushBucketRow`, `spreadBuckets` — the layout loop: `buckets[i]` collects
  bucket `i` of every row.
* `secureShuffleWrite` — the whole map task: layout, then `chunks_exact`.
* `appendChunks`, `secureFetch` — the index-wise append, per server and then
  across servers.

## Design notes

`SHUFFLE_CACHE` stores the `bincode` bytes of each chunk, and the fetch reads
them back section by section over HTTP; that transfer is a byte-level round trip
of its own, so a map output is modelled by the chunks themselves.  Which server
answers first, and in which order a server's map outputs come, is decided by a
`HashMap` and by task scheduling: `secureFetch` takes the map ids grouped by
server, in fetch order, as an argument.
-/

namespace Flare

open Slices

universe u

variable {β : Type u}

/-! ### Layout of the map task -/

/-- The inner layout loop (framework `dependency.rs`:315-317):
`for (i, bucket) in buckets_bl.into_iter().enumerate() { buckets[i].push(bucket) }`,
with the enumeration index starting at `i`. -/
def pushBucketRow : ℕ → List (List β) → List β → List (List β)
  | _, buckets, [] => buckets
  | i, buckets, bucket :: row => pushBucketRow (i + 1) (buckets.modify i (· ++ [bucket])) row

/-- The layout loop over every enclave result (framework `dependency.rs`:303-319):
`num_buckets` empty buckets, then every bucket row of every result pushed. -/
def spreadBuckets (numBuckets : ℕ) (results : List (List (List β))) : List (List β) :=
  results.foldl (fun buckets bucketsBls => bucketsBls.foldl (pushBucketRow 0) buckets)
    (List.replicate numBuckets [])

/-- The secure shuffle-map task on the enclave results of one map partition
(framework `dependency.rs`:276-332): lay the rows out over
`num_output_splits * (MAX_THREAD + 1)` buckets and cut them with
`chunks_exact(MAX_THREAD + 1)`; chunk `i` is what `SHUFFLE_CACHE` stores under
reduce id `i`. -/
def secureShuffleWrite (numOutputSplits : ℕ) (results : List (List (List β))) :
    List (List (List β)) :=
  chunksExact (maxThread + 1) (spreadBuckets (numOutputSplits * (maxThread + 1)) results)

@[simp] theorem length_pushBucketRow :
    ∀ (row : List β) (i : ℕ) (buckets : List (List β)),
      (pushBucketRow i buckets row).length = buckets.length := by
  intro row
  induction row with
  | nil => intro i buckets; rfl
  | cons bucket row ih =>
      intro i buckets
      simp [pushBucketRow, ih]

/-- Bucket `j` after a row is pushed from index `i` on: the row's entry `j - i`
is appended. -/
theorem getD_pushBucketRow :
    ∀ (row : List β) (i : ℕ) (buckets : List (List β)) (j : ℕ), j < buckets.length →
      (pushBucketRow i buckets row).getD j [] =
        buckets.getD j [] ++ (if i ≤ j then (row[j - i]?).toList else []) := by
  intro row
  induction row with
  | nil => intro i buckets j _; simp [pushBucketRow]
  | cons bucket row ih =>
      intro i buckets j hj
      simp only [pushBucketRow]
      rw [ih (i + 1) _ j (by simpa using hj)]
      simp only [List.getD_eq_getElem?_getD, List.getElem?_modify]
      rcases Nat.lt_trichotomy i j with hij | rfl | hij
      · have hsub : j - i = (j - (i + 1)) + 1 := by omega
        simp [Nat.ne_of_lt hij, show i + 1 ≤ j by omega, show i ≤ j by omega, hsub]
      · simp [List.getElem?_eq_getElem hj]
      · simp [Nat.ne_of_gt hij, show ¬i + 1 ≤ j by omega, show ¬i ≤ j by omega]

/-- Rows pushed one after another: bucket `j` collects entry `j` of each. -/
theorem getD_foldl_pushBucketRow (j : ℕ) :
    ∀ (rows : List (List β)) (buckets : List (List β)), j < buckets.length →
      (rows.foldl (pushBucketRow 0) buckets).getD j [] =
        buckets.getD j [] ++ rows.filterMap (·[j]?) := by
  intro rows
  induction rows with
  | nil => intro buckets _; simp
  | cons row rows ih =>
      intro buckets hj
      rw [List.foldl_cons, ih _ (by simpa using hj), getD_pushBucketRow row 0 buckets j hj]
      cases hrow : row[j]? <;> simp [hrow]

/-- Pushing rows keeps the number of buckets. -/
@[simp] theorem length_foldl_pushBucketRow :
    ∀ (rows : List (List β)) (buckets : List (List β)),
      (rows.foldl (pushBucketRow 0) buckets).length = buckets.length := by
  intro rows
  induction rows with
  | nil => intro buckets; rfl
  | cons row rows ih => intro buckets; simp [ih]

/-- **The layout**: bucket `j` holds entry `j` of every row of every result, in
arrival order. -/
theorem getD_spreadBuckets (numBuckets : ℕ) (results : List (List (List β))) {j : ℕ}
    (hj : j < numBuckets) :
    (spreadBuckets numBuckets results).getD j [] = results.flatten.filterMap (·[j]?) := by
  suffices h : ∀ buckets : List (List β), j < buckets.length →
      (results.foldl (fun buckets bucketsBls => bucketsBls.foldl (pushBucketRow 0) buckets)
        buckets).getD j [] = buckets.getD j [] ++ results.flatten.filterMap (·[j]?) by
    simpa [spreadBuckets, hj] using h (List.replicate numBuckets []) (by simpa using hj)
  induction results with
  | nil => intro buckets _; simp
  | cons rows results ih =>
      intro buckets hlen
      have hlen' : j < (rows.foldl (pushBucketRow 0) buckets).length := by
        rw [length_foldl_pushBucketRow]
        exact hlen
      rw [List.foldl_cons, ih _ hlen', getD_foldl_pushBucketRow j rows buckets hlen]
      simp

@[simp] theorem length_spreadBuckets (numBuckets : ℕ) (results : List (List (List β))) :
    (spreadBuckets numBuckets results).length = numBuckets := by
  have hfold : ∀ buckets : List (List β),
      (results.foldl (fun buckets bucketsBls => bucketsBls.foldl (pushBucketRow 0) buckets)
        buckets).length = buckets.length := by
    induction results with
    | nil => intro buckets; rfl
    | cons rows results ih => intro buckets; simp [ih]
  simp [spreadBuckets, hfold]

/-- Group `j` of chunk `r` is the bucket `r * (MAX_THREAD + 1) + j`, one of the
`MAX_THREAD + 1` buckets of reducer `r`. -/
theorem bucket_lt {r n j : ℕ} (hr : r < n) (hj : j < maxThread + 1) :
    r * (maxThread + 1) + j < n * (maxThread + 1) :=
  calc r * (maxThread + 1) + j = j + (maxThread + 1) * r := by rw [Nat.add_comm, Nat.mul_comm]
    _ < (maxThread + 1) * n := Nat.add_mul_lt_mul_of_lt_of_lt hj hr
    _ = n * (maxThread + 1) := Nat.mul_comm _ _

/-- The map task stores one chunk per reduce id. -/
theorem length_secureShuffleWrite (numOutputSplits : ℕ) (results : List (List (List β))) :
    (secureShuffleWrite numOutputSplits results).length = numOutputSplits := by
  rw [secureShuffleWrite, length_chunksExact, length_spreadBuckets,
    Nat.mul_div_cancel _ (Nat.succ_pos maxThread)]

/-- **What the map task stores for reduce id `r`**: group `j` of chunk `r` holds
entry `r * (MAX_THREAD + 1) + j` of every row. -/
theorem secureShuffleWrite_getD (numOutputSplits : ℕ) (results : List (List (List β)))
    {r : ℕ} (hr : r < numOutputSplits) {j : ℕ} (hj : j < maxThread + 1) :
    ((secureShuffleWrite numOutputSplits results).getD r []).getD j [] =
      results.flatten.filterMap (·[r * (maxThread + 1) + j]?) := by
  have hchunks : r < (secureShuffleWrite numOutputSplits results).length := by
    rwa [length_secureShuffleWrite]
  have hidx : r * (maxThread + 1) + j < numOutputSplits * (maxThread + 1) := bucket_lt hr hj
  rw [List.getD_eq_getElem _ _ hchunks, List.getD_eq_getElem?_getD]
  simp only [secureShuffleWrite]
  rw [getElem?_getElem_chunksExact _ _ _ _ _ hj, ← List.getD_eq_getElem?_getD,
    getD_spreadBuckets _ results hidx]

/-- Every chunk the map task stores holds `MAX_THREAD + 1` groups. -/
theorem length_getD_secureShuffleWrite (numOutputSplits : ℕ) (results : List (List (List β)))
    {r : ℕ} (hr : r < numOutputSplits) :
    ((secureShuffleWrite numOutputSplits results).getD r []).length = maxThread + 1 := by
  have hchunks : r < (secureShuffleWrite numOutputSplits results).length := by
    rwa [length_secureShuffleWrite]
  rw [List.getD_eq_getElem _ _ hchunks]
  exact length_getElem_chunksExact _ _ r hchunks

/-! ### The fetch -/

/-- Appending index-wise in place: entry `i` of `acc` gets entry `i` of `more`
appended; entries of `acc` past the end of `more` are kept and entries of `more`
past the end of `acc` are ignored (`for (acc, a) in curr.iter_mut().zip(res)`). -/
def zipAppend : List (List β) → List (List β) → List (List β)
  | a :: acc, b :: more => (a ++ b) :: zipAppend acc more
  | acc, [] => acc
  | [], _ :: _ => []

/-- One map output within a server's task (`shuffle_fetcher.rs`:219-228): the first
chunk list is taken as it is; a later one must have the same length
(`assert_eq!`, `none` when it has not) and is appended index-wise. -/
def appendServerChunks (shuffleChunks deserData : List (List β)) : Option (List (List β)) :=
  if shuffleChunks.isEmpty then some deserData
  else if shuffleChunks.length = deserData.length then some (zipAppend shuffleChunks deserData)
  else none

/-- One server's result in the final fold (`shuffle_fetcher.rs`:243-263): the first
is taken as it is, a later one appended index-wise in place. -/
def appendFetched (curr res : List (List β)) : List (List β) :=
  if curr.isEmpty then res else zipAppend curr res

/-- `ShuffleFetcher::secure_fetch` for one reduce id, on the chunk lists of the map
outputs grouped by server in the order the fold meets them: every server's
outputs appended in its task, then the tasks' results appended.  `none` is a
failed assertion. -/
def secureFetch (byServer : List (List (List (List β)))) : Option (List (List β)) :=
  (byServer.mapM fun chunks : List (List (List β)) => chunks.foldlM appendServerChunks []).map
    fun perServer => perServer.foldl appendFetched []

/-- `zipAppend` of two lists of the same length appends entry by entry. -/
theorem zipAppend_eq_zipWith :
    ∀ (acc more : List (List β)), acc.length = more.length →
      zipAppend acc more = List.zipWith (· ++ ·) acc more := by
  intro acc
  induction acc with
  | nil => intro more hlen; cases more <;> simp_all [zipAppend]
  | cons a acc ih =>
      intro more hlen
      cases more with
      | nil => simp at hlen
      | cons b more =>
          simp only [List.length_cons, Nat.add_right_cancel_iff] at hlen
          simp [zipAppend, ih more hlen]

/-- Nothing to append changes nothing. -/
@[simp] theorem zipAppend_nil (acc : List (List β)) : zipAppend acc [] = acc := by
  cases acc <;> rfl

/-- The index-wise concatenation of chunk lists of length `len`: what the fetch
computes. -/
def concatChunks (len : ℕ) (chunks : List (List (List β))) : List (List β) :=
  (List.range len).map fun j => (chunks.map fun c => c.getD j []).flatten

@[simp] theorem length_concatChunks (len : ℕ) (chunks : List (List (List β))) :
    (concatChunks len chunks).length = len := by
  simp [concatChunks]

@[simp] theorem getElem_concatChunks (len : ℕ) (chunks : List (List (List β))) (j : ℕ)
    (hj : j < (concatChunks len chunks).length) :
    (concatChunks len chunks)[j] = (chunks.map fun c => c.getD j []).flatten := by
  simp [concatChunks]

/-- Appending index-wise to an accumulator of length `len` is associative. -/
theorem zipWith_append_concatChunks {len : ℕ} (acc : List (List β)) (hacc : acc.length = len)
    (chunks₁ chunks₂ : List (List (List β))) :
    List.zipWith (· ++ ·) (List.zipWith (· ++ ·) acc (concatChunks len chunks₁))
        (concatChunks len chunks₂) =
      List.zipWith (· ++ ·) acc (concatChunks len (chunks₁ ++ chunks₂)) := by
  apply List.ext_getElem (by simp [hacc])
  intro j h₁ h₂
  simp [List.append_assoc]

/-- One chunk list of length `len`, or none at all, appended index-wise. -/
theorem zipAppend_eq_concatChunks {len : ℕ} {acc c : List (List β)} (hacc : acc.length = len)
    (hc : c = [] ∨ c.length = len) :
    zipAppend acc c = List.zipWith (· ++ ·) acc (concatChunks len [c]) := by
  apply List.ext_getElem
  · rcases hc with rfl | hc
    · simp [hacc]
    · simp [zipAppend_eq_zipWith acc c (hacc.trans hc.symm), hacc, hc]
  · intro j h₁ h₂
    rcases hc with rfl | hc
    · simp
    · have hj : j < c.length := by simp [hacc] at h₂; omega
      simp [zipAppend_eq_zipWith acc c (hacc.trans hc.symm), List.getElem?_eq_getElem hj]

/-- **One server's task** from a non-empty accumulator: chunk lists of its length
are appended without failing. -/
theorem foldlM_appendServerChunks {len : ℕ} (hlen : 0 < len) :
    ∀ (chunks : List (List (List β))), (∀ c ∈ chunks, c.length = len) →
      ∀ acc : List (List β), acc.length = len →
      chunks.foldlM appendServerChunks acc =
        some (List.zipWith (· ++ ·) acc (concatChunks len chunks)) := by
  intro chunks
  induction chunks with
  | nil =>
      intro _ acc hacc
      apply congrArg some
      apply List.ext_getElem (by simp [hacc])
      intro j h₁ h₂
      simp
  | cons c chunks ih =>
      intro hall acc hacc
      have hc : c.length = len := hall c (by simp)
      have hne : acc.isEmpty = false := by
        cases acc with
        | nil => simp at hacc; omega
        | cons _ _ => rfl
      -- the assertion holds, and the appended list keeps the length
      have hstep : appendServerChunks acc c =
          some (List.zipWith (· ++ ·) acc (concatChunks len [c])) := by
        simp only [appendServerChunks, hne, hacc, hc, Bool.false_eq_true, if_false, if_true]
        rw [zipAppend_eq_concatChunks hacc (Or.inr hc)]
      rw [List.foldlM_cons, hstep, Option.bind_eq_bind, Option.bind_some,
        ih (fun c hc => hall c (by simp [hc])) _ (by simp [hacc]),
        zipWith_append_concatChunks acc hacc]
      rfl

/-- A chunk list of length `len` put in front of the others. -/
theorem zipWith_concatChunks_cons {len : ℕ} {c : List (List β)} (hc : c.length = len)
    (chunks : List (List (List β))) :
    List.zipWith (· ++ ·) c (concatChunks len chunks) = concatChunks len (c :: chunks) := by
  apply List.ext_getElem (by simp [hc])
  intro j h₁ h₂
  have hj : j < c.length := by simp at h₂; omega
  simp [List.getElem?_eq_getElem hj]

/-- A server with no output adds nothing. -/
@[simp] theorem concatChunks_cons_nil (len : ℕ) (chunks : List (List (List β))) :
    concatChunks len ([] :: chunks) = concatChunks len chunks := by
  simp [concatChunks]

/-- A whole server's task: its outputs' chunks concatenated index-wise, or nothing
for a server with no output. -/
theorem foldlM_appendServerChunks_nil {len : ℕ} (hlen : 0 < len)
    (chunks : List (List (List β))) (hall : ∀ c ∈ chunks, c.length = len) :
    chunks.foldlM appendServerChunks [] =
      some (if chunks = [] then [] else concatChunks len chunks) := by
  rcases chunks with _ | ⟨c, chunks⟩
  · rfl
  · have hc : c.length = len := hall c (by simp)
    -- the first output is taken as it is, the others appended to it
    have hfirst : appendServerChunks [] c = some c := rfl
    rw [List.foldlM_cons, hfirst, Option.bind_eq_bind, Option.bind_some,
      foldlM_appendServerChunks hlen chunks (fun c hc => hall c (by simp [hc])) c hc,
      zipWith_concatChunks_cons hc]
    rfl

/-- The final fold from a non-empty accumulator. -/
theorem foldl_appendFetched {len : ℕ} (hlen : 0 < len) :
    ∀ (perServer : List (List (List β))), (∀ c ∈ perServer, c = [] ∨ c.length = len) →
      ∀ acc : List (List β), acc.length = len →
      perServer.foldl appendFetched acc = List.zipWith (· ++ ·) acc (concatChunks len perServer) := by
  intro perServer
  induction perServer with
  | nil =>
      intro _ acc hacc
      apply List.ext_getElem (by simp [hacc])
      intro j h₁ h₂
      simp
  | cons c perServer ih =>
      intro hall acc hacc
      have hne : acc.isEmpty = false := by
        cases acc with
        | nil => simp at hacc; omega
        | cons _ _ => rfl
      have hstep : appendFetched acc c = List.zipWith (· ++ ·) acc (concatChunks len [c]) := by
        rw [appendFetched, hne, if_neg Bool.false_ne_true]
        exact zipAppend_eq_concatChunks hacc (hall c (by simp))
      rw [List.foldl_cons, hstep, ih (fun c hc => hall c (by simp [hc])) _ (by simp [hacc]),
        zipWith_append_concatChunks acc hacc]
      rfl

/-- The final fold over the servers' results, each empty or of length `len`: the
first non-empty one is taken, the later ones appended to it. -/
theorem foldl_appendFetched_nil {len : ℕ} (hlen : 0 < len) :
    ∀ (perServer : List (List (List β))), (∀ c ∈ perServer, c = [] ∨ c.length = len) →
      perServer.foldl appendFetched [] =
        if ∀ c ∈ perServer, c = [] then [] else concatChunks len perServer := by
  intro perServer
  induction perServer with
  | nil => intro _; simp
  | cons c perServer ih =>
      intro hall
      have hfirst : appendFetched [] c = c := rfl
      rw [List.foldl_cons, hfirst]
      rcases hall c (by simp) with rfl | hc
      · -- a server with no output leaves the accumulator empty
        rw [ih (fun c hc => hall c (by simp [hc])), concatChunks_cons_nil]
        simp
      · have hne : c ≠ [] := by
          intro h
          simp [h] at hc
          omega
        rw [foldl_appendFetched hlen perServer (fun c hc => hall c (by simp [hc])) c hc,
          zipWith_concatChunks_cons hc, if_neg (by simp [hne])]

/-- **The fetch**: for map outputs whose chunk lists share a non-zero length `len`,
the fetch never fails, and entry `j` is the concatenation of entry `j` of every
map output, in the order the fold meets them. -/
theorem secureFetch_eq {len : ℕ} (hlen : 0 < len) (byServer : List (List (List (List β))))
    (hall : ∀ chunks ∈ byServer.flatten, chunks.length = len) :
    secureFetch byServer =
      some (if byServer.flatten = [] then [] else concatChunks len byServer.flatten) := by
  have hserver : ∀ chunks ∈ byServer, ∀ c ∈ chunks, c.length = len :=
    fun chunks h c hc => hall c (List.mem_flatten.2 ⟨chunks, h, hc⟩)
  -- every server's task succeeds
  let perServer := byServer.map fun chunks => if chunks = [] then [] else concatChunks len chunks
  have hmapM : byServer.mapM (fun chunks => chunks.foldlM appendServerChunks []) =
      some perServer :=
    mapM_eq_some_map fun chunks h => foldlM_appendServerChunks_nil hlen chunks (hserver chunks h)
  have hshape : ∀ c ∈ perServer, c = [] ∨ c.length = len := by
    intro c hc
    obtain ⟨chunks, -, rfl⟩ := List.mem_map.1 hc
    by_cases h : chunks = [] <;> simp [h]
  -- a server's result is empty exactly when it had no output
  have hempty : (∀ c ∈ perServer, c = []) ↔ byServer.flatten = [] := by
    simp only [perServer, List.mem_map, forall_exists_index, and_imp, forall_apply_eq_imp_iff₂,
      List.flatten_eq_nil_iff]
    refine forall₂_congr fun chunks _ => ?_
    by_cases h : chunks = []
    · simp [h]
    · have : concatChunks len chunks ≠ [] := by
        intro h'
        have := congrArg List.length h'
        simp at this
        omega
      simp [h, this]
  -- the servers' concatenations concatenated again
  have hconcat : concatChunks len perServer = concatChunks len byServer.flatten := by
    apply List.ext_getElem (by simp)
    intro j h₁ h₂
    simp only [length_concatChunks] at h₁
    simp only [getElem_concatChunks, perServer, List.map_map, List.map_flatten, List.flatten_flatten]
    congr 1
    apply List.map_congr_left
    intro chunks _
    by_cases h : chunks = []
    · simp [h]
    · have hj : j < (concatChunks len chunks).length := by simpa using h₁
      simp [h, List.getElem?_eq_getElem hj]
  simp only [secureFetch, hmapM, Option.map_some, foldl_appendFetched_nil hlen perServer hshape,
    hempty, hconcat]

end Flare
