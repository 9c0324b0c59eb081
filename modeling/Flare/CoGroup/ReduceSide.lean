import Mathlib
import Flare.Basic
import Flare.Lib.GroupBy
import Flare.Lib.Join
import Flare.Shuffle.ReduceSide

/-!
# Reduce side of the secure cogroup

The enclave half of a cogroup read (`CoGrouped::compute_inner`,
`enclave/src/op/co_grouped_op.rs`) and the framework step that calls it
(`CoGroupedRdd::secure_compute_prev`, `framework/src/rdd/co_grouped_rdd.rs`), for
two parents that both reach the cogroup through a shuffle dependency.  Each side
arrives as `MAX_THREAD + 1` groups of encrypted buckets.  For every group,
`merge_core` merges the two k-way merged streams into entries `(k, (vs, ws))`,
and the block reshape cuts the entries into the blocks that are encrypted.

## Main definitions

* `CoGrouped.mergeCore` — the merge of the two streams, with its in-place
  overwrite of a trailing one-sided entry.
* `CoGrouped.joinReshape`, `CoGrouped.cogroupReshape` — the two block reshapes
  that `is_for_join` selects.
* `CoGrouped.computeInner`, `CoGrouped.secureComputePrev`.

## Main results

* `CoGrouped.mergeCore_eq` — `merge_core` is the run fold of the merged streams
  with every entry that lacks a side dropped, except the last entry.
* `CoGrouped.groupPairs_mergeCore_perm` — on key-sorted pregroups of two lists,
  the pairs of the merge are the join of the two lists.
* `CoGrouped.groupPairs_joinReshape_perm` — the join reshape keeps the pairs.
* `CoGrouped.computeInner_eq` — whatever the profiling flag, the result is every
  group's reshaped merge, the last group first.

## Design notes

The narrow parts `a0` and `b0` of the input are empty for two shuffle
dependencies, and `compute_inner` never reads them: they are left out.  The
`deep_size_of` of the two value types and the flag `is_para_mer`, which the code
derives from allocator counters, are arguments.
-/

namespace Flare

namespace CoGrouped

open KeyedList Slices

universe u v w

variable {K : Type u} {V : Type v} {W : Type w}

/-! ### `merge_core` -/

section Merge

variable [LinearOrder K]

/-- The body shared by the two branches of the loop of `merge_core`
(`co_grouped_op.rs`:141-164), for an entry of key `k`: an equal last key takes
the entry's values (`extend`); a last entry with an empty side is overwritten by
the entry (`fresh`); any other last entry stays and the entry is pushed. -/
def pushOrMerge (agg : List (K × (List V × List W))) (k : K) (fresh : List V × List W)
    (extend : List V × List W → List V × List W) : List (K × (List V × List W)) :=
  match agg.getLast? with
  | some (lastK, lastV, lastW) =>
      if lastK = k then agg.modifyLast fun e => (e.1, extend e.2)
      else if lastV.isEmpty || lastW.isEmpty then agg.modifyLast fun _ => (k, fresh)
      else agg ++ [(k, fresh)]
  | none => agg ++ [(k, fresh)]

/-- The loop of `merge_core` (`co_grouped_op.rs`:137-166) on the two merged
streams.  The entry of the first stream is taken when the second stream is
exhausted or the first key is strictly smaller, so on equal keys the second
stream goes first. -/
def mergeCoreLoop : List (K × List V) → List (K × List W) → List (K × (List V × List W)) →
    List (K × (List V × List W))
  | [], [], agg => agg
  | (k, v) :: iterA, [], agg =>
      mergeCoreLoop iterA [] (pushOrMerge agg k (v, []) fun e => (e.1 ++ v, e.2))
  | [], (k, w) :: iterB, agg =>
      mergeCoreLoop [] iterB (pushOrMerge agg k ([], w) fun e => (e.1, e.2 ++ w))
  | (ka, v) :: iterA, (kb, w) :: iterB, agg =>
      if ka < kb then
        mergeCoreLoop iterA ((kb, w) :: iterB) (pushOrMerge agg ka (v, []) fun e => (e.1 ++ v, e.2))
      else
        mergeCoreLoop ((ka, v) :: iterA) iterB (pushOrMerge agg kb ([], w) fun e => (e.1, e.2 ++ w))
termination_by iterA iterB _ => iterA.length + iterB.length

/-- `merge_core` (`co_grouped_op.rs`:129-168): the buckets of each side merged by
key (`kmerge_by(|a, b| a.0 < b.0)`), then the loop from no entry. -/
def mergeCore (kmergeByA : KMergeBy (K × List V) fun a b => a.1 ≤ b.1)
    (kmergeByB : KMergeBy (K × List W) fun a b => a.1 ≤ b.1) (a1 : List (List (K × List V)))
    (b1 : List (List (K × List W))) : List (K × (List V × List W)) :=
  mergeCoreLoop (kmergeByA.kmerge a1) (kmergeByB.kmerge b1) []

/-! #### The loop as a fold over one merged stream -/

/-- An entry of the first stream, as the cogroup entry it stands for. -/
def tagFirst (e : K × List V) : K × (List V × List W) := (e.1, (e.2, []))

/-- An entry of the second stream, as the cogroup entry it stands for. -/
def tagSecond (e : K × List W) : K × (List V × List W) := (e.1, ([], e.2))

/-- One step of the loop on a cogroup entry: its lists extend both sides. -/
def putEntry (agg : List (K × (List V × List W))) (e : K × (List V × List W)) :
    List (K × (List V × List W)) :=
  pushOrMerge agg e.1 e.2 fun c => appendSides c e.2

theorem putEntry_tagFirst (agg : List (K × (List V × List W))) (k : K) (v : List V) :
    putEntry agg (tagFirst (k, v)) = pushOrMerge agg k (v, []) fun e => (e.1 ++ v, e.2) := by
  have hextend : (fun c => appendSides c (v, ([] : List W))) = fun e => (e.1 ++ v, e.2) := by
    funext c
    simp [appendSides]
  unfold putEntry tagFirst
  rw [hextend]

theorem putEntry_tagSecond (agg : List (K × (List V × List W))) (k : K) (w : List W) :
    putEntry agg (tagSecond (k, w)) = pushOrMerge agg k ([], w) fun e => (e.1, e.2 ++ w) := by
  have hextend : (fun c => appendSides c (([] : List V), w)) = fun e => (e.1, e.2 ++ w) := by
    funext c
    simp [appendSides]
  unfold putEntry tagSecond
  rw [hextend]

/-- **The loop folds one merged stream**: the two streams tagged and merged with
ties to the second, then every entry put in turn. -/
theorem mergeCoreLoop_eq (iterA : List (K × List V)) (iterB : List (K × List W))
    (agg : List (K × (List V × List W))) :
    mergeCoreLoop iterA iterB agg =
      (List.merge (iterA.map tagFirst) (iterB.map tagSecond) fun x y => decide (x.1 < y.1)).foldl
        putEntry agg := by
  fun_induction mergeCoreLoop iterA iterB agg with
  | case1 agg => rw [List.map_nil, List.map_nil, List.nil_merge, List.foldl_nil]
  | case2 k v iterA agg ih =>
      rw [ih, List.map_cons, List.map_nil, List.merge_right, List.merge_right, List.foldl_cons,
        putEntry_tagFirst]
  | case3 k w iterB agg ih =>
      rw [ih, List.map_cons, List.map_nil, List.nil_merge, List.nil_merge, List.foldl_cons,
        putEntry_tagSecond]
  | case4 ka v iterA kb w iterB agg hlt ih =>
      rw [ih, List.map_cons, List.map_cons, List.cons_merge_cons,
        if_pos (decide_eq_true (show (tagFirst (ka, v) : K × (List V × List W)).1 <
          (tagSecond (kb, w) : K × (List V × List W)).1 from hlt)),
        List.foldl_cons, putEntry_tagFirst]
  | case5 ka v iterA kb w iterB agg hge ih =>
      rw [ih, List.map_cons, List.map_cons, List.cons_merge_cons,
        if_neg (show ¬decide ((tagFirst (ka, v) : K × (List V × List W)).1 <
          (tagSecond (kb, w) : K × (List V × List W)).1) = true from
            fun h => hge (of_decide_eq_true h)),
        List.foldl_cons, putEntry_tagSecond]

/-! #### What the overwrite leaves -/

/-- Whether an entry has values on both sides: the negation of the loop's test
`last_v.is_empty() || last_w.is_empty()`. -/
def twoSided (e : K × (List V × List W)) : Bool := !(e.2.1.isEmpty || e.2.2.isEmpty)

/-- The runs of the merged stream as the loop leaves them: a run that lacks a
side is overwritten by the next run, so only the last run may lack one. -/
def keepTwoSided (runs : List (K × (List V × List W))) : List (K × (List V × List W)) :=
  runs.dropLast.filter twoSided ++ runs.getLast?.toList

omit [LinearOrder K] in
theorem keepTwoSided_concat (runs : List (K × (List V × List W))) (last : K × (List V × List W)) :
    keepTwoSided (runs ++ [last]) = runs.filter twoSided ++ [last] := by
  simp [keepTwoSided]

/-- **One step of the loop is one step of the run fold**, seen through
`keepTwoSided`. -/
theorem putEntry_keepTwoSided (runs : List (K × (List V × List W))) (e : K × (List V × List W)) :
    putEntry (keepTwoSided runs) e = keepTwoSided (runsPush id appendSides runs e) := by
  rcases List.eq_nil_or_concat' runs with rfl | ⟨runs, ⟨lk, lv, lw⟩, rfl⟩
  · rfl
  rw [keepTwoSided_concat, runsPush_concat]
  unfold putEntry pushOrMerge
  rw [List.getLast?_concat]
  dsimp only
  by_cases hk : lk = e.1
  · -- the entry extends the last run
    rw [if_pos hk, if_pos hk, List.modifyLast_concat, keepTwoSided_concat]
  -- the entry opens a run after the last one
  have hsplit : runs ++ [(lk, lv, lw), (e.1, id e.2)] = (runs ++ [(lk, lv, lw)]) ++ [(e.1, e.2)] := by
    simp
  rw [if_neg hk, if_neg hk, hsplit, keepTwoSided_concat, List.filter_append]
  cases hone : lv.isEmpty || lw.isEmpty
  · -- a last run with both sides stays
    rw [if_neg Bool.false_ne_true]
    simp [twoSided, hone]
  · -- a last run that lacks a side is overwritten
    rw [if_pos rfl, List.modifyLast_concat]
    simp [twoSided, hone]

theorem foldl_putEntry_keepTwoSided (l : List (K × (List V × List W))) :
    ∀ runs : List (K × (List V × List W)),
      l.foldl putEntry (keepTwoSided runs) = keepTwoSided (l.foldl (runsPush id appendSides) runs) := by
  induction l with
  | nil => intro runs; rfl
  | cons e l ih =>
      intro runs
      rw [List.foldl_cons, putEntry_keepTwoSided, ih, List.foldl_cons]

/-- **`merge_core` in closed form**: the run fold of the two streams merged with
ties to the second, every run that lacks a side dropped except the last. -/
theorem mergeCore_eq (kmergeByA : KMergeBy (K × List V) fun a b => a.1 ≤ b.1)
    (kmergeByB : KMergeBy (K × List W) fun a b => a.1 ≤ b.1) (a1 : List (List (K × List V)))
    (b1 : List (List (K × List W))) :
    mergeCore kmergeByA kmergeByB a1 b1 =
      keepTwoSided (foldRuns id appendSides
        (List.merge ((kmergeByA.kmerge a1).map tagFirst) ((kmergeByB.kmerge b1).map tagSecond)
          fun x y => decide (x.1 < y.1))) := by
  rw [mergeCore, mergeCoreLoop_eq, foldRuns, ← foldl_putEntry_keepTwoSided]
  rfl

omit [LinearOrder K] in
/-- Dropping runs that lack a side loses no pair. -/
theorem groupPairs_keepTwoSided (runs : List (K × (List V × List W))) :
    groupPairs (keepTwoSided runs) = groupPairs runs := by
  rcases List.eq_nil_or_concat' runs with rfl | ⟨runs, last, rfl⟩
  · rfl
  rw [keepTwoSided_concat, groupPairs_append, groupPairs_append, groupPairs_filter]
  intro e _ he
  exact or_iff_not_imp_left.mpr (by simpa [twoSided] using he)

/-! #### The pairs of the merge -/

/-- The merged stream is sorted by key when both streams are. -/
theorem pairwise_keys_merge {mA : List (K × List V)} {mB : List (K × List W)}
    (hA : mA.Pairwise fun a b => a.1 ≤ b.1) (hB : mB.Pairwise fun a b => a.1 ≤ b.1) :
    (keys (List.merge (mA.map tagFirst) (mB.map tagSecond) fun x y => decide (x.1 < y.1))).Pairwise
      (· ≤ ·) :=
  List.pairwise_map.mpr (pairwise_merge_lt (List.pairwise_map.mpr hA) (List.pairwise_map.mpr hB))

/-- The first lists of a key in the merged stream are the first stream's. -/
theorem firsts_merge_perm (mA : List (K × List V)) (mB : List (K × List W)) (k : K) :
    (valuesAt k ((List.merge (mA.map tagFirst) (mB.map tagSecond) fun x y => decide (x.1 < y.1)).map
      fun e => (e.1, e.2.1))).flatten.Perm (valuesAt k mA).flatten := by
  have hperm := (@List.merge_perm_append _ (fun x y : K × (List V × List W) => decide (x.1 < y.1))
    (mA.map tagFirst) (mB.map tagSecond)).map fun e => (e.1, e.2.1)
  refine (Perm.valuesAt hperm k).flatten.trans ?_
  -- the second stream contributes empty first lists
  have hnil : (valuesAt k ((mB.map tagSecond).map fun e : K × (List V × List W) => (e.1, e.2.1))).flatten
      = [] := by
    simp [valuesAt, tagSecond]
  have hid : ((fun e : K × (List V × List W) => (e.1, e.2.1)) ∘ tagFirst) = id := by
    funext e
    rfl
  rw [List.map_append, valuesAt_append, List.flatten_append, hnil, List.append_nil, List.map_map,
    hid, List.map_id]

/-- The second lists of a key in the merged stream are the second stream's. -/
theorem seconds_merge_perm (mA : List (K × List V)) (mB : List (K × List W)) (k : K) :
    (valuesAt k ((List.merge (mA.map tagFirst) (mB.map tagSecond) fun x y => decide (x.1 < y.1)).map
      fun e => (e.1, e.2.2))).flatten.Perm (valuesAt k mB).flatten := by
  have hperm := (@List.merge_perm_append _ (fun x y : K × (List V × List W) => decide (x.1 < y.1))
    (mA.map tagFirst) (mB.map tagSecond)).map fun e => (e.1, e.2.2)
  refine (Perm.valuesAt hperm k).flatten.trans ?_
  -- the first stream contributes empty second lists
  have hnil : (valuesAt k ((mA.map tagFirst).map fun e : K × (List V × List W) => (e.1, e.2.2))).flatten
      = [] := by
    simp [valuesAt, tagFirst]
  have hid : ((fun e : K × (List V × List W) => (e.1, e.2.2)) ∘ tagSecond) = id := by
    funext e
    rfl
  rw [List.map_append, valuesAt_append, List.flatten_append, hnil, List.nil_append, List.map_map,
    hid, List.map_id]

/-- **The merge of one group joins the two sides.**  When the buckets of each
side hold key-sorted pregroups of a list over the keys satisfying `p`, the pairs
of `merge_core` are the join of the two lists restricted to those keys. -/
theorem groupPairs_mergeCore_perm (kmergeByA : KMergeBy (K × List V) fun a b => a.1 ≤ b.1)
    (kmergeByB : KMergeBy (K × List W) fun a b => a.1 ≤ b.1) {p : K → Prop} [DecidablePred p]
    {lA : List (K × V)} {lB : List (K × W)} {a1 : List (List (K × List V))}
    {b1 : List (List (K × List W))} (hA : Pregroups p lA a1.flatten) (hB : Pregroups p lB b1.flatten)
    (hsortedA : ∀ bucket ∈ a1, (keys bucket).Pairwise (· ≤ ·))
    (hsortedB : ∀ bucket ∈ b1, (keys bucket).Pairwise (· ≤ ·)) :
    (groupPairs (mergeCore kmergeByA kmergeByB a1 b1)).Perm
      (joinPairs (lA.filter fun e => decide (p e.1)) (lB.filter fun e => decide (p e.1))) := by
  have hmA := kmergeByA.sorted a1 fun bucket hb => List.pairwise_map.mp (hsortedA bucket hb)
  have hmB := kmergeByB.sorted b1 fun bucket hb => List.pairwise_map.mp (hsortedB bucket hb)
  rw [mergeCore_eq, groupPairs_keepTwoSided]
  apply groupPairs_perm_joinPairs
  · exact (pairwise_lt_keys_foldRuns id appendSides (pairwise_keys_merge hmA hmB)).nodup
  · intro k
    rw [firstsAt_foldRuns]
    exact (firsts_merge_perm _ _ k).trans
      ((Perm.valuesAt (kmergeByA.perm a1) k).flatten.trans (hA.perm_flatten_filter k))
  · intro k
    rw [secondsAt_foldRuns]
    exact (seconds_merge_perm _ _ k).trans
      ((Perm.valuesAt (kmergeByB.perm b1) k).flatten.trans (hB.perm_flatten_filter k))

/-! #### The overwrite -/

omit [LinearOrder K] in
theorem dropLast_keepTwoSided (runs : List (K × (List V × List W))) :
    (keepTwoSided runs).dropLast = runs.dropLast.filter twoSided := by
  rcases List.eq_nil_or_concat' runs with rfl | ⟨runs, last, rfl⟩
  · rfl
  rw [keepTwoSided_concat, List.dropLast_concat, List.dropLast_concat]

/-- **Only the last entry of `merge_core` may lack a side**: the loop overwrites
every other entry that lacks one. -/
theorem twoSided_of_mem_dropLast_mergeCore (kmergeByA : KMergeBy (K × List V) fun a b => a.1 ≤ b.1)
    (kmergeByB : KMergeBy (K × List W) fun a b => a.1 ≤ b.1) (a1 : List (List (K × List V)))
    (b1 : List (List (K × List W))) {e : K × (List V × List W)}
    (he : e ∈ (mergeCore kmergeByA kmergeByB a1 b1).dropLast) : twoSided e = true := by
  rw [mergeCore_eq, dropLast_keepTwoSided] at he
  exact (List.mem_filter.mp he).2

/-- **`merge_core` loses a one-sided key**: a key of the first side alone, followed
by a larger key of the second side, is overwritten in place. -/
theorem mergeCore_overwrites (kmergeByA : KMergeBy (K × List V) fun a b => a.1 ≤ b.1)
    (kmergeByB : KMergeBy (K × List W) fun a b => a.1 ≤ b.1) {ka kb : K} (hlt : ka < kb)
    (v : List V) (w : List W) :
    mergeCore kmergeByA kmergeByB [[(ka, v)]] [[(kb, w)]] = [(kb, ([], w))] := by
  rw [mergeCore, kmergeByA.kmerge_eq_singleton rfl, kmergeByB.kmerge_eq_singleton rfl]
  simp [mergeCoreLoop, hlt, pushOrMerge, ne_of_lt hlt]
  -- the first key's entry lacks its second side and is overwritten
  exact List.modifyLast_concat _ _ []

/-- Buckets that hold nothing merge into nothing. -/
theorem mergeCore_eq_nil (kmergeByA : KMergeBy (K × List V) fun a b => a.1 ≤ b.1)
    (kmergeByB : KMergeBy (K × List W) fun a b => a.1 ≤ b.1) {a1 : List (List (K × List V))}
    {b1 : List (List (K × List W))} (ha : a1.flatten = []) (hb : b1.flatten = []) :
    mergeCore kmergeByA kmergeByB a1 b1 = [] := by
  rw [mergeCore, kmergeByA.kmerge_eq_nil ha, kmergeByB.kmerge_eq_nil hb, mergeCoreLoop]

end Merge

/-! ### Block reshape -/

section Reshape

/-- The size test of the join reshape (`co_grouped_op.rs`:229-234): the product
of the two sides' `deep_size_of` is added to the running size, and a block ends
once the running size exceeds `MAX_ENC_BL * MAX_ENC_BL`; the size then restarts
from zero. -/
def joinSplit (deepSizeOfV : List V → ℕ) (deepSizeOfW : List W → ℕ) (len : ℕ)
    (e : K × (List V × List W)) : Bool × ℕ :=
  let len := len + deepSizeOfV e.2.1 * deepSizeOfW e.2.2
  let res := decide (len > maxEncBl * maxEncBl)
  (res, if res then 0 else len)

/-- An entry too large for a block: `v.len() * w.len() > MAX_ENC_BL * 128`. -/
def isLarge (e : K × (List V × List W)) : Bool :=
  decide (e.2.1.length * e.2.2.length > maxEncBl * 128)

/-- The chunks of a large entry (`co_grouped_op.rs`:238-256): the longer side
cut into chunks of `(MAX_ENC_BL * 128 - 1) / len + 1` values, `len` the length
of the other side, each chunk with the whole other side. -/
def chunkEntry (e : K × (List V × List W)) : List (K × (List V × List W)) :=
  let vlen := e.2.1.length
  let wlen := e.2.2.length
  if vlen > wlen then
    let chunkSize := (maxEncBl * 128 - 1) / wlen + 1
    let chunkNum := (vlen - 1) / chunkSize + 1
    (List.replicate chunkNum e.1).zip ((chunks chunkSize e.2.1).zip (List.replicate chunkNum e.2.2))
  else
    let chunkSize := (maxEncBl * 128 - 1) / vlen + 1
    let chunkNum := (wlen - 1) / chunkSize + 1
    (List.replicate chunkNum e.1).zip ((List.replicate chunkNum e.2.1).zip (chunks chunkSize e.2.2))

/-- The blocks of one piece of the join reshape (`co_grouped_op.rs`:235-260): the
large entries are drained out and chunked, every chunk a block of its own, and
what remains of the piece is the last block. -/
def joinBlocks (piece : List (K × (List V × List W))) : List (List (K × (List V × List W))) :=
  ((piece.filter isLarge).flatMap chunkEntry).map (fun x => [x]) ++
    [piece.filter fun e => !isLarge e]

/-- The block reshape of a join (`is_for_join`, `co_grouped_op.rs`:226-261):
pieces cut by the running size, then every piece's blocks. -/
def joinReshape (deepSizeOfV : List V → ℕ) (deepSizeOfW : List W → ℕ)
    (agg : List (K × (List V × List W))) : List (List (K × (List V × List W))) :=
  (splitInclusive (joinSplit deepSizeOfV deepSizeOfW) 0 [] agg).flatMap joinBlocks

/-- The size test of the cogroup reshape (`co_grouped_op.rs`:266-271): the number
of pairs of an entry added to the running size, a block ending once it exceeds
`MAX_ENC_BL`. -/
def cogroupSplit (len : ℕ) (e : K × (List V × List W)) : Bool × ℕ :=
  let len := len + e.2.1.length * e.2.2.length
  let res := decide (len > maxEncBl)
  (res, if res then 0 else len)

/-- The block reshape when the cogroup is not for a join
(`co_grouped_op.rs`:262-274): entries with an empty side are dropped, the rest
cut by the running number of pairs. -/
def cogroupReshape (agg : List (K × (List V × List W))) : List (List (K × (List V × List W))) :=
  splitInclusive cogroupSplit 0 [] (agg.filter fun e => e.2.1.length != 0 && e.2.2.length != 0)

/-- The reshape that `is_for_join` selects. -/
def reshape (deepSizeOfV : List V → ℕ) (deepSizeOfW : List W → ℕ) (isForJoin : Bool)
    (agg : List (K × (List V × List W))) : List (List (K × (List V × List W))) :=
  if isForJoin then joinReshape deepSizeOfV deepSizeOfW agg else cogroupReshape agg

/-- `n` copies of `a`, zipped with a list of length `n` zipped with `n` copies of
`b`, is the list with `a` and `b` attached. -/
theorem zip_replicate_zip_replicate {α β γ : Type*} (a : α) (b : γ) :
    ∀ l : List β, (List.replicate l.length a).zip (l.zip (List.replicate l.length b)) =
      l.map fun x => (a, (x, b))
  | [] => rfl
  | x :: l => by
      rw [List.length_cons, List.replicate_succ, List.replicate_succ, List.zip_cons_cons,
        List.zip_cons_cons, zip_replicate_zip_replicate a b l, List.map_cons]

theorem zip_replicate_replicate_zip {α β γ : Type*} (a : α) (b : β) :
    ∀ l : List γ, (List.replicate l.length a).zip ((List.replicate l.length b).zip l) =
      l.map fun x => (a, (b, x))
  | [] => rfl
  | x :: l => by
      rw [List.length_cons, List.replicate_succ, List.replicate_succ, List.zip_cons_cons,
        List.zip_cons_cons, zip_replicate_replicate_zip a b l, List.map_cons]

/-- **Chunking a large entry keeps its pairs.** -/
theorem groupPairs_chunkEntry_perm (e : K × (List V × List W)) :
    (groupPairs (chunkEntry e)).Perm (entryPairs e) := by
  obtain ⟨k, v, w⟩ := e
  unfold chunkEntry
  dsimp only
  split
  · -- the first side is cut; it is not empty, being the longer one
    rename_i hlonger
    have hsize : 0 < (maxEncBl * 128 - 1) / w.length + 1 := Nat.succ_pos _
    have hv : v ≠ [] := List.ne_nil_of_length_pos (by omega)
    rw [← length_chunks hsize v hv, zip_replicate_zip_replicate, groupPairs, List.flatMap_map,
      flatMap_entryPairs_left, flatten_chunks hsize]
  · -- the second side is cut
    have hsize : 0 < (maxEncBl * 128 - 1) / v.length + 1 := Nat.succ_pos _
    rcases eq_or_ne w [] with rfl | hw
    · -- no second value: no chunk and no pair
      simp [chunks_nil, entryPairs]
    rw [← length_chunks hsize w hw, zip_replicate_replicate_zip, groupPairs, List.flatMap_map]
    have hpieces := flatMap_entryPairs_right_perm k v (chunks ((maxEncBl * 128 - 1) / v.length + 1) w)
    rwa [flatten_chunks hsize] at hpieces

/-- The blocks of a piece hold the piece's pairs. -/
theorem groupPairs_joinBlocks_perm (piece : List (K × (List V × List W))) :
    (groupPairs (joinBlocks piece).flatten).Perm (groupPairs piece) := by
  have hsingle : ∀ l : List (K × (List V × List W)), (l.map fun x => [x]).flatten = l := by
    intro l
    rw [← List.flatMap_def, List.flatMap_singleton']
  rw [joinBlocks, List.flatten_append, hsingle, List.flatten_singleton, groupPairs_append,
    groupPairs_flatMap]
  -- chunk by chunk, then the drained entries and the rest together
  refine ((List.Perm.flatMap_left _ fun e _ => groupPairs_chunkEntry_perm e).append_right _).trans ?_
  show (groupPairs (piece.filter isLarge) ++ groupPairs (piece.filter fun e => !isLarge e)).Perm
    (groupPairs piece)
  rw [← groupPairs_append]
  exact (List.filter_append_perm isLarge piece).flatMap_right _

/-- **The join reshape keeps the pairs.** -/
theorem groupPairs_joinReshape_perm (deepSizeOfV : List V → ℕ) (deepSizeOfW : List W → ℕ)
    (agg : List (K × (List V × List W))) :
    (groupPairs (joinReshape deepSizeOfV deepSizeOfW agg).flatten).Perm (groupPairs agg) := by
  have hpieces := flatten_splitInclusive (joinSplit deepSizeOfV deepSizeOfW) agg 0 []
  rw [List.nil_append] at hpieces
  rw [joinReshape, flatten_flatMap, groupPairs_flatMap]
  conv_rhs => rw [← hpieces, groupPairs_flatten]
  exact List.Perm.flatMap_left _ fun piece _ => groupPairs_joinBlocks_perm piece

end Reshape

/-! ### `compute_inner` -/

section Compute

variable [LinearOrder K]

open Shuffled in
/-- `CoGrouped::compute_inner` (`co_grouped_op.rs`:125-282) on the fetched groups
of encrypted buckets of the two sides.  The length assertions fail (`none`)
unless each side has `MAX_THREAD + 1` groups.  The last group of each side,
popped as the profiling sample, is merged first; with `is_para_mer` the next
`MAX_THREAD` groups are popped and merged in threads, and the groups left are
merged pairwise in order.  Every merge is reshaped and its blocks encrypted. -/
def computeInner (kmergeByA : KMergeBy (K × List V) fun a b => a.1 ≤ b.1)
    (kmergeByB : KMergeBy (K × List W) fun a b => a.1 ≤ b.1) (deepSizeOfV : List V → ℕ)
    (deepSizeOfW : List W → ℕ) (isForJoin isParaMer : Bool)
    (a1Enc : List (List (List (ItemE (List (K × List V))))))
    (b1Enc : List (List (List (ItemE (List (K × List W)))))) :
    Option (List (ItemE (List (K × (List V × List W))))) :=
  if a1Enc.length = maxThread + 1 ∧ b1Enc.length = maxThread + 1 then
    let a1 := a1Enc.map (List.map batchDecrypt)
    let b1 := b1Enc.map (List.map batchDecrypt)
    let merge := fun (groups : List (List (K × List V)) × List (List (K × List W))) =>
      mergeCore kmergeByA kmergeByB groups.1 groups.2
    -- `pop().unwrap()` of the profiling sample: the last group of each side
    match a1.getLast?, b1.getLast? with
    | some sampleA, some sampleB =>
        let a1 := a1.dropLast
        let b1 := b1.dropLast
        let handlers := if isParaMer then
            (popN maxThread a1).bind fun as =>
              (popN maxThread b1).map fun bs => (as.zip bs).map merge
          else some []
        -- what the threads' pops leave behind
        let a1 := if isParaMer then a1.take (a1.length - maxThread) else a1
        let b1 := if isParaMer then b1.take (b1.length - maxThread) else b1
        handlers.map fun handlers =>
          (merge (sampleA, sampleB) :: handlers ++ (a1.zip b1).map merge).flatMap fun agg =>
            (reshape deepSizeOfV deepSizeOfW isForJoin agg).flatMap batchEncrypt
    | _, _ => none
  else none

/-- **`compute_inner` is every group's reshaped merge**, the last group first,
whatever the profiling flag says. -/
theorem computeInner_eq (kmergeByA : KMergeBy (K × List V) fun a b => a.1 ≤ b.1)
    (kmergeByB : KMergeBy (K × List W) fun a b => a.1 ≤ b.1) (deepSizeOfV : List V → ℕ)
    (deepSizeOfW : List W → ℕ) (isForJoin isParaMer : Bool)
    {a1Enc : List (List (List (ItemE (List (K × List V)))))}
    {b1Enc : List (List (List (ItemE (List (K × List W)))))}
    (hlenA : a1Enc.length = maxThread + 1) (hlenB : b1Enc.length = maxThread + 1) :
    computeInner kmergeByA kmergeByB deepSizeOfV deepSizeOfW isForJoin isParaMer a1Enc b1Enc =
      some ((a1Enc.zip b1Enc).reverse.flatMap fun groups =>
        (reshape deepSizeOfV deepSizeOfW isForJoin
          (mergeCore kmergeByA kmergeByB (groups.1.map batchDecrypt) (groups.2.map batchDecrypt))).flatMap
          batchEncrypt) := by
  -- with one thread each side has exactly two groups
  obtain ⟨a0, a1, rfl⟩ : ∃ a0 a1, a1Enc = [a0, a1] := by
    match a1Enc, hlenA with
    | [a0, a1], _ => exact ⟨a0, a1, rfl⟩
  obtain ⟨b0, b1, rfl⟩ : ∃ b0 b1, b1Enc = [b0, b1] := by
    match b1Enc, hlenB with
    | [b0, b1], _ => exact ⟨b0, b1, rfl⟩
  unfold computeInner
  rw [if_pos ⟨hlenA, hlenB⟩]
  cases isParaMer <;> simp [maxThread, Shuffled.popN]

/-- `CoGroupedRdd::secure_compute_prev` after the fetches, for two shuffle
dependencies (framework `co_grouped_rdd.rs`:177-261): the groups without a bucket
are dropped on each side (`sub_part_len > 0`), and when either side has none
left the partition yields no block without calling the enclave. -/
def secureComputePrev (kmergeByA : KMergeBy (K × List V) fun a b => a.1 ≤ b.1)
    (kmergeByB : KMergeBy (K × List W) fun a b => a.1 ≤ b.1) (deepSizeOfV : List V → ℕ)
    (deepSizeOfW : List W → ℕ) (isForJoin isParaMer : Bool)
    (fetchedA : List (List (List (ItemE (List (K × List V))))))
    (fetchedB : List (List (List (ItemE (List (K × List W)))))) :
    Option (List (ItemE (List (K × (List V × List W))))) :=
  let kv := fetchedA.filter fun subPart => 0 < subPart.length
  let kw := fetchedB.filter fun subPart => 0 < subPart.length
  if kv.length = 0 ∨ kw.length = 0 then some []
  else computeInner kmergeByA kmergeByB deepSizeOfV deepSizeOfW isForJoin isParaMer kv kw

/-- Fetched groups that all hold buckets go to the enclave whole. -/
theorem secureComputePrev_of_ne_nil (kmergeByA : KMergeBy (K × List V) fun a b => a.1 ≤ b.1)
    (kmergeByB : KMergeBy (K × List W) fun a b => a.1 ≤ b.1) (deepSizeOfV : List V → ℕ)
    (deepSizeOfW : List W → ℕ) (isForJoin isParaMer : Bool)
    {fetchedA : List (List (List (ItemE (List (K × List V)))))}
    {fetchedB : List (List (List (ItemE (List (K × List W)))))}
    (hneA : ∀ subPart ∈ fetchedA, subPart ≠ []) (hneB : ∀ subPart ∈ fetchedB, subPart ≠ [])
    (hlenA : fetchedA.length = maxThread + 1) (hlenB : fetchedB.length = maxThread + 1) :
    secureComputePrev kmergeByA kmergeByB deepSizeOfV deepSizeOfW isForJoin isParaMer fetchedA
        fetchedB =
      computeInner kmergeByA kmergeByB deepSizeOfV deepSizeOfW isForJoin isParaMer fetchedA
        fetchedB := by
  have hkeepA : (fetchedA.filter fun subPart => 0 < subPart.length) = fetchedA :=
    List.filter_eq_self.mpr fun subPart h => by simpa [List.length_pos_iff] using hneA subPart h
  have hkeepB : (fetchedB.filter fun subPart => 0 < subPart.length) = fetchedB :=
    List.filter_eq_self.mpr fun subPart h => by simpa [List.length_pos_iff] using hneB subPart h
  unfold secureComputePrev
  rw [hkeepA, hkeepB, if_neg (by rw [hlenA, hlenB]; omega)]

/-- A side whose fetched groups hold no bucket gives an empty partition. -/
theorem secureComputePrev_of_eq_nil_left (kmergeByA : KMergeBy (K × List V) fun a b => a.1 ≤ b.1)
    (kmergeByB : KMergeBy (K × List W) fun a b => a.1 ≤ b.1) (deepSizeOfV : List V → ℕ)
    (deepSizeOfW : List W → ℕ) (isForJoin isParaMer : Bool)
    {fetchedA : List (List (List (ItemE (List (K × List V)))))}
    (fetchedB : List (List (List (ItemE (List (K × List W))))))
    (hnil : ∀ subPart ∈ fetchedA, subPart = []) :
    secureComputePrev kmergeByA kmergeByB deepSizeOfV deepSizeOfW isForJoin isParaMer fetchedA
      fetchedB = some [] := by
  have hdrop : (fetchedA.filter fun subPart => 0 < subPart.length) = [] :=
    List.filter_eq_nil_iff.mpr fun subPart h => by simp [hnil subPart h]
  unfold secureComputePrev
  rw [hdrop]
  dsimp only
  rw [if_pos (Or.inl List.length_nil)]

theorem secureComputePrev_of_eq_nil_right (kmergeByA : KMergeBy (K × List V) fun a b => a.1 ≤ b.1)
    (kmergeByB : KMergeBy (K × List W) fun a b => a.1 ≤ b.1) (deepSizeOfV : List V → ℕ)
    (deepSizeOfW : List W → ℕ) (isForJoin isParaMer : Bool)
    (fetchedA : List (List (List (ItemE (List (K × List V))))))
    {fetchedB : List (List (List (ItemE (List (K × List W)))))}
    (hnil : ∀ subPart ∈ fetchedB, subPart = []) :
    secureComputePrev kmergeByA kmergeByB deepSizeOfV deepSizeOfW isForJoin isParaMer fetchedA
      fetchedB = some [] := by
  have hdrop : (fetchedB.filter fun subPart => 0 < subPart.length) = [] :=
    List.filter_eq_nil_iff.mpr fun subPart h => by simp [hnil subPart h]
  unfold secureComputePrev
  rw [hdrop]
  dsimp only
  rw [if_pos (Or.inr List.length_nil)]

end Compute

end CoGrouped

end Flare
