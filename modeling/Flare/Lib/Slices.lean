import Mathlib

/-!
# Slices, sorts and k-way merges

The operations on sequences that the shuffle relies on but that are not part of
it: splitting into fixed-size chunks, sorting without a stability promise, and
merging several sorted sequences.

## Main definitions

* `chunks size l` — consecutive pieces of `size` elements, the last possibly
  shorter (a slice's `chunks`).
* `chunksExact size l` — consecutive pieces of exactly `size` elements, a shorter
  remainder dropped (a slice's `chunks_exact`).
* `SortBy α le` — a sort: any function returning a `le`-sorted permutation of its
  input.  No stability is promised, so the order of equivalent elements is free.
* `KMergeBy α le` — a k-way merge: any function returning a permutation of the
  concatenation of its inputs, `le`-sorted whenever every input is.

## Design notes

`SortBy` and `KMergeBy` carry their contract as fields, so that a result proved
for an arbitrary value of them holds for every implementation: the order of
equal keys is exactly what an unstable sort or a heap-based merge leaves open.
`SortBy.ofMergeSort` and `KMergeBy.ofMerge` are concrete inhabitants, built on
the core `List.mergeSort` and `List.merge`.
-/

namespace Slices

universe u

variable {α : Type u}

/-- Flattening a `flatMap` of lists of lists flattens each image. -/
theorem flatten_flatMap {β : Type*} (l : List α) (f : α → List (List β)) :
    (l.flatMap f).flatten = l.flatMap fun x => (f x).flatten := by
  induction l with
  | nil => rfl
  | cons a l ih => rw [List.flatMap_cons, List.flatten_append, ih, List.flatMap_cons]

/-- `mapM` in `Option` of a function that never fails. -/
theorem mapM_eq_some_map {γ : Type*} {δ : Type*} {f : γ → Option δ} {g : γ → δ} :
    ∀ {l : List γ}, (∀ x ∈ l, f x = some (g x)) → l.mapM f = some (l.map g)
  | [], _ => rfl
  | x :: l, h => by
      rw [List.mapM_cons, h x (by simp), mapM_eq_some_map (fun y hy => h y (by simp [hy]))]
      rfl

/-! ### Chunks -/

/-- **Consecutive chunks** of `size` elements, the last one possibly shorter.  A
zero size yields no chunk (the slice operation panics there). -/
def chunks (size : ℕ) (l : List α) : List (List α) :=
  if _h : 0 < size ∧ l ≠ [] then l.take size :: chunks size (l.drop size) else []
termination_by l.length
decreasing_by
  obtain ⟨hsize, hne⟩ := _h
  have hpos : 0 < l.length := List.length_pos_iff.mpr hne
  simp only [List.length_drop]
  omega

@[simp] theorem chunks_nil (size : ℕ) : chunks size ([] : List α) = [] := by
  rw [chunks]; simp

/-- Chunks put back together give the list. -/
theorem flatten_chunks {size : ℕ} (hsize : 0 < size) : ∀ l : List α, (chunks size l).flatten = l
  | [] => by simp
  | a :: l => by
      rw [chunks, dif_pos ⟨hsize, List.cons_ne_nil _ _⟩, List.flatten_cons,
        flatten_chunks hsize, List.take_append_drop]
termination_by l => l.length
decreasing_by simp only [List.length_drop, List.length_cons]; omega

/-- A non-empty list no longer than `size` is its own only chunk. -/
theorem chunks_of_length_le {size : ℕ} (hsize : 0 < size) {l : List α} (hne : l ≠ [])
    (hlen : l.length ≤ size) : chunks size l = [l] := by
  rw [chunks, dif_pos ⟨hsize, hne⟩, List.take_of_length_le hlen, List.drop_of_length_le hlen,
    chunks_nil]

/-- A non-empty list has `(length - 1) / size + 1` chunks. -/
theorem length_chunks {size : ℕ} (hsize : 0 < size) :
    ∀ l : List α, l ≠ [] → (chunks size l).length = (l.length - 1) / size + 1
  | [], hne => absurd rfl hne
  | a :: l, _ => by
      rw [chunks, dif_pos ⟨hsize, List.cons_ne_nil _ _⟩, List.length_cons]
      by_cases hrest : (a :: l).drop size = []
      · -- the first chunk is the whole list
        have hle : (a :: l).length ≤ size := List.drop_eq_nil_iff.mp hrest
        rw [hrest, chunks_nil, Nat.div_eq_of_lt (by omega)]
        rfl
      · have hlt : size < (a :: l).length := by
          by_contra hge
          exact hrest (List.drop_eq_nil_of_le (by omega))
        have hsplit : (a :: l).length - 1 = ((a :: l).length - size - 1) + size := by omega
        rw [length_chunks hsize _ hrest, List.length_drop, hsplit, Nat.add_div_right _ hsize]
termination_by l => l.length
decreasing_by simp only [List.length_drop, List.length_cons]; omega

/-- **Windows cover the list.**  The windows `[i * size, (i + 1) * size)` for `i < n`,
one after the other, give back a list of at most `n * size` elements. -/
theorem flatMap_range_windows {size : ℕ} :
    ∀ (n : ℕ) (l : List α), l.length ≤ n * size →
      (List.range n).flatMap (fun i => (l.drop (i * size)).take size) = l
  | 0, l, hl => by
      rw [Nat.zero_mul, Nat.le_zero, List.length_eq_zero_iff] at hl
      simp [hl]
  | n + 1, l, hl => by
      -- the first window, then the windows of the rest
      have hshift : ∀ i, (l.drop ((i + 1) * size)).take size = ((l.drop size).drop (i * size)).take size := by
        intro i
        rw [List.drop_drop, Nat.succ_mul, Nat.add_comm]
      have hrest : (l.drop size).length ≤ n * size := by
        rw [List.length_drop]
        rw [Nat.succ_mul] at hl
        omega
      rw [List.range_succ_eq_map, List.flatMap_cons, List.flatMap_map]
      simp only [Nat.zero_mul, List.drop_zero, hshift]
      rw [flatMap_range_windows n (l.drop size) hrest, List.take_append_drop]

/-- **Selections by a partition of the positions put every element back once.**  When the
position lists `gs` hold every position of `l` once, the numbered elements each of them
selects, side by side, are a permutation of the numbered list. -/
theorem perm_flatMap_filter_zipIdx (l : List α) {gs : List (List ℕ)}
    (hgs : gs.flatten.Perm (List.range l.length)) :
    (gs.flatMap fun ids => l.zipIdx.filter fun e => e.2 ∈ ids).Perm l.zipIdx := by
  classical
  have hnodup : ∀ ids ∈ gs, ids.Nodup :=
    (List.nodup_flatten.mp (hgs.nodup_iff.mpr List.nodup_range)).1
  rw [List.perm_iff_count]
  rintro ⟨x, i⟩
  -- a selection holds the entry as often as its position list holds `i`: once or never
  have hsel : ∀ ids ∈ gs, (l.zipIdx.filter fun e => e.2 ∈ ids).count (x, i) =
      ids.count i * l.zipIdx.count (x, i) := by
    intro ids hids
    by_cases hi : i ∈ ids
    · rw [List.count_filter (by simpa using hi), List.count_eq_one_of_mem (hnodup ids hids) hi,
        Nat.one_mul]
    · rw [List.count_eq_zero_of_not_mem hi, Nat.zero_mul]
      exact List.count_eq_zero_of_not_mem fun hmem => hi (by simpa using (List.mem_filter.mp hmem).2)
  rw [List.count_flatMap, Function.comp_def, List.map_congr_left hsel, List.sum_map_mul_right,
    ← List.count_flatten, hgs.count_eq]
  by_cases hlt : i < l.length
  · rw [List.count_eq_one_of_mem List.nodup_range (List.mem_range.mpr hlt), Nat.one_mul]
  · have hnot : (x, i) ∉ l.zipIdx := fun hmem => hlt (by simpa using (List.mem_zipIdx hmem).2.1)
    rw [List.count_eq_zero_of_not_mem hnot, Nat.mul_zero]

/-- **Exact chunks**: `l.length / size` pieces of `size` elements; the remainder
is dropped. -/
def chunksExact (size : ℕ) (l : List α) : List (List α) :=
  (List.range (l.length / size)).map fun i => (l.drop (i * size)).take size

@[simp] theorem length_chunksExact (size : ℕ) (l : List α) :
    (chunksExact size l).length = l.length / size := by
  simp [chunksExact]

theorem getElem_chunksExact (size : ℕ) (l : List α) (i : ℕ)
    (h : i < (chunksExact size l).length) :
    (chunksExact size l)[i] = (l.drop (i * size)).take size := by
  simp [chunksExact]

/-- Element `j < size` of exact chunk `i` is element `i * size + j` of the list. -/
theorem getElem?_getElem_chunksExact (size : ℕ) (l : List α) (i j : ℕ)
    (hi : i < (chunksExact size l).length) (hj : j < size) :
    (chunksExact size l)[i][j]? = l[i * size + j]? := by
  simp [getElem_chunksExact, hj]

/-- Exact chunks are full. -/
theorem length_getElem_chunksExact (size : ℕ) (l : List α) (i : ℕ)
    (hi : i < (chunksExact size l).length) : ((chunksExact size l)[i]).length = size := by
  simp only [length_chunksExact] at hi
  have hlen : (i + 1) * size ≤ l.length := by
    have := Nat.mul_le_of_le_div size (i + 1) l.length hi
    simpa [Nat.mul_comm] using this
  simp only [getElem_chunksExact, List.length_take, List.length_drop]
  rw [Nat.add_mul, Nat.one_mul] at hlen
  omega

/-! ### Splitting after marked elements -/

/-- **Splitting after marked elements** (a slice's `split_inclusive`), with a
predicate that carries a state from one call to the next, as a closure over a
mutable variable does: the predicate is called once per element, in order, and
an element it marks ends its piece.  A non-empty rest is the last piece, so no
piece is empty. -/
def splitInclusive {σ : Type*} (pred : σ → α → Bool × σ) : σ → List α → List α → List (List α)
  | _, cur, [] => if cur.isEmpty then [] else [cur]
  | s, cur, x :: xs =>
      let (res, s') := pred s x
      if res then (cur ++ [x]) :: splitInclusive pred s' [] xs
      else splitInclusive pred s' (cur ++ [x]) xs

/-- The pieces put back together give the list. -/
theorem flatten_splitInclusive {σ : Type*} (pred : σ → α → Bool × σ) :
    ∀ (l : List α) (s : σ) (cur : List α), (splitInclusive pred s cur l).flatten = cur ++ l := by
  intro l
  induction l with
  | nil =>
      intro s cur
      cases cur <;> rfl
  | cons x xs ih =>
      intro s cur
      simp only [splitInclusive]
      split <;> simp [ih]

/-! ### Sorts and k-way merges -/

/-- **A sort** by `le`: a sorted permutation of the input, the order of
equivalent elements left open. -/
structure SortBy (α : Type u) (le : α → α → Prop) where
  sort : List α → List α
  perm : ∀ l, (sort l).Perm l
  sorted : ∀ l, (sort l).Pairwise le

/-- **A k-way merge** by `le`: a permutation of the concatenated inputs, sorted
whenever every input is. -/
structure KMergeBy (α : Type u) (le : α → α → Prop) where
  kmerge : List (List α) → List α
  perm : ∀ ls, (kmerge ls).Perm ls.flatten
  sorted : ∀ ls, (∀ l ∈ ls, l.Pairwise le) → (kmerge ls).Pairwise le

/-- Sorting one element leaves it. -/
theorem SortBy.sort_singleton {le : α → α → Prop} (s : SortBy α le) (x : α) : s.sort [x] = [x] :=
  List.perm_singleton.mp (s.perm [x])

/-- Merging inputs that hold nothing gives nothing. -/
theorem KMergeBy.kmerge_eq_nil {le : α → α → Prop} (m : KMergeBy α le) {ls : List (List α)}
    (h : ls.flatten = []) : m.kmerge ls = [] :=
  List.perm_nil.mp (h ▸ m.perm ls)

/-- Merging inputs that hold one element gives it. -/
theorem KMergeBy.kmerge_eq_singleton {le : α → α → Prop} (m : KMergeBy α le) {ls : List (List α)}
    {x : α} (h : ls.flatten = [x]) : m.kmerge ls = [x] :=
  List.perm_singleton.mp (h ▸ m.perm ls)

section Instances

variable (le : α → α → Prop) [DecidableRel le] (trans : ∀ a b c, le a b → le b c → le a c)
  (total : ∀ a b, le a b ∨ le b a)

include trans total in
/-- The boolean test of a total preorder is transitive and total. -/
theorem decide_trans_total :
    (∀ a b c, decide (le a b) → decide (le b c) → decide (le a c)) ∧
      ∀ a b, (decide (le a b) || decide (le b a)) := by
  constructor
  · intro a b c hab hbc
    exact decide_eq_true (trans a b c (of_decide_eq_true hab) (of_decide_eq_true hbc))
  · intro a b
    rcases total a b with h | h <;> simp [h]

/-- The core merge sort by a decidable total preorder, as a `SortBy`. -/
def SortBy.ofMergeSort : SortBy α le where
  sort l := l.mergeSort fun a b => decide (le a b)
  perm l := List.mergeSort_perm l _
  sorted l := (List.pairwise_mergeSort (decide_trans_total le trans total).1
    (decide_trans_total le trans total).2 l).imp of_decide_eq_true

/-- Pairwise merging from the right by a decidable total preorder, as a
`KMergeBy`. -/
def KMergeBy.ofMerge : KMergeBy α le where
  kmerge ls := ls.foldr (fun l acc => List.merge l acc fun a b => decide (le a b)) []
  perm ls := by
    induction ls with
    | nil => simp
    | cons l ls ih =>
        simp only [List.foldr_cons, List.flatten_cons]
        exact (List.merge_perm_append _).trans (List.Perm.append_left l ih)
  sorted ls hls := by
    induction ls with
    | nil => simp
    | cons l ls ih =>
        simp only [List.foldr_cons]
        refine (List.pairwise_merge (decide_trans_total le trans total).1
          (decide_trans_total le trans total).2 _ _ ?_ ?_).imp of_decide_eq_true
        · exact (hls l (by simp)).imp decide_eq_true
        · exact (ih fun l' hl' => hls l' (by simp [hl'])).imp decide_eq_true

end Instances

section MergeByLt

variable {κ : Type*} [LinearOrder κ] {γ : Type*}

/-- Merging that takes from the left list only on a strictly smaller key is the
merge that takes from the right list on a key at most as large, with the lists
swapped: ties go to the right list. -/
theorem merge_lt_eq_merge_le :
    ∀ (l₁ l₂ : List (κ × γ)),
      List.merge l₁ l₂ (fun a b => decide (a.1 < b.1)) =
        List.merge l₂ l₁ (fun a b => decide (a.1 ≤ b.1))
  | [], l₂ => by simp
  | a :: l₁, [] => by simp
  | a :: l₁, b :: l₂ => by
      rw [List.cons_merge_cons, List.cons_merge_cons]
      by_cases h : a.1 < b.1
      · rw [if_pos (decide_eq_true h), if_neg (by simpa using h), merge_lt_eq_merge_le l₁ (b :: l₂)]
      · rw [if_neg (by simpa using h), if_pos (by simpa using h), merge_lt_eq_merge_le (a :: l₁) l₂]
termination_by l₁ l₂ => l₁.length + l₂.length

/-- The merge that gives ties to the right list keeps two key-sorted lists
sorted. -/
theorem pairwise_merge_lt {l₁ l₂ : List (κ × γ)} (h₁ : l₁.Pairwise fun a b => a.1 ≤ b.1)
    (h₂ : l₂.Pairwise fun a b => a.1 ≤ b.1) :
    (List.merge l₁ l₂ fun a b => decide (a.1 < b.1)).Pairwise fun a b => a.1 ≤ b.1 := by
  have htrans := decide_trans_total (fun a b : κ × γ => a.1 ≤ b.1) (fun _ _ _ => le_trans)
    fun a b => le_total a.1 b.1
  rw [merge_lt_eq_merge_le]
  exact (List.pairwise_merge htrans.1 htrans.2 l₂ l₁ (h₂.imp decide_eq_true)
    (h₁.imp decide_eq_true)).imp of_decide_eq_true

end MergeByLt

end Slices
