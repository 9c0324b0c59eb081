import Mathlib
import Flare.Basic

/-!
# Slicing a parallel collection

`ParallelCollection::new` slices its input, plaintext or ciphertext, into `num_slices`
slices (`slice`, `rdd/parallel_collection_rdd.rs`:170-219), and `splits` builds one split
for each index `0..num_slices` from them (275-298).  `slice` makes one pass over the
elements: slice `c` ends at `end = (c + 1) * n / num_slices`; an element at or past `end`
closes the current slice, opens the next one and goes into it.

## Main definitions

* `sliceVec` — the loop, shared by the plaintext and the ciphertext branches.
* `slice`, `splits` — the functions.

## Main results

* `flatten_sliceVec` — the slices put back together are the input.
* `sliceVec_of_le`, `splits_sliceVec_of_le` — with at least as many elements as slices,
  there are `k` slices, slice `i` is `data[i * n / k .. (i + 1) * n / k]`, and `splits`
  reads them all.
* `splits_one_element_three_slices` — one element in three slices: `slice` makes two, and
  `splits` indexes past them.

## Design notes

An element always goes into the slice it opens, so when a slice should stay empty and the
next one too, one slice is missing.  Panics are `none`.
-/

namespace Flare

namespace ParallelCollection

universe u

variable {β T : Type u}

/-- The state of `slice`'s loop: `slice_count`, `end`, `output`, `tmp` and `iter_count`. -/
structure SliceState (β : Type u) where
  sliceCount : ℕ
  stop : ℕ
  output : List (List β)
  tmp : List β
  iterCount : ℕ

/-- One round of `slice`'s loop over `n` elements. -/
def sliceStep (n numSlices : ℕ) (st : SliceState β) (i : β) : SliceState β :=
  if st.iterCount < st.stop then { st with tmp := st.tmp ++ [i], iterCount := st.iterCount + 1 }
  else
    ⟨st.sliceCount + 1, (st.sliceCount + 1 + 1) * n / numSlices, st.output ++ [st.tmp], [i],
      st.iterCount + 1⟩

/-- The loop of `slice` over a non-empty vector, and the last slice pushed after it. -/
def sliceVec (data : List β) (numSlices : ℕ) : List (List β) :=
  let st := data.foldl (sliceStep data.length numSlices) ⟨0, (0 + 1) * data.length / numSlices, [], [], 0⟩
  st.output ++ [st.tmp]

/-- `DataForm`: the slices of a plaintext or of a ciphertext input. -/
inductive DataForm (T : Type u) where
  | plaintext (slices : List (List T))
  | ciphertext (slices : List (List (ItemE (List T))))

/-- `ParallelCollection::slice`; `none` where it panics. -/
def slice (data : List T) (dataEnc : List (ItemE (List T))) (numSlices : ℕ) : Option (DataForm T) :=
  if numSlices < 1 then none
  else if data.length > 0 then some (.plaintext (sliceVec data numSlices))
  else if dataEnc.length > 0 then some (.ciphertext (sliceVec dataEnc numSlices))
  else none

/-- `splits`: slice `i` for each `i` in `0..num_slices`; `none` where `splits[i]` is past the
end. -/
def splits (slices : List (List β)) (numSlices : ℕ) : Option (List (List β)) :=
  (List.range numSlices).mapM fun i => slices[i]?

/-! ### Nothing lost -/

/-- Every round puts its element at the end of the slices so far. -/
theorem foldl_sliceStep_flatten (n numSlices : ℕ) :
    ∀ (xs : List β) (st : SliceState β),
      (xs.foldl (sliceStep n numSlices) st).output.flatten ++ (xs.foldl (sliceStep n numSlices) st).tmp =
        st.output.flatten ++ st.tmp ++ xs
  | [], st => by simp
  | i :: xs, st => by
      rw [List.foldl_cons, foldl_sliceStep_flatten n numSlices xs]
      unfold sliceStep
      split_ifs <;> simp

/-- **The slices put back together are the input.** -/
theorem flatten_sliceVec (data : List β) (numSlices : ℕ) : (sliceVec data numSlices).flatten = data := by
  simpa [sliceVec] using foldl_sliceStep_flatten data.length numSlices data ⟨0, _, [], [], 0⟩

/-! ### The slices when there are at least as many elements as slices -/

/-- The spec of slice `i` of `k`: `data[i * n / k .. (i + 1) * n / k]`. -/
def slot (data : List β) (k i : ℕ) : List β :=
  (data.drop (i * data.length / k)).take ((i + 1) * data.length / k - i * data.length / k)

section Bounds

variable {n k : ℕ}

theorem bound_mono {i j : ℕ} (h : i ≤ j) : i * n / k ≤ j * n / k :=
  Nat.div_le_div_right (Nat.mul_le_mul_right n h)

/-- With at least as many elements as slices, no slice is empty. -/
theorem bound_lt_succ (hk : 0 < k) (hnk : k ≤ n) (i : ℕ) : i * n / k < (i + 1) * n / k := by
  have h : (i * n + k) / k ≤ (i + 1) * n / k := Nat.div_le_div_right (by rw [Nat.succ_mul]; omega)
  rw [Nat.add_div_right _ hk] at h
  omega

theorem bound_self (hk : 0 < k) : k * n / k = n := Nat.mul_div_cancel_left n hk

end Bounds

/-- The prefix of a window, one element longer. -/
theorem take_drop_succ (l : List β) {a j : ℕ} (haj : a ≤ j) (hj : j < l.length) :
    (l.drop a).take (j - a) ++ [l[j]] = (l.drop a).take (j + 1 - a) := by
  have hlen : j - a < (l.drop a).length := by rw [List.length_drop]; omega
  rw [show j + 1 - a = j - a + 1 by omega, List.take_succ_eq_append_getElem hlen, List.getElem_drop]
  congr 3
  omega

/-- What the loop holds after `j` elements: the slices before the current one, the current
slice's elements so far, and its end. -/
structure SliceInv (data : List β) (k j : ℕ) (st : SliceState β) : Prop where
  iterCount : st.iterCount = j
  stop : st.stop = (st.sliceCount + 1) * data.length / k
  lt : st.sliceCount < k
  lo : st.sliceCount * data.length / k ≤ j
  hi : j ≤ (st.sliceCount + 1) * data.length / k
  output : st.output = (List.range st.sliceCount).map (slot data k)
  tmp : st.tmp = (data.drop (st.sliceCount * data.length / k)).take (j - st.sliceCount * data.length / k)

/-- **One round keeps the invariant**: an element before the end joins the current slice;
the element at the end opens the next slice, which is not empty. -/
theorem SliceInv.step {data : List β} {k j : ℕ} {st : SliceState β} (hk : 0 < k)
    (hnk : k ≤ data.length) (h : SliceInv data k j st) (hj : j < data.length) :
    SliceInv data k (j + 1) (sliceStep data.length k st data[j]) := by
  unfold sliceStep
  split_ifs with hlt
  · -- the element joins the current slice
    rw [h.iterCount, h.stop] at hlt
    exact ⟨by simp [h.iterCount], h.stop, h.lt, le_trans h.lo (Nat.le_succ j), hlt, h.output,
      by rw [h.tmp]; exact take_drop_succ data h.lo hj⟩
  · -- the element is at the current slice's end: it opens the next slice
    rw [h.iterCount, h.stop] at hlt
    have hend : j = (st.sliceCount + 1) * data.length / k := le_antisymm h.hi (Nat.not_lt.mp hlt)
    have hnext : st.sliceCount + 1 < k := by
      by_contra hge
      have := bound_mono (n := data.length) (k := k) (Nat.not_lt.mp hge)
      rw [bound_self hk] at this
      omega
    refine ⟨by simp [h.iterCount], rfl, hnext, by simp only; omega, ?_, ?_, ?_⟩
    · show j + 1 ≤ (st.sliceCount + 1 + 1) * data.length / k
      have hb := bound_lt_succ hk hnk (st.sliceCount + 1)
      rw [← hend] at hb
      exact hb
    · show st.output ++ [st.tmp] = (List.range (st.sliceCount + 1)).map (slot data k)
      rw [List.range_succ, List.map_append, List.map_singleton, h.output, h.tmp, slot, hend]
    · -- the new slice starts at `j` and holds `data[j]`
      have ht := take_drop_succ data (le_refl j) hj
      rw [Nat.sub_self, List.take_zero, List.nil_append] at ht
      show [data[j]] = (data.drop ((st.sliceCount + 1) * data.length / k)).take
        (j + 1 - (st.sliceCount + 1) * data.length / k)
      rw [← hend]
      exact ht

theorem sliceInv_foldl {data : List β} {k : ℕ} (hk : 0 < k) (hnk : k ≤ data.length) :
    ∀ j ≤ data.length, SliceInv data k j
      ((data.take j).foldl (sliceStep data.length k) ⟨0, (0 + 1) * data.length / k, [], [], 0⟩)
  | 0, _ => ⟨rfl, rfl, hk, by simp, Nat.zero_le _, rfl, by simp⟩
  | j + 1, hj => by
      rw [List.take_succ_eq_append_getElem (by omega), List.foldl_concat]
      exact (sliceInv_foldl hk hnk j (by omega)).step hk hnk (by omega)

/-- **With at least as many elements as slices, the slices are the spec's**: exactly `k`
of them, slice `i` being `data[i * n / k .. (i + 1) * n / k]`. -/
theorem sliceVec_of_le {data : List β} {k : ℕ} (hk : 0 < k) (hnk : k ≤ data.length) :
    sliceVec data k = (List.range k).map (slot data k) := by
  have h := sliceInv_foldl hk hnk data.length le_rfl
  rw [List.take_length] at h
  set st := data.foldl (sliceStep data.length k) ⟨0, (0 + 1) * data.length / k, [], [], 0⟩
  -- after the last element the current slice is the last one
  have hlast : st.sliceCount + 1 = k := by
    by_contra hne
    have hlt : st.sliceCount + 1 < k := by have := h.lt; omega
    have h1 := bound_lt_succ (n := data.length) hk hnk (st.sliceCount + 1)
    have h2 := bound_mono (n := data.length) (k := k) (show st.sliceCount + 1 + 1 ≤ k by omega)
    rw [bound_self hk] at h2
    have := h.hi
    omega
  have hend : (st.sliceCount + 1) * data.length / k = data.length := by rw [hlast, bound_self hk]
  have hrange : List.range k = List.range st.sliceCount ++ [st.sliceCount] := by
    rw [← hlast, List.range_succ]
  show st.output ++ [st.tmp] = _
  rw [hrange, List.map_append, List.map_singleton, h.output, h.tmp]
  simp only [slot, hend]

/-! ### The splits -/

/-- The first `k` indices read the first `k` slices. -/
theorem mapM_range_getElem? (slices : List (List β)) :
    ∀ k ≤ slices.length, (List.range k).mapM (fun i => slices[i]?) = some (slices.take k)
  | 0, _ => rfl
  | k + 1, hk => by
      rw [List.range_succ, List.mapM_append, mapM_range_getElem? slices k (by omega),
        List.take_succ_eq_append_getElem (by omega)]
      simp [List.getElem?_eq_getElem (show k < slices.length by omega)]

/-- `splits` reads every slice when there are `num_slices` of them. -/
theorem splits_of_length {slices : List (List β)} {k : ℕ} (h : slices.length = k) :
    splits slices k = some slices := by
  rw [splits, mapM_range_getElem? slices k h.ge, ← h, List.take_length]

/-- **With at least as many elements as slices, `splits` has every slice**: slice `i` is
`data[i * n / k .. (i + 1) * n / k]`. -/
theorem splits_sliceVec_of_le {data : List β} {k : ℕ} (hk : 0 < k) (hnk : k ≤ data.length) :
    splits (sliceVec data k) k = some ((List.range k).map (slot data k)) := by
  rw [sliceVec_of_le hk hnk]
  exact splits_of_length (by rw [List.length_map, List.length_range])

/-! ### Fewer elements than slices -/

/-- **One element in three slices.**  The slices end at `0`, `0` and `1`: the element closes
the first, empty, slice and goes into the second, so `slice` makes two slices, and `splits`
reads `splits[2]` past their end. -/
theorem splits_one_element_three_slices :
    slice [7] [] 3 = some (.plaintext [[], [7]]) ∧ splits [[], [7]] 3 = none :=
  ⟨rfl, rfl⟩

end ParallelCollection

end Flare
