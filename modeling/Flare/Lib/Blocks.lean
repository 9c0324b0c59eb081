import Mathlib

/-!
# Block layouts

Blocks laid out one after another: the `j`-th element `a` of a list gives a block of
`size a` positions.  Block `j` starts at `offset (l.map size) j`, the sizes of the blocks before
it, and holds the positions `offset (l.map size) j + s` for `s < size a`.  `positions size k l`
lists the positions of the layout in order, the blocks numbered from `k`, each position as its
block, the block's element and its place in the block.

## Main definitions

* `Blocks.offset` — where a block starts.
* `Blocks.positions` — the positions of the layout, in order.

## Main results

* `getElem?_positions` — position `offset j + s` of the layout is place `s` of block `j`.
* `exists_offset_add_of_lt_sum` — every position below the total size is in a block.
* `eq_of_offset_add_eq` — and in one block only; `mem_block_iff` says it of the blocks' ranges.
-/

namespace Blocks

universe u

variable {α : Type u}

/-- Where block `j` starts: the sizes of the blocks before it. -/
def offset (ns : List ℕ) (j : ℕ) : ℕ := (ns.take j).sum

/-- The positions of the layout, in order, the blocks numbered from `k`: block `j`, of element
`a`, gives `(j, a, 0), …, (j, a, size a - 1)`. -/
def positions (size : α → ℕ) (k : ℕ) (l : List α) : List (ℕ × α × ℕ) :=
  (l.zipIdx k).flatMap fun (a, j) => (List.range (size a)).map fun s => (j, a, s)

@[simp] theorem offset_zero (ns : List ℕ) : offset ns 0 = 0 := rfl

@[simp] theorem offset_cons_succ (n : ℕ) (ns : List ℕ) (j : ℕ) :
    offset (n :: ns) (j + 1) = n + offset ns j := by
  rw [offset, offset, List.take_succ_cons, List.sum_cons]

/-- Block `j + 1` starts where block `j` ends. -/
theorem offset_succ {ns : List ℕ} {j : ℕ} (hj : j < ns.length) :
    offset ns (j + 1) = offset ns j + ns[j] :=
  List.sum_take_succ ns j hj

theorem offset_mono (ns : List ℕ) {j j' : ℕ} (h : j ≤ j') : offset ns j ≤ offset ns j' :=
  List.monotone_sum_take ns h

theorem positions_cons (size : α → ℕ) (k : ℕ) (a : α) (l : List α) :
    positions size k (a :: l) =
      (List.range (size a)).map (fun s => (k, a, s)) ++ positions size (k + 1) l := by
  rw [positions, List.zipIdx_cons, List.flatMap_cons]
  rfl

theorem length_positions (size : α → ℕ) (k : ℕ) (l : List α) :
    (positions size k l).length = (l.map size).sum := by
  induction l generalizing k with
  | nil => rfl
  | cons a l ih =>
      rw [positions_cons, List.length_append, List.length_map, List.length_range, ih, List.map_cons,
        List.sum_cons]

/-- **Position `offset j + s` of the layout is place `s` of block `j`.** -/
theorem getElem?_positions (size : α → ℕ) :
    ∀ (k : ℕ) (l : List α) (j : ℕ) (hj : j < l.length) {s : ℕ}, s < size l[j] →
      (positions size k l)[offset (l.map size) j + s]? = some (k + j, l[j], s)
  | _, [], _, hj, _, _ => absurd hj (Nat.not_lt_zero _)
  | k, a :: l, 0, _, s, hs => by
      -- a place in the first block
      have hs : s < size a := hs
      have hfirst : s < ((List.range (size a)).map fun s => (k, a, s)).length := by
        rw [List.length_map, List.length_range]
        exact hs
      rw [positions_cons, offset_zero, Nat.zero_add, List.getElem?_append_left hfirst,
        List.getElem?_map, List.getElem?_range hs]
      rfl
  | k, a :: l, j + 1, hj, s, hs => by
      -- past the first block: a position of the rest, whose blocks are numbered from `k + 1`
      have hfirst : ((List.range (size a)).map fun s => (k, a, s)).length = size a := by
        rw [List.length_map, List.length_range]
      rw [positions_cons, List.map_cons, offset_cons_succ, Nat.add_assoc,
        List.getElem?_append_right (by rw [hfirst]; exact Nat.le_add_right _ _), hfirst,
        Nat.add_sub_cancel_left, getElem?_positions size (k + 1) l j (Nat.lt_of_succ_lt_succ hj) hs,
        Nat.add_assoc, Nat.add_comm 1 j]
      rfl

/-- **Every position below the total size is in a block.** -/
theorem exists_offset_add_of_lt_sum : ∀ {ns : List ℕ} {i : ℕ}, i < ns.sum →
    ∃ j s, ∃ hj : j < ns.length, s < ns[j] ∧ i = offset ns j + s
  | [], _, hi => absurd hi (Nat.not_lt_zero _)
  | n :: ns, i, hi => by
      by_cases hfirst : i < n
      · exact ⟨0, i, Nat.zero_lt_succ _, hfirst, by rw [offset_zero, Nat.zero_add]⟩
      · -- a position of the rest, past the first block
        rw [List.sum_cons] at hi
        obtain ⟨j, s, hj, hs, hi'⟩ := exists_offset_add_of_lt_sum (show i - n < ns.sum by omega)
        refine ⟨j + 1, s, Nat.succ_lt_succ hj, hs, ?_⟩
        rw [offset_cons_succ]
        omega

/-- A place in block `j` comes before every later block. -/
theorem offset_add_lt_offset {ns : List ℕ} {j j' s : ℕ} (hj : j < ns.length) (hs : s < ns[j])
    (hlt : j < j') : offset ns j + s < offset ns j' :=
  calc offset ns j + s < offset ns j + ns[j] := Nat.add_lt_add_left hs _
    _ = offset ns (j + 1) := (offset_succ hj).symm
    _ ≤ offset ns j' := offset_mono ns hlt

/-- **A position is in one block only**, at one place. -/
theorem eq_of_offset_add_eq {ns : List ℕ} {j j' s s' : ℕ} (hj : j < ns.length)
    (hj' : j' < ns.length) (hs : s < ns[j]) (hs' : s' < ns[j'])
    (h : offset ns j + s = offset ns j' + s') : j = j' ∧ s = s' := by
  have hjj : j = j' := by
    rcases Nat.lt_trichotomy j j' with hlt | heq | hgt
    · have := offset_add_lt_offset hj hs hlt
      omega
    · exact heq
    · have := offset_add_lt_offset hj' hs' hgt
      omega
  subst hjj
  exact ⟨rfl, by omega⟩

/-- Place `s` of block `j` lies in the range of block `j'` exactly when `j' = j`. -/
theorem mem_block_iff {ns : List ℕ} {j s j' : ℕ} (hj : j < ns.length) (hs : s < ns[j])
    (hj' : j' < ns.length) :
    (offset ns j' ≤ offset ns j + s ∧ offset ns j + s < offset ns j' + ns[j']) ↔ j' = j := by
  constructor
  · rintro ⟨hle, hlt⟩
    exact (eq_of_offset_add_eq hj' hj (s := offset ns j + s - offset ns j') (by omega) hs
      (by omega)).1
  · rintro rfl
    exact ⟨Nat.le_add_right _ _, Nat.add_lt_add_left hs _⟩

end Blocks
