import Mathlib

/-!
# The lowest elements of a multiset

A bounded selection keeps the `k` lowest elements of what it is given.  `IsLowest k all low`
says that the multiset `low` is such a selection from `all`: it is part of `all`, it has
`min k |all|` elements, and none of them is above an element left out.  Such a selection is
unique up to the order of its elements: sorted, it is the first `k` elements of `all` sorted.

A selection is kept when an element comes in: while there is room the element joins, then it
replaces a largest element it is below, or it is left out.  And the lowest of a union are the
lowest of one part together with the lowest of the other.

## Main definitions

* `Lowest.IsLowest k all low` — `low` is a lowest `k` of `all`.

## Main results

* `IsLowest.cons_of_card_lt`, `IsLowest.cons_erase`, `IsLowest.cons_of_le` — an element
  coming in.
* `IsLowest.of_add` — the lowest of a union, from the lowest of a part.
* `IsLowest.mergeSort_eq` — sorted, the lowest `k` are the first `k` of everything sorted.
-/

namespace Lowest

variable {α : Type*} [LinearOrder α]

/-- `low` is a lowest `k` of `all`: part of it, `min k |all|` elements, none above an element
left out. -/
structure IsLowest (k : ℕ) (all low : Multiset α) : Prop where
  le : low ≤ all
  card : Multiset.card low = min k (Multiset.card all)
  bound : ∀ a ∈ low, ∀ b ∈ all - low, a ≤ b

/-- What is left out once an element comes in: the element, or what was left out before. -/
theorem mem_cons_sub {x b : α} {s t : Multiset α} (hb : b ∈ x ::ₘ s - t) : b = x ∨ b ∈ s - t := by
  by_cases hbx : b = x
  · exact Or.inl hbx
  · right
    rw [Multiset.mem_sub, Multiset.count_cons, if_neg hbx, Nat.add_zero] at hb
    exact Multiset.mem_sub.mpr hb

namespace IsLowest

variable {k : ℕ} {all low : Multiset α}

/-- Nothing given, nothing kept. -/
theorem zero (k : ℕ) : IsLowest k (0 : Multiset α) 0 := ⟨le_rfl, by simp, by simp⟩

/-- While there is room, everything is kept. -/
theorem eq_of_card_lt (h : IsLowest k all low) (hroom : Multiset.card low < k) : low = all :=
  Multiset.eq_of_le_of_card_le h.le (by have := h.card; omega)

/-- **While there is room, an element joins.** -/
theorem cons_of_card_lt (h : IsLowest k all low) (hroom : Multiset.card low < k) (x : α) :
    IsLowest k (x ::ₘ all) (x ::ₘ low) := by
  have heq := h.eq_of_card_lt hroom
  subst heq
  refine ⟨le_rfl, ?_, fun a _ b hb => ?_⟩
  · rw [Multiset.card_cons]
    omega
  · rw [tsub_self] at hb
    exact absurd hb (Multiset.notMem_zero b)

/-- **An element above all kept ones is left out.** -/
theorem cons_of_le (h : IsLowest k all low) (hfull : Multiset.card low = k) {x : α}
    (hx : ∀ a ∈ low, a ≤ x) : IsLowest k (x ::ₘ all) low where
  le := h.le.trans (Multiset.le_cons_self all x)
  card := by
    rw [Multiset.card_cons]
    have := h.card
    omega
  bound := by
    intro a ha b hb
    rcases mem_cons_sub hb with rfl | hb
    · exact hx a ha
    · exact h.bound a ha b hb

/-- **An element below a largest kept one replaces it.** -/
theorem cons_erase (h : IsLowest k all low) (hfull : Multiset.card low = k) {m : α}
    (hm : m ∈ low) (hmax : ∀ a ∈ low, a ≤ m) {x : α} (hx : x < m) :
    IsLowest k (x ::ₘ all) (x ::ₘ low.erase m) where
  le := Multiset.cons_le_cons x ((Multiset.erase_le m low).trans h.le)
  card := by
    have hpos : 0 < Multiset.card low := Multiset.card_pos_iff_exists_mem.mpr ⟨m, hm⟩
    rw [Multiset.card_cons, Multiset.card_erase_of_mem hm, Nat.pred_eq_sub_one, Multiset.card_cons]
    have := h.card
    omega
  bound := by
    intro a ha b hb
    -- left out now: `m`, or what was left out before
    have hb' : b = m ∨ b ∈ all - low := by
      by_cases hbm : b = m
      · exact Or.inl hbm
      · right
        rw [Multiset.mem_sub, Multiset.count_cons, Multiset.count_cons,
          Multiset.count_erase_of_ne hbm] at hb
        exact Multiset.mem_sub.mpr (by omega)
    rcases Multiset.mem_cons.mp ha with rfl | ha
    · rcases hb' with rfl | hb'
      · exact hx.le
      · exact hx.le.trans (h.bound m hm b hb')
    · have ha' := Multiset.mem_of_mem_erase ha
      rcases hb' with rfl | hb'
      · exact hmax a ha'
      · exact h.bound a ha' b hb'

/-- **The lowest of a union**: the lowest `k` of `A` and of the lowest `k` of `B` are the lowest
`k` of `A` and `B`.  An element of `B` left out of its lowest is above all of them; were it
below a kept one, those would all be kept, and they would be all that is kept. -/
theorem of_add {A B lb r : Multiset α} (hB : IsLowest k B lb) (hr : IsLowest k (A + lb) r) :
    IsLowest k (A + B) r where
  le := hr.le.trans ((add_le_add_iff_left A).mpr hB.le)
  card := by
    rw [hr.card, Multiset.card_add, Multiset.card_add, hB.card]
    omega
  bound := by
    intro a ha b hb
    by_cases hb' : b ∈ A + lb - r
    · exact hr.bound a ha b hb'
    · -- `b` is left out of the lowest of `B`
      have hbB : b ∈ B - lb := by
        rw [Multiset.mem_sub, Multiset.count_add] at hb hb'
        exact Multiset.mem_sub.mpr (by omega)
      by_contra hlt
      rw [not_le] at hlt
      -- every lowest of `B` is below `a`, so every one is kept
      have hsub : lb ≤ r := by
        refine Multiset.le_iff_count.mpr fun c => ?_
        by_contra hc
        have hc' : c ∈ A + lb - r := by
          rw [Multiset.mem_sub, Multiset.count_add]
          omega
        have hcl : c ∈ lb := Multiset.count_pos.mp (by omega)
        exact absurd ((hr.bound a ha c hc').trans (hB.bound c hcl b hbB)) (not_le.mpr hlt)
      -- the lowest of `B` are `k`, as many as are kept
      have hcard : Multiset.card r ≤ Multiset.card lb := by
        have hleft : 0 < Multiset.card (B - lb) := Multiset.card_pos_iff_exists_mem.mpr ⟨b, hbB⟩
        rw [Multiset.card_sub hB.le] at hleft
        have := hB.card
        have := hr.card
        omega
      have heq : lb = r := Multiset.eq_of_le_of_card_le hsub hcard
      rw [← heq] at ha
      exact absurd (hB.bound a ha b hbB) (not_le.mpr hlt)

/-- **Sorted, the lowest `k` are the first `k` of everything sorted**: the kept elements
sorted, followed by the others sorted, are everything sorted. -/
theorem mergeSort_eq {all low : List α} (h : IsLowest k (all : Multiset α) (low : Multiset α)) :
    low.mergeSort (fun a b => decide (a ≤ b)) = (all.mergeSort (fun a b => decide (a ≤ b))).take k := by
  set L := low.mergeSort (fun a b => decide (a ≤ b))
  set R := (all.diff low).mergeSort (fun a b => decide (a ≤ b))
  have hsorted : (L ++ R).Pairwise (· ≤ ·) := by
    refine List.pairwise_append.mpr ⟨List.pairwise_mergeSort' _ low, List.pairwise_mergeSort' _ _,
      fun a ha b hb => h.bound a ?_ b ?_⟩
    · exact Multiset.mem_coe.mpr ((List.mergeSort_perm low _).mem_iff.mp ha)
    · rw [Multiset.coe_sub]
      exact Multiset.mem_coe.mpr ((List.mergeSort_perm _ _).mem_iff.mp hb)
  have hperm : (L ++ R).Perm all := by
    have hsum : ((low ++ all.diff low : List α) : Multiset α) = all := by
      rw [← Multiset.coe_add, ← Multiset.coe_sub, add_tsub_cancel_of_le h.le]
    exact ((List.mergeSort_perm low _).append (List.mergeSort_perm _ _)).trans
      (Multiset.coe_eq_coe.mp hsum)
  have hall : L ++ R = all.mergeSort (fun a b => decide (a ≤ b)) :=
    hperm.trans (List.mergeSort_perm all _).symm |>.eq_of_pairwise' hsorted
      (List.pairwise_mergeSort' _ all)
  -- the kept elements are the first `k`, or all of them
  have hlen : L.length = min k all.length := by
    rw [List.length_mergeSort]
    simpa using h.card
  have hR : L.length < k → R = [] := by
    intro hlt
    have hdiff : (all.diff low).length = all.length - low.length := by
      rw [← Multiset.coe_card, ← Multiset.coe_sub, Multiset.card_sub h.le, Multiset.coe_card,
        Multiset.coe_card]
    have hlow : L.length = low.length := List.length_mergeSort low
    apply List.eq_nil_of_length_eq_zero
    rw [List.length_mergeSort, hdiff]
    omega
  rw [← hall, List.take_append]
  by_cases hk : L.length < k
  · rw [hR hk, List.take_nil, List.append_nil, List.take_of_length_le hk.le]
  · rw [show k - L.length = 0 by omega, List.take_zero, List.append_nil,
      List.take_of_length_le (by omega)]

end IsLowest

end Lowest
