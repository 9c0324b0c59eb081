import Mathlib

/-!
# The downward Fisher–Yates loop

`shuffleDown c hi l` runs the loop `for i in (0..hi).rev() { l.swap(c i, i) }` on a list: at
step `i` it exchanges the entry at `i` with the one at `c i`, the generator's choice in `[0, i]`
at that step.  Only the first `hi` entries move.

On a list of distinct entries the loop is a bijection between the choices below `hi` and the
rearrangements that leave every entry from `hi` on in place: two choice functions give the same
list exactly when they agree below `hi` (`eq_of_shuffleDown_eq`), and every such rearrangement
is reached (`exists_shuffleDown_eq`).  Each of the `hi!` choice sequences thus gives its own
rearrangement, and a uniform generator makes them all equally likely.

## Main definitions

* `FisherYates.Choice` — a choice in `[0, i]` at each step `i`.
* `FisherYates.shuffleDown` — the loop.

## Main results

* `shuffleDown_perm`, `getElem?_shuffleDown_of_le` — a rearrangement that fixes the entries
  from `hi` on.
* `getElem?_shuffleDown_top` — the entry the first step brings to `hi - 1` stays there.
* `eq_of_shuffleDown_eq`, `exists_shuffleDown_eq` — the bijection.
-/

namespace FisherYates

variable {α : Type*}

/-- A choice at each step of the loop: at step `i`, an index in `[0, i]`. -/
abbrev Choice := (i : ℕ) → Fin (i + 1)

/-- The loop on the first `hi` entries: steps `hi - 1` down to `0`. -/
def shuffleDown (c : Choice) : ℕ → List α → List α
  | 0, l => l
  | i + 1, l => shuffleDown c i (l.swap (c i) i)

/-! ### One exchange, read through options so that no bound is carried around -/

theorem getElem?_swap_of_ne {l : List α} {a b k : ℕ} (ha : k ≠ a) (hb : k ≠ b) :
    (l.swap a b)[k]? = l[k]? := by
  by_cases hk : k < l.length
  · rw [List.getElem?_eq_getElem (by rwa [List.length_swap]), List.getElem?_eq_getElem hk,
      List.getElem_swap_of_ne ha hb]
  · rw [List.getElem?_eq_none (by rw [List.length_swap]; omega), List.getElem?_eq_none (by omega)]

theorem getElem?_swap_right {l : List α} {a b : ℕ} (ha : a < l.length) (hb : b < l.length) :
    (l.swap a b)[b]? = l[a]? := by
  rw [List.getElem?_eq_getElem (by rwa [List.length_swap]), List.getElem?_eq_getElem ha,
    List.getElem_swap_right_of_lt ha]

/-! ### The loop -/

theorem shuffleDown_succ (c : Choice) (i : ℕ) (l : List α) :
    shuffleDown c (i + 1) l = shuffleDown c i (l.swap (c i) i) := rfl

@[simp] theorem length_shuffleDown (c : Choice) : ∀ (hi : ℕ) (l : List α),
    (shuffleDown c hi l).length = l.length
  | 0, _ => rfl
  | i + 1, l => by rw [shuffleDown_succ, length_shuffleDown c i, List.length_swap]

/-- **The loop rearranges.** -/
theorem shuffleDown_perm (c : Choice) : ∀ (hi : ℕ) (l : List α), (shuffleDown c hi l).Perm l
  | 0, l => List.Perm.refl l
  | i + 1, l => (shuffleDown_perm c i _).trans (List.swap_perm l _ _)

/-- **Entries from `hi` on stay in place**: every step exchanges two entries below `hi`. -/
theorem getElem?_shuffleDown_of_le (c : Choice) : ∀ (hi : ℕ) (l : List α) {j : ℕ}, hi ≤ j →
    (shuffleDown c hi l)[j]? = l[j]?
  | 0, _, _, _ => rfl
  | i + 1, l, j, hj => by
      have hc : (c i : ℕ) ≤ i := Nat.lt_succ_iff.mp (c i).isLt
      rw [shuffleDown_succ, getElem?_shuffleDown_of_le c i _ (by omega),
        getElem?_swap_of_ne (by omega) (by omega)]

/-- The entry the first step brings to `hi - 1` stays there. -/
theorem getElem?_shuffleDown_top (c : Choice) (i : ℕ) (l : List α) (hi : i < l.length) :
    (shuffleDown c (i + 1) l)[i]? = l[(c i : ℕ)]? := by
  have hc : (c i : ℕ) ≤ i := Nat.lt_succ_iff.mp (c i).isLt
  rw [shuffleDown_succ, getElem?_shuffleDown_of_le c i _ le_rfl,
    getElem?_swap_right (by omega) hi]

/-- Only the choices below `hi` matter. -/
theorem shuffleDown_congr {c c' : Choice} : ∀ {hi : ℕ}, (∀ i < hi, c i = c' i) →
    ∀ l : List α, shuffleDown c hi l = shuffleDown c' hi l
  | 0, _, _ => rfl
  | i + 1, h, l => by
      rw [shuffleDown_succ, shuffleDown_succ, h i (Nat.lt_succ_self i),
        shuffleDown_congr (fun j hj => h j (by omega))]

/-- **Distinct choices give distinct lists**: on distinct entries, the list the loop returns
determines every choice below `hi`.  The entry at `hi - 1` is the one the first step brought,
and the entries being distinct, one choice only brings it. -/
theorem eq_of_shuffleDown_eq {c c' : Choice} :
    ∀ {hi : ℕ} {l : List α}, l.Nodup → hi ≤ l.length →
      shuffleDown c hi l = shuffleDown c' hi l → ∀ i < hi, c i = c' i
  | 0, _, _, _, _, i, hi => absurd hi (Nat.not_lt_zero i)
  | k + 1, l, hnd, hlen, h, i, hi => by
      -- the first step's choice, read off the entry at `k`
      have hk : c k = c' k := by
        have htop := getElem?_shuffleDown_top c k l (by omega)
        rw [h, getElem?_shuffleDown_top c' k l (by omega)] at htop
        have hck' : (c' k : ℕ) < l.length := by have := (c' k).isLt; omega
        exact Fin.ext ((List.getElem?_inj hck' hnd).mp htop).symm
      rcases Nat.lt_succ_iff_lt_or_eq.mp hi with hi | rfl
      · rw [shuffleDown_succ, shuffleDown_succ, ← hk] at h
        exact eq_of_shuffleDown_eq ((List.swap_perm l _ _).nodup_iff.mpr hnd)
          (by rw [List.length_swap]; omega) h i hi
      · exact hk

/-- **Every rearrangement that fixes the entries from `hi` on is reached**: choose at the first
step the position of the entry wanted at `hi - 1`, and go on below it. -/
theorem exists_shuffleDown_eq {out : List α} :
    ∀ {hi : ℕ} {l : List α}, l.Nodup → hi ≤ l.length → out.Perm l →
      (∀ j, hi ≤ j → out[j]? = l[j]?) → ∃ c : Choice, shuffleDown c hi l = out
  | 0, _, _, _, _, hfix => ⟨fun _ => 0, (List.ext_getElem? fun j => hfix j (Nat.zero_le j)).symm⟩
  | k + 1, l, hnd, hlen, hperm, hfix => by
      have hko : k < out.length := by rw [hperm.length_eq]; omega
      -- the entry wanted at `k` sits at some `p` of `l`, and not past `k`: from `k + 1` on,
      -- `out` and `l` agree, and `out` has it at `k` only
      obtain ⟨p, hp, hpk⟩ := List.getElem_of_mem (hperm.mem_iff.mp (List.getElem_mem hko))
      have hout : out[p]? = out[k]? ↔ p = k :=
        List.getElem?_inj (by rw [hperm.length_eq]; exact hp) (hperm.nodup_iff.mpr hnd)
      have hple : p ≤ k := by
        by_contra hgt
        have hsame : out[p]? = out[k]? := by
          rw [hfix p (by omega), List.getElem?_eq_getElem hp, hpk, List.getElem?_eq_getElem hko]
        exact hgt (hout.mp hsame).le
      -- after the first step, `out` agrees with the list from `k` on
      have hwfix : ∀ j, k ≤ j → out[j]? = (l.swap p k)[j]? := by
        intro j hj
        rcases Nat.eq_or_lt_of_le hj with rfl | hj
        · rw [getElem?_swap_right hp (by omega), List.getElem?_eq_getElem hp, hpk,
            List.getElem?_eq_getElem hko]
        · rw [getElem?_swap_of_ne (by omega) (by omega), hfix j hj]
      have hwperm := List.swap_perm l p k
      obtain ⟨c', hc'⟩ := exists_shuffleDown_eq (hwperm.nodup_iff.mpr hnd)
        (by rw [List.length_swap]; omega) (hperm.trans hwperm.symm) hwfix
      refine ⟨Function.update c' k ⟨p, Nat.lt_succ_of_le hple⟩, ?_⟩
      rw [shuffleDown_succ, Function.update_self, ← hc']
      refine shuffleDown_congr (fun i hi => ?_) _
      exact Function.update_of_ne (Nat.ne_of_lt hi) _ _

end FisherYates
