import Mathlib
import Flare.Basic
import Flare.Lib.FisherYates

/-!
# Shuffling a sample in place

`utils::randomize_in_place` (`utils/mod.rs`, the framework's and the enclave's copies) shuffles
a vector with the downward Fisher–Yates loop, drawing `rand.gen_range(0, i + 1)` at step `i`.
Its loop is `for i in (1..(iter.len() - 1)).rev()`: the first step is `len - 2`, not `len - 1`.
The last entry is never exchanged, and an empty vector underflows `iter.len() - 1`.
`Op::randomize_in_place_` runs it in the enclave on a decrypted sample and keeps the first
`num` entries.  `take_sample` and `secure_take_sample` (`rdd.rs`) shuffle what they return
with it.

The generator is a `FisherYates.Choice`: at step `i`, the outcome of `gen_range(0, i + 1)`,
each step drawing once.  A sampler gives the outcome of each call of
`self.sample(with_replacement, fraction).collect()`, the first call at `0`; the fraction is
fixed by `num`, the count and `with_replacement`, so the sampler covers any sampling.

## Main definitions

* `Utils.vecSwap`, `Utils.randomizeInPlace`, `Utils.randomizeInPlaceE` — the shuffle.
* `Actions.resampleLoop`, `Actions.takeSample`, `Actions.secureTakeSample` — the actions.

## Main results

* `randomizeInPlace_eq` — the loop is `FisherYates.shuffleDown` on the first `len - 1`
  entries.
* `randomizeInPlace_fixes_last` — what the shuffle reaches: the rearrangements that keep the
  last entry last, each from one choice sequence.
* `takeSample_spec`, `secureTakeSample_spec` — every sample is a prefix of such a
  rearrangement of the RDD or of the last resample.
-/

namespace Flare

open FisherYates

universe u

variable {T : Type u}

namespace Utils

/-- `Vec::swap`: panics where an index is out of range. -/
def vecSwap (v : List T) (a b : ℕ) : Option (List T) :=
  if a < v.length ∧ b < v.length then some (v.swap a b) else none

/-- `utils::randomize_in_place`, with `rand i` the outcome of `rand.gen_range(0, i + 1)`;
`none` where `iter.len() - 1` underflows or `swap` panics. -/
def randomizeInPlace (iter : List T) (rand : Choice) : Option (List T) :=
  if iter.length = 0 then none
  else (List.range' 1 (iter.length - 1 - 1)).reverse.foldlM (fun v i => vecSwap v (rand i) i) iter

/-- `Op::randomize_in_place_`: the sample decrypted, shuffled, cut to its first `num`
entries and encrypted. -/
def randomizeInPlaceE (input : List (ItemE (List T))) (rand : Choice) (num : ℕ) :
    Option (List (ItemE (List T))) :=
  (randomizeInPlace (batchDecrypt input) rand).map fun sample => batchEncrypt (sample.take num)

/-- Step `0` exchanges the first entry with itself. -/
theorem shuffleDown_one (rand : Choice) (l : List T) : shuffleDown rand 1 l = l := by
  rw [shuffleDown_succ, Fin.val_eq_zero (rand 0), List.swap_self]
  rfl

/-- The steps `hi - 1` down to `1` of the loop, each exchange in range. -/
theorem foldlM_vecSwap (rand : Choice) :
    ∀ (hi : ℕ) (v : List T), hi ≤ v.length →
      (List.range' 1 (hi - 1)).reverse.foldlM (fun v i => vecSwap v (rand i) i) v =
        some (shuffleDown rand hi v)
  | 0, _, _ => rfl
  | 1, v, _ => by rw [shuffleDown_one]; rfl
  | k + 2, v, hlen => by
      have hc : (rand (k + 1) : ℕ) ≤ k + 1 := Nat.lt_succ_iff.mp (rand (k + 1)).isLt
      have hswap : vecSwap v (rand (k + 1)) (k + 1) = some (v.swap (rand (k + 1)) (k + 1)) :=
        if_pos ⟨by omega, by omega⟩
      -- the loop's first step is `k + 1`, then the steps of `k + 1` entries
      rw [show k + 2 - 1 = k + 1 from rfl, List.range'_concat, Nat.one_mul, Nat.add_comm 1 k,
        List.reverse_append, List.reverse_singleton, List.singleton_append, List.foldlM_cons, hswap,
        Option.bind_eq_bind, Option.bind_some, shuffleDown_succ]
      exact foldlM_vecSwap rand (k + 1) _ (by rw [List.length_swap]; omega)

/-- **The shuffle is Fisher–Yates on all entries but the last**: on a non-empty vector it
returns, without panicking, the downward loop on its first `len - 1` entries. -/
theorem randomizeInPlace_eq (iter : List T) (hne : iter ≠ []) (rand : Choice) :
    randomizeInPlace iter rand = some (shuffleDown rand (iter.length - 1) iter) := by
  have hlen : iter.length ≠ 0 := by rwa [Ne, List.length_eq_zero_iff]
  rw [randomizeInPlace, if_neg hlen]
  exact foldlM_vecSwap rand _ iter (Nat.sub_le _ _)

/-- Two lists of one length end alike exactly when they agree from the last position on. -/
theorem getLast?_eq_iff {l l' : List T} (hlen : l'.length = l.length) :
    l'.getLast? = l.getLast? ↔ ∀ j, l.length - 1 ≤ j → l'[j]? = l[j]? := by
  rw [List.getLast?_eq_getElem?, List.getLast?_eq_getElem?, hlen]
  constructor
  · intro h j hj
    rcases Nat.eq_or_lt_of_le hj with rfl | hj
    · exact h
    · rw [List.getElem?_eq_none (by omega), List.getElem?_eq_none (by omega)]
  · intro h
    exact h _ le_rfl

/-- The shuffle rearranges and keeps the last entry last. -/
theorem randomizeInPlace_perm (iter : List T) (hne : iter ≠ []) (rand : Choice) :
    ∃ out, randomizeInPlace iter rand = some out ∧ out.Perm iter ∧ out.getLast? = iter.getLast? :=
  ⟨_, randomizeInPlace_eq iter hne rand, shuffleDown_perm rand _ iter,
    (getLast?_eq_iff (length_shuffleDown rand _ iter)).mpr
      fun _ hj => getElem?_shuffleDown_of_le rand _ iter hj⟩

/-- **What the shuffle reaches**: on a non-empty vector of distinct entries it never panics
and returns a rearrangement that keeps the last entry last; two choice sequences give the same
result exactly when they agree on the steps the loop takes; and every rearrangement keeping
the last entry last is reached.  The choice sequences are thus in bijection with the `(n-1)!`
such rearrangements, not with all `n!` orders. -/
theorem randomizeInPlace_fixes_last (iter : List T) (hnd : iter.Nodup) (hne : iter ≠ []) :
    (∀ rand, ∃ out, randomizeInPlace iter rand = some out ∧ out.Perm iter ∧
        out.getLast? = iter.getLast?) ∧
      (∀ rand rand', randomizeInPlace iter rand = randomizeInPlace iter rand' →
        ∀ i < iter.length - 1, rand i = rand' i) ∧
      ∀ out, out.Perm iter → out.getLast? = iter.getLast? →
        ∃ rand, randomizeInPlace iter rand = some out := by
  refine ⟨randomizeInPlace_perm iter hne, fun rand rand' h => ?_, fun out hperm hlast => ?_⟩
  · rw [randomizeInPlace_eq iter hne, randomizeInPlace_eq iter hne, Option.some.injEq] at h
    exact eq_of_shuffleDown_eq hnd (Nat.sub_le _ _) h
  · obtain ⟨rand, hrand⟩ := exists_shuffleDown_eq hnd (Nat.sub_le _ _) hperm
      ((getLast?_eq_iff hperm.length_eq).mp hlast)
    exact ⟨rand, by rw [randomizeInPlace_eq iter hne, hrand]⟩

theorem randomizeInPlace_fixes_last_of_three :
    ([0, 1, 2] : List ℕ).Nodup ∧ ([0, 1, 2] : List ℕ) ≠ [] ∧
      ((∀ rand, ∃ out, randomizeInPlace [0, 1, 2] rand = some out ∧ out.Perm [0, 1, 2] ∧
          out.getLast? = [0, 1, 2].getLast?) ∧
        (∀ rand rand', randomizeInPlace [0, 1, 2] rand = randomizeInPlace [0, 1, 2] rand' →
          ∀ i < [0, 1, 2].length - 1, rand i = rand' i) ∧
        ∀ out, out.Perm [0, 1, 2] → out.getLast? = [0, 1, 2].getLast? →
          ∃ rand, randomizeInPlace [0, 1, 2] rand = some out) :=
  ⟨by decide, List.cons_ne_nil _ _, randomizeInPlace_fixes_last _ (by decide) (List.cons_ne_nil _ _)⟩

/-- Two entries are never exchanged, and an empty vector panics. -/
theorem randomizeInPlace_two_never_swaps :
    (∀ rand, randomizeInPlace [0, 1] rand = some [0, 1]) ∧
      ∀ rand, randomizeInPlace ([] : List ℕ) rand = none :=
  ⟨fun _ => rfl, fun _ => rfl⟩

end Utils

namespace Actions

open Utils

/-- `REPETITION_GUARD`. -/
def repetitionGuard : ℕ := 100

/-- The assertion's bound `u64::MAX - (NUM_STD_DEV * (u64::MAX as f64).sqrt()) as u64`:
`u64::MAX as f64` rounds to `2^64`, whose square root `2^32` times `10` is exact. -/
def maxSampleSize : ℕ := 2 ^ 64 - 1 - 10 * 2 ^ 32

/-- The `while` loop of `take_sample` and `secure_take_sample`: sample again while the sample
counts fewer than `num` elements, at most `REPETITION_GUARD` times; the last sample and
`num_iters`.  `count` is how the action counts a sample. -/
def resampleLoop {S : Type u} (count : S → ℕ) (sampler : ℕ → S) (num : ℕ) (samples : S)
    (numIters : ℕ) : S × ℕ :=
  if _h : count samples < num ∧ numIters < repetitionGuard then
    resampleLoop count sampler num (sampler (numIters + 1)) (numIters + 1)
  else (samples, numIters)
termination_by repetitionGuard - numIters

/-- `take_sample` on an RDD whose elements are `data`: `none` where the assertion fails or the
repeated sampling panics. -/
def takeSample (data : List T) (withReplacement : Bool) (num : ℕ) (sampler : ℕ → List T)
    (rand : Choice) : Option (List T) :=
  if maxSampleSize < num then none
  else if num = 0 then some []
  -- `initial_count`
  else if data.length = 0 then some []
  else if withReplacement = false ∧ data.length ≤ num then randomizeInPlace data rand
  else
    let resampled := resampleLoop List.length sampler num (sampler 0) 0
    if repetitionGuard ≤ resampled.2 then none
    else (randomizeInPlace resampled.1 rand).map (·.take num)

/-- `secure_take_sample` on an RDD whose blocks are `data`, the sampler giving each sample's
blocks; the enclave shuffles (`wrapper_randomize_in_place`). -/
def secureTakeSample (data : List (ItemE (List T))) (withReplacement : Bool) (num : ℕ)
    (sampler : ℕ → List (ItemE (List T))) (rand : Choice) : Option (List (ItemE (List T))) :=
  if maxSampleSize < num then none
  else if num = 0 then some []
  -- `secure_count`
  else if (batchDecrypt data).length = 0 then some []
  else if withReplacement = false ∧ (batchDecrypt data).length ≤ num then
    randomizeInPlaceE data rand (batchDecrypt data).length
  else
    let resampled := resampleLoop (fun s => (batchDecrypt s).length) sampler num (sampler 0) 0
    if repetitionGuard ≤ resampled.2 then none
    else randomizeInPlaceE resampled.1 rand num

/-- **The loop stops with a sample of `num` elements**, unless it ran out of repetitions. -/
theorem resampleLoop_count {S : Type u} (count : S → ℕ) (sampler : ℕ → S) (num : ℕ) :
    ∀ (samples : S) (numIters : ℕ),
      (resampleLoop count sampler num samples numIters).2 < repetitionGuard →
        num ≤ count (resampleLoop count sampler num samples numIters).1 := by
  intro samples numIters
  fun_induction resampleLoop count sampler num samples numIters with
  | case1 samples numIters _ ih => exact ih
  | case2 samples numIters hstop =>
      intro hlt
      dsimp only at hlt ⊢
      -- the loop stopped before the guard: the sample was large enough
      by_contra hsmall
      exact hstop ⟨by omega, hlt⟩

/-- The prefix of a shuffle of `S`, for `S` non-empty. -/
theorem randomizeInPlace_take (S : List T) (hne : S ≠ []) (rand : Choice) (num : ℕ) :
    (randomizeInPlace S rand).map (·.take num) = some ((shuffleDown rand (S.length - 1) S).take num) := by
  rw [randomizeInPlace_eq S hne, Option.map_some]

/-- **Every sample `take_sample` returns is a prefix of the shuffle of the RDD or of the last
resample**: the first `num` entries of a Fisher–Yates arrangement that keeps the last entry
last.  Neither list depends on the generator. -/
theorem takeSample_spec (data : List T) (withReplacement : Bool) (num : ℕ)
    (sampler : ℕ → List T) (rand : Choice) {out : List T}
    (h : takeSample data withReplacement num sampler rand = some out) :
    ∃ S, (S = data ∨ S = (resampleLoop List.length sampler num (sampler 0) 0).1) ∧
      out = (shuffleDown rand (S.length - 1) S).take num := by
  unfold takeSample at h
  dsimp only at h
  split_ifs at h with hmax hnum hdata hall hguard
  · -- `num = 0`
    exact ⟨data, Or.inl rfl, by rw [hnum, List.take_zero]; exact (Option.some.inj h).symm⟩
  · -- an empty RDD
    rw [List.length_eq_zero_iff] at hdata
    subst hdata
    exact ⟨[], Or.inl rfl, by rw [← Option.some.inj h]; exact List.take_nil.symm⟩
  · -- everything, shuffled
    have hne : data ≠ [] := by rwa [Ne, ← List.length_eq_zero_iff]
    rw [randomizeInPlace_eq data hne, Option.some.injEq] at h
    refine ⟨data, Or.inl rfl, ?_⟩
    rw [← h, List.take_of_length_le (by rw [length_shuffleDown]; exact hall.2)]
  · -- a large enough resample, shuffled and cut
    set S := (resampleLoop List.length sampler num (sampler 0) 0).1
    have hlen : num ≤ S.length :=
      resampleLoop_count List.length sampler num (sampler 0) 0 (by omega)
    have hne : S ≠ [] := List.ne_nil_of_length_pos (by omega)
    rw [randomizeInPlace_take S hne, Option.some.injEq] at h
    exact ⟨S, Or.inr rfl, h.symm⟩

/-- **`secure_take_sample` likewise**: its blocks decrypt to the first `num` entries of a
Fisher–Yates arrangement, keeping the last entry last, of the RDD or of the last resample. -/
theorem secureTakeSample_spec (data : List (ItemE (List T))) (withReplacement : Bool) (num : ℕ)
    (sampler : ℕ → List (ItemE (List T))) (rand : Choice) {out : List (ItemE (List T))}
    (h : secureTakeSample data withReplacement num sampler rand = some out) :
    ∃ S, (S = batchDecrypt data ∨
        S = batchDecrypt (resampleLoop (fun s => (batchDecrypt s).length) sampler num
          (sampler 0) 0).1) ∧
      batchDecrypt out = (shuffleDown rand (S.length - 1) S).take num := by
  unfold secureTakeSample randomizeInPlaceE at h
  dsimp only at h
  split_ifs at h with hmax hnum hdata hall hguard
  · rw [← Option.some.inj h, hnum]
    exact ⟨batchDecrypt data, Or.inl rfl, by rw [List.take_zero, batchDecrypt_nil]⟩
  · rw [List.length_eq_zero_iff] at hdata
    rw [← Option.some.inj h]
    exact ⟨[], Or.inl hdata.symm, by rw [batchDecrypt_nil]; exact List.take_nil.symm⟩
  · have hne : batchDecrypt data ≠ [] := by rwa [Ne, ← List.length_eq_zero_iff]
    rw [randomizeInPlace_eq _ hne, Option.map_some, Option.some.injEq] at h
    refine ⟨batchDecrypt data, Or.inl rfl, ?_⟩
    rw [← h, batchDecrypt_batchEncrypt, List.take_of_length_le (by rw [length_shuffleDown]),
      List.take_of_length_le (by rw [length_shuffleDown]; exact hall.2)]
  · set S := batchDecrypt (resampleLoop (fun s => (batchDecrypt s).length) sampler num
      (sampler 0) 0).1
    have hlen : num ≤ S.length :=
      resampleLoop_count (fun s => (batchDecrypt s).length) sampler num (sampler 0) 0 (by omega)
    have hne : S ≠ [] := List.ne_nil_of_length_pos (by omega)
    rw [randomizeInPlace_eq S hne, Option.map_some, Option.some.injEq] at h
    exact ⟨S, Or.inr rfl, by rw [← h, batchDecrypt_batchEncrypt]⟩

end Actions

end Flare
