import Mathlib
import Flare.Basic

/-!
# Secure zip of two encrypted partitions

`Zipped::compute_start` with dependency type 2 (`op/zip_op.rs`:176-214) zips a partition of
each side, given as their ciphertext blocks.  Its loop decrypts the next block of each side,
appends it to what the previous round left over of that side, zips the two up to the shorter
one, and keeps the rest of the longer one for the next round; both block cursors advance
every round.  The loop runs while each side has a block left or a remainder.

## Main definitions

* `zipLoop`, `Zipped.computeStartZip` — the loop and the call.

## Main results

* `zipLoop_eq_some` — when the loop returns, its blocks decrypt to the zip of the two sides.
* `computeStartZip_out_of_bounds` — a side whose one block is longer than the other side's
  first block, with a second block on the other side: the loop reads past the end of the
  shorter side's blocks and panics.

## Design notes

The cursors always advance together, so the loop recurses on the two lists of blocks left;
`none` is the panic of `first[cur_f]` or `second[cur_s]` past the end.
-/

namespace Flare

namespace Zipped

universe u

variable {T U : Type u}

/-- The `while` loop of the zip, from the blocks left of each side and the two remainders:
the blocks it pushes into `acc`, or `none` where it indexes past the end of a side. -/
def zipLoop :
    List (ItemE (List T)) → List (ItemE (List U)) → List T → List U → Option (List (ItemE (List (T × U))))
  | fc :: first, sc :: second, rF, rS =>
      let f := rF ++ serDecrypt fc
      let s := rS ++ serDecrypt sc
      -- the longer side keeps what the shorter one cannot match (`split_off`)
      if f.length > s.length then
        (zipLoop first second (f.drop s.length) []).map fun acc =>
          serEncrypt ((f.take s.length).zip s) :: acc
      else
        (zipLoop first second [] (s.drop f.length)).map fun acc =>
          serEncrypt (f.zip (s.take f.length)) :: acc
  | first, second, rF, rS =>
      -- a side has no block left: the loop goes on, and indexes past its end, if each side
      -- still has a block or a remainder
      if (first ≠ [] ∨ rF ≠ []) ∧ (second ≠ [] ∨ rS ≠ []) then none else some []

/-- `Zipped::compute_start`, dependency type 2, on the blocks of the two partitions. -/
def computeStartZip (first : List (ItemE (List T))) (second : List (ItemE (List U))) :
    Option (List (ItemE (List (T × U)))) :=
  zipLoop first second [] []

theorem batchDecrypt_cons {α : Type u} (c : ItemE (List α)) (l : List (ItemE (List α))) :
    batchDecrypt (c :: l) = serDecrypt c ++ batchDecrypt l := rfl

/-- Zipping a longer list: its prefix of the other's length zips with the other. -/
theorem zip_append_of_length_le_left (xs : List T) (ys : List U) (r : List T) (r' : List U)
    (h : ys.length ≤ xs.length) :
    (xs ++ r).zip (ys ++ r') = (xs.take ys.length).zip ys ++ (xs.drop ys.length ++ r).zip r' := by
  conv_lhs => rw [← List.take_append_drop ys.length xs, List.append_assoc]
  exact List.zip_append (List.length_take_of_le h)

/-- Zipping with a longer list: its prefix of the first's length zips with the first. -/
theorem zip_append_of_length_le_right (xs : List T) (ys : List U) (r : List T) (r' : List U)
    (h : xs.length ≤ ys.length) :
    (xs ++ r).zip (ys ++ r') = xs.zip (ys.take xs.length) ++ r.zip (ys.drop xs.length ++ r') := by
  conv_lhs => rw [← List.take_append_drop xs.length ys, List.append_assoc]
  exact List.zip_append (List.length_take_of_le h).symm

/-- **What the loop returns is the zip of the two sides**: the remainders followed by the
blocks left, each side's blocks decrypted and concatenated, zipped up to the shorter side. -/
theorem zipLoop_eq_some :
    ∀ (first : List (ItemE (List T))) (second : List (ItemE (List U))) (rF : List T) (rS : List U)
      {out : List (ItemE (List (T × U)))}, zipLoop first second rF rS = some out →
      batchDecrypt out = (rF ++ batchDecrypt first).zip (rS ++ batchDecrypt second)
  | fc :: first, sc :: second, rF, rS, out, h => by
      -- each side: the remainder and the block just read, then the blocks left
      have hf : rF ++ batchDecrypt (fc :: first) = (rF ++ serDecrypt fc) ++ batchDecrypt first := by
        rw [batchDecrypt_cons, List.append_assoc]
      have hs : rS ++ batchDecrypt (sc :: second) = (rS ++ serDecrypt sc) ++ batchDecrypt second := by
        rw [batchDecrypt_cons, List.append_assoc]
      simp only [zipLoop] at h
      split_ifs at h with hlt
      · -- the first side is longer: its block splits at the second side's length
        obtain ⟨acc, hacc, rfl⟩ := Option.map_eq_some_iff.mp h
        rw [batchDecrypt_cons, serDecrypt_serEncrypt, zipLoop_eq_some first second _ [] hacc,
          List.nil_append, hf, hs,
          zip_append_of_length_le_left (rF ++ serDecrypt fc) (rS ++ serDecrypt sc) _ _ (by omega)]
      · -- the second side is at least as long: its block splits at the first side's length
        obtain ⟨acc, hacc, rfl⟩ := Option.map_eq_some_iff.mp h
        rw [batchDecrypt_cons, serDecrypt_serEncrypt, zipLoop_eq_some first second [] _ hacc,
          List.nil_append, hf, hs,
          zip_append_of_length_le_right (rF ++ serDecrypt fc) (rS ++ serDecrypt sc) _ _ (by omega)]
  | [], second, rF, rS, out, h => by
      simp only [zipLoop] at h
      split_ifs at h with hcont
      cases h
      -- the loop stopped: one side has neither a block nor a remainder
      have hend : rF = [] ∨ (second = [] ∧ rS = []) := by
        by_contra hne
        exact hcont ⟨Or.inr (by tauto), by tauto⟩
      rcases hend with rfl | ⟨rfl, rfl⟩ <;> simp [batchDecrypt]
  | fc :: first, [], rF, rS, out, h => by
      simp only [zipLoop] at h
      split_ifs at h with hcont
      cases h
      have hend : rS = [] := by
        by_contra hne
        exact hcont ⟨Or.inl (List.cons_ne_nil _ _), Or.inr hne⟩
      subst hend
      simp [batchDecrypt]

/-- **The zip reads past the end of a side.**  The first side's one block `[1, 2]` is longer
than the second side's first block `[3]`; after one round the first side has a remainder
and no block, the second side a block, and the loop reads `first[1]`. -/
theorem computeStartZip_out_of_bounds :
    computeStartZip [serEncrypt [1, 2]] [serEncrypt [3], serEncrypt [4]] = (none : Option (List (ItemE (List (ℕ × ℕ))))) :=
  rfl

end Zipped

end Flare
