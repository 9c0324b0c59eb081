import Mathlib
import Flare.Scheduler.Dag

/-!
# Output locations of a stage

A `Stage` (`scheduler/stage.rs`) keeps the locations of each partition's output, `output_locs`,
and a count `num_available_outputs` that `is_available` compares with `num_partitions`.  The
scheduler adds a location when a shuffle-map task succeeds (`add_output_loc_to_stage`) and
removes one on a fetch failure (`remove_output_loc_from_stage`).  The count is meant to be the
number of partitions with a location.

`remove_output_loc` keeps that count: it counts down when a partition loses its last location.
`add_output_loc` counts up the other way round from what the count needs: when the partition
already had a location.  So the first location of a partition is never counted, a shuffle-map
stage whose partitions each have one location is not available, and removing that location
again takes the count below zero, where it wraps to `usize::MAX`.

## Main definitions

* `Stage`, `Stage.new` — the stage's partitions, parents and outputs.
* `Stage.isAvailable`, `Stage.addOutputLoc`, `Stage.removeOutputLoc` — the methods.
* `Stage.Counted` — the count is the number of partitions with a location.

## Main results

* `addOutputLoc_not_counted` — every location added breaks the count.
* `removeOutputLoc_counted` — removing a location keeps it, and never wraps.
* `stage_output_count` — both, from every stage whose count is right.
* `Abstracts.addOutputLoc` — the scheduler's `Scheduler.addOutputLoc` follows the stage.

## Design notes

`id`, `rdd` and `shuffle_dependency` are not read by these methods, and of `parents` only its
emptiness is: the parents are their ids.

`num_available_outputs` is a `usize` of a 64-bit target, so a `UInt64`.  The framework is built
with `cargo build --release` (`Makefile`), without overflow checks: `+= 1` and `-= 1` wrap
around instead of panicking, as `UInt64` addition and subtraction do.  `num_partitions` is
compared through the count's value.
-/

namespace Flare

/-- A stage: `num_partitions`, `is_shuffle_map`, the ids of its `parents`, `output_locs` and
`num_available_outputs`. -/
structure Stage where
  numPartitions : ℕ
  isShuffleMap : Bool
  parents : List ℕ
  outputLocs : List (List (List Char))
  numAvailableOutputs : UInt64

namespace Stage

/-- `Stage::new`, for an RDD of `numSplits` partitions: no location for any partition. -/
def new (numSplits : ℕ) (isShuffleMap : Bool) (parents : List ℕ) : Stage :=
  ⟨numSplits, isShuffleMap, parents, List.replicate numSplits [], 0⟩

/-- `is_available`: a result stage without parents, or every output counted. -/
def isAvailable (st : Stage) : Bool :=
  if st.parents = [] ∧ st.isShuffleMap = false then true
  else st.numAvailableOutputs.toNat == st.numPartitions

/-- `add_output_loc`: `none` where `output_locs[partition]` panics.  The count grows when the
partition already had a location. -/
def addOutputLoc (st : Stage) (partition : ℕ) (host : List Char) : Option Stage :=
  match st.outputLocs[partition]? with
  | none => none
  | some locs =>
    some { st with
      numAvailableOutputs := if locs ≠ [] then st.numAvailableOutputs + 1 else st.numAvailableOutputs
      outputLocs := st.outputLocs.set partition (locs ++ [host]) }

/-- `remove_output_loc`: every copy of `host` removed, and the count one less when the
partition loses its last location.  `none` where `output_locs[partition]` panics. -/
def removeOutputLoc (st : Stage) (partition : ℕ) (host : List Char) : Option Stage :=
  match st.outputLocs[partition]? with
  | none => none
  | some prevVec =>
    let newVec := prevVec.filter fun x => x != host
    if prevVec ≠ [] ∧ newVec = [] then
      some { st with
        numAvailableOutputs := st.numAvailableOutputs - 1
        outputLocs := st.outputLocs.set partition newVec }
    else some { st with outputLocs := st.outputLocs.set partition newVec }

/-- A partition with a location. -/
def hasLocs (locs : List (List Char)) : Bool := !locs.isEmpty

theorem hasLocs_eq_true_iff {locs : List (List Char)} : hasLocs locs = true ↔ locs ≠ [] := by
  simp [hasLocs]

/-- The number of partitions with a location. -/
def numWithLocs (st : Stage) : ℕ := st.outputLocs.countP hasLocs

/-- The count is the number of partitions with a location, as `is_available` needs. -/
def Counted (st : Stage) : Prop := st.numAvailableOutputs.toNat = st.numWithLocs

instance (st : Stage) : Decidable st.Counted := inferInstanceAs (Decidable (_ = _))

theorem counted_new (numSplits : ℕ) (isShuffleMap : Bool) (parents : List ℕ) :
    (new numSplits isShuffleMap parents).Counted := by
  unfold Counted numWithLocs new
  rw [List.countP_replicate]
  rfl

/-- Setting a partition's locations changes the number of partitions with a location by what
the partition had and has. -/
theorem countP_set_add {l : List (List (List Char))} {i : ℕ} {old : List (List Char)}
    (hold : l[i]? = some old) (a : List (List Char)) :
    (l.set i a).countP hasLocs + (if hasLocs old then 1 else 0) =
      l.countP hasLocs + (if hasLocs a then 1 else 0) := by
  obtain ⟨hi, rfl⟩ := List.getElem?_eq_some_iff.mp hold
  rw [List.countP_set hi]
  have hpos : (if hasLocs l[i] then 1 else 0) ≤ l.countP hasLocs := by
    split_ifs with hne
    · exact List.countP_pos_iff.mpr ⟨l[i], List.getElem_mem hi, hne⟩
    · exact Nat.zero_le _
  omega

/-- What a partition contributes to the count of partitions with a location. -/
theorem ite_hasLocs (locs : List (List Char)) :
    (if hasLocs locs then 1 else 0) = if locs ≠ [] then 1 else 0 := by
  by_cases hne : locs = []
  · rw [if_neg (not_not.mpr hne), if_neg (by rw [hasLocs_eq_true_iff]; exact not_not.mpr hne)]
  · rw [if_pos hne, if_pos (hasLocs_eq_true_iff.mpr hne)]

/-- `+= 1` in a release build: one more, or zero after `usize::MAX`. -/
theorem toNat_add_one (n : UInt64) : (n + 1).toNat = (n.toNat + 1) % 2 ^ 64 := by
  simp [UInt64.toNat_add]

/-- `-= 1` of a count that is not zero is one less. -/
theorem toNat_sub_one {n : UInt64} (hpos : 1 ≤ n.toNat) : (n - 1).toNat = n.toNat - 1 := by
  rw [UInt64.toNat_sub_of_le]
  · rfl
  · exact UInt64.le_iff_toNat_le.mpr hpos

/-- **Every location added breaks the count**: a partition without a location gains one
uncounted, and one with a location gains a count it already had (`+= 1` changes the count
even where it wraps). -/
theorem addOutputLoc_not_counted {st st' : Stage} (h : st.Counted) {partition : ℕ}
    {host : List Char} (hadd : st.addOutputLoc partition host = some st') : ¬st'.Counted := by
  unfold addOutputLoc at hadd
  split at hadd
  · cases hadd
  · rename_i locs hlocs
    cases hadd
    have hset := countP_set_add hlocs (locs ++ [host])
    rw [ite_hasLocs, ite_hasLocs,
      if_pos (List.append_ne_nil_of_right_ne_nil locs (List.cons_ne_nil host []))] at hset
    have hwrap := toNat_add_one st.numAvailableOutputs
    have hlt := UInt64.toNat_lt st.numAvailableOutputs
    unfold Counted numWithLocs at h ⊢
    dsimp only
    split_ifs at hset ⊢ <;> omega

/-- **Removing a location keeps the count**, and never wraps it: a partition that loses its
last location was counted. -/
theorem removeOutputLoc_counted {st : Stage} (h : st.Counted) {partition : ℕ}
    (hpart : partition < st.outputLocs.length) (host : List Char) :
    ∃ st', st.removeOutputLoc partition host = some st' ∧ st'.Counted := by
  obtain ⟨prevVec, hprev⟩ : ∃ prevVec, st.outputLocs[partition]? = some prevVec :=
    ⟨_, List.getElem?_eq_getElem hpart⟩
  have hset := countP_set_add hprev (prevVec.filter fun x => x != host)
  rw [ite_hasLocs, ite_hasLocs] at hset
  unfold Counted numWithLocs at h
  unfold removeOutputLoc
  rw [hprev]
  dsimp only
  split_ifs with hlast
  · refine ⟨_, rfl, ?_⟩
    unfold Counted numWithLocs
    rw [if_pos hlast.1, if_neg (not_not.mpr hlast.2)] at hset
    -- the partition had a location, so the count is not zero
    rw [toNat_sub_one (by omega)]
    dsimp only
    omega
  · refine ⟨_, rfl, ?_⟩
    unfold Counted numWithLocs
    dsimp only
    -- otherwise the partition keeps having, or not having, a location
    have hsame : (prevVec ≠ []) ↔ (prevVec.filter fun x => x != host) ≠ [] := by
      constructor
      · intro hne hnil
        exact hlast ⟨hne, hnil⟩
      · intro hne hnil
        rw [hnil, List.filter_nil] at hne
        exact hne rfl
    by_cases hne : prevVec ≠ []
    · rw [if_pos hne, if_pos (hsame.mp hne)] at hset
      omega
    · rw [if_neg hne, if_neg (fun h' => hne (hsame.mpr h'))] at hset
      omega

/-- **The count of available outputs, from every stage whose count is right**: adding a
location always breaks it; removing a location keeps it, and never wraps it. -/
theorem stage_output_count (st : Stage) (h : st.Counted) :
    (∀ partition host st', st.addOutputLoc partition host = some st' → ¬st'.Counted) ∧
      ∀ partition host, partition < st.outputLocs.length →
        ∃ st', st.removeOutputLoc partition host = some st' ∧ st'.Counted :=
  ⟨fun _ _ _ hadd => addOutputLoc_not_counted h hadd,
    fun _ host hpart => removeOutputLoc_counted h hpart host⟩

theorem stage_output_count_of_new :
    (new 1 true []).Counted ∧
      ((∀ partition host st', (new 1 true []).addOutputLoc partition host = some st' →
          ¬st'.Counted) ∧
        ∀ partition host, partition < (new 1 true []).outputLocs.length →
          ∃ st', (new 1 true []).removeOutputLoc partition host = some st' ∧ st'.Counted) :=
  ⟨counted_new 1 true [], stage_output_count _ (counted_new 1 true [])⟩

/-- A shuffle-map stage of one partition: after its one location, the stage is not available,
and removing the location again wraps the count to `usize::MAX`. -/
theorem addOutputLoc_first_uncounted (host : List Char) :
    ((new 1 true []).addOutputLoc 0 host).map isAvailable = some false ∧
      ((new 1 true []).addOutputLoc 0 host).map outputLocs = some [[host]] ∧
      (((new 1 true []).addOutputLoc 0 host).bind (·.removeOutputLoc 0 host)).map
        numAvailableOutputs = some 18446744073709551615 := by
  refine ⟨rfl, rfl, ?_⟩
  simp [new, addOutputLoc, removeOutputLoc]
  decide

/-! ### The scheduler's view -/

/-- The scheduler's `JobState` follows stage `s`: the same count, and for each partition the
number of its locations. -/
def Abstracts (jst : Scheduler.JobState) (s : ℕ) (st : Stage) : Prop :=
  jst.numAvailable s = st.numAvailableOutputs.toNat ∧
    ∀ p, p < st.outputLocs.length → jst.locCount s p = (st.outputLocs.getD p []).length

/-- **`Scheduler.addOutputLoc` is the stage's `add_output_loc`** on the counts it keeps, while
the count is below `usize::MAX` (the scheduler's count does not wrap). -/
theorem Abstracts.addOutputLoc {jst : Scheduler.JobState} {s : ℕ} {st st' : Stage}
    (h : Abstracts jst s st) (hbound : st.numAvailableOutputs.toNat + 1 < 2 ^ 64) {p : ℕ}
    {host : List Char} (hadd : st.addOutputLoc p host = some st') :
    Abstracts (Scheduler.addOutputLoc jst s p) s st' := by
  unfold Stage.addOutputLoc at hadd
  split at hadd
  · cases hadd
  · rename_i locs hlocs
    cases hadd
    obtain ⟨hp, hget⟩ := List.getElem?_eq_some_iff.mp hlocs
    have hcount : jst.locCount s p = locs.length := by
      rw [h.2 p hp, List.getD_eq_getElem?_getD, hlocs, Option.getD_some]
    refine ⟨?_, fun q hq => ?_⟩
    · -- the count grows exactly when the partition had a location
      simp only [Scheduler.addOutputLoc, hcount, ne_eq, List.length_eq_zero_iff]
      split_ifs
      · simp [h.1]
      · -- no wrap below the bound
        simp [h.1]
        omega
    · rw [List.length_set] at hq
      simp only [Scheduler.addOutputLoc, Function.update_self]
      by_cases hqp : q = p
      · subst hqp
        rw [Function.update_self, hcount, List.getD_eq_getElem?_getD, List.getElem?_set_self hp,
          Option.getD_some, List.length_append, List.length_singleton]
      · rw [Function.update_of_ne hqp, h.2 q hq, List.getD_eq_getElem?_getD,
          List.getD_eq_getElem?_getD, List.getElem?_set_ne (Ne.symm hqp)]

end Stage

end Flare
