import Mathlib
import Flare.Lib.Fold
import Flare.Lib.Join
import Flare.Lib.Slices

/-!
# Coalescing a parent's splits into groups

`DefaultPartitionCoalescer::coalesce` (`rdd/coalesced_rdd.rs`:766-779) groups the splits of
a parent RDD into at most `max_partitions` groups.  `setup_groups` (517-598) creates
`target_len = min(n, max_partitions)` groups: with no preferred location anywhere, empty
groups in `group_arr`; otherwise a first loop makes a group for each new location (filed in
`group_hash`), and a second loop makes the rest from random entries (filed in `group_hash`
and in `group_arr`).  `throw_balls` (688-760) then places the splits: by position without
locality; with locality, one split into each empty group, then every split not yet placed
through `pick_bin` (610-686).  `get_partitions` (762-775) returns the non-empty groups of
`group_arr`, each unwrapped from its `Arc`.

## Main definitions

* `PartitionLocations.new` — the splits with and without preferred locations.
* `DefaultPartitionCoalescer` — the coalescer's state, with the groups its `Arc`s share.
* `setupGroups`, `pickBin`, `throwBalls`, `getPartitions`, `coalesce` — the algorithm.

## Main results

* `getLeastGroupHash_eq_none` — the least loaded group of a location is never found, so
  `pick_bin` never prefers locality.
* `coalesce_of_no_locality` — with no preferred location, the groups are `min(n, max)`
  non-empty groups holding every split once.
* `coalesce_of_located` — with a preferred location for some split, `coalesce` panics or
  returns no group at all.

## Design notes

The groups live in a list indexed by their id (`part_cnt`); `group_arr` and `group_hash`
hold ids, as the code's `SerArc`s share one group.  `Arc::try_unwrap` fails on a group
that `group_hash`, which `get_partitions` has not dropped yet, still holds.  The random
generator is any `Rng`: `get_default_rng()` has a fixed seed, so the `k`-th draw of a
fresh generator is a function of `k` and of the range.  The `f64` estimates
(`expected_coupons_2` and `balance_slack * n as usize`) are arguments; no result depends on
their values, and `(n as f64 / max as f64).floor() as usize` is `n / max`.  Panics are
`none`.
-/

namespace Flare

namespace Coalesced

universe u

/-- `PartitionGroup`: its id, its preferred location, and the parent splits it holds by
index. -/
structure PartitionGroup (α : Type u) where
  id : ℕ
  preferredLocation : Option α
  partitions : List ℕ

/-- `PartitionGroup::num_partitions`. -/
def PartitionGroup.numPartitions {α : Type u} (g : PartitionGroup α) : ℕ := g.partitions.length

/-- `PartitionLocations`: the splits without a preferred location, and a `(location, split)`
entry for each of the first three locations of the others. -/
structure PartitionLocations (α : Type u) where
  partsWithoutLocs : List ℕ
  partsWithLocs : List (α × ℕ)

/-- `PartitionLocations::new`, from the preferred locations of each parent split: for `x` in
`0..=2`, the `x`-th location of every split that has one. -/
def PartitionLocations.new {α : Type u} (prefLocs : List (List α)) : PartitionLocations α where
  partsWithoutLocs := (prefLocs.zipIdx.filter fun p => p.1.isEmpty).map Prod.snd
  partsWithLocs :=
    let tmp := prefLocs.zipIdx.filter fun p => !p.1.isEmpty
    (List.range 3).flatMap fun x => tmp.filterMap fun p => p.1[x]?.map fun h => (h, p.2)

/-- A random generator: `draw k m` is the `k`-th `gen_range(0, m)` of a fresh one. -/
structure Rng where
  draw : ℕ → ℕ → ℕ
  draw_lt : ∀ k m, 0 < m → draw k m < m

/-- `DefaultPartitionCoalescer` with the groups its `SerArc`s point to: group `id` is
`groups[id]`, and `group_arr` and `group_hash` hold ids. -/
structure DefaultPartitionCoalescer (α : Type u) where
  groups : List (PartitionGroup α)
  groupArr : List ℕ
  groupHash : List (α × List ℕ)
  initialHash : List ℕ
  noLocality : Bool

variable {α : Type u}

namespace DefaultPartitionCoalescer

/-- `DefaultPartitionCoalescer::default`: nothing created yet, `no_locality` set. -/
def default : DefaultPartitionCoalescer α := ⟨[], [], [], [], true⟩

variable (st : DefaultPartitionCoalescer α)

/-- `pg.lock().num_partitions()` for group `id`. -/
def size (id : ℕ) : ℕ := ((st.groups[id]?).map PartitionGroup.numPartitions).getD 0

/-- `PartitionGroup::new(loc, part_cnt.fetch_add(1))`: a new empty group, numbered by the
groups created before it. -/
def newGroup (loc : Option α) : DefaultPartitionCoalescer α × ℕ :=
  ({ st with groups := st.groups ++ [⟨st.groups.length, loc, []⟩] }, st.groups.length)

/-- `partitions.push(part)` on group `id`. -/
def pushPart (part id : ℕ) : DefaultPartitionCoalescer α :=
  { st with groups := st.groups.modify id fun g => { g with partitions := g.partitions ++ [part] } }

/-- `add_part_to_pgroup`: the split joins the group unless a group already took it. -/
def addPartToPgroup (part id : ℕ) : DefaultPartitionCoalescer α × Bool :=
  if part ∈ st.initialHash then (st, false)
  else ({ st.pushPart part id with initialHash := part :: st.initialHash }, true)

/-- `get_partitions`: the non-empty groups of `group_arr`; `Arc::try_unwrap(..).unwrap()`
panics on a group that `group_hash` still holds. -/
def getPartitions : Option (List (PartitionGroup α)) :=
  (st.groupArr.filter fun id => 0 < st.size id).mapM fun id =>
    if st.groupHash.any fun e => id ∈ e.2 then none else st.groups[id]?

/-! ### The links between the groups

The steps that only fill groups keep `group_arr`, `group_hash` and `no_locality`. -/

/-- Two states with the same `group_arr`, `group_hash` and `no_locality`: only the groups'
splits and `initial_hash` may differ. -/
structure SameLinks (st st' : DefaultPartitionCoalescer α) : Prop where
  groupArr : st'.groupArr = st.groupArr
  groupHash : st'.groupHash = st.groupHash
  noLocality : st'.noLocality = st.noLocality

theorem SameLinks.refl : SameLinks st st := ⟨rfl, rfl, rfl⟩

theorem SameLinks.trans {st₁ st₂ st₃ : DefaultPartitionCoalescer α} (h₁ : SameLinks st₁ st₂)
    (h₂ : SameLinks st₂ st₃) : SameLinks st₁ st₃ :=
  ⟨h₂.groupArr.trans h₁.groupArr, h₂.groupHash.trans h₁.groupHash,
    h₂.noLocality.trans h₁.noLocality⟩

theorem sameLinks_newGroup (loc : Option α) : SameLinks st (st.newGroup loc).1 := ⟨rfl, rfl, rfl⟩

theorem sameLinks_pushPart (part id : ℕ) : SameLinks st (st.pushPart part id) := ⟨rfl, rfl, rfl⟩

theorem sameLinks_addPartToPgroup (part id : ℕ) : SameLinks st (st.addPartToPgroup part id).1 := by
  unfold addPartToPgroup
  split
  · exact SameLinks.refl st
  · exact ⟨rfl, rfl, rfl⟩

end DefaultPartitionCoalescer

open DefaultPartitionCoalescer

/-- Every group of `group_arr` is also held by `group_hash`. -/
def ArrHashed (st : DefaultPartitionCoalescer α) : Prop :=
  ∀ id ∈ st.groupArr, ∃ e ∈ st.groupHash, id ∈ e.2

theorem ArrHashed.of_sameLinks {st st' : DefaultPartitionCoalescer α} (h : ArrHashed st)
    (hs : SameLinks st st') : ArrHashed st' := by
  intro id hid
  rw [hs.groupHash]
  exact h id (hs.groupArr ▸ hid)

/-- **Unwrapping a group that `group_hash` holds panics**: when every group of `group_arr`
is in `group_hash`, `get_partitions` panics at the first non-empty one, and otherwise
returns no group. -/
theorem getPartitions_of_arrHashed {st : DefaultPartitionCoalescer α} (h : ArrHashed st)
    {gs : List (PartitionGroup α)} (hg : st.getPartitions = some gs) : gs = [] := by
  unfold getPartitions at hg
  cases hf : st.groupArr.filter (fun id => 0 < st.size id) with
  | nil =>
      rw [hf] at hg
      cases hg
      rfl
  | cons id ids =>
      have hid : id ∈ st.groupArr := by
        have hmem : id ∈ st.groupArr.filter (fun id => 0 < st.size id) := by
          rw [hf]
          exact List.mem_cons_self
        exact (List.mem_filter.mp hmem).1
      obtain ⟨e, he, hide⟩ := h id hid
      have hany : (st.groupHash.any fun e => decide (id ∈ e.2)) = true :=
        List.any_eq_true.mpr ⟨e, he, decide_eq_true hide⟩
      rw [hf, List.mapM_cons, hany, if_pos rfl] at hg
      cases hg

variable [DecidableEq α]

/-- `group_hash.entry(loc).or_insert_with(Vec::new).push(id)`; for a location not in the map
also `group_hash.insert(loc, vec![id])`. -/
def hashPush : List (α × List ℕ) → α → ℕ → List (α × List ℕ)
  | [], h, id => [(h, [id])]
  | (k, ids) :: m, h, id => if k = h then (k, ids ++ [id]) :: m else (k, ids) :: hashPush m h id

namespace DefaultPartitionCoalescer

variable (st : DefaultPartitionCoalescer α)

/-- `get_least_group_hash`. -/
def getLeastGroupHash (key : α) : Option ℕ :=
  match st.groupHash.lookup key with
  | none => none
  | some group =>
      -- `current_min` starts as `None` and is only ever replaced while it is `Some`
      group.foldl (fun currentMin g =>
        match currentMin with
        | some cmin => if st.size cmin > st.size g then some g else currentMin
        | none => none) none

/-- `pick_bin` for a split with preferred locations `locs`; `slack` is
`balance_slack * n as usize`. -/
def pickBin (rng : Rng) (slack : ℕ) (locs : List α) : Option ℕ := do
  let pref := locs.map st.getLeastGroupHash
  let prefPart : Option ℕ :=
    if pref.isEmpty then none
    else
      (pref.filterMap id).foldl (fun min pl =>
        match min with
        | some plMin => if st.size pl < st.size plMin then some pl else min
        | none => some pl) none
  -- `group_arr[gen_range(0, len)]`, twice; past the end for an empty `group_arr`
  let r1 ← st.groupArr[rng.draw 0 st.groupArr.length]?
  let r2 ← st.groupArr[rng.draw 1 st.groupArr.length]?
  let minPowerOfTwo := if st.size r1 < st.size r2 then r1 else r2
  match prefPart with
  | some prefPartActual =>
      if st.size minPowerOfTwo + slack ≤ st.size prefPartActual then some minPowerOfTwo
      else some prefPartActual
  | none => some minPowerOfTwo

end DefaultPartitionCoalescer


/-! ### `setup_groups` -/

/-- `setup_groups` with no preferred location: `n` empty groups, in `group_arr`. -/
def pushEmptyGroups : ℕ → DefaultPartitionCoalescer α → DefaultPartitionCoalescer α
  | 0, st => st
  | n + 1, st =>
      let (st, id) := st.newGroup none
      pushEmptyGroups n { st with groupArr := st.groupArr ++ [id] }

/-- The first loop of `setup_groups`, over the entries it may look at: a group for each
location not yet in `group_hash`, filed there only, until `target_len` groups exist. -/
def setupFirstLoop (targetLen : ℕ) :
    List (α × ℕ) → ℕ → DefaultPartitionCoalescer α → DefaultPartitionCoalescer α × ℕ
  | [], numCreated, st => (st, numCreated)
  | (nxtReplica, nxtPart) :: rest, numCreated, st =>
      if numCreated < targetLen then
        if (st.groupHash.lookup nxtReplica).isSome then setupFirstLoop targetLen rest numCreated st
        else
          let (st, id) := st.newGroup (some nxtReplica)
          let st := (st.addPartToPgroup nxtPart id).1
          setupFirstLoop targetLen rest (numCreated + 1)
            { st with groupHash := hashPush st.groupHash nxtReplica id }
      else (st, numCreated)

/-- The second loop of `setup_groups`, for the `n` groups still missing: each from the
`k`-th random entry, filed in `group_hash` and in `group_arr`. -/
def setupSecondLoop (rng : Rng) (partsWithLocs : List (α × ℕ)) :
    ℕ → ℕ → DefaultPartitionCoalescer α → Option (DefaultPartitionCoalescer α)
  | 0, _, st => some st
  | n + 1, k, st => do
      let (nxtReplica, nxtPart) ← partsWithLocs[rng.draw k partsWithLocs.length]?
      let (st, id) := st.newGroup (some nxtReplica)
      let st := (st.addPartToPgroup nxtPart id).1
      setupSecondLoop rng partsWithLocs n (k + 1)
        { st with groupHash := hashPush st.groupHash nxtReplica id, groupArr := st.groupArr ++ [id] }

/-- `setup_groups`: `expectedCoupons2` is `expected_coupons_2`. -/
def setupGroups (rng : Rng) (expectedCoupons2 targetLen : ℕ) (locs : PartitionLocations α)
    (st : DefaultPartitionCoalescer α) : Option (DefaultPartitionCoalescer α) :=
  if locs.partsWithLocs.isEmpty then some (pushEmptyGroups targetLen st)
  else
    let st := { st with noLocality := false }
    let numPartsToLookAt := min expectedCoupons2 locs.partsWithLocs.length
    let (st, numCreated) :=
      setupFirstLoop targetLen (locs.partsWithLocs.take numPartsToLookAt) 0 st
    setupSecondLoop rng locs.partsWithLocs (targetLen - numCreated) 0 st

/-! ### `throw_balls` -/

/-- A round of the no-locality, `else` loop of `throw_balls`: split `i` goes into
`group_arr[chunk]`, `chunk` moving on at each multiple of `chunk_size` but `0`, up to the last
group. -/
def chunkStep (chunkSize maxPartitions : ℕ) (acc : ℕ × DefaultPartitionCoalescer α) (i : ℕ) :
    Option (ℕ × DefaultPartitionCoalescer α) :=
  let chunk := if i % chunkSize = 0 ∧ acc.1 + 1 < maxPartitions ∧ i ≠ 0 then acc.1 + 1 else acc.1
  (acc.2.groupArr[chunk]?).map fun id => (chunk, acc.2.pushPart i id)

/-- `while part_iter.peek().is_some() && pg.num_partitions() == 0` for group `id`: entries
taken from the shared iterator until one is a split no group has. -/
def fillGroup (id : ℕ) :
    List ℕ → DefaultPartitionCoalescer α → List ℕ × DefaultPartitionCoalescer α
  | [], st => ([], st)
  | part :: rest, st =>
      if st.size id = 0 then fillGroup id rest (st.addPartToPgroup part id).1
      else (part :: rest, st)

/-- A pass of `throw_balls` over the empty groups of `group_arr`, all drawing from one
iterator over `parts`. -/
def fillEmpty (parts : List ℕ) (st : DefaultPartitionCoalescer α) : DefaultPartitionCoalescer α :=
  (st.groupArr.foldl (fun (acc : List ℕ × DefaultPartitionCoalescer α) id =>
    if acc.2.size id = 0 then fillGroup id acc.1 acc.2 else acc) (parts, st)).2

/-- `throw_balls` for a parent whose split `i` has preferred locations `prefLocs[i]`. -/
def throwBalls (rng : Rng) (slack maxPartitions : ℕ) (prefLocs : List (List α))
    (locs : PartitionLocations α) (st : DefaultPartitionCoalescer α) :
    Option (DefaultPartitionCoalescer α) :=
  if st.noLocality then
    if maxPartitions > st.groupArr.length then
      (List.range prefLocs.length).foldlM
        (fun st i => (st.groupArr[i]?).map fun id => st.pushPart i id) st
    else
      let chunkSize := prefLocs.length / maxPartitions
      ((List.range prefLocs.length).foldlM (chunkStep chunkSize maxPartitions) (0, st)).map Prod.snd
  else
    let st := fillEmpty (locs.partsWithLocs.map Prod.snd) st
    let st := fillEmpty locs.partsWithoutLocs st
    -- every split not placed yet, through `pick_bin`
    prefLocs.zipIdx.foldlM (fun st p =>
      if p.2 ∈ st.initialHash then some st
      else (st.pickBin rng slack p.1).map fun id => st.pushPart p.2 id) st

/-- `DefaultPartitionCoalescer::coalesce` of a parent whose split `i` has preferred
locations `prefLocs[i]`. -/
def coalesce (expectedCoupons2 : ℕ → ℕ) (rng : Rng) (slack maxPartitions : ℕ)
    (prefLocs : List (List α)) : Option (List (PartitionGroup α)) := do
  let locs := PartitionLocations.new prefLocs
  let targetLen := min prefLocs.length maxPartitions
  let st ← setupGroups rng (expectedCoupons2 targetLen) targetLen locs default
  let st ← throwBalls rng slack maxPartitions prefLocs locs st
  st.getPartitions

/-! ### `pick_bin` never prefers locality -/

namespace DefaultPartitionCoalescer

variable (st : DefaultPartitionCoalescer α)

/-- **The least loaded group of a location is never found**: `current_min` is `None` before
the loop, and every round keeps it `None`. -/
theorem getLeastGroupHash_eq_none (key : α) : st.getLeastGroupHash key = none := by
  unfold getLeastGroupHash
  split
  · rfl
  · exact Folds.foldl_invariant (· = none) _ (fun b g hb => by subst hb; rfl) _ none rfl

/-- **`pick_bin` is the power-of-two choice**: of two random groups of `group_arr`, the
second unless the first holds fewer splits, whatever the split's locations. -/
theorem pickBin_eq (rng : Rng) (slack : ℕ) (locs : List α) :
    st.pickBin rng slack locs = (do
      let r1 ← st.groupArr[rng.draw 0 st.groupArr.length]?
      let r2 ← st.groupArr[rng.draw 1 st.groupArr.length]?
      some (if st.size r1 < st.size r2 then r1 else r2)) := by
  have hpref : (locs.map st.getLeastGroupHash).filterMap id = [] := by
    simp [getLeastGroupHash_eq_none]
  simp only [pickBin, hpref, List.foldl_nil, ite_self]

end DefaultPartitionCoalescer

/-- `group_hash` keeps every id it holds. -/
theorem mem_hashPush_of_mem {id : ℕ} (k : α) (id' : ℕ) :
    ∀ {m : List (α × List ℕ)}, (∃ e ∈ m, id ∈ e.2) → ∃ e ∈ hashPush m k id', id ∈ e.2
  | [], ⟨_, he, _⟩ => absurd he List.not_mem_nil
  | (k', ids) :: m, ⟨e, he, hid⟩ => by
      unfold hashPush
      rcases List.mem_cons.mp he with rfl | he
      · split
        · exact ⟨(k', ids ++ [id']), List.mem_cons_self, List.mem_append_left _ hid⟩
        · exact ⟨(k', ids), List.mem_cons_self, hid⟩
      · split
        · exact ⟨e, List.mem_cons_of_mem _ he, hid⟩
        · obtain ⟨e', he', hid'⟩ := mem_hashPush_of_mem k id' ⟨e, he, hid⟩
          exact ⟨e', List.mem_cons_of_mem _ he', hid'⟩

/-- `group_hash` holds the id it files. -/
theorem mem_hashPush_self (k : α) (id : ℕ) :
    ∀ m : List (α × List ℕ), ∃ e ∈ hashPush m k id, id ∈ e.2
  | [] => ⟨(k, [id]), List.mem_singleton_self _, List.mem_singleton_self _⟩
  | (k', ids) :: m => by
      unfold hashPush
      split
      · exact ⟨(k', ids ++ [id]), List.mem_cons_self, List.mem_append_right _ (List.mem_singleton_self _)⟩
      · obtain ⟨e, he, hid⟩ := mem_hashPush_self k id m
        exact ⟨e, List.mem_cons_of_mem _ he, hid⟩

/-- Filing a group in `group_hash` keeps every group of `group_arr` held. -/
theorem ArrHashed.of_hashPush {st : DefaultPartitionCoalescer α} (h : ArrHashed st) (k : α)
    (id : ℕ) : ArrHashed { st with groupHash := hashPush st.groupHash k id } :=
  fun id' hid' => mem_hashPush_of_mem k id (h id' hid')

/-- Filing a group in `group_hash` and in `group_arr` keeps every group of `group_arr` held. -/
theorem ArrHashed.of_hashPush_arr {st : DefaultPartitionCoalescer α} (h : ArrHashed st) (k : α)
    (id : ℕ) :
    ArrHashed { st with groupHash := hashPush st.groupHash k id, groupArr := st.groupArr ++ [id] } := by
  intro id' hid'
  rcases List.mem_append.mp hid' with hid' | hid'
  · exact mem_hashPush_of_mem k id (h id' hid')
  · rw [List.mem_singleton.mp hid']
    exact mem_hashPush_self k id _

/-! ### Where the splits' locations lead -/

omit [DecidableEq α] in
/-- Some split has a preferred location exactly when there is an entry with a location. -/
theorem partsWithLocs_eq_nil_iff (prefLocs : List (List α)) :
    (PartitionLocations.new prefLocs).partsWithLocs = [] ↔ ∀ locs ∈ prefLocs, locs = [] := by
  constructor
  · intro h locs hlocs
    cases locs with
    | nil => rfl
    | cons loc more =>
        -- the entry of the split's first location
        obtain ⟨i, hi, hget⟩ := List.getElem_of_mem hlocs
        have hmem : (loc, i) ∈ (PartitionLocations.new prefLocs).partsWithLocs := by
          simp only [PartitionLocations.new, List.mem_flatMap, List.mem_range, List.mem_filterMap,
            List.mem_filter, List.mem_zipIdx_iff_getElem?]
          exact ⟨0, by omega, (loc :: more, i), ⟨by rw [List.getElem?_eq_getElem hi, hget], rfl⟩, rfl⟩
        rw [h] at hmem
        exact absurd hmem List.not_mem_nil
  · intro h
    have htmp : prefLocs.zipIdx.filter (fun p => !p.1.isEmpty) = [] := by
      refine List.filter_eq_nil_iff.mpr fun p hp => ?_
      have hmem : p.1 ∈ prefLocs := List.mem_of_getElem? (List.mem_zipIdx_iff_getElem?.mp hp)
      simp [h p.1 hmem]
    simp [PartitionLocations.new, htmp]

/-! ### Without locality -/

section Spread

omit [DecidableEq α]

/-- The groups once splits `0, ..., n - 1` went to groups `f 0, ..., f (n - 1)` of `k` groups
with no location. -/
def spread (f : ℕ → ℕ) (n k : ℕ) : List (PartitionGroup α) :=
  (List.range k).map fun c => ⟨c, none, (List.range n).filter fun i => f i = c⟩

/-- The state without locality: the groups `spread f n k`, all in `group_arr`. -/
def spreadState (f : ℕ → ℕ) (n k : ℕ) : DefaultPartitionCoalescer α :=
  ⟨spread f n k, List.range k, [], [], true⟩

/-- `setup_groups` without locality: `k` more empty groups. -/
theorem pushEmptyGroups_spreadState (f : ℕ → ℕ) :
    ∀ (j m : ℕ), pushEmptyGroups m (spreadState f 0 j : DefaultPartitionCoalescer α) =
      spreadState f 0 (j + m)
  | j, 0 => rfl
  | j, m + 1 => by
      -- the new group is group `j`
      have hnew : (spreadState f 0 j : DefaultPartitionCoalescer α).newGroup none =
          (⟨spread f 0 (j + 1), List.range j, [], [], true⟩, j) := by
        simp [spreadState, newGroup, spread, List.range_succ]
      simp only [pushEmptyGroups, hnew, ← List.range_succ]
      rw [show j + (m + 1) = j + 1 + m by omega]
      exact pushEmptyGroups_spreadState f (j + 1) m

/-- Split `n` goes into group `f n`. -/
theorem pushPart_spreadState (f : ℕ → ℕ) (n k : ℕ) :
    (spreadState f n k : DefaultPartitionCoalescer α).pushPart n (f n) = spreadState f (n + 1) k := by
  simp only [spreadState, pushPart, DefaultPartitionCoalescer.mk.injEq, and_true]
  refine List.ext_getElem (by simp [spread]) fun c h₁ h₂ => ?_
  rw [List.getElem_modify]
  simp only [spread, List.getElem_map, List.getElem_range, List.range_succ, List.filter_append]
  split_ifs with hc
  · subst hc
    simp
  · simpa using hc

/-- `throw_balls` without locality, with more groups allowed than splits: split `i` goes into
`group_arr[i]`. -/
theorem foldlM_positions {n k : ℕ} (hnk : n ≤ k) :
    (List.range n).foldlM (fun st i => (st.groupArr[i]?).map fun id => st.pushPart i id)
        (spreadState (fun i => i) 0 k : DefaultPartitionCoalescer α) =
      some (spreadState (fun i => i) n k) := by
  induction n with
  | zero => rfl
  | succ n ih =>
      rw [List.range_succ, List.foldlM_append, ih (by omega)]
      have hget : (spreadState (fun i => i) n k : DefaultPartitionCoalescer α).groupArr[n]? = some n :=
        List.getElem?_range (by omega)
      simp only [Option.bind_eq_bind, Option.bind_some, List.foldlM_cons, List.foldlM_nil, hget,
        Option.map_some]
      rw [pushPart_spreadState (fun i => i)]
      rfl

/-- The group of split `i` in the chunked loop of `throw_balls`: `i / chunk_size`, the last
group taking the rest. -/
def chunkOf (chunkSize maxPartitions i : ℕ) : ℕ := min (i / chunkSize) (maxPartitions - 1)

/-- A round of the chunked loop moves `chunk` from the group of split `i - 1` to that of
split `i`. -/
theorem chunk_eq_chunkOf (chunkSize maxPartitions i : ℕ) :
    (if i % chunkSize = 0 ∧ chunkOf chunkSize maxPartitions (i - 1) + 1 < maxPartitions ∧ i ≠ 0
      then chunkOf chunkSize maxPartitions (i - 1) + 1
      else chunkOf chunkSize maxPartitions (i - 1)) = chunkOf chunkSize maxPartitions i := by
  cases i with
  | zero => simp
  | succ j =>
      simp only [Nat.add_sub_cancel, chunkOf, Nat.succ_div, Nat.dvd_iff_mod_eq_zero]
      by_cases hd : (j + 1) % chunkSize = 0
      · -- a multiple of `chunk_size`: the next group, unless this is the last one
        simp only [hd, if_true, true_and, ne_eq, Nat.add_one_ne_zero, not_false_eq_true, and_true]
        generalize j / chunkSize = b
        split_ifs <;> omega
      · simp only [hd, if_false, false_and, Nat.add_zero]

/-- **The chunked loop of `throw_balls`**: split `i` goes into group `chunkOf i`. -/
theorem foldlM_chunkStep {chunkSize maxPartitions : ℕ} (hmax : 0 < maxPartitions) (n : ℕ) :
    (List.range n).foldlM (chunkStep chunkSize maxPartitions)
        (0, (spreadState (chunkOf chunkSize maxPartitions) 0 maxPartitions : DefaultPartitionCoalescer α)) =
      some (chunkOf chunkSize maxPartitions (n - 1),
        spreadState (chunkOf chunkSize maxPartitions) n maxPartitions) := by
  induction n with
  | zero => simp [chunkOf]
  | succ n ih =>
      rw [List.range_succ, List.foldlM_append, ih]
      have hlt : chunkOf chunkSize maxPartitions n < maxPartitions := by
        unfold chunkOf
        omega
      have hget : (spreadState (chunkOf chunkSize maxPartitions) n maxPartitions :
          DefaultPartitionCoalescer α).groupArr[chunkOf chunkSize maxPartitions n]? =
            some (chunkOf chunkSize maxPartitions n) := List.getElem?_range hlt
      simp only [Option.bind_eq_bind, Option.bind_some, List.foldlM_cons, List.foldlM_nil,
        chunkStep]
      rw [chunk_eq_chunkOf chunkSize maxPartitions n, hget, Option.map_some, pushPart_spreadState, Nat.add_sub_cancel]
      rfl

/-- **The groups without locality**: `k` groups, split `i` in group `f i`, none empty, are
all returned, and hold every split once. -/
theorem getPartitions_spreadState {f : ℕ → ℕ} {n k : ℕ} (hf : ∀ i < n, f i < k)
    (hne : ∀ c < k, ∃ i < n, f i = c) :
    ∃ gs, (spreadState f n k : DefaultPartitionCoalescer α).getPartitions = some gs ∧
      gs.length = k ∧ (∀ g ∈ gs, g.partitions ≠ []) ∧
      (gs.flatMap PartitionGroup.partitions).Perm (List.range n) := by
  -- group `c` holds the splits `i` with `f i = c`, and at least one
  have hgroup : ∀ c < k, ∃ i ∈ (List.range n).filter (fun i => f i = c), True := by
    intro c hc
    obtain ⟨i, hi, hfi⟩ := hne c hc
    exact ⟨i, List.mem_filter.mpr ⟨List.mem_range.mpr hi, decide_eq_true hfi⟩, trivial⟩
  have hkept : (List.range k).filter (fun c => 0 < (spreadState f n k : DefaultPartitionCoalescer α).size c) =
      List.range k := by
    refine List.filter_eq_self.mpr fun c hc => ?_
    obtain ⟨i, hi, -⟩ := hgroup c (List.mem_range.mp hc)
    have hget : (spread f n k : List (PartitionGroup α))[c]? =
        some ⟨c, none, (List.range n).filter fun i => f i = c⟩ := by
      simp [spread, List.getElem?_range (List.mem_range.mp hc)]
    simp only [size, spreadState, hget, Option.map_some, Option.getD_some, PartitionGroup.numPartitions]
    exact decide_eq_true (List.length_pos_of_mem hi)
  refine ⟨spread f n k, ?_, by simp [spread], ?_, ?_⟩
  · unfold getPartitions
    rw [show (spreadState f n k : DefaultPartitionCoalescer α).groupArr = List.range k from rfl, hkept]
    refine Slices.mapM_eq_some_map fun c hc => ?_
    simp [spreadState, spread, List.getElem?_range (List.mem_range.mp hc)]
  · intro g hg
    obtain ⟨c, hc, rfl⟩ := List.mem_map.mp hg
    obtain ⟨i, hi, -⟩ := hgroup c (List.mem_range.mp hc)
    exact List.ne_nil_of_mem hi
  · rw [spread, List.flatMap_map]
    exact KeyedList.perm_flatMap_range_filter f k (List.range n) fun i hi => hf i (List.mem_range.mp hi)

end Spread

/-- Group `c` of the chunked spread starts with split `c * (n / max)`. -/
theorem chunkOf_start {n maxPartitions c : ℕ} (hcs : 0 < n / maxPartitions)
    (hc : c < maxPartitions) :
    c * (n / maxPartitions) < n ∧ chunkOf (n / maxPartitions) maxPartitions (c * (n / maxPartitions)) = c := by
  have hle : c * (n / maxPartitions) + n / maxPartitions ≤ n := by
    calc c * (n / maxPartitions) + n / maxPartitions = (c + 1) * (n / maxPartitions) := by ring
      _ ≤ maxPartitions * (n / maxPartitions) := Nat.mul_le_mul_right _ hc
      _ ≤ n := Nat.mul_div_le n maxPartitions
  refine ⟨by omega, ?_⟩
  rw [chunkOf, Nat.mul_div_cancel c hcs]
  omega

/-- Without locality, `coalesce` returns the groups of a spread: when `throw_balls` spreads the
splits over the `t` empty groups of `setup_groups` by `f`, which reaches every group. -/
theorem coalesce_of_spread (expectedCoupons2 : ℕ → ℕ) (rng : Rng) (slack : ℕ)
    {maxPartitions : ℕ} (prefLocs : List (List α)) (hno : ∀ locs ∈ prefLocs, locs = [])
    (f : ℕ → ℕ)
    (hthrow : throwBalls rng slack maxPartitions prefLocs (PartitionLocations.new prefLocs)
      (spreadState f 0 (min prefLocs.length maxPartitions)) =
        some (spreadState f prefLocs.length (min prefLocs.length maxPartitions)))
    (hf : ∀ i < prefLocs.length, f i < min prefLocs.length maxPartitions)
    (hreach : ∀ c < min prefLocs.length maxPartitions, ∃ i < prefLocs.length, f i = c) :
    ∃ gs, coalesce expectedCoupons2 rng slack maxPartitions prefLocs = some gs ∧
      gs.length = min prefLocs.length maxPartitions ∧ (∀ g ∈ gs, g.partitions ≠ []) ∧
      (gs.flatMap PartitionGroup.partitions).Perm (List.range prefLocs.length) := by
  set t := min prefLocs.length maxPartitions
  have hempty : (PartitionLocations.new prefLocs).partsWithLocs = [] :=
    (partsWithLocs_eq_nil_iff prefLocs).mpr hno
  -- `setup_groups` makes `t` empty groups, whatever `f` the splits later follow
  have hsetup : setupGroups rng (expectedCoupons2 t) t (PartitionLocations.new prefLocs)
      default = some (spreadState f 0 t) := by
    simp only [setupGroups, hempty, List.isEmpty_nil, if_true]
    rw [show (default : DefaultPartitionCoalescer α) = spreadState f 0 0 from rfl,
      pushEmptyGroups_spreadState, Nat.zero_add]
  obtain ⟨gs, hg, hlen, hne, hperm⟩ := getPartitions_spreadState (α := α) hf hreach
  refine ⟨gs, ?_, hlen, hne, hperm⟩
  simp only [coalesce, show min prefLocs.length maxPartitions = t from rfl, hsetup,
    Option.bind_eq_bind, Option.bind_some, hthrow, hg]

/-- **Without preferred locations, the groups partition the splits**: `min(n, max)`
non-empty groups, every split in exactly one.  With more groups allowed than splits, split
`i` is group `i`; otherwise the groups are runs of `n / max` splits, the last taking the
rest. -/
theorem coalesce_of_no_locality (expectedCoupons2 : ℕ → ℕ) (rng : Rng) (slack : ℕ)
    {maxPartitions : ℕ} (prefLocs : List (List α)) (hno : ∀ locs ∈ prefLocs, locs = [])
    (hmax : 0 < maxPartitions) :
    ∃ gs, coalesce expectedCoupons2 rng slack maxPartitions prefLocs = some gs ∧
      gs.length = min prefLocs.length maxPartitions ∧ (∀ g ∈ gs, g.partitions ≠ []) ∧
      (gs.flatMap PartitionGroup.partitions).Perm (List.range prefLocs.length) := by
  set n := prefLocs.length
  set t := min n maxPartitions
  by_cases hlt : maxPartitions > t
  · -- fewer splits than groups allowed: split `i` alone in group `i`
    have ht : t = n := by omega
    have hthrow : throwBalls rng slack maxPartitions prefLocs (PartitionLocations.new prefLocs)
        (spreadState (fun i => i) 0 t) = some (spreadState (fun i => i) n t) := by
      have hlen : maxPartitions > (spreadState (fun i => i) 0 t : DefaultPartitionCoalescer α).groupArr.length := by
        simpa [spreadState] using hlt
      have hnl : (spreadState (fun i => i) 0 t : DefaultPartitionCoalescer α).noLocality = true := rfl
      rw [throwBalls, if_pos hnl, if_pos hlen]
      exact foldlM_positions (by omega)
    exact coalesce_of_spread expectedCoupons2 rng slack prefLocs hno (fun i => i) hthrow
      (fun i hi => by omega) (fun c hc => ⟨c, by omega, rfl⟩)
  · -- the groups are runs of `n / max` splits
    have ht : t = maxPartitions := by omega
    have hcs : 0 < n / maxPartitions := Nat.div_pos (by omega) hmax
    have hthrow : throwBalls rng slack maxPartitions prefLocs (PartitionLocations.new prefLocs)
        (spreadState (chunkOf (n / maxPartitions) maxPartitions) 0 t) =
          some (spreadState (chunkOf (n / maxPartitions) maxPartitions) n t) := by
      have hlen : ¬maxPartitions > (spreadState (chunkOf (n / maxPartitions) maxPartitions) 0 t :
          DefaultPartitionCoalescer α).groupArr.length := by
        simpa [spreadState] using hlt
      have hnl : (spreadState (chunkOf (n / maxPartitions) maxPartitions) 0 t :
          DefaultPartitionCoalescer α).noLocality = true := rfl
      rw [throwBalls, if_pos hnl, if_neg hlen]
      simp only [ht]
      show Option.map Prod.snd ((List.range n).foldlM (chunkStep (n / maxPartitions) maxPartitions) _) = _
      rw [foldlM_chunkStep hmax, Option.map_some]
    exact coalesce_of_spread expectedCoupons2 rng slack prefLocs hno _ hthrow
      (fun i _ => by unfold chunkOf; omega)
      (fun c hc => ⟨c * (n / maxPartitions), (chunkOf_start hcs (by omega)).1,
        (chunkOf_start hcs (by omega)).2⟩)

/-! ### With locality -/

/-- The first loop of `setup_groups` files its groups in `group_hash` only. -/
theorem arrHashed_setupFirstLoop (targetLen : ℕ) :
    ∀ (l : List (α × ℕ)) (numCreated : ℕ) (st : DefaultPartitionCoalescer α), ArrHashed st →
      ArrHashed (setupFirstLoop targetLen l numCreated st).1 ∧
        (setupFirstLoop targetLen l numCreated st).1.noLocality = st.noLocality
  | [], _, _, h => ⟨h, rfl⟩
  | (nxtReplica, nxtPart) :: rest, numCreated, st, h => by
      unfold setupFirstLoop
      split_ifs with hlt hkey
      · exact arrHashed_setupFirstLoop targetLen rest numCreated st h
      · -- a location not seen yet: a new group, in `group_hash`
        have hs := (sameLinks_newGroup st (some nxtReplica)).trans
          (sameLinks_addPartToPgroup _ nxtPart st.groups.length)
        obtain ⟨h', hloc⟩ := arrHashed_setupFirstLoop targetLen rest (numCreated + 1) _
          ((h.of_sameLinks hs).of_hashPush nxtReplica st.groups.length)
        exact ⟨h', hloc.trans hs.noLocality⟩
      · exact ⟨h, rfl⟩

/-- The second loop of `setup_groups` files each group in `group_hash` and in
`group_arr`. -/
theorem arrHashed_setupSecondLoop (rng : Rng) (partsWithLocs : List (α × ℕ)) :
    ∀ (n k : ℕ) (st st' : DefaultPartitionCoalescer α), ArrHashed st →
      setupSecondLoop rng partsWithLocs n k st = some st' →
        ArrHashed st' ∧ st'.noLocality = st.noLocality
  | 0, _, st, st', h, hrun => by
      cases hrun
      exact ⟨h, rfl⟩
  | n + 1, k, st, st', h, hrun => by
      unfold setupSecondLoop at hrun
      obtain ⟨⟨nxtReplica, nxtPart⟩, _, hrun⟩ := Option.bind_eq_some_iff.mp hrun
      have hs := (sameLinks_newGroup st (some nxtReplica)).trans
        (sameLinks_addPartToPgroup _ nxtPart st.groups.length)
      obtain ⟨h', hloc⟩ := arrHashed_setupSecondLoop rng partsWithLocs n (k + 1) _ st'
        ((h.of_sameLinks hs).of_hashPush_arr nxtReplica st.groups.length) hrun
      exact ⟨h', hloc.trans hs.noLocality⟩

/-- **With locality, `setup_groups` files every group of `group_arr` in `group_hash`**, and
clears `no_locality`. -/
theorem setupGroups_of_located {rng : Rng} {expectedCoupons2 targetLen : ℕ}
    {locs : PartitionLocations α} (hne : locs.partsWithLocs ≠ []) {st st' : DefaultPartitionCoalescer α}
    (h₀ : ArrHashed st) (h : setupGroups rng expectedCoupons2 targetLen locs st = some st') :
    ArrHashed st' ∧ st'.noLocality = false := by
  unfold setupGroups at h
  rw [if_neg (by simpa using hne)] at h
  obtain ⟨h₁, hloc₁⟩ := arrHashed_setupFirstLoop targetLen
    (locs.partsWithLocs.take (min expectedCoupons2 locs.partsWithLocs.length)) 0
    { st with noLocality := false } h₀
  obtain ⟨h₂, hloc₂⟩ := arrHashed_setupSecondLoop rng locs.partsWithLocs _ 0 _ st' h₁ h
  exact ⟨h₂, hloc₂.trans hloc₁⟩

omit [DecidableEq α] in
/-- `while` one group is filled, the links stay. -/
theorem sameLinks_fillGroup (id : ℕ) :
    ∀ (parts : List ℕ) (st : DefaultPartitionCoalescer α), SameLinks st (fillGroup id parts st).2
  | [], st => SameLinks.refl st
  | part :: rest, st => by
      unfold fillGroup
      split
      · exact (sameLinks_addPartToPgroup st part id).trans (sameLinks_fillGroup id rest _)
      · exact SameLinks.refl st

omit [DecidableEq α] in
theorem sameLinks_fillEmpty (parts : List ℕ) (st : DefaultPartitionCoalescer α) :
    SameLinks st (fillEmpty parts st) :=
  Folds.foldl_invariant (fun acc => SameLinks st acc.2) _
    (fun acc id h => by
      split
      · exact h.trans (sameLinks_fillGroup id acc.1 acc.2)
      · exact h)
    st.groupArr (parts, st) (SameLinks.refl st)

/-- **With locality, `throw_balls` only fills groups**: `group_arr` and `group_hash` stay. -/
theorem sameLinks_throwBalls_of_located {rng : Rng} {slack maxPartitions : ℕ}
    {prefLocs : List (List α)} {locs : PartitionLocations α} {st st' : DefaultPartitionCoalescer α}
    (hloc : st.noLocality = false) (h : throwBalls rng slack maxPartitions prefLocs locs st = some st') :
    SameLinks st st' := by
  unfold throwBalls at h
  rw [if_neg (by simp [hloc])] at h
  have hfill := (sameLinks_fillEmpty (locs.partsWithLocs.map Prod.snd) st).trans
    (sameLinks_fillEmpty locs.partsWithoutLocs _)
  refine Folds.foldlM_invariant (SameLinks st) _ (fun b p b' hb hstep => ?_) _ _ st' hfill h
  split at hstep
  · cases hstep
    exact hb
  · obtain ⟨id, _, rfl⟩ := Option.map_eq_some_iff.mp hstep
    exact hb.trans (sameLinks_pushPart b p.2 id)

/-- **With a preferred location for some split, `coalesce` panics or returns no group.**
Every group of `group_arr` is in `group_hash` too, so unwrapping the first non-empty one
panics; and the groups that the first loop of `setup_groups` makes, with a split each, are
in `group_hash` only. -/
theorem coalesce_of_located (expectedCoupons2 : ℕ → ℕ) (rng : Rng) (slack maxPartitions : ℕ)
    (prefLocs : List (List α)) (hloc : ∃ locs ∈ prefLocs, locs ≠ []) :
    coalesce expectedCoupons2 rng slack maxPartitions prefLocs = none ∨
      coalesce expectedCoupons2 rng slack maxPartitions prefLocs = some [] := by
  have hne : (PartitionLocations.new prefLocs).partsWithLocs ≠ [] := by
    obtain ⟨locs, hmem, hlocs⟩ := hloc
    exact fun h => hlocs ((partsWithLocs_eq_nil_iff prefLocs).mp h locs hmem)
  cases hc : coalesce expectedCoupons2 rng slack maxPartitions prefLocs with
  | none => exact Or.inl rfl
  | some gs =>
      right
      unfold coalesce at hc
      obtain ⟨st, hs, hc⟩ := Option.bind_eq_some_iff.mp hc
      obtain ⟨st', ht, hg⟩ := Option.bind_eq_some_iff.mp hc
      obtain ⟨harr, hnl⟩ := setupGroups_of_located hne (fun _ hid => absurd hid List.not_mem_nil) hs
      rw [getPartitions_of_arrHashed (harr.of_sameLinks (sameLinks_throwBalls_of_located hnl ht)) hg]

/-- One split, located at host `0`, coalesced into one group. -/
theorem coalesce_one_located_split :
    (∃ locs ∈ [[0]], locs ≠ ([] : List ℕ)) ∧
      (coalesce (fun _ => 2) ⟨fun _ _ => 0, fun _ _ h => h⟩ 0 1 [[0]] = none ∨
        coalesce (fun _ => 2) ⟨fun _ _ => 0, fun _ _ h => h⟩ 0 1 [[0]] = some []) :=
  ⟨⟨[0], List.mem_singleton_self _, List.cons_ne_nil _ _⟩,
    coalesce_of_located _ _ 0 1 [[0]] ⟨[0], List.mem_singleton_self _, List.cons_ne_nil _ _⟩⟩

example : coalesce (fun _ => 2) ⟨fun _ _ => 0, fun _ _ h => h⟩ 0 1 [[(0 : ℕ)]] = some [] := rfl

end Coalesced

end Flare
