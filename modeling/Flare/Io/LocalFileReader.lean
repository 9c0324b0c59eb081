import Mathlib
import Flare.Lib.Slices

/-!
# Secure input from a local directory

`LocalFsReader` (`io/local_file_reader.rs`) reads the files of a directory: it has
`executor_partitions` splits per host of the address map, split `idx = host * p + local`
(`splits`).  The secure computation of a split (`secure_compute`) lists the directory in
name order, keeps the window of `files_per_node` entries that `load_local_files(idx)`
selects, groups its proper files into partitions of balanced size
(`assign_files_to_partitions`, which flips a coin per file), and feeds the enclave the
files of the group `idx % p`.

## Main definitions

* `assignFilesToPartitions`, `loadLocalFiles`, `secureComputeFiles` — the functions.
* `readAll` — the files fed to the enclave over all splits, in split order.

## Main results

* `readAll_of_one_partition` — with one partition per host, every proper file is read
  exactly once, in name order, whatever the number of hosts.
* `readAll_one_host_two_partitions` — one host, two partitions, two files of size 1:
  the second file is never read, whatever the coin flips.

## Design notes

The window is taken by the global split index, while the group is taken by the index
modulo `p`.  `load_local_files` computes a bound slack `(std_dev * 0.25) as u64` from f32
statistics of the sizes; the model leaves it open (`Draws.stdDevQuarter`), along with the
coin flips, and the results hold for every value of both.  The single-file path and
file-system errors are not modelled.
-/

namespace Flare

namespace Io

universe u

variable {α : Type u}

/-- A directory entry: its path, its size, and whether it is a proper file (a file, with
the filter's extension if there is one). -/
structure Entry (α : Type u) where
  path : α
  size : ℕ
  isProper : Bool

/-- The reader's shape: the number of hosts (`splits.len()`) and of partitions per host
(`get_executor_partitions()`). -/
structure LocalFsReader where
  numNodes : ℕ
  executorPartitions : ℕ

/-- What the model leaves open for the split `idx`: `(std_dev * 0.25) as u64`, and the coin
flips of `load_local_files`'s `thread_rng`. -/
structure Draws where
  stdDevQuarter : ℕ → ℕ
  coins : ℕ → ℕ → Bool

/-! ### `assign_files_to_partitions` -/

/-- Closes the open partition unless it is empty. -/
def pushNonEmpty (partitions : List (List α)) (partition : List α) : List (List α) :=
  if partition.isEmpty then partitions else partitions ++ [partition]

/-- The loop of `assign_files_to_partitions` over the `(size, file)` pairs: the closed
partitions, the open one and its size.  Once all partitions but the last are closed, every
further file goes to the open one; otherwise a coin decides which bound the file is
measured against. -/
def assignLoop (numPartitions avgPartitionSize highPartSizeBound : ℕ) :
    List (ℕ × α) → (ℕ → Bool) → List (List α) → List α → ℕ → List (List α) × List α
  | [], _, partitions, partition, _ => (partitions, partition)
  | (size, file) :: files, coins, partitions, partition, currPartSize =>
      if partitions.length = numPartitions - 1 then
        assignLoop numPartitions avgPartitionSize highPartSizeBound files coins partitions
          (partition ++ [file]) currPartSize
      else
        let newPartSize := currPartSize + size
        let largerThanMean := coins 0
        let coins := fun n => coins (n + 1)
        if (largerThanMean ∧ newPartSize < highPartSizeBound) ∨
            (!largerThanMean ∧ newPartSize ≤ avgPartitionSize) then
          assignLoop numPartitions avgPartitionSize highPartSizeBound files coins partitions
            (partition ++ [file]) newPartSize
        else if size > avgPartitionSize then
          assignLoop numPartitions avgPartitionSize highPartSizeBound files coins
            (pushNonEmpty partitions partition ++ [[file]]) [] 0
        else
          assignLoop numPartitions avgPartitionSize highPartSizeBound files coins
            (pushNonEmpty partitions partition) [file] size

/-- The `while` loop that fills up to `numPartitions` partitions: it splits the last file
off the partition at `currentPos` while that has several, and otherwise moves left.  Each
round adds a partition or moves left, so `fuel` rounds for the partitions to add and the
positions to pass are enough. -/
def balanceLoop (numPartitions : ℕ) : ℕ → List (List α) → ℕ → List (List α)
  | 0, partitions, _ => partitions
  | fuel + 1, partitions, currentPos =>
      if partitions.length < numPartitions then
        -- `current_pos` stays below the length: the lookup finds a partition
        let part := partitions[currentPos]?.getD []
        if h : part.length > 1 then
          balanceLoop numPartitions fuel
            (partitions.set currentPos part.dropLast ++ [[part.getLast (List.ne_nil_of_length_pos (by omega))]])
            currentPos
        else if currentPos > 0 then balanceLoop numPartitions fuel partitions (currentPos - 1)
        else partitions
      else partitions

/-- `assign_files_to_partitions`. -/
def assignFilesToPartitions (numPartitions : ℕ) (files : List (ℕ × α))
    (avgPartitionSize stdDevQuarter : ℕ) (coins : ℕ → Bool) : List (List α) :=
  let highPartSizeBound := avgPartitionSize + stdDevQuarter
  let loop := assignLoop numPartitions avgPartitionSize highPartSizeBound files coins [] [] 0
  let partitions := pushNonEmpty loop.1 loop.2
  balanceLoop numPartitions (numPartitions + partitions.length) partitions (partitions.length - 1)

/-! ### `load_local_files` and `secure_compute` -/

/-- `files_per_node`: the entries spread over the hosts, rounded up. -/
def filesPerNode (r : LocalFsReader) (entries : List (Entry α)) : ℕ :=
  (entries.length - 1) / r.numNodes + 1

/-- The entries that `load_local_files(part_id)` goes through: those with index in
`[part_id * files_per_node, (part_id + 1) * files_per_node)`. -/
def window (r : LocalFsReader) (entries : List (Entry α)) (partId : ℕ) : List (Entry α) :=
  (entries.drop (partId * filesPerNode r entries)).take (filesPerNode r entries)

/-- `load_local_files(part_id)` on a directory listed in name order: the proper files of its
window, grouped into at most `executor_partitions` partitions.  `none` where the source
panics: an empty directory (`checked_sub(1).unwrap()`), no host, no partition. -/
def loadLocalFiles (r : LocalFsReader) (entries : List (Entry α)) (stdDevQuarter : ℕ)
    (coins : ℕ → Bool) (partId : ℕ) : Option (List (List α)) :=
  if entries = [] ∨ r.numNodes = 0 then none
  else
    let files := ((window r entries partId).filter (·.isProper)).map fun e => (e.size, e.path)
    if files = [] then some []
    else
      let totalSize := (files.map Prod.fst).sum
      let numPartitions := min r.executorPartitions files.length
      if numPartitions = 0 then none
      else
        some (assignFilesToPartitions numPartitions files (totalSize / numPartitions) stdDevQuarter coins)

/-- The files that `secure_compute` of split `idx` feeds to the enclave: the group
`idx % executor_partitions` of `load_local_files(idx)`, none if there is no such group. -/
def secureComputeFiles (r : LocalFsReader) (entries : List (Entry α)) (d : Draws) (idx : ℕ) :
    Option (List α) :=
  if r.executorPartitions = 0 then none
  else
    (loadLocalFiles r entries (d.stdDevQuarter idx) (d.coins idx) idx).map fun filesByPart =>
      filesByPart[idx % r.executorPartitions]?.getD []

/-- `splits`: the global index `host * p + local` of each split, host by host. -/
def splits (r : LocalFsReader) : List ℕ :=
  (List.range r.numNodes).flatMap fun host =>
    (List.range r.executorPartitions).map fun localIdx => host * r.executorPartitions + localIdx

/-- The files fed to the enclave over all splits, in split order. -/
def readAll (r : LocalFsReader) (entries : List (Entry α)) (d : Draws) : Option (List α) :=
  ((splits r).mapM (secureComputeFiles r entries d)).map List.flatten

/-! ### One partition per host -/

/-- With one partition, the loop never closes one: every file goes to the open partition. -/
theorem assignLoop_one (avgPartitionSize highPartSizeBound : ℕ) :
    ∀ (files : List (ℕ × α)) (coins : ℕ → Bool) (partition : List α) (currPartSize : ℕ),
      assignLoop 1 avgPartitionSize highPartSizeBound files coins [] partition currPartSize =
        ([], partition ++ files.map Prod.snd)
  | [], _, partition, _ => by simp [assignLoop]
  | (size, file) :: files, coins, partition, currPartSize => by
      rw [assignLoop, if_pos (by simp), assignLoop_one avgPartitionSize highPartSizeBound files coins]
      simp

/-- The `while` loop does nothing once there are enough partitions. -/
theorem balanceLoop_of_le {numPartitions : ℕ} :
    ∀ (fuel : ℕ) {partitions : List (List α)} (currentPos : ℕ), numPartitions ≤ partitions.length →
      balanceLoop numPartitions fuel partitions currentPos = partitions
  | 0, _, _, _ => rfl
  | _ + 1, _, _, h => by
      rw [balanceLoop, if_neg (Nat.not_lt.mpr h)]

/-- One partition holds all the files. -/
theorem assignFilesToPartitions_one {files : List (ℕ × α)} (hfiles : files ≠ [])
    (avgPartitionSize stdDevQuarter : ℕ) (coins : ℕ → Bool) :
    assignFilesToPartitions 1 files avgPartitionSize stdDevQuarter coins = [files.map Prod.snd] := by
  have hne : files.map Prod.snd ≠ [] := by simpa using hfiles
  simp only [assignFilesToPartitions, assignLoop_one, List.nil_append]
  rw [pushNonEmpty, if_neg (by simpa using hne), balanceLoop_of_le _ _ (by simp)]
  rfl

/-- The proper files of a split's window, in name order. -/
def windowFiles (r : LocalFsReader) (entries : List (Entry α)) (idx : ℕ) : List α :=
  ((window r entries idx).filter (·.isProper)).map (·.path)

/-- With one partition per host, a split reads the proper files of its window. -/
theorem secureComputeFiles_of_one_partition {numNodes : ℕ} (hnodes : numNodes ≠ 0)
    {entries : List (Entry α)} (hentries : entries ≠ []) (d : Draws) (idx : ℕ) :
    secureComputeFiles ⟨numNodes, 1⟩ entries d idx = some (windowFiles ⟨numNodes, 1⟩ entries idx) := by
  simp only [secureComputeFiles, loadLocalFiles, one_ne_zero, if_false, hentries, hnodes, or_self]
  split_ifs with hfiles hzero
  · -- no proper file in the window: no group, nothing read
    have hnil : windowFiles ⟨numNodes, 1⟩ entries idx = [] := by
      simpa [windowFiles] using hfiles
    simp [hnil]
  · simp at hzero
    simp_all
  · -- one group, the whole window
    have hmin : min 1 (((window ⟨numNodes, 1⟩ entries idx).filter (·.isProper)).map
        fun e => (e.size, e.path)).length = 1 := by
      have hpos : 0 < (((window ⟨numNodes, 1⟩ entries idx).filter (·.isProper)).map
          fun e => (e.size, e.path)).length := List.length_pos_iff.mpr hfiles
      omega
    rw [hmin, assignFilesToPartitions_one hfiles]
    simp [windowFiles, Function.comp_def, Nat.mod_one]

@[simp] theorem splits_one_partition (numNodes : ℕ) : splits ⟨numNodes, 1⟩ = List.range numNodes := by
  simp [splits]

/-- **With one partition per host, every proper file is read exactly once**, in name order:
the hosts' windows are consecutive and cover the directory. -/
theorem readAll_of_one_partition {numNodes : ℕ} (hnodes : numNodes ≠ 0) {entries : List (Entry α)}
    (hentries : entries ≠ []) (d : Draws) :
    readAll ⟨numNodes, 1⟩ entries d = some ((entries.filter (·.isProper)).map (·.path)) := by
  have hcover : entries.length ≤ numNodes * filesPerNode ⟨numNodes, 1⟩ entries := by
    have := Nat.lt_mul_div_succ (entries.length - 1) (Nat.pos_of_ne_zero hnodes)
    have hpos : 0 < entries.length := List.length_pos_iff.mpr hentries
    simp only [filesPerNode]
    omega
  rw [readAll, splits_one_partition,
    Slices.mapM_eq_some_map fun idx _ => secureComputeFiles_of_one_partition hnodes hentries d idx,
    Option.map_some, ← List.flatMap_def]
  -- the windows put back together are the directory
  have hwindows : (List.range numNodes).flatMap (window ⟨numNodes, 1⟩ entries) = entries :=
    Slices.flatMap_range_windows numNodes entries hcover
  conv_rhs => rw [← hwindows, List.filter_flatMap, List.map_flatMap]
  rfl

/-- Two hosts and three entries, the second of them not a file. -/
theorem readAll_of_one_partition_two_hosts :
    (2 : ℕ) ≠ 0 ∧ ([⟨0, 1, true⟩, ⟨1, 1, false⟩, ⟨2, 1, true⟩] : List (Entry ℕ)) ≠ [] ∧
      readAll ⟨2, 1⟩ ([⟨0, 1, true⟩, ⟨1, 1, false⟩, ⟨2, 1, true⟩] : List (Entry ℕ))
          ⟨fun _ => 0, fun _ _ => false⟩ =
        some ((([⟨0, 1, true⟩, ⟨1, 1, false⟩, ⟨2, 1, true⟩] : List (Entry ℕ)).filter
          (·.isProper)).map (·.path)) :=
  ⟨by decide, List.cons_ne_nil _ _,
    readAll_of_one_partition (by decide) (List.cons_ne_nil _ _) ⟨fun _ => 0, fun _ _ => false⟩⟩

/-! ### One host -/

/-- With one host, the window of the first split is the whole directory, and every other
split's window lies past its end. -/
theorem window_one_host_of_pos (executorPartitions : ℕ) (entries : List (Entry α)) {idx : ℕ}
    (hidx : 0 < idx) : window ⟨1, executorPartitions⟩ entries idx = [] := by
  have hlen : entries.length ≤ idx * filesPerNode ⟨1, executorPartitions⟩ entries := by
    simp only [filesPerNode, Nat.div_one]
    calc entries.length ≤ entries.length - 1 + 1 := by omega
      _ = 1 * (entries.length - 1 + 1) := (Nat.one_mul _).symm
      _ ≤ idx * (entries.length - 1 + 1) := Nat.mul_le_mul_right _ hidx
  simp [window, List.drop_eq_nil_of_le hlen]

/-- **With one host, every split but the first reads nothing.** -/
theorem secureComputeFiles_one_host_of_pos {executorPartitions : ℕ} (hp : executorPartitions ≠ 0)
    {entries : List (Entry α)} (hentries : entries ≠ []) (d : Draws) {idx : ℕ} (hidx : 0 < idx) :
    secureComputeFiles ⟨1, executorPartitions⟩ entries d idx = some [] := by
  simp [secureComputeFiles, loadLocalFiles, hp, hentries, window_one_host_of_pos _ _ hidx]

/-- Two files of size 1 in two partitions: one file each, whatever the slack and the coins.
The first file opens the partition by either branch; the second closes it, or joins it and
is split off again by the `while` loop. -/
theorem assignFilesToPartitions_two_unit (a b : α) (stdDevQuarter : ℕ) (coins : ℕ → Bool) :
    assignFilesToPartitions 2 [(1, a), (1, b)] 1 stdDevQuarter coins = [[a], [b]] := by
  have hfirst : assignLoop 2 1 (1 + stdDevQuarter) [(1, a), (1, b)] coins [] [] 0 =
      assignLoop 2 1 (1 + stdDevQuarter) [(1, b)] (fun n => coins (n + 1)) [] [a] 1 := by
    rw [assignLoop, if_neg (by simp)]
    simp only [Nat.zero_add, le_refl, and_true, lt_irrefl, if_false, pushNonEmpty, List.isEmpty_nil,
      if_true, List.nil_append]
    split_ifs <;> rfl
  by_cases hjoin : coins 1 = true ∧ 2 < 1 + stdDevQuarter
  · -- the second file joins the partition; the `while` loop splits it off again
    have hsecond : assignLoop 2 1 (1 + stdDevQuarter) [(1, b)] (fun n => coins (n + 1)) [] [a] 1 =
        ([], [a, b]) := by
      simp [assignLoop, hjoin]
    simp [assignFilesToPartitions, hfirst, hsecond, pushNonEmpty, balanceLoop]
  · -- the second file closes the partition and opens the next
    have hsecond : assignLoop 2 1 (1 + stdDevQuarter) [(1, b)] (fun n => coins (n + 1)) [] [a] 1 =
        ([[a]], [b]) := by
      simp [assignLoop, hjoin, pushNonEmpty]
    simp [assignFilesToPartitions, hfirst, hsecond, pushNonEmpty, balanceLoop]

/-- **One host with two partitions reads one file of two.**  Split `0` groups the two files
of size 1 into `[a]` and `[b]` and reads group `0 % 2`; split `1` selects the window past
the end of the directory, which has no file.  `b` is never read. -/
theorem readAll_one_host_two_partitions (a b : α) (d : Draws) :
    readAll ⟨1, 2⟩ [⟨a, 1, true⟩, ⟨b, 1, true⟩] d = some [a] := by
  have hsplit1 : secureComputeFiles ⟨1, 2⟩ [⟨a, 1, true⟩, ⟨b, 1, true⟩] d 1 = some [] :=
    secureComputeFiles_one_host_of_pos two_ne_zero (List.cons_ne_nil _ _) d Nat.one_pos
  have hsplit0 : secureComputeFiles ⟨1, 2⟩ [⟨a, 1, true⟩, ⟨b, 1, true⟩] d 0 = some [a] := by
    simp [secureComputeFiles, loadLocalFiles, window, filesPerNode,
      assignFilesToPartitions_two_unit]
  have hsplits : splits ⟨1, 2⟩ = [0, 1] := rfl
  rw [readAll, hsplits, List.mapM_cons, hsplit0, List.mapM_cons, hsplit1]
  rfl

/-! ### What `assign_files_to_partitions` keeps -/

/-- Groups of `files`: non-empty, and together the files, in some order. -/
structure Grouping (files : List α) (groups : List (List α)) : Prop where
  perm : groups.flatten.Perm files
  ne_nil : ∀ g ∈ groups, g ≠ []

theorem flatten_pushNonEmpty (partitions : List (List α)) (partition : List α) :
    (pushNonEmpty partitions partition).flatten = partitions.flatten ++ partition := by
  unfold pushNonEmpty
  split
  · simp_all
  · simp

theorem ne_nil_of_mem_pushNonEmpty {partitions : List (List α)} {partition : List α}
    (h : ∀ p ∈ partitions, p ≠ []) : ∀ p ∈ pushNonEmpty partitions partition, p ≠ [] := by
  unfold pushNonEmpty
  split
  · exact h
  · intro p hp
    rcases List.mem_append.mp hp with hp | hp
    · exact h p hp
    · rw [List.mem_singleton.mp hp]
      simpa using ‹¬partition.isEmpty = true›

/-- **The loop places every file once, in order**, after the files placed before it. -/
theorem assignLoop_flatten (numPartitions avgPartitionSize highPartSizeBound : ℕ) :
    ∀ (files : List (ℕ × α)) (coins : ℕ → Bool) (partitions : List (List α)) (partition : List α)
      (currPartSize : ℕ),
      (assignLoop numPartitions avgPartitionSize highPartSizeBound files coins partitions partition
          currPartSize).1.flatten ++
        (assignLoop numPartitions avgPartitionSize highPartSizeBound files coins partitions partition
          currPartSize).2 = partitions.flatten ++ partition ++ files.map Prod.snd
  | [], _, _, _, _ => by simp [assignLoop]
  | (size, file) :: files, coins, partitions, partition, currPartSize => by
      rw [assignLoop]
      dsimp only
      split_ifs <;> rw [assignLoop_flatten] <;> simp [flatten_pushNonEmpty]

/-- The loop closes only non-empty partitions. -/
theorem assignLoop_ne_nil (numPartitions avgPartitionSize highPartSizeBound : ℕ) :
    ∀ (files : List (ℕ × α)) (coins : ℕ → Bool) (partitions : List (List α)) (partition : List α)
      (currPartSize : ℕ), (∀ p ∈ partitions, p ≠ []) →
      ∀ p ∈ (assignLoop numPartitions avgPartitionSize highPartSizeBound files coins partitions
        partition currPartSize).1, p ≠ []
  | [], _, _, _, _, h => h
  | (size, file) :: files, coins, partitions, partition, currPartSize, h => by
      rw [assignLoop]
      dsimp only
      split_ifs
      · exact assignLoop_ne_nil _ _ _ files coins partitions _ _ h
      · exact assignLoop_ne_nil _ _ _ files _ partitions _ _ h
      · -- a large file: the open partition closes, and the file alone
        refine assignLoop_ne_nil _ _ _ files _ _ _ _ fun p hp => ?_
        rcases List.mem_append.mp hp with hp | hp
        · exact ne_nil_of_mem_pushNonEmpty h p hp
        · rw [List.mem_singleton.mp hp]
          exact List.cons_ne_nil _ _
      · exact assignLoop_ne_nil _ _ _ files _ _ _ _ (ne_nil_of_mem_pushNonEmpty h)

/-- A round of the `while` loop that splits the last file of a partition off into a new
partition keeps a grouping. -/
theorem Grouping.splitLast {files : List α} {partitions : List (List α)}
    (h : Grouping files partitions) {currentPos : ℕ} (hpos : currentPos < partitions.length)
    (hlen : 1 < partitions[currentPos].length) :
    Grouping files (partitions.set currentPos partitions[currentPos].dropLast ++
      [[partitions[currentPos].getLast (List.ne_nil_of_length_pos (by omega))]]) := by
  set part := partitions[currentPos]
  have hne : part ≠ [] := List.ne_nil_of_length_pos (by omega)
  constructor
  · -- the split-off file moves from inside the partition to the end
    have hsplit : partitions = partitions.take currentPos ++ part :: partitions.drop (currentPos + 1) := by
      rw [List.getElem_cons_drop hpos, List.take_append_drop]
    refine List.Perm.trans ?_ h.perm
    conv_rhs => rw [hsplit]
    rw [List.set_eq_take_append_cons_drop, if_pos hpos]
    simp only [List.flatten_append, List.flatten_cons, List.flatten_nil, List.append_nil, List.append_assoc]
    refine List.Perm.append_left _ ?_
    conv_rhs => rw [← List.dropLast_append_getLast hne, List.append_assoc]
    exact List.Perm.append_left _ List.perm_append_comm
  · intro g hg
    rcases List.mem_append.mp hg with hg | hg
    · rcases List.mem_or_eq_of_mem_set hg with hg | rfl
      · exact h.ne_nil g hg
      · exact List.ne_nil_of_length_pos (by rw [List.length_dropLast]; omega)
    · rw [List.mem_singleton.mp hg]
      exact List.cons_ne_nil _ _

/-- **The `while` loop keeps a grouping.** -/
theorem Grouping.balanceLoop {files : List α} (numPartitions : ℕ) :
    ∀ (fuel : ℕ) {partitions : List (List α)} (currentPos : ℕ), Grouping files partitions →
      Grouping files (balanceLoop numPartitions fuel partitions currentPos)
  | 0, _, _, h => h
  | fuel + 1, partitions, currentPos, h => by
      rw [Io.balanceLoop]
      dsimp only
      split_ifs with hfew hsplit
      · -- a partition of several files exists at `current_pos`
        have hpos : currentPos < partitions.length := by
          by_contra hge
          rw [List.getElem?_eq_none (by omega)] at hsplit
          simp at hsplit
        simp only [List.getElem?_eq_getElem hpos, Option.getD_some] at hsplit ⊢
        exact Grouping.balanceLoop numPartitions fuel _ (h.splitLast hpos hsplit)
      · exact Grouping.balanceLoop numPartitions fuel _ h
      · exact h
      · exact h

/-- **`assign_files_to_partitions` groups every file exactly once, in non-empty groups**, for
every input, slack and coin flips. -/
theorem grouping_assignFilesToPartitions (numPartitions : ℕ) (files : List (ℕ × α))
    (avgPartitionSize stdDevQuarter : ℕ) (coins : ℕ → Bool) :
    Grouping (files.map Prod.snd)
      (assignFilesToPartitions numPartitions files avgPartitionSize stdDevQuarter coins) := by
  set loop := assignLoop numPartitions avgPartitionSize (avgPartitionSize + stdDevQuarter) files
    coins [] [] 0
  have hloop : Grouping (files.map Prod.snd) (pushNonEmpty loop.1 loop.2) := by
    refine ⟨?_, ne_nil_of_mem_pushNonEmpty
      (assignLoop_ne_nil _ _ _ files coins [] [] 0 fun _ hp => absurd hp List.not_mem_nil)⟩
    rw [flatten_pushNonEmpty, assignLoop_flatten]
    simp
  exact hloop.balanceLoop numPartitions _ _

/-- **More groups than partitions.**  Files of sizes `1`, `10` and `1` in two partitions of
average size `6`: the second file is larger than the average, so one round closes the open
partition and the file's own, and the loop never reaches its last partition; the third
file opens a third group, and the `while` loop only adds partitions. -/
theorem assignFilesToPartitions_three_groups (a b c : α) {stdDevQuarter : ℕ}
    (hslack : stdDevQuarter ≤ 5) (coins : ℕ → Bool) :
    assignFilesToPartitions 2 [(1, a), (10, b), (1, c)] 6 stdDevQuarter coins = [[a], [b], [c]] := by
  -- each file: whatever the coin, `a` and `c` fit, `b` does not
  have hfirst : ∀ coin : Bool, ((coin = true ∧ 0 + 1 < 6 + stdDevQuarter) ∨ (coin = false ∧ 0 + 1 ≤ 6)) := by
    intro coin
    cases coin
    · exact Or.inr ⟨rfl, by omega⟩
    · exact Or.inl ⟨rfl, by omega⟩
  have hsecond : ∀ coin : Bool, ¬((coin = true ∧ 1 + 10 < 6 + stdDevQuarter) ∨ (coin = false ∧ 1 + 10 ≤ 6)) := by
    intro coin
    omega
  have hloop : assignLoop 2 6 (6 + stdDevQuarter) [(1, a), (10, b), (1, c)] coins [] [] 0 = ([[a], [b]], [c]) := by
    simp only [assignLoop, Nat.reduceSub, List.length_nil, zero_ne_one, if_false]
    simp only [Bool.not_eq_true', hfirst, if_true, List.nil_append]
    simp only [hsecond, if_false, show 10 > 6 by decide, if_true, pushNonEmpty]
    simp
  simp [assignFilesToPartitions, hloop, pushNonEmpty, balanceLoop]

/-- The slack of the sizes `1`, `10`, `1`: `(std_dev * 0.25) as u64` with `std_dev ≈ 4.24`. -/
theorem assignFilesToPartitions_three_groups_of_slack_one :
    1 ≤ 5 ∧ assignFilesToPartitions 2 [(1, 0), (10, 1), (1, 2)] 6 1 (fun _ => true) = [[0], [1], [2]] :=
  ⟨by decide, assignFilesToPartitions_three_groups 0 1 2 (by decide) fun _ => true⟩

end Io

end Flare
