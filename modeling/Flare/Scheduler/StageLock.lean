import Mathlib
import Flare.Lib.Interleaving

/-!
# The stage lock

Tasks enter the enclave one stage at a time (`StageLock`, `rdd/rdd.rs`:880-992).  A task
registers its stage in the waiting list (`insert_stage`), takes the stage lock around its
enclave call (`get_stage_lock`, `free_stage_lock`) and unregisters (`remove_stage`).  A task
takes the free lock when its stage comes first in the waiting list; while the lock is held,
further tasks of the holder's stage join it without taking the flag (the bypass), up to
`max_cur_holders` of them.

## Main definitions

* `StageLock` — the flag `slock`, the holder's key and count, the waiting list.
* `Pc`, `taskStep` — a task's place in its code, and its next atomic step: each
  `compare_and_swap` or `store` of the flag, and each block under one of the `RwLock`s.
* `stageLockSystem` — the tasks' interleavings.
* `OneStageAtATime` — the holders hold the holder's key, their number is the count, at
  most the maximum, and the flag is set while there is a holder.

## Main results

* `holders_length_eq` — in every reachable state the count is the number of holders.
* `not_panicked` — `first_key_value().unwrap()` never panics.
* `stageLock_admits_two_stages` — a schedule of three tasks after which tasks of two
  stages hold the lock together.

## Design notes

Keys are `(usize, usize, usize)` compared lexicographically, as a `BTreeMap` orders them.
The waiting list is the `BTreeMap`'s list of entries in key order.  `num_splits_mapping`,
read only by `get_parall_num`, is left out.  A task returns from `get_stage_lock` in
`Pc.holding`; its next step is the first one of `free_stage_lock`.
-/

namespace Flare

namespace Scheduler

/-- The key of a stage: `(child rdd id, parent rdd id, identifier)` for a shuffle task,
`(rdd id, rdd id, 0)` for a result task, compared lexicographically. -/
abbrev RddIdPair := ℕ ×ₗ ℕ ×ₗ ℕ

/-- The key `(a, b, c)`. -/
def rddIdPair (a b c : ℕ) : RddIdPair := toLex (a, toLex (b, c))

/-- `LockHolderInfo`. -/
structure LockHolderInfo where
  curHolder : RddIdPair
  numCurHolders : ℕ
  maxCurHolders : ℕ
  deriving DecidableEq

/-- `StageLock`: the flag, the holders, and the waiting list's entries in key order. -/
structure StageLock where
  slock : Bool
  lockHolderInfo : LockHolderInfo
  waitingList : List (RddIdPair × List ℕ)
  deriving DecidableEq

/-- `StageLock::new`. -/
def StageLock.new : StageLock := ⟨false, ⟨rddIdPair 0 0 0, 0, 48⟩, []⟩

/-! ### The waiting list -/

/-- `StageLock::insert_stage`: `entry(key).or_insert(vec![]).push(task_id)`. -/
def insertStage : List (RddIdPair × List ℕ) → RddIdPair → ℕ → List (RddIdPair × List ℕ)
  | [], k, t => [(k, [t])]
  | (k', ts) :: wl, k, t =>
      if k < k' then (k, [t]) :: (k', ts) :: wl
      else if k = k' then (k', ts ++ [t]) :: wl
      else (k', ts) :: insertStage wl k t

/-- `StageLock::remove_stage`: the first occurrence of the task id leaves its key's entry,
and the entry goes when nothing remains in it. -/
def removeStage : List (RddIdPair × List ℕ) → RddIdPair → ℕ → List (RddIdPair × List ℕ)
  | [], _, _ => []
  | (k', ts) :: wl, k, t =>
      if k' = k then (if ts.erase t = [] then wl else (k', ts.erase t) :: wl)
      else (k', ts) :: removeStage wl k t

/-- The task ids the waiting list holds under `k` (`waiting_list.get(&k)`). -/
def waitingTasks : List (RddIdPair × List ℕ) → RddIdPair → List ℕ
  | [], _ => []
  | (k', ts) :: wl, k => if k' = k then ts else waitingTasks wl k

/-- The waiting list is ordered by key, each key once, as a `BTreeMap`'s entries are. -/
def Ordered (wl : List (RddIdPair × List ℕ)) : Prop :=
  wl.Pairwise fun a b => a.1 < b.1

theorem waitingTasks_eq_nil {wl : List (RddIdPair × List ℕ)} {k : RddIdPair}
    (hk : ∀ e ∈ wl, k < e.1) : waitingTasks wl k = [] := by
  induction wl with
  | nil => rfl
  | cons e wl ih =>
      obtain ⟨k', ts⟩ := e
      have hne : k' ≠ k := (ne_of_lt (hk _ List.mem_cons_self)).symm
      simp only [waitingTasks, hne, if_false]
      exact ih fun e he => hk e (List.mem_cons_of_mem _ he)

/-- The keys of `insertStage wl k t` are those of `wl` and `k`. -/
theorem forall_insertStage {P : RddIdPair → Prop} {wl : List (RddIdPair × List ℕ)} {k : RddIdPair}
    {t : ℕ} (hk : P k) (hwl : ∀ e ∈ wl, P e.1) : ∀ e ∈ insertStage wl k t, P e.1 := by
  induction wl with
  | nil => simpa [insertStage] using hk
  | cons e wl ih =>
      obtain ⟨k', ts⟩ := e
      have hk' : P k' := hwl _ List.mem_cons_self
      have hrest := ih fun e he => hwl e (List.mem_cons_of_mem _ he)
      unfold insertStage
      split_ifs with hlt heq
      · simpa [hk, hk'] using fun a b h => hwl (a, b) (List.mem_cons_of_mem _ h)
      · simpa [hk'] using fun a b h => hwl (a, b) (List.mem_cons_of_mem _ h)
      · simpa [hk'] using fun a b h => hrest (a, b) h

theorem ordered_insertStage {wl : List (RddIdPair × List ℕ)} (hwl : Ordered wl) (k : RddIdPair)
    (t : ℕ) : Ordered (insertStage wl k t) := by
  induction wl with
  | nil => exact List.pairwise_singleton _ _
  | cons e wl ih =>
      obtain ⟨k', ts⟩ := e
      obtain ⟨hhead, hrest⟩ := List.pairwise_cons.mp hwl
      unfold insertStage
      split_ifs with hlt heq
      · -- `k` goes first: it is below `k'`, which is below the rest
        refine List.Pairwise.cons ?_ hwl
        rintro e (_ | ⟨_, he⟩)
        · exact hlt
        · exact lt_trans hlt (hhead e he)
      · subst heq
        exact List.Pairwise.cons hhead hrest
      · -- `k` goes into the rest, whose keys are above `k'`
        refine List.Pairwise.cons ?_ (ih hrest)
        exact forall_insertStage (lt_of_le_of_ne (not_lt.mp hlt) (Ne.symm heq)) hhead

theorem keys_removeStage_sublist (wl : List (RddIdPair × List ℕ)) (k : RddIdPair) (t : ℕ) :
    ((removeStage wl k t).map Prod.fst).Sublist (wl.map Prod.fst) := by
  induction wl with
  | nil => exact List.Sublist.slnil
  | cons e wl ih =>
      obtain ⟨k', ts⟩ := e
      unfold removeStage
      split_ifs
      · exact List.Sublist.cons _ (List.Sublist.refl _)
      · exact List.Sublist.refl _
      · exact ih.cons_cons _

theorem ordered_removeStage {wl : List (RddIdPair × List ℕ)} (hwl : Ordered wl) (k : RddIdPair)
    (t : ℕ) : Ordered (removeStage wl k t) := by
  unfold Ordered at hwl ⊢
  rw [← List.pairwise_map] at hwl ⊢
  exact hwl.sublist (keys_removeStage_sublist wl k t)

theorem mem_waitingTasks_insertStage (wl : List (RddIdPair × List ℕ)) (k : RddIdPair) (t : ℕ) :
    t ∈ waitingTasks (insertStage wl k t) k := by
  induction wl with
  | nil => simp [insertStage, waitingTasks]
  | cons e wl ih =>
      obtain ⟨k', ts⟩ := e
      unfold insertStage
      split_ifs with hlt heq
      · simp [waitingTasks]
      · simp [waitingTasks, heq]
      · simpa [waitingTasks, Ne.symm heq] using ih

/-- `insert_stage` keeps every task id the waiting list holds. -/
theorem mem_waitingTasks_insertStage_of_mem {wl : List (RddIdPair × List ℕ)} (hwl : Ordered wl)
    {k k' : RddIdPair} {t x : ℕ} (hx : x ∈ waitingTasks wl k') :
    x ∈ waitingTasks (insertStage wl k t) k' := by
  induction wl with
  | nil => simp [waitingTasks] at hx
  | cons e wl ih =>
      obtain ⟨k₁, ts⟩ := e
      obtain ⟨hhead, hrest⟩ := List.pairwise_cons.mp hwl
      unfold insertStage
      split_ifs with hlt heq
      · -- a new first entry: `k` is below every key, so it held nothing
        have hnil : waitingTasks ((k₁, ts) :: wl) k = [] :=
          waitingTasks_eq_nil fun e he => by
            rcases List.mem_cons.mp he with rfl | he
            · exact hlt
            · exact lt_trans hlt (hhead e he)
        by_cases hk : k = k'
        · subst hk
          rw [hnil] at hx
          simp at hx
        · simpa [waitingTasks, hk] using hx
      · subst heq
        by_cases hk : k = k'
        · subst hk
          simp_all [waitingTasks]
        · simpa [waitingTasks, hk] using hx
      · by_cases hk : k₁ = k'
        · simp_all [waitingTasks]
        · simp only [waitingTasks, hk, if_false] at hx ⊢
          exact ih hrest hx

/-- `remove_stage` of one task keeps every other task id. -/
theorem mem_waitingTasks_removeStage_of_mem {wl : List (RddIdPair × List ℕ)} {k k' : RddIdPair}
    {t x : ℕ} (hx : x ∈ waitingTasks wl k') (hne : (k', x) ≠ (k, t)) :
    x ∈ waitingTasks (removeStage wl k t) k' := by
  induction wl with
  | nil => simp [waitingTasks] at hx
  | cons e wl ih =>
      obtain ⟨k₁, ts⟩ := e
      unfold removeStage
      by_cases hk₁ : k₁ = k
      · subst hk₁
        by_cases hk : k₁ = k'
        · -- the entry of `x` itself: `x` is not the removed id, so it stays in it
          subst hk
          have hxt : x ≠ t := fun h => hne (by rw [h])
          have hmem : x ∈ ts.erase t := (List.mem_erase_of_ne hxt).mpr (by simpa [waitingTasks] using hx)
          have hne_nil : ts.erase t ≠ [] := List.ne_nil_of_mem hmem
          simpa [waitingTasks, hne_nil] using hmem
        · have hx' : x ∈ waitingTasks wl k' := by simpa [waitingTasks, hk] using hx
          rw [if_pos rfl]
          split_ifs
          · exact hx'
          · simpa [waitingTasks, hk] using hx'
      · simp only [hk₁, if_false]
        by_cases hk : k₁ = k'
        · simp_all [waitingTasks]
        · simp only [waitingTasks, hk, if_false] at hx ⊢
          exact ih hx

/-! ### The tasks' steps -/

/-- Where a task is in its code. -/
inductive Pc where
  /-- Before `insert_stage`. -/
  | start
  /-- At `get_stage_lock`'s `slock.compare_and_swap(false, true)`. -/
  | cas
  /-- In the inner loop's body: the bypass test under the holder info's write lock. -/
  | bypass
  /-- At the test of the waiting list's first key against the task's key. -/
  | check
  /-- At `slock.store(false)`: a stage before the task's is waiting. -/
  | release
  /-- Taking the lock under the holder info's write lock. -/
  | acquire
  /-- Returned from `get_stage_lock`; next, `free_stage_lock`'s decrement. -/
  | holding
  /-- At `free_stage_lock`'s read of the count. -/
  | readNum
  /-- At `free_stage_lock`'s `slock.compare_and_swap(true, false)`. -/
  | clear
  /-- At `remove_stage`. -/
  | remove
  | done
  /-- Panicked at `first_key_value().unwrap()`. -/
  | panicked
  deriving DecidableEq, Repr

/-- A task: its stage's key, its task id and its place. -/
structure Task where
  key : RddIdPair
  taskId : ℕ
  pc : Pc
  deriving DecidableEq

/-- `get_stage_lock`'s test once the flag is taken: `first_key_value().unwrap()` of the
waiting list, and a release when its key is below the task's. -/
def firstKeyTest (wl : List (RddIdPair × List ℕ)) (key : RddIdPair) : Pc :=
  match wl.head? with
  | none => .panicked
  | some (first, _) => if first < key then .release else .acquire

theorem firstKeyTest_ne_panicked {wl : List (RddIdPair × List ℕ)} (hwl : wl ≠ []) (key : RddIdPair) :
    firstKeyTest wl key ≠ .panicked := by
  obtain ⟨⟨first, ts⟩, wl, rfl⟩ := List.exists_cons_of_ne_nil hwl
  simp only [firstKeyTest, List.head?_cons]
  split_ifs <;> simp

/-- The test never returns the task to a holder's place. -/
theorem firstKeyTest_ne_holding (wl : List (RddIdPair × List ℕ)) (key : RddIdPair) :
    firstKeyTest wl key ≠ .holding := by
  unfold firstKeyTest
  split
  · simp
  · split_ifs <;> simp

/-- The lock use of a task (`ShuffleMapTask::run` with `do_shuffle_task`, `ResultTask::run`):
`insert_stage`, `get_stage_lock`, the enclave call, `free_stage_lock`, `remove_stage`.  One
atomic step of the task; the lock after it and the task's next place. -/
def taskStep (lk : StageLock) (t : Task) : StageLock × Pc :=
  match t.pc with
  | .start => ({ lk with waitingList := insertStage lk.waitingList t.key t.taskId }, .cas)
  -- `compare_and_swap` returns the old flag; the inner loop runs while it was set
  | .cas => if lk.slock then (lk, .bypass) else ({ lk with slock := true }, .check)
  | .bypass =>
      if t.key = lk.lockHolderInfo.curHolder ∧
          lk.lockHolderInfo.numCurHolders < lk.lockHolderInfo.maxCurHolders then
        ({ lk with lockHolderInfo.numCurHolders := lk.lockHolderInfo.numCurHolders + 1 }, .holding)
      else (lk, .cas)
  | .check => (lk, firstKeyTest lk.waitingList t.key)
  | .release => ({ lk with slock := false }, .cas)
  | .acquire =>
      ({ lk with
          lockHolderInfo.curHolder := t.key
          lockHolderInfo.numCurHolders := lk.lockHolderInfo.numCurHolders + 1 }, .holding)
  -- the count is a `usize`; the model's decrement stops at `0`
  | .holding => ({ lk with lockHolderInfo.numCurHolders := lk.lockHolderInfo.numCurHolders - 1 }, .readNum)
  | .readNum => if lk.lockHolderInfo.numCurHolders = 0 then (lk, .clear) else (lk, .remove)
  -- `compare_and_swap(true, false)` leaves the flag unset in either case
  | .clear => ({ lk with slock := false }, .remove)
  | .remove => ({ lk with waitingList := removeStage lk.waitingList t.key t.taskId }, .done)
  | .done => (lk, .done)
  | .panicked => (lk, .panicked)

/-- The lock and the tasks. -/
structure System where
  lock : StageLock
  tasks : List Task
  deriving DecidableEq

/-- Task `i` takes its next step. -/
def step (i : ℕ) (s : System) : System :=
  match s.tasks[i]? with
  | none => s
  | some t => ⟨(taskStep s.lock t).1, s.tasks.set i { t with pc := (taskStep s.lock t).2 }⟩

/-- The tasks' interleavings. -/
def stageLockSystem : Interleaving System ℕ := ⟨step⟩

/-- The tasks `(key, task id)` before they start, and a new lock. -/
def System.init (tasks : List (RddIdPair × ℕ)) : System :=
  ⟨StageLock.new, tasks.map fun e => ⟨e.1, e.2, .start⟩⟩

/-- The task has returned from `get_stage_lock` and not yet called `free_stage_lock`. -/
def Task.isHolding (t : Task) : Bool := t.pc == .holding

/-- The tasks that hold the lock. -/
def holders (s : System) : List Task := s.tasks.filter Task.isHolding

/-- What the stage lock is meant to keep: the holders hold the holder's key, the count is
their number and at most the maximum, and the flag is set while there is a holder. -/
def OneStageAtATime (s : System) : Prop :=
  (∀ t ∈ holders s, t.key = s.lock.lockHolderInfo.curHolder) ∧
    (holders s).length = s.lock.lockHolderInfo.numCurHolders ∧
    s.lock.lockHolderInfo.numCurHolders ≤ s.lock.lockHolderInfo.maxCurHolders ∧
    (0 < s.lock.lockHolderInfo.numCurHolders → s.lock.slock = true)

instance (s : System) : Decidable (OneStageAtATime s) := by
  unfold OneStageAtATime
  infer_instance

/-! ### What one step changes -/

@[simp] theorem step_of_getElem?_eq_none {i : ℕ} {s : System} (h : s.tasks[i]? = none) :
    step i s = s := by
  simp [step, h]

theorem step_of_getElem?_eq_some {i : ℕ} {s : System} {t : Task} (h : s.tasks[i]? = some t) :
    step i s = ⟨(taskStep s.lock t).1, s.tasks.set i { t with pc := (taskStep s.lock t).2 }⟩ := by
  simp [step, h]

/-- The count moves with the task's place: up when it starts holding, down when it stops. -/
theorem taskStep_numCurHolders (lk : StageLock) (t : Task) :
    (taskStep lk t).1.lockHolderInfo.numCurHolders =
      lk.lockHolderInfo.numCurHolders - (if t.isHolding then 1 else 0) +
        (if (taskStep lk t).2 == .holding then 1 else 0) := by
  obtain ⟨key, taskId, pc⟩ := t
  cases pc <;> simp only [taskStep, Task.isHolding] <;> repeat' split
  all_goals simp [firstKeyTest_ne_holding]

/-- `insert_stage` and `remove_stage` keep the waiting list ordered. -/
theorem ordered_taskStep {lk : StageLock} (hwl : Ordered lk.waitingList) (t : Task) :
    Ordered (taskStep lk t).1.waitingList := by
  obtain ⟨key, taskId, pc⟩ := t
  cases pc <;> simp only [taskStep] <;> repeat' split
  case start => exact ordered_insertStage hwl key taskId
  case remove => exact ordered_removeStage hwl key taskId
  all_goals exact hwl

/-- A step of one task keeps in the waiting list the ids of the other tasks. -/
theorem mem_waitingTasks_taskStep {lk : StageLock} (hwl : Ordered lk.waitingList) (t : Task)
    {k : RddIdPair} {x : ℕ} (hx : x ∈ waitingTasks lk.waitingList k) (hne : (k, x) ≠ (t.key, t.taskId)) :
    x ∈ waitingTasks (taskStep lk t).1.waitingList k := by
  obtain ⟨key, taskId, pc⟩ := t
  cases pc <;> simp only [taskStep] <;> repeat' split
  case start => exact mem_waitingTasks_insertStage_of_mem hwl hx
  case remove => exact mem_waitingTasks_removeStage_of_mem hx hne
  all_goals exact hx

/-- The task is between its `insert_stage` and its `remove_stage`. -/
def Task.inStage (t : Task) : Bool :=
  match t.pc with
  | .start | .done | .panicked => false
  | _ => true

/-- A task that is in its stage after its step has its id in the waiting list: it was in
its stage before, or it has just inserted it. -/
theorem mem_waitingTasks_taskStep_self {lk : StageLock} {t : Task}
    (hmem : t.inStage → t.taskId ∈ waitingTasks lk.waitingList t.key)
    (hin : Task.inStage { t with pc := (taskStep lk t).2 }) :
    t.taskId ∈ waitingTasks (taskStep lk t).1.waitingList t.key := by
  obtain ⟨key, taskId, pc⟩ := t
  cases pc <;> simp only [taskStep] at hin ⊢ <;> repeat' split
  case start => exact mem_waitingTasks_insertStage _ key taskId
  case remove => simp [Task.inStage] at hin
  all_goals simp_all [Task.inStage]

/-- **`first_key_value().unwrap()` does not panic** for a task whose id the waiting list
holds: the list is not empty. -/
theorem taskStep_ne_panicked {lk : StageLock} {t : Task} (hpc : t.pc ≠ .panicked)
    (hmem : t.inStage → t.taskId ∈ waitingTasks lk.waitingList t.key) :
    (taskStep lk t).2 ≠ .panicked := by
  obtain ⟨key, taskId, pc⟩ := t
  cases pc
  case check =>
    have hne : lk.waitingList ≠ [] := by
      intro hnil
      simp [hnil, waitingTasks, Task.inStage] at hmem
    exact firstKeyTest_ne_panicked hne key
  all_goals simp_all [taskStep]
  all_goals split <;> simp

/-! ### What holds in every reachable state -/

theorem length_holders_step (i : ℕ) {s : System}
    (h : (holders s).length = s.lock.lockHolderInfo.numCurHolders) :
    (holders (step i s)).length = (step i s).lock.lockHolderInfo.numCurHolders := by
  cases ht : s.tasks[i]? with
  | none => rwa [step_of_getElem?_eq_none ht]
  | some t =>
      obtain ⟨hi, rfl⟩ := List.getElem?_eq_some_iff.mp ht
      rw [step_of_getElem?_eq_some ht]
      simp only [holders, ← List.countP_eq_length_filter] at h ⊢
      rw [List.countP_set hi, taskStep_numCurHolders, h]
      rfl

@[simp] theorem holders_init (tasks : List (RddIdPair × ℕ)) : holders (System.init tasks) = [] := by
  rw [holders, System.init, List.filter_map]
  simp [Function.comp_def, Task.isHolding]

/-- **The count is the number of holders**, in every reachable state: `get_stage_lock`
counts each task it lets in, by either path, and `free_stage_lock` each one that leaves. -/
theorem holders_length_eq (tasks : List (RddIdPair × ℕ)) {s : System}
    (h : stageLockSystem.Reach (System.init tasks) s) :
    (holders s).length = s.lock.lockHolderInfo.numCurHolders := by
  refine h.invariant (I := fun s => (holders s).length = s.lock.lockHolderInfo.numCurHolders) ?_
    fun i s hs => length_holders_step i hs
  rw [holders_init]
  rfl

/-- Two tasks of one stage, their steps alternating. -/
theorem holders_length_eq_two_tasks :
    stageLockSystem.Reach (System.init [(rddIdPair 5 5 0, 1), (rddIdPair 5 5 0, 2)])
        (stageLockSystem.run (System.init [(rddIdPair 5 5 0, 1), (rddIdPair 5 5 0, 2)])
          [0, 1, 0, 1, 0, 1]) ∧
      (holders (stageLockSystem.run (System.init [(rddIdPair 5 5 0, 1), (rddIdPair 5 5 0, 2)])
          [0, 1, 0, 1, 0, 1])).length =
        (stageLockSystem.run (System.init [(rddIdPair 5 5 0, 1), (rddIdPair 5 5 0, 2)])
          [0, 1, 0, 1, 0, 1]).lock.lockHolderInfo.numCurHolders :=
  ⟨Interleaving.reach_run _ _, holders_length_eq _ (Interleaving.reach_run _ _)⟩

/-- The stage and the id of a task. -/
def Task.ident (t : Task) : RddIdPair × ℕ := (t.key, t.taskId)

/-- A task of the list after task `i` moved is the moved task, or another one of the list,
whose stage and id differ from task `i`'s. -/
theorem mem_set_of_nodup {l : List Task} {i : ℕ} (hi : i < l.length) (hl : (l.map Task.ident).Nodup)
    {u b : Task} (hu : u ∈ l.set i b) : u = b ∨ (u ∈ l ∧ u.ident ≠ l[i].ident) := by
  obtain ⟨j, hj, rfl⟩ := List.getElem_of_mem hu
  rw [List.length_set] at hj
  by_cases hji : i = j
  · subst hji
    exact Or.inl (List.getElem_set_self _)
  · rw [List.getElem_set_ne hji]
    refine Or.inr ⟨List.getElem_mem hj, fun heq => hji ?_⟩
    -- two positions with one stage and id are one position
    have hj' : j < (l.map Task.ident).length := by simpa using hj
    have hi' : i < (l.map Task.ident).length := by simpa using hi
    have hmap : (l.map Task.ident)[j] = (l.map Task.ident)[i] := by
      simpa only [List.getElem_map] using heq
    exact ((List.Nodup.getElem_inj_iff hl).mp hmap).symm

theorem map_ident_set {l : List Task} {i : ℕ} (hi : i < l.length) (pc : Pc) :
    (l.set i { l[i] with pc := pc }).map Task.ident = l.map Task.ident := by
  have hi' : i < (l.map Task.ident).length := by simpa using hi
  have hident : ({ l[i] with pc := pc } : Task).ident = (l.map Task.ident)[i] := by
    simp [Task.ident]
  rw [List.map_set, hident, List.set_getElem_self]

/-- The waiting list's invariant: ordered, every task that has inserted its stage and not
removed it is in it, no task panicked, and no two tasks share a stage and an id. -/
structure Registered (s : System) : Prop where
  ordered : Ordered s.lock.waitingList
  nodup : (s.tasks.map Task.ident).Nodup
  mem : ∀ t ∈ s.tasks, t.inStage → t.taskId ∈ waitingTasks s.lock.waitingList t.key
  not_panicked : ∀ t ∈ s.tasks, t.pc ≠ .panicked

theorem Registered.step {s : System} (h : Registered s) (i : ℕ) : Registered (step i s) := by
  cases ht : s.tasks[i]? with
  | none => rwa [step_of_getElem?_eq_none ht]
  | some t =>
      obtain ⟨hi, rfl⟩ := List.getElem?_eq_some_iff.mp ht
      rw [step_of_getElem?_eq_some ht]
      have ht_mem : s.tasks[i] ∈ s.tasks := List.getElem_mem hi
      refine ⟨ordered_taskStep h.ordered _, ?_, ?_, ?_⟩
      · rw [map_ident_set hi]
        exact h.nodup
      · intro u hu hin
        rcases mem_set_of_nodup hi h.nodup hu with rfl | ⟨hu, hne⟩
        · -- the task that moved
          exact mem_waitingTasks_taskStep_self (h.mem _ ht_mem) hin
        · -- another task: its entry is not the one a `remove_stage` of the moved task touches
          exact mem_waitingTasks_taskStep h.ordered _ (h.mem u hu hin) hne
      · intro u hu
        rcases mem_set_of_nodup hi h.nodup hu with rfl | ⟨hu, -⟩
        · exact taskStep_ne_panicked (h.not_panicked _ ht_mem) (h.mem _ ht_mem)
        · exact h.not_panicked u hu

theorem registered_init {tasks : List (RddIdPair × ℕ)} (htasks : tasks.Nodup) :
    Registered (System.init tasks) := by
  refine ⟨List.Pairwise.nil, ?_, ?_, ?_⟩
  · simpa [System.init, Task.ident, List.map_map, Function.comp_def] using htasks
  all_goals
    intro t ht
    obtain ⟨e, -, rfl⟩ := List.mem_map.mp ht
    simp [Task.inStage]

/-- **`get_stage_lock` never panics**: whatever the interleaving, when a task reads the
first key of the waiting list, its own stage is there. -/
theorem not_panicked {tasks : List (RddIdPair × ℕ)} (htasks : tasks.Nodup) {s : System}
    (h : stageLockSystem.Reach (System.init tasks) s) : ∀ t ∈ s.tasks, t.pc ≠ .panicked :=
  (h.invariant (registered_init htasks) fun i _ hs => hs.step i).not_panicked

/-! ### Two stages in the enclave -/

/-- **A bypass between `free_stage_lock`'s read and its clear.**  Task `a` has read a zero
count and is about to clear the flag; task `b`, of the holder's stage, takes the bypass
first.  Then `b` holds the lock, and `a` clears the flag under it. -/
theorem bypass_before_clear {s : System} {a b : ℕ} {ta tb : Task} (hab : a ≠ b)
    (ha : s.tasks[a]? = some ta) (hb : s.tasks[b]? = some tb) (hta : ta.pc = .clear)
    (htb : tb.pc = .bypass) (hkey : tb.key = s.lock.lockHolderInfo.curHolder)
    (hlt : s.lock.lockHolderInfo.numCurHolders < s.lock.lockHolderInfo.maxCurHolders) :
    (step a (step b s)).tasks[b]? = some { tb with pc := .holding } ∧
      (step a (step b s)).lock.lockHolderInfo.numCurHolders = s.lock.lockHolderInfo.numCurHolders + 1 ∧
      (step a (step b s)).lock.slock = false := by
  have hbstep : taskStep s.lock tb =
      ({ s.lock with lockHolderInfo.numCurHolders := s.lock.lockHolderInfo.numCurHolders + 1 }, .holding) := by
    simp [taskStep, htb, hkey, hlt]
  -- `b`'s step leaves `a` where it was
  have ha' : (step b s).tasks[a]? = some ta := by
    rw [step_of_getElem?_eq_some hb, List.getElem?_set_ne (Ne.symm hab)]
    exact ha
  rw [step_of_getElem?_eq_some ha', step_of_getElem?_eq_some hb, hbstep]
  have hb_len : b < s.tasks.length := (List.getElem?_eq_some_iff.mp hb).1
  refine ⟨?_, ?_, ?_⟩
  · rw [List.getElem?_set_ne hab, List.getElem?_set_self (by simpa using hb_len)]
  · simp [taskStep, hta]
  · simp [taskStep, hta]

/-- Two result tasks of a stage `(5, 5, 0)` and a shuffle task of a stage `(3, 2, 0)`. -/
def threeTasks : List (RddIdPair × ℕ) :=
  [(rddIdPair 5 5 0, 1), (rddIdPair 5 5 0, 2), (rddIdPair 3 2 0, 3)]

/-- Task `0` takes the lock and frees it up to the clear; task `1` takes the bypass; task `0`
clears the flag; task `2` takes the free lock for its stage, first in the waiting list. -/
def raceSchedule : List ℕ := [0, 0, 0, 0, 1, 0, 0, 1, 1, 0, 2, 2, 2, 2]

/-- **The stage lock admits two stages.**  After `raceSchedule`, task `1` of stage
`(5, 5, 0)` and task `2` of stage `(3, 2, 0)` both hold the lock. -/
theorem stageLock_admits_two_stages :
    ∃ s, stageLockSystem.Reach (System.init threeTasks) s ∧ ¬ OneStageAtATime s ∧
      (holders s).map Task.key = [rddIdPair 5 5 0, rddIdPair 3 2 0] :=
  ⟨_, Interleaving.reach_run _ raceSchedule, by decide⟩

end Scheduler

end Flare
