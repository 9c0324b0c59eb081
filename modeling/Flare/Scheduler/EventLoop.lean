import Mathlib
import Flare.Lib.Interleaving
import Flare.Scheduler.Dag

/-!
# The event loop of a job

`LocalScheduler::event_process_loop` (`scheduler/local_scheduler.rs`:188-286) submits the
final stage, then takes completion events while `num_finished != num_output_parts`.  The task
of every event leaves `pending_tasks`.  A `Success` goes to `on_event_success`
(`scheduler/base_scheduler.rs`:258-401), which for a result task sets the task's result, marks
its output finished and counts it.  A `FetchFailed` goes to `on_event_failure` (223-256), which
takes the task's stage out of `running` and files it and the map stage of the shuffle in
`failed`.  `Error` and `OtherFailure` panic.  After the loop every result must be set, or the
job panics with "some results still missing".

The events come from `run_task` (`local_scheduler.rs`:288-337), which sends `Success` for
every task it runs: nothing in the framework builds a `FetchFailed`, an `Error` or an
`OtherFailure`.  Over such events the loop counts each finished output once, and exits with
every result set.

## Main definitions

* `TastEndReason`, `CompletionEvent` — the events (`TastEndReason` is the source's spelling).
* `LoopState`, `processEvent` — the loop's state and one event.
* `LoopStep`, `loopStart` — the loop as a step relation: the success of a pending task, taken
  while the loop runs, from the state after `submit_stage(final_stage)`.
* `eventProcessLoop` — the loop over a list of events.
* `ResultsCounted` — `num_finished` counts the finished outputs, and the final stage's pending
  tasks are of outputs not finished.
* `FinalParked`, `FinalSubmitted` — the two phases of the final stage's tasks.

## Main results

* `LoopInv.step` — one event keeps the count and the phases.
* `reachable_loopInv` — so does every state of the loop.
* `results_complete_at_exit` — when the loop exits, every result is set.
* `results_of_successes` — a job of one result stage finishes with every result set once each
  of its tasks succeeds, in any order.
* `results_of_one_shuffle` — so does a job whose result stage reads one shuffle, once its map
  tasks and then its result tasks succeed.

## Design notes

`remove_output_loc_from_stage` writes the copy of the map stage in `shuffle_to_map_stage`,
and `unregister_map_output` the map output tracker (`Flare.MapOutputTracker`).  Nothing in
the loop reads either, so the step leaves them out with the map id and the server of a
`FetchFailed`, keeping the two lookups of the shuffle's map stage, whose `unwrap` panics; it
also leaves out `fetch_failure_duration`, which is read only after the loop.
`results[i]` and `finished[i]` are set together, and `finished` stands for both.  An event
arrives only for a task that is pending, and `LoopStep` says so.  The final stage is a result
stage, never the parent of a stage (`get_parent_stages` returns shuffle-map stages).
-/

namespace Flare

namespace Scheduler

/-- `TastEndReason` (`scheduler/dag_scheduler.rs`:26-31); a `FetchFailed` keeps the shuffle
whose output it could not fetch. -/
inductive TastEndReason where
  | success
  | fetchFailed (shuffleId : ℕ)
  | error
  | otherFailure
  deriving DecidableEq, Repr

/-- A `CompletionEvent` (`dag_scheduler.rs`:19-24) of the task of stage `stageId` for
partition `partition` (for a result task, its output). -/
structure CompletionEvent where
  stageId : ℕ
  partition : ℕ
  reason : TastEndReason
  deriving DecidableEq, Repr

/-- The state of `event_process_loop`: the job tracker's sets, `finished`, `num_finished` and
the `failed` stages. -/
structure LoopState where
  job : JobState
  finished : List Bool
  numFinished : ℕ
  failed : List ℕ

section Loop

variable (g : StageGraph)

/-- `on_event_failure` (`base_scheduler.rs`:223-256): the task's stage leaves `running`; it
and `mapStage`, the map stage of the shuffle (`fetch_from_shuffle_to_cache`), are filed in
`failed`. -/
def onEventFailure (st : LoopState) (stageId mapStage : ℕ) : LoopState :=
  { st with
    job := { st.job with running := st.job.running.erase stageId }
    failed := (st.failed.insert stageId).insert mapStage }

/-- One event of the loop (`local_scheduler.rs`:232-263).  On a success `on_event_success`
takes the task out of `pending_tasks` (`onEventSuccess`); a result task's success then sets
`results[output_id]` and `finished[output_id]`, which panic past the outputs, and counts it.
On a fetch failure the task leaves `pending_tasks` before `on_event_failure`, which panics where
the shuffle has no map stage.  `Error` and `OtherFailure` panic. -/
def processEvent (st : LoopState) (evt : CompletionEvent) : Option LoopState :=
  match evt.reason with
  | .success =>
      let job := onEventSuccess g st.job evt.stageId evt.partition
      if evt.stageId = g.finalStage then
        if evt.partition < st.finished.length then
          some { st with
            job
            finished := st.finished.set evt.partition true
            numFinished := st.numFinished + 1 }
        else none
      else some { st with job }
  | .fetchFailed shuffleId =>
      let job := { st.job with
        pending := Function.update st.job.pending evt.stageId
          ((st.job.pending evt.stageId).erase evt.partition) }
      match g.shuffleToMapStage shuffleId with
      | none => none
      | some mapStage => some (onEventFailure { st with job } evt.stageId mapStage)
  | .error => none
  | .otherFailure => none

/-- The loop after `submit_stage(final_stage)` (`local_scheduler.rs`:213-216), before any
event: no result yet. -/
def loopStart (fuel : ℕ) : LoopState :=
  ⟨submitStage g fuel g.finalStage JobState.init,
    List.replicate (g.numPartitions g.finalStage) false, 0, []⟩

/-- **One iteration of the loop**: while `num_finished != num_output_parts`, the event `evt`
of a pending task arrives and is processed.  The event is a success, the one reason
`run_task` sends. -/
def LoopStep (evt : CompletionEvent) (st st' : LoopState) : Prop :=
  st.numFinished ≠ g.numPartitions g.finalStage ∧ evt.reason = .success ∧
    evt.partition ∈ st.job.pending evt.stageId ∧ processEvent g st evt = some st'

/-- The states the loop passes through from `st`, whatever the events. -/
abbrev Reachable (st st' : LoopState) : Prop :=
  Relation.ReflTransGen (StepAny (LoopStep g)) st st'

/-- `while num_finished != num_output_parts` over the events in the order they arrive: the
loop stops once every output is counted; a panic is `none`. -/
def eventProcessLoop : LoopState → List CompletionEvent → Option LoopState
  | st, [] => some st
  | st, evt :: evts =>
      if st.numFinished = g.numPartitions g.finalStage then some st
      else (processEvent g st evt).bind fun st => eventProcessLoop st evts

end Loop

/-! ### What the scheduler does to the final stage's tasks -/

section FinalTasks

variable (g : StageGraph)

/-- Two job states that agree on the final stage's tasks and on its place in `waiting`. -/
structure SameFinal (st' st : JobState) : Prop where
  pending_eq : st'.pending g.finalStage = st.pending g.finalStage
  count_waiting_eq : st'.waiting.count g.finalStage = st.waiting.count g.finalStage

theorem SameFinal.trans {st₁ st₂ st₃ : JobState} (h₁₂ : SameFinal g st₁ st₂)
    (h₂₃ : SameFinal g st₂ st₃) : SameFinal g st₁ st₃ :=
  ⟨h₁₂.pending_eq.trans h₂₃.pending_eq, h₁₂.count_waiting_eq.trans h₂₃.count_waiting_eq⟩

/-- A fold of steps that each leave the final stage alone leaves it alone. -/
theorem sameFinal_foldl {step : JobState → ℕ → JobState} :
    ∀ (ps : List ℕ), (∀ p ∈ ps, ∀ st, SameFinal g (step st p) st) →
      ∀ st, SameFinal g (ps.foldl step st) st
  | [], _, _ => ⟨rfl, rfl⟩
  | p :: ps, hps, st =>
      (sameFinal_foldl ps (fun q hq => hps q (by simp [hq])) (step st p)).trans g
        (hps p (by simp) st)

theorem count_insert_of_ne {l : List ℕ} {a b : ℕ} (h : a ≠ b) : (l.insert a).count b = l.count b := by
  by_cases ha : a ∈ l
  · rw [List.insert_of_mem ha]
  · rw [List.insert_of_not_mem ha, List.count_cons, if_neg (by simpa using h), Nat.add_zero]

/-- `submit_missing_tasks` of another stage leaves the final stage's tasks. -/
theorem pending_submitMissingTasks_of_ne (st : JobState) {s : ℕ} (hs : s ≠ g.finalStage) :
    (submitMissingTasks g st s).pending g.finalStage = st.pending g.finalStage :=
  Function.update_of_ne hs.symm _ _

/-- `submit_missing_tasks` of the final stage adds a task for every output. -/
theorem pending_submitMissingTasks_final (st : JobState) :
    (submitMissingTasks g st g.finalStage).pending g.finalStage =
      st.pending g.finalStage ++ List.range (g.numPartitions g.finalStage) := by
  show Function.update st.pending g.finalStage _ g.finalStage = _
  rw [Function.update_self, List.filter_eq_self.mpr fun p _ => by simp]

/-- Submitting the tasks of a list of stages adds the final stage's tasks once for each time
the list names it. -/
theorem pending_foldl_submitMissingTasks :
    ∀ (ws : List ℕ) (st : JobState), (ws.foldl (submitMissingTasks g) st).pending g.finalStage =
      st.pending g.finalStage ++
        (List.replicate (ws.count g.finalStage) (List.range (g.numPartitions g.finalStage))).flatten
  | [], st => by simp
  | w :: ws, st => by
      rw [List.foldl_cons, pending_foldl_submitMissingTasks ws, List.count_cons]
      by_cases hw : w = g.finalStage
      · subst hw
        rw [pending_submitMissingTasks_final, if_pos (by simp), List.replicate_succ,
          List.flatten_cons, List.append_assoc]
      · rw [pending_submitMissingTasks_of_ne g st hw, if_neg (by simpa using hw), Nat.add_zero]

theorem waiting_foldl_submitMissingTasks :
    ∀ (ws : List ℕ) (st : JobState), (ws.foldl (submitMissingTasks g) st).waiting = st.waiting
  | [], _ => rfl
  | w :: ws, st => by
      rw [List.foldl_cons, waiting_foldl_submitMissingTasks ws, submitMissingTasks_waiting]

/-- A result task's success takes it out of `pending_tasks`, and nothing else. -/
theorem onEventSuccess_final (st : JobState) (p : ℕ) :
    onEventSuccess g st g.finalStage p = { st with
      pending := Function.update st.pending g.finalStage ((st.pending g.finalStage).erase p) } := by
  rw [onEventSuccess, if_pos rfl]

/-- **A shuffle-map task's success, seen from the final stage**: either the final stage is left
alone, or it was waiting and is submitted, once for each time `waiting` holds it. -/
theorem onEventSuccess_final_of_ne (st : JobState) {s : ℕ} (hs : s ≠ g.finalStage) (p : ℕ) :
    SameFinal g (onEventSuccess g st s p) st ∨
      (g.finalStage ∈ st.waiting ∧ g.finalStage ∉ (onEventSuccess g st s p).waiting ∧
        (onEventSuccess g st s p).pending g.finalStage = st.pending g.finalStage ++
          (List.replicate (st.waiting.count g.finalStage)
            (List.range (g.numPartitions g.finalStage))).flatten) := by
  have hpend : Function.update st.pending s ((st.pending s).erase p) g.finalStage =
      st.pending g.finalStage := Function.update_of_ne hs.symm _ _
  rw [onEventSuccess, if_neg hs]
  dsimp only
  split
  · -- the stage is done: the stages that become runnable leave `waiting` and are submitted
    simp only [newlyRunnable, addOutputLoc]
    generalize hr : (st.waiting.filter fun w => (g.parents w).all (· ∉ st.waiting)) = runnable
    by_cases hf : g.finalStage ∈ runnable
    · -- a runnable stage is a waiting one, and the final stage is runnable each time it waits
      have hmem := List.mem_filter.mp (hr ▸ hf)
      have hcount : runnable.count g.finalStage = st.waiting.count g.finalStage := by
        rw [← hr]
        exact List.count_filter hmem.2
      refine .inr ⟨hmem.1, ?_, ?_⟩
      · rw [waiting_foldl_submitMissingTasks]
        simp [hf]
      · rw [pending_foldl_submitMissingTasks, hcount]
        simpa using hpend
    · refine .inl ⟨?_, ?_⟩
      · rw [pending_foldl_submitMissingTasks, List.count_eq_zero_of_not_mem hf]
        simpa using hpend
      · rw [waiting_foldl_submitMissingTasks]
        exact List.count_filter (by simpa using hf)
  · exact .inl ⟨hpend, rfl⟩

end FinalTasks

/-! ### `submit_stage` at the start -/

section Start

variable (g : StageGraph) (hf : ∀ s, g.finalStage ∉ g.parents s)
include hf

/-- `submit_stage` of a stage other than the final one never reaches the final stage, which no
stage has as a parent: its tasks and its place in `waiting` stay. -/
theorem submitStage_frame :
    ∀ (fuel s : ℕ) (st : JobState), s ≠ g.finalStage → SameFinal g (submitStage g fuel s st) st
  | 0, _, _, _ => ⟨rfl, rfl⟩
  | fuel + 1, s, st, hs => by
      rw [submitStage]
      split
      · dsimp only
        split
        · exact ⟨pending_submitMissingTasks_of_ne g st hs, rfl⟩
        · -- the missing parents are parents, so none is the final stage
          have hfold := sameFinal_foldl g (missingParents g st s) (fun p hp st' =>
            submitStage_frame fuel p st' fun hpf => hf s (hpf ▸ (List.mem_filter.mp hp).1)) st
          exact ⟨hfold.pending_eq, (count_insert_of_ne hs).trans hfold.count_waiting_eq⟩
      · exact ⟨rfl, rfl⟩

end Start

/-! ### The results and the two phases of the final stage -/

section Phases

variable (g : StageGraph)

/-- The results as the loop keeps them: an entry of `finished` for each output, `num_finished`
the number of those set, and the final stage's pending tasks distinct and of outputs not yet
set. -/
structure ResultsCounted (st : LoopState) : Prop where
  length_finished : st.finished.length = g.numPartitions g.finalStage
  numFinished_eq : st.numFinished = st.finished.count true
  nodup : (st.job.pending g.finalStage).Nodup
  pending_unfinished : ∀ p ∈ st.job.pending g.finalStage, st.finished[p]? = some false

/-- The final stage parked in `waiting` by `submit_stage`: there once, with nothing pending
and nothing finished. -/
structure FinalParked (st : LoopState) : Prop where
  count_waiting : st.job.waiting.count g.finalStage = 1
  pending_eq : st.job.pending g.finalStage = []
  numFinished_eq : st.numFinished = 0

/-- The final stage once submitted: it is not waiting, so no success submits it again. -/
structure FinalSubmitted (st : LoopState) : Prop where
  not_waiting : g.finalStage ∉ st.job.waiting

/-- What every state of the loop keeps: the results counted, and the final stage parked or
submitted. -/
structure LoopInv (st : LoopState) : Prop where
  counted : ResultsCounted g st
  phase : FinalParked g st ∨ FinalSubmitted g st

variable {g}

/-- The successes that get past `processEvent`: of a result task within the outputs, or of a
shuffle-map task. -/
theorem processEvent_success_cases {st st' : LoopState} {evt : CompletionEvent}
    (hsuccess : evt.reason = .success) (h : processEvent g st evt = some st') :
    (evt.stageId = g.finalStage ∧ evt.partition < st.finished.length ∧
        st' = { st with
          job := onEventSuccess g st.job evt.stageId evt.partition
          finished := st.finished.set evt.partition true
          numFinished := st.numFinished + 1 }) ∨
      (evt.stageId ≠ g.finalStage ∧
        st' = { st with job := onEventSuccess g st.job evt.stageId evt.partition }) := by
  obtain ⟨s, p, reason⟩ := evt
  subst hsuccess
  simp only [processEvent] at h
  by_cases hs : s = g.finalStage
  · rw [if_pos hs] at h
    by_cases hp : p < st.finished.length
    · rw [if_pos hp, Option.some_inj] at h
      exact .inl ⟨hs, hp, h.symm⟩
    · rw [if_neg hp] at h
      cases h
  · rw [if_neg hs, Option.some_inj] at h
    exact .inr ⟨hs, h.symm⟩

/-- Setting an output that was not set counts one more. -/
theorem count_set_true {l : List Bool} {p : ℕ} (hp : l[p]? = some false) :
    (l.set p true).count true = l.count true + 1 := by
  obtain ⟨hlt, hget⟩ := List.getElem?_eq_some_iff.mp hp
  rw [List.count_set hlt]
  simp [hget]

/-- An entry of a list of results none of which is set. -/
theorem getElem?_eq_some_false {l : List Bool} (hnone : l.count true = 0) {p : ℕ}
    (hp : p < l.length) : l[p]? = some false := by
  rw [List.getElem?_eq_getElem hp, Option.some_inj]
  cases hb : l[p]
  · rfl
  · exact absurd (hb ▸ List.getElem_mem hp) (List.count_eq_zero.mp hnone)

/-- A step that leaves the final stage's tasks leaves the results counted. -/
theorem ResultsCounted.of_pending_eq {st : LoopState} (h : ResultsCounted g st) {job : JobState}
    (hpend : job.pending g.finalStage = st.job.pending g.finalStage) :
    ResultsCounted g { st with job } :=
  ⟨h.length_finished, h.numFinished_eq, hpend ▸ h.nodup, hpend ▸ h.pending_unfinished⟩

/-- The final stage submitted with nothing finished: a task for every output, none set. -/
theorem ResultsCounted.submitted {st : LoopState} (h : ResultsCounted g st)
    (hnone : st.numFinished = 0) {job : JobState}
    (hpend : job.pending g.finalStage = List.range (g.numPartitions g.finalStage)) :
    ResultsCounted g { st with job } := by
  refine ⟨h.length_finished, h.numFinished_eq, hpend ▸ List.nodup_range, fun p hp => ?_⟩
  rw [hpend, List.mem_range, ← h.length_finished] at hp
  exact getElem?_eq_some_false (h.numFinished_eq ▸ hnone) hp

/-- **A result task's success** sets its output, which was not set, and counts it once. -/
theorem ResultsCounted.finalSuccess {st : LoopState} (h : ResultsCounted g st) {p : ℕ}
    (hp : p ∈ st.job.pending g.finalStage) :
    ResultsCounted g { st with
      job := onEventSuccess g st.job g.finalStage p
      finished := st.finished.set p true
      numFinished := st.numFinished + 1 } := by
  have hpend : (onEventSuccess g st.job g.finalStage p).pending g.finalStage =
      (st.job.pending g.finalStage).erase p := by
    rw [onEventSuccess_final]
    exact Function.update_self _ _ _
  refine ⟨?_, ?_, ?_, fun q hq => ?_⟩
  · rw [List.length_set]
    exact h.length_finished
  · show st.numFinished + 1 = _
    rw [count_set_true (h.pending_unfinished p hp), h.numFinished_eq]
  · rw [hpend]
    exact h.nodup.erase p
  · -- the other pending tasks keep their outputs unset
    rw [hpend, h.nodup.mem_erase_iff] at hq
    show (st.finished.set p true)[q]? = _
    rw [List.getElem?_set_ne (Ne.symm hq.1)]
    exact h.pending_unfinished q hq.2

/-- **One event keeps the invariant.**  A result task's success finds the final stage
submitted, since its task was pending.  A shuffle-map task's success leaves the final stage's
tasks alone, or submits the parked final stage with a task for every output. -/
theorem LoopInv.step {st st' : LoopState} {evt : CompletionEvent} (h : LoopInv g st)
    (hstep : LoopStep g evt st st') : LoopInv g st' := by
  obtain ⟨-, hsuccess, hpend, hproc⟩ := hstep
  rcases processEvent_success_cases hsuccess hproc with ⟨hs, -, rfl⟩ | ⟨hs, rfl⟩
  · rw [hs] at hpend ⊢
    refine ⟨h.counted.finalSuccess hpend, .inr ⟨?_⟩⟩
    rcases h.phase with hparked | hsub
    · rw [hparked.pending_eq] at hpend
      exact absurd hpend List.not_mem_nil
    · rw [onEventSuccess_final]
      exact hsub.not_waiting
  · rcases onEventSuccess_final_of_ne g st.job hs evt.partition with hsame | ⟨hw, hw', hp⟩
    · refine ⟨h.counted.of_pending_eq hsame.pending_eq, ?_⟩
      rcases h.phase with hparked | hsub
      · exact .inl ⟨hsame.count_waiting_eq.trans hparked.count_waiting,
          hsame.pending_eq.trans hparked.pending_eq, hparked.numFinished_eq⟩
      · refine .inr ⟨?_⟩
        rw [← List.count_eq_zero, hsame.count_waiting_eq, List.count_eq_zero]
        exact hsub.not_waiting
    · -- the final stage was waiting, hence parked: it is submitted, once
      have hparked : FinalParked g st := h.phase.resolve_right fun hsub => hsub.not_waiting hw
      refine ⟨h.counted.submitted hparked.numFinished_eq ?_, .inr ⟨hw'⟩⟩
      rw [hp, hparked.pending_eq, hparked.count_waiting, List.replicate_one, List.flatten_singleton,
        List.nil_append]

variable (g)

/-- `submit_stage` of the final stage of a new job: its tasks when no parent is missing, and
otherwise the missing parents' submissions with the final stage parked. -/
theorem submitStage_final_init (fuel : ℕ) :
    submitStage g (fuel + 1) g.finalStage JobState.init =
      if missingParents g JobState.init g.finalStage = [] then
        { submitMissingTasks g JobState.init g.finalStage with
          running := (submitMissingTasks g JobState.init g.finalStage).running.insert g.finalStage }
      else
        let st := (missingParents g JobState.init g.finalStage).foldl
          (fun st p => submitStage g fuel p st) JobState.init
        { st with waiting := st.waiting.insert g.finalStage } := by
  rw [submitStage, if_pos (by simp [JobState.init])]

/-- A new job: nothing submitted and no result set. -/
theorem resultsCounted_init :
    ResultsCounted g ⟨JobState.init, List.replicate (g.numPartitions g.finalStage) false, 0, []⟩ :=
  ⟨List.length_replicate, by rw [List.count_replicate, if_neg (by decide)], List.nodup_nil,
    fun _ hp => absurd hp List.not_mem_nil⟩

/-- **Where the loop starts**: `submit_stage` submits the final stage's tasks, or parks it in
`waiting` behind its missing parents; no result is set. -/
theorem loopInv_loopStart (hf : ∀ s, g.finalStage ∉ g.parents s) (fuel : ℕ) :
    LoopInv g (loopStart g fuel) := by
  cases fuel with
  | zero => exact ⟨(resultsCounted_init g).of_pending_eq rfl, .inr ⟨List.not_mem_nil⟩⟩
  | succ fuel =>
      rw [loopStart, submitStage_final_init]
      by_cases hmissing : missingParents g JobState.init g.finalStage = []
      · -- no parent missing: every output gets its task
        rw [if_pos hmissing]
        refine ⟨(resultsCounted_init g).submitted rfl ?_, .inr ⟨List.not_mem_nil⟩⟩
        rw [pending_submitMissingTasks_final]
        rfl
      · -- the missing parents, submitted first, leave the final stage alone
        rw [if_neg hmissing]
        have hfold := sameFinal_foldl g (missingParents g JobState.init g.finalStage)
          (fun p hp st' => submitStage_frame g hf fuel p st' fun hpf =>
            hf g.finalStage (hpf ▸ (List.mem_filter.mp hp).1)) JobState.init
        have hnot : g.finalStage ∉ ((missingParents g JobState.init g.finalStage).foldl
            (fun st p => submitStage g fuel p st) JobState.init).waiting := by
          rw [← List.count_eq_zero, hfold.count_waiting_eq]
          rfl
        refine ⟨(resultsCounted_init g).of_pending_eq hfold.pending_eq, .inl ⟨?_, hfold.pending_eq, rfl⟩⟩
        simp only [List.insert_of_not_mem hnot, List.count_cons_self, List.count_eq_zero.mpr hnot]

/-- **The invariant in every state of the loop.** -/
theorem reachable_loopInv (hf : ∀ s, g.finalStage ∉ g.parents s) (fuel : ℕ) {st : LoopState}
    (h : Reachable g (loopStart g fuel) st) : LoopInv g st :=
  reflTransGen_invariant (loopInv_loopStart g hf fuel) (fun _ _ _ hinv hstep => hinv.step hstep) h

/-- **No result is missing when the loop exits.**  In a job whose final stage is no stage's
parent, every state the loop reaches counts in `num_finished` the outputs whose result is set,
each once, and every pending result task is of an output not yet set.  So when `num_finished`
reaches `num_output_parts` and the loop exits, every result is set, and the closing
`panic!("some results still missing")` does not fire. -/
theorem results_complete_at_exit (hf : ∀ s, g.finalStage ∉ g.parents s) (fuel : ℕ)
    {st : LoopState} (h : Reachable g (loopStart g fuel) st) :
    st.numFinished = st.finished.count true ∧
      (∀ p ∈ st.job.pending g.finalStage, st.finished[p]? = some false) ∧
      (st.numFinished = g.numPartitions g.finalStage →
        st.finished = List.replicate (g.numPartitions g.finalStage) true) := by
  have hinv := (reachable_loopInv g hf fuel h).counted
  refine ⟨hinv.numFinished_eq, hinv.pending_unfinished, fun hdone => ?_⟩
  -- as many results are set as there are outputs
  have hall : st.finished.count true = st.finished.length := by
    rw [← hinv.numFinished_eq, hdone, hinv.length_finished]
  exact List.eq_replicate_iff.mpr
    ⟨hinv.length_finished, fun b hb => (List.count_eq_length.mp hall b hb).symm⟩

/-- A job of one result stage with `n` outputs. -/
def oneStage (n : ℕ) : StageGraph := ⟨fun _ => [], fun _ => n, 0, fun _ => none⟩

/-- The second output of a two-output job finishes first. -/
theorem results_complete_at_exit_one_success :
    (∀ s, (oneStage 2).finalStage ∉ (oneStage 2).parents s) ∧
      Reachable (oneStage 2) (loopStart (oneStage 2) 1)
        ((processEvent (oneStage 2) (loopStart (oneStage 2) 1) ⟨0, 1, .success⟩).getD
          (loopStart (oneStage 2) 1)) ∧
      (((processEvent (oneStage 2) (loopStart (oneStage 2) 1) ⟨0, 1, .success⟩).getD
          (loopStart (oneStage 2) 1)).numFinished =
        ((processEvent (oneStage 2) (loopStart (oneStage 2) 1) ⟨0, 1, .success⟩).getD
          (loopStart (oneStage 2) 1)).finished.count true ∧
      (∀ p ∈ ((processEvent (oneStage 2) (loopStart (oneStage 2) 1) ⟨0, 1, .success⟩).getD
          (loopStart (oneStage 2) 1)).job.pending (oneStage 2).finalStage,
        ((processEvent (oneStage 2) (loopStart (oneStage 2) 1) ⟨0, 1, .success⟩).getD
          (loopStart (oneStage 2) 1)).finished[p]? = some false) ∧
      (((processEvent (oneStage 2) (loopStart (oneStage 2) 1) ⟨0, 1, .success⟩).getD
          (loopStart (oneStage 2) 1)).numFinished = (oneStage 2).numPartitions (oneStage 2).finalStage →
        ((processEvent (oneStage 2) (loopStart (oneStage 2) 1) ⟨0, 1, .success⟩).getD
          (loopStart (oneStage 2) 1)).finished =
          List.replicate ((oneStage 2).numPartitions (oneStage 2).finalStage) true)) := by
  have hf : ∀ s, (oneStage 2).finalStage ∉ (oneStage 2).parents s := fun _ => List.not_mem_nil
  have hreach : Reachable (oneStage 2) (loopStart (oneStage 2) 1)
      ((processEvent (oneStage 2) (loopStart (oneStage 2) 1) ⟨0, 1, .success⟩).getD
        (loopStart (oneStage 2) 1)) :=
    .single ⟨⟨0, 1, .success⟩, by decide, rfl, by decide, rfl⟩
  exact ⟨hf, hreach, results_complete_at_exit (oneStage 2) hf 1 hreach⟩

end Phases

/-! ### A job that finishes -/

section Finishing

variable (g : StageGraph)

/-- Every output set: the results of a run over all outputs, from none set. -/
theorem eq_replicate_true {n : ℕ} {order : List ℕ} (horder : order.Perm (List.range n))
    {l : List Bool} (hl : ∀ i, l[i]? = if i ∈ order then some true else (List.replicate n false)[i]?) :
    l = List.replicate n true := by
  refine List.ext_getElem? fun i => ?_
  rw [hl i, List.getElem?_replicate, List.getElem?_replicate]
  by_cases hi : i < n
  · rw [if_pos (horder.mem_iff.mpr (List.mem_range.mpr hi)), if_pos hi]
  · rw [if_neg fun hmem => hi (List.mem_range.mp (horder.subset hmem)), if_neg hi, if_neg hi]

/-- The loop over two lists of events runs the second from where the first leaves it. -/
theorem eventProcessLoop_append (evts evts' : List CompletionEvent) (st : LoopState) :
    eventProcessLoop g st (evts ++ evts') =
      (eventProcessLoop g st evts).bind fun st => eventProcessLoop g st evts' := by
  induction evts generalizing st with
  | nil => rfl
  | cons evt evts ih =>
      rw [List.cons_append, eventProcessLoop, eventProcessLoop]
      split
      · -- the loop has ended: it ends again at once on the second list
        rename_i hdone
        cases evts' with
        | nil => rfl
        | cons _ _ => simp [eventProcessLoop, hdone]
      · rw [Option.bind_assoc]
        exact congrArg _ (funext fun st => ih st)

/-- The success of a task of another stage than the final one. -/
theorem processEvent_success_of_ne (st : LoopState) {s : ℕ} (hs : s ≠ g.finalStage) (p : ℕ) :
    processEvent g st ⟨s, p, .success⟩ = some { st with job := onEventSuccess g st.job s p } := by
  simp [processEvent, hs]

/-- **The successes of the final stage's tasks**, in an order that lists its pending tasks:
the loop counts each and sets each one's result, and ends with every output counted. -/
theorem eventProcessLoop_successes :
    ∀ (order : List ℕ) (st : LoopState), order.Perm (st.job.pending g.finalStage) →
      (st.job.pending g.finalStage).Nodup →
      st.numFinished + order.length = g.numPartitions g.finalStage →
      (∀ q ∈ order, q < st.finished.length) →
      ∃ st', eventProcessLoop g st (order.map fun q => ⟨g.finalStage, q, .success⟩) = some st' ∧
        st'.numFinished = g.numPartitions g.finalStage ∧ st'.finished.length = st.finished.length ∧
        ∀ i, st'.finished[i]? = if i ∈ order then some true else st.finished[i]?
  | [], st, _, _, hcount, _ => ⟨st, rfl, by simpa using hcount, rfl, fun i => by simp⟩
  | q :: order, st, hperm, hnodup, hcount, hlt => by
      have hq : q ∈ st.job.pending g.finalStage := hperm.subset (List.mem_cons_self ..)
      have hqlt : q < st.finished.length := hlt q (List.mem_cons_self ..)
      -- the success of `q`: one result set, one task less pending
      have hperm' : order.Perm ((st.job.pending g.finalStage).erase q) :=
        (hperm.trans (List.perm_cons_erase hq)).cons_inv
      obtain ⟨st', hloop, hnum, hlen, hfin⟩ := eventProcessLoop_successes order
        { st with
          job := onEventSuccess g st.job g.finalStage q
          finished := st.finished.set q true
          numFinished := st.numFinished + 1 }
        (by simpa [onEventSuccess_final] using hperm')
        (by simpa [onEventSuccess_final] using hnodup.erase q)
        (by
          show st.numFinished + 1 + order.length = _
          simp only [List.length_cons] at hcount
          omega)
        (fun q' hq' => by simpa using hlt q' (List.mem_cons_of_mem _ hq'))
      refine ⟨st', ?_, hnum, by simpa using hlen, fun i => ?_⟩
      · have hrun : st.numFinished ≠ g.numPartitions g.finalStage := by
          simp only [List.length_cons] at hcount
          omega
        simp only [List.map_cons, eventProcessLoop, if_neg hrun, processEvent, if_pos, hqlt]
        exact hloop
      · rw [hfin i, List.getElem?_set]
        by_cases hi : i ∈ order
        · simp [hi]
        · by_cases hqi : q = i
          · subst hqi
            simp [hqlt]
          · simp [hi, hqi, Ne.symm hqi]

/-- **A job of one result stage finishes.**  When the final stage has no parent, its tasks
succeeding in any order take the loop to its end: every output is counted and every result is
set. -/
theorem results_of_successes (hparents : g.parents g.finalStage = []) (fuel : ℕ) {order : List ℕ}
    (horder : order.Perm (List.range (g.numPartitions g.finalStage))) :
    ∃ st, eventProcessLoop g (loopStart g (fuel + 1))
        (order.map fun q => ⟨g.finalStage, q, .success⟩) = some st ∧
      st.numFinished = g.numPartitions g.finalStage ∧
      st.finished = List.replicate (g.numPartitions g.finalStage) true := by
  -- no parent is missing, so `submit_stage` submits a task for every output
  have hmissing : missingParents g JobState.init g.finalStage = [] := by
    simp [missingParents, hparents]
  have hpending : (loopStart g (fuel + 1)).job.pending g.finalStage =
      List.range (g.numPartitions g.finalStage) := by
    simp only [loopStart, submitStage_final_init, if_pos hmissing, pending_submitMissingTasks_final]
    rfl
  obtain ⟨st, hloop, hnum, hlen, hfin⟩ := eventProcessLoop_successes g order (loopStart g (fuel + 1))
    (hpending ▸ horder) (hpending ▸ List.nodup_range)
    (by simp [loopStart, horder.length_eq])
    (fun q hq => by simpa [loopStart] using List.mem_range.mp (horder.subset hq))
  exact ⟨st, hloop, hnum, eq_replicate_true horder hfin⟩

/-- Two outputs, the second one's task succeeding first. -/
theorem results_of_successes_two_outputs :
    ∃ st, eventProcessLoop (oneStage 2) (loopStart (oneStage 2) 1)
        ([1, 0].map fun q => ⟨(oneStage 2).finalStage, q, .success⟩) = some st ∧
      st.numFinished = (oneStage 2).numPartitions (oneStage 2).finalStage ∧
      st.finished = List.replicate ((oneStage 2).numPartitions (oneStage 2).finalStage) true :=
  results_of_successes (oneStage 2) rfl 0 (by decide)

/-! #### A job of one shuffle -/

section OneShuffle

/-- While the final stage waits on the running map stage `m` alone, with nothing finished. -/
structure MapPhase (m : ℕ) (st : LoopState) : Prop where
  waiting_eq : st.job.waiting = [g.finalStage]
  running : m ∈ st.job.running
  pending_final : st.job.pending g.finalStage = []
  numFinished_eq : st.numFinished = 0

variable {g} {m : ℕ}

/-- A map task's success that leaves another map task pending only records its output. -/
theorem onEventSuccess_of_erase_ne_nil (st : JobState) {s p : ℕ} (hs : s ≠ g.finalStage)
    (hrest : (st.pending s).erase p ≠ []) :
    onEventSuccess g st s p =
      addOutputLoc { st with pending := Function.update st.pending s ((st.pending s).erase p) } s p := by
  rw [onEventSuccess, if_neg hs]
  dsimp only
  rw [if_neg fun h => hrest (by simpa [addOutputLoc] using h.2)]

/-- **The last map task's success** submits the final stage that waits on `m` alone. -/
theorem pending_onEventSuccess_last (st : JobState) {q : ℕ} (hm : m ≠ g.finalStage)
    (hparents : g.parents g.finalStage = [m]) (hwaiting : st.waiting = [g.finalStage])
    (hrunning : m ∈ st.running) (hlast : st.pending m = [q]) :
    (onEventSuccess g st m q).pending g.finalStage =
      st.pending g.finalStage ++ List.range (g.numPartitions g.finalStage) := by
  have hpend : Function.update st.pending m ((st.pending m).erase q) g.finalStage =
      st.pending g.finalStage := Function.update_of_ne hm.symm _ _
  -- the final stage is the one runnable stage: its one parent no longer waits
  have hrunnable : (st.waiting.filter fun w => (g.parents w).all (· ∉ st.waiting)) =
      [g.finalStage] := by
    simp [hwaiting, hparents, hm]
  rw [onEventSuccess, if_neg hm]
  dsimp only
  rw [if_pos ⟨hrunning, by simp [addOutputLoc, hlast]⟩, pending_foldl_submitMissingTasks]
  simp only [newlyRunnable, addOutputLoc, hpend, hrunnable]
  simp

/-- **The map phase**: the successes of the map tasks, in an order that lists them, submit
the final stage once the last one succeeds, with nothing finished yet. -/
theorem eventProcessLoop_map_successes (hm : m ≠ g.finalStage)
    (hparents : g.parents g.finalStage = [m]) (hn : 0 < g.numPartitions g.finalStage) :
    ∀ (mapOrder : List ℕ) (st : LoopState), mapOrder ≠ [] → mapOrder.Perm (st.job.pending m) →
      (st.job.pending m).Nodup → MapPhase g m st →
      ∃ st', eventProcessLoop g st (mapOrder.map fun q => ⟨m, q, .success⟩) = some st' ∧
        st'.job.pending g.finalStage = List.range (g.numPartitions g.finalStage) ∧
        st'.numFinished = 0 ∧ st'.finished = st.finished
  | [], _, hne, _, _, _ => absurd rfl hne
  | [q], st, _, hperm, _, hphase => by
      have hlast : st.job.pending m = [q] := List.perm_singleton.mp hperm.symm
      refine ⟨{ st with job := onEventSuccess g st.job m q }, ?_, ?_, hphase.numFinished_eq, rfl⟩
      · rw [List.map_singleton, eventProcessLoop, if_neg (by rw [hphase.numFinished_eq]; omega),
          processEvent_success_of_ne g st hm, Option.bind_some]
        rfl
      · show (onEventSuccess g st.job m q).pending g.finalStage = _
        rw [pending_onEventSuccess_last st.job hm hparents hphase.waiting_eq hphase.running hlast,
          hphase.pending_final, List.nil_append]
  | q :: q' :: rest, st, _, hperm, hnodup, hphase => by
      have hq : q ∈ st.job.pending m := hperm.subset (List.mem_cons_self ..)
      have hperm' : (q' :: rest).Perm ((st.job.pending m).erase q) :=
        (hperm.trans (List.perm_cons_erase hq)).cons_inv
      have hrest : (st.job.pending m).erase q ≠ [] := fun h => by simp [h] at hperm'
      -- the success of `q` only records its output: the map stage is still running
      have hjob := onEventSuccess_of_erase_ne_nil st.job hm hrest
      obtain ⟨st', hloop, hpend, hnum, hfin⟩ := eventProcessLoop_map_successes hm hparents hn
        (q' :: rest) { st with job := onEventSuccess g st.job m q } (List.cons_ne_nil _ _)
        (by simpa [hjob, addOutputLoc] using hperm')
        (by simpa [hjob, addOutputLoc] using hnodup.erase q)
        ⟨by simpa [hjob, addOutputLoc] using hphase.waiting_eq,
          by simpa [hjob, addOutputLoc] using hphase.running,
          by simpa [hjob, addOutputLoc, Function.update_of_ne hm.symm] using hphase.pending_final,
          hphase.numFinished_eq⟩
      refine ⟨st', ?_, hpend, hnum, hfin⟩
      rw [List.map_cons, eventProcessLoop, if_neg (by rw [hphase.numFinished_eq]; omega),
        processEvent_success_of_ne g st hm, Option.bind_some]
      exact hloop

variable (g)

/-- Where a job of one shuffle starts: `submit_stage` submits the map stage's tasks, one per
partition, and parks the final stage. -/
theorem loopStart_one_shuffle (hm : m ≠ g.finalStage) (hparents : g.parents g.finalStage = [m])
    (hmparents : g.parents m = []) (hmpos : 0 < g.numPartitions m) (fuel : ℕ) :
    MapPhase g m (loopStart g (fuel + 2)) ∧
      (loopStart g (fuel + 2)).job.pending m = List.range (g.numPartitions m) := by
  -- the map stage has no output yet, so it is missing
  have hmissing : missingParents g JobState.init g.finalStage = [m] := by
    simp [missingParents, hparents, isAvailable, hmparents, hm, JobState.init, hmpos.ne]
  have hmissing' : missingParents g JobState.init m = [] := by
    simp [missingParents, hmparents]
  have hsubmit : submitStage g (fuel + 1) m JobState.init =
      { submitMissingTasks g JobState.init m with
        running := (submitMissingTasks g JobState.init m).running.insert m } := by
    rw [submitStage, if_pos (by simp [JobState.init]), if_pos hmissing']
  simp only [loopStart, submitStage_final_init, hmissing, List.cons_ne_nil, if_false,
    List.foldl_cons, List.foldl_nil, hsubmit]
  refine ⟨⟨by simp [submitMissingTasks, JobState.init], by simp [submitMissingTasks, JobState.init],
    by simp [submitMissingTasks, JobState.init, Function.update_of_ne hm.symm], rfl⟩, ?_⟩
  simp [submitMissingTasks, JobState.init]

/-- **A job of one shuffle finishes.**  Let the final stage read one shuffle-map stage with at
least one partition and no parent of its own.  When the map tasks succeed, in any order, and
then the result tasks, in any order, the last map task's success submits the final stage and
the loop runs to its end: every output is counted and every result is set. -/
theorem results_of_one_shuffle (hm : m ≠ g.finalStage) (hparents : g.parents g.finalStage = [m])
    (hmparents : g.parents m = []) (hmpos : 0 < g.numPartitions m) (fuel : ℕ)
    {mapOrder order : List ℕ} (hmapOrder : mapOrder.Perm (List.range (g.numPartitions m)))
    (horder : order.Perm (List.range (g.numPartitions g.finalStage))) :
    ∃ st, eventProcessLoop g (loopStart g (fuel + 2))
        (mapOrder.map (fun q => ⟨m, q, .success⟩) ++
          order.map fun q => ⟨g.finalStage, q, .success⟩) = some st ∧
      st.numFinished = g.numPartitions g.finalStage ∧
      st.finished = List.replicate (g.numPartitions g.finalStage) true := by
  obtain ⟨hphase, hpending⟩ := loopStart_one_shuffle g hm hparents hmparents hmpos fuel
  have hne : mapOrder ≠ [] := fun h => by
    simp [h, List.nil_perm, List.range_eq_nil, hmpos.ne'] at hmapOrder
  rcases Nat.eq_zero_or_pos (g.numPartitions g.finalStage) with hn | hn
  · -- no output: the loop ends before any event
    refine ⟨loopStart g (fuel + 2), ?_, by rw [hphase.numFinished_eq, hn], by simp [loopStart, hn]⟩
    obtain ⟨q, qs, hq⟩ := List.exists_cons_of_ne_nil hne
    rw [hq, List.map_cons, List.cons_append, eventProcessLoop,
      if_pos (by rw [hphase.numFinished_eq, hn])]
  · -- the map phase submits the final stage; its tasks then finish the job
    obtain ⟨st₁, hloop₁, hpend₁, hnum₁, hfin₁⟩ := eventProcessLoop_map_successes hm hparents hn
      mapOrder (loopStart g (fuel + 2)) hne (hpending ▸ hmapOrder) (hpending ▸ List.nodup_range)
      hphase
    have hlen₁ : st₁.finished.length = g.numPartitions g.finalStage := by
      simp [hfin₁, loopStart]
    obtain ⟨st, hloop, hnum, -, hfin⟩ := eventProcessLoop_successes g order st₁
      (hpend₁ ▸ horder) (hpend₁ ▸ List.nodup_range) (by rw [hnum₁, horder.length_eq]; simp)
      (fun q hq => hlen₁ ▸ List.mem_range.mp (horder.subset hq))
    refine ⟨st, ?_, hnum, eq_replicate_true horder fun i => ?_⟩
    · rw [eventProcessLoop_append, hloop₁, Option.bind_some]
      exact hloop
    · rw [hfin i, hfin₁]
      rfl

/-- A job of two partitions on each side: stage `1` reads the shuffle of stage `0`. -/
def oneShuffle : StageGraph :=
  ⟨fun s => if s = 1 then [0] else [], fun _ => 2, 1, fun shuffleId => if shuffleId = 0 then some 0 else none⟩

/-- The map tasks of `oneShuffle` succeed last to first, then its result tasks. -/
theorem results_of_one_shuffle_two_partitions :
    ∃ st, eventProcessLoop oneShuffle (loopStart oneShuffle 2)
        ([1, 0].map (fun q => ⟨0, q, .success⟩) ++
          [0, 1].map fun q => ⟨oneShuffle.finalStage, q, .success⟩) = some st ∧
      st.numFinished = oneShuffle.numPartitions oneShuffle.finalStage ∧
      st.finished = List.replicate (oneShuffle.numPartitions oneShuffle.finalStage) true :=
  results_of_one_shuffle oneShuffle (by decide) rfl rfl (by decide) 0 (by decide) (by decide)

end OneShuffle

end Finishing

end Scheduler

end Flare
