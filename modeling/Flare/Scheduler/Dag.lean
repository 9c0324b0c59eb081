import Mathlib

/-!
# Stage readiness in the DAG scheduler

The scheduler (`scheduler/base_scheduler.rs`, `local_scheduler.rs`) runs a job
as a DAG of stages.  `submit_stage` submits a stage's tasks when
`get_missing_parent_stages` finds no parent missing, and otherwise submits the
missing parents and parks the stage in `waiting`.  When the last pending task of
a running shuffle-map stage completes, `on_event_success` registers its map
outputs and submits every waiting stage none of whose parents is itself waiting
(`newly_runnable`).

## Main definitions

* `StageGraph`, `JobState` — the stages' parents, and the job tracker's sets.
* `submitStage`, `onEventSuccess`, `runJob` — the scheduler's transitions.
* `JobState.submitted` — the calls of `submit_missing_tasks` so far, each with
  whether every parent of the stage was finished at that point.

## Main results

* `onEventSuccess_submits_beside_running_parent` — a stage waiting on two
  running parents is submitted as soon as the first of them finishes.
* `runJob_submits_before_parent` — the two-parent job on which this happens.

## Design notes

Stages are named by their ids, which is how the source's `BTreeSet<Stage>`s
compare them.  The stage table is one map: `add_output_loc_to_stage` and
`fetch_from_stage_cache` read and write the same `Stage`.
-/

namespace Flare

namespace Scheduler

/-- The stages of a job: each stage's parent shuffle-map stages
(`get_parent_stages`), its number of partitions, the final (result) stage, and the map stage
of each shuffle (`shuffle_to_map_stage`; `none` where its lookup's `unwrap` panics). -/
structure StageGraph where
  parents : ℕ → List ℕ
  numPartitions : ℕ → ℕ
  finalStage : ℕ
  shuffleToMapStage : ℕ → Option ℕ

/-- The job tracker's `waiting` and `running` sets and `pending_tasks`, the
stages' output locations (`output_locs`, `num_available_outputs`), the shuffles
whose map outputs were registered, and the history of `submit_missing_tasks`. -/
structure JobState where
  waiting : List ℕ
  running : List ℕ
  pending : ℕ → List ℕ
  locCount : ℕ → ℕ → ℕ
  numAvailable : ℕ → ℕ
  registered : List ℕ
  submitted : List (ℕ × Bool)

/-- A new job: nothing submitted, no output anywhere. -/
def JobState.init : JobState := ⟨[], [], fun _ => [], fun _ _ => 0, fun _ => 0, [], []⟩

section Transitions

variable (g : StageGraph)

/-- `Stage::is_available`: a result stage without parents, or a shuffle-map
stage whose count of available outputs reached its number of partitions. -/
def isAvailable (st : JobState) (s : ℕ) : Bool :=
  if g.parents s = [] ∧ s = g.finalStage then true else st.numAvailable s == g.numPartitions s

/-- `Stage::add_output_loc`: one more location for the partition; the count of
available outputs grows when the partition already had a location. -/
def addOutputLoc (st : JobState) (s p : ℕ) : JobState :=
  { st with
    numAvailable :=
      if st.locCount s p ≠ 0 then Function.update st.numAvailable s (st.numAvailable s + 1)
      else st.numAvailable
    locCount := Function.update st.locCount s (Function.update (st.locCount s) p (st.locCount s p + 1)) }

/-- A parent that has finished: its map outputs are registered and it is neither
running nor waiting. -/
def parentFinished (st : JobState) (p : ℕ) : Bool :=
  p ∈ st.registered && p ∉ st.running && p ∉ st.waiting

/-- `submit_missing_tasks`: a task for every output partition of the final
stage, and for every partition without a location of a shuffle-map stage; the
call is recorded with whether the stage's parents were finished. -/
def submitMissingTasks (st : JobState) (s : ℕ) : JobState :=
  let tasks := (List.range (g.numPartitions s)).filter fun p => s = g.finalStage || st.locCount s p = 0
  { st with
    pending := Function.update st.pending s (st.pending s ++ tasks)
    submitted := st.submitted ++ [(s, (g.parents s).all (parentFinished st))] }

/-- `get_missing_parent_stages`: the parents that are not available. -/
def missingParents (st : JobState) (s : ℕ) : List ℕ :=
  (g.parents s).filter fun p => !isAvailable g st p

/-- `submit_stage`, its recursion over missing parents bounded by `fuel`. -/
def submitStage : ℕ → ℕ → JobState → JobState
  | 0, _, st => st
  | fuel + 1, s, st =>
      if s ∉ st.waiting ∧ s ∉ st.running then
        let missing := missingParents g st s
        if missing = [] then
          let st := submitMissingTasks g st s
          { st with running := st.running.insert s }
        else
          let st := missing.foldl (fun st p => submitStage fuel p st) st
          { st with waiting := st.waiting.insert s }
      else st

/-- `newly_runnable`: the waiting stages none of whose parents is waiting. -/
def newlyRunnable (st : JobState) : List ℕ :=
  st.waiting.filter fun w => (g.parents w).all (· ∉ st.waiting)

/-- A successful task `(s, p)` (`event_process_loop`, `on_event_success`): the
task leaves `pending_tasks`; a shuffle-map task records its output location, and
when it was the stage's last pending task of a running stage, the stage leaves
`running`, its map outputs are registered, and the newly runnable stages move
from `waiting` to `running` and are submitted. -/
def onEventSuccess (st : JobState) (s p : ℕ) : JobState :=
  let st := { st with pending := Function.update st.pending s ((st.pending s).erase p) }
  if s = g.finalStage then st
  else
    let st := addOutputLoc st s p
    if s ∈ st.running ∧ st.pending s = [] then
      let st := { st with running := st.running.erase s, registered := st.registered.insert s }
      let runnable := newlyRunnable g st
      let st := { st with
        waiting := st.waiting.filter (· ∉ runnable)
        running := runnable.foldl (fun running w => running.insert w) st.running }
      runnable.foldl (submitMissingTasks g) st
    else st

/-- A job: `submit_stage` of the final stage, then the completions in the order
they arrive. -/
def runJob (fuel : ℕ) (events : List (ℕ × ℕ)) : JobState :=
  events.foldl (fun st e => onEventSuccess g st e.1 e.2) (submitStage g fuel g.finalStage JobState.init)

end Transitions

/-! ### A stage submitted beside a running parent -/

section Readiness

variable (g : StageGraph)

@[simp] theorem submitMissingTasks_submitted (st : JobState) (s : ℕ) :
    (submitMissingTasks g st s).submitted = st.submitted ++ [(s, (g.parents s).all (parentFinished st))] :=
  rfl

@[simp] theorem submitMissingTasks_running (st : JobState) (s : ℕ) :
    (submitMissingTasks g st s).running = st.running := rfl

@[simp] theorem submitMissingTasks_waiting (st : JobState) (s : ℕ) :
    (submitMissingTasks g st s).waiting = st.waiting := rfl

/-- **`newly_runnable` does not look at `running`.**  A stage `w` waiting on two
parents `a` and `b`, both running, is submitted when the last task of `a`
completes, and is recorded as submitted before its parent `b` finished. -/
theorem onEventSuccess_submits_beside_running_parent (st : JobState) {a b w p : ℕ}
    (ha : a ∈ st.running) (hb : b ∈ st.running) (hab : a ≠ b) (haw : a ≠ w) (hbw : b ≠ w)
    (hwaiting : st.waiting = [w]) (hparents : g.parents w = [a, b]) (hpending : st.pending a = [p])
    (hfinal : a ≠ g.finalStage) :
    (w, false) ∈ (onEventSuccess g st a p).submitted := by
  -- `b` is still running when `w`, the one runnable stage, is submitted
  have hb' : b ∈ (st.running.erase a).insert w := by
    simp [List.mem_insert_iff, List.mem_erase_of_ne (Ne.symm hab), hb]
  simp [onEventSuccess, addOutputLoc, newlyRunnable, hpending, hfinal, ha, hwaiting, hparents,
    haw, hbw, parentFinished, hb']

end Readiness

/-- The job of a final stage `2` with two parent shuffle-map stages `0` and `1`,
one partition each, the map stages of shuffles `0` and `1`. -/
def twoParents : StageGraph :=
  ⟨fun s => if s = 2 then [0, 1] else [], fun _ => 1, 2, fun shuffleId =>
    if shuffleId < 2 then some shuffleId else none⟩

/-- **The final stage runs before its second parent finished.**  `submit_stage`
submits the parents `0` and `1` and parks the final stage `2`; when stage `0`'s
task completes, stage `2` is submitted although stage `1` is still running. -/
theorem runJob_submits_before_parent :
    (runJob twoParents 3 [(0, 0)]).submitted = [(0, true), (1, true), (2, false)] ∧
      1 ∈ (runJob twoParents 3 [(0, 0)]).running := by
  decide

end Scheduler

end Flare
