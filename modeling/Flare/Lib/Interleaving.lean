import Mathlib

/-!
# Interleavings of threads with deterministic atomic steps

A system of threads that share one state, in which each thread's next atomic step is a
function of the state: a run is any schedule, a list of the threads in the order in which
they take their steps.  A property of every state that some schedule reaches is proved as an
inductive invariant (`Reach.invariant`), and refuted by one schedule (`reach_run`).

## Main definitions

* `Interleaving` — the atomic step of each thread.
* `Interleaving.run` — the state after a schedule.
* `Interleaving.Reach` — the states some schedule reaches.

## Main results

* `Interleaving.reach_run` — the state after a schedule is reachable.
* `Interleaving.Reach.invariant` — the invariant rule.
* `reflTransGen_invariant` — the invariant rule for a step relation labelled by events.
-/

namespace Flare

universe u v

/-- Threads `τ` over a shared state `σ`: `step t s` is the state after thread `t` takes its
next atomic step in `s`.  A thread with nothing left to do steps to `s`. -/
structure Interleaving (σ : Type u) (τ : Type v) where
  step : τ → σ → σ

namespace Interleaving

variable {σ : Type u} {τ : Type v} (S : Interleaving σ τ)

/-- The state after the threads of `sched` take their steps, in order. -/
def run (s₀ : σ) (sched : List τ) : σ :=
  sched.foldl (fun s t => S.step t s) s₀

@[simp] theorem run_nil (s₀ : σ) : S.run s₀ [] = s₀ := rfl

theorem run_append (s₀ : σ) (sched sched' : List τ) :
    S.run s₀ (sched ++ sched') = S.run (S.run s₀ sched) sched' := by
  simp [run, List.foldl_append]

theorem run_concat (s₀ : σ) (sched : List τ) (t : τ) :
    S.run s₀ (sched ++ [t]) = S.step t (S.run s₀ sched) := by
  rw [run_append]
  rfl

/-- The states that the threads reach from `s₀` under some interleaving. -/
inductive Reach (s₀ : σ) : σ → Prop
  | refl : Reach s₀ s₀
  | step {s : σ} (t : τ) : Reach s₀ s → Reach s₀ (S.step t s)

variable {S}

theorem reach_run (s₀ : σ) (sched : List τ) : S.Reach s₀ (S.run s₀ sched) := by
  induction sched using List.reverseRecOn with
  | nil => exact .refl
  | append_singleton sched t ih =>
      rw [run_concat]
      exact .step t ih

/-- **The invariant rule.**  A property of `s₀` that every atomic step of every thread keeps
holds in every reachable state. -/
theorem Reach.invariant {I : σ → Prop} {s₀ s : σ} (h₀ : I s₀)
    (hstep : ∀ t s, I s → I (S.step t s)) (h : S.Reach s₀ s) : I s := by
  induction h with
  | refl => exact h₀
  | step t _ ih => exact hstep t _ ih

end Interleaving

/-! ### Labelled step relations

A system whose environment chooses the next event among those it allows: the step is a
relation labelled by the event, and a state is reached along Mathlib's
`Relation.ReflTransGen` of "some event steps". -/

section Relations

variable {σ : Type u} {ε : Type v}

/-- Some event takes `s` to `s'`. -/
def StepAny (step : ε → σ → σ → Prop) (s s' : σ) : Prop := ∃ e, step e s s'

/-- **The invariant rule for a labelled step relation.**  A property of `s₀` that every step
keeps holds in every state reached from `s₀`. -/
theorem reflTransGen_invariant {step : ε → σ → σ → Prop} {I : σ → Prop} {s₀ s : σ} (h₀ : I s₀)
    (hstep : ∀ e s s', I s → step e s s' → I s')
    (h : Relation.ReflTransGen (StepAny step) s₀ s) : I s := by
  induction h with
  | refl => exact h₀
  | tail _ hs ih =>
      obtain ⟨e, he⟩ := hs
      exact hstep e _ _ ih he

end Relations

/-! ### Threads kept in a list

A step of thread `i` rewrites entry `i` of the list of the threads' local states; what a
`filterMap` reads off the list changes by that entry's contribution only. -/

section ThreadList

variable {α : Type u} {β : Type v} {f : α → Option β}

theorem filterMap_set_of_eq {l : List α} {i : ℕ} {a b : α} (hi : l[i]? = some a)
    (hab : f b = f a) : (l.set i b).filterMap f = l.filterMap f := by
  induction l generalizing i with
  | nil => simp at hi
  | cons c l ih =>
      cases i with
      | zero =>
          obtain rfl : c = a := by simpa using hi
          rw [List.set_cons_zero, List.filterMap_cons, List.filterMap_cons, hab]
      | succ i =>
          rw [List.set_cons_succ, List.filterMap_cons, List.filterMap_cons, ih (by simpa using hi)]

/-- A thread whose entry starts to contribute adds its contribution, up to order. -/
theorem filterMap_set_perm {l : List α} {i : ℕ} {a b : α} {x : β} (hi : l[i]? = some a)
    (ha : f a = none) (hb : f b = some x) : ((l.set i b).filterMap f).Perm (x :: l.filterMap f) := by
  induction l generalizing i with
  | nil => simp at hi
  | cons c l ih =>
      cases i with
      | zero =>
          obtain rfl : c = a := by simpa using hi
          simp [ha, hb]
      | succ i =>
          rw [List.set_cons_succ, List.filterMap_cons, List.filterMap_cons]
          cases hc : f c with
          | none => exact ih (by simpa using hi)
          | some y => exact ((ih (by simpa using hi)).cons y).trans (List.Perm.swap x y _)

end ThreadList

end Flare
