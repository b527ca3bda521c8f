import QuickStructs.Lib.Progress
import QuickStructs.Proof.PoolBalance

/-!
# No step of a worker is wasted

Before the destructor begins a worker goes round its loop in seven steps: from the call of one
task to the call of the next. It never finds the queue empty, since it comes there with a permit,
and where there is no permit it blocks and takes no steps. So the number of tasks called follows
from the number of steps, up to where the workers stand in their rounds.
-/

namespace QuickStructs.ThreadPool

open Lib Tally Progress

variable {N : Nat} {p p' : Pool N} {i : Fin N} {a : Action N}

/-- How many steps ago a worker called a task, in its round. -/
def Worker.position : Worker → Nat
  | .running _ => 0
  | .testStop => 1
  | .testStopping => 2
  | .acquire => 3
  | .checkStop | .checkEmpty => 4
  | .pop => 5
  | .call _ => 6
  | .exited => 0

theorem position_le (w : Worker) : w.position ≤ 6 := by
  cases w <;> simp [Worker.position]

/-- The steps of the rounds that led to the calls, and of the rounds that are under way. -/
def Pool.work (p : Pool N) : Nat := 7 * p.invoked.length + total Worker.position p.workers

/-- The steps of the workers. -/
def Action.ofWorker : Action N → Bool
  | .worker _ => true
  | _ => false

/-- A reachable pool whose destructor has not begun. -/
def Serving (p : Pool N) : Prop := Reachable p ∧ p.destructor = .idle

theorem Serving.not_asked (h : Serving p) (i : Fin N) : p.stopRequested i = false := by
  have hasked := (flags_reachable h.1).asked i
  rw [h.2] at hasked
  exact Bool.eq_false_iff.mpr fun hi => absurd (hasked.mp hi) (Nat.not_lt_zero _)

theorem Serving.not_stopping (h : Serving p) : p.stopping = false :=
  Bool.eq_false_iff.mpr fun hs => (flags_reachable h.1).stopping.mp hs h.2

/-- A turn is one step further in the round. -/
theorem turn_position (h : Serving p) {w : Worker} (ht : Turn p i (p.workers i) w) :
    w.position = (p.workers i).position + 1 := by
  have hstop := h.not_asked i
  have hleft : p.tasks = [] → (p.workers i).holdsPermit = false := fun htasks =>
    Bool.eq_false_iff.mpr fun hi => (balanced_reachable h.1 h.2).task_left hi htasks
  generalize hw : p.workers i = w₀ at ht hleft ⊢
  cases ht with
  | stop hs => exact absurd (hs.symm.trans hstop) (by decide)
  | go _ => rfl
  | stopping hs => exact absurd (hs.symm.trans h.not_stopping) (by decide)
  | enter _ => rfl
  | check hs => exact absurd (hs.symm.trans hstop) (by decide)
  | skip _ => rfl
  | leave htasks => exact absurd (hleft htasks) (by decide)
  | stay _ => rfl
  | none_left htasks => exact absurd (hleft htasks) (by decide)
  | done _ => rfl

theorem work_worker (h : Serving p) (hs : WorkerStep p i p') : p'.work = p.work + 1 := by
  unfold Pool.work
  cases hs with
  | turn w ht =>
      have hmove := total_update Worker.position p.workers i w
      rw [turn_position h ht] at hmove
      show 7 * p.invoked.length + total _ (Function.update p.workers i w) = _
      omega
  | acquire hw hp =>
      have hmove := total_update Worker.position p.workers i .checkStop
      rw [hw] at hmove
      simp only [Worker.position] at hmove
      show 7 * p.invoked.length + total _ (Function.update p.workers i .checkStop) = _
      omega
  | pop t rest hw ht =>
      have hmove := total_update Worker.position p.workers i (.call t)
      rw [hw] at hmove
      simp only [Worker.position] at hmove
      show 7 * p.invoked.length + total _ (Function.update p.workers i (.call t)) = _
      omega
  | call t hw =>
      have hmove := total_update Worker.position p.workers i (.running t)
      rw [hw] at hmove
      simp only [Worker.position] at hmove
      show 7 * (p.invoked ++ [t]).length + total _ (Function.update p.workers i (.running t)) = _
      rw [List.length_append, List.length_singleton]
      omega

theorem work_step (h : Serving p) (ha : a ≠ .destructor) (hs : step p a = some p') :
    Serving p' ∧ p'.work = p.work + credit Action.ofWorker a := by
  have hreach : Reachable p' := h.1.tail hs
  cases step_cases hs with
  | push => exact ⟨⟨hreach, h.2⟩, rfl⟩
  | release t _ => exact ⟨⟨hreach, h.2⟩, rfl⟩
  | worker i _ hw =>
      refine ⟨⟨hreach, ?_⟩, work_worker h hw⟩
      cases hw <;> exact h.2
  | destructor _ _ => exact absurd rfl ha

/-- The destructor has not begun if it has not begun a step later. -/
theorem idle_before (hs : step p a = some p') (h : p'.destructor = .idle) :
    p.destructor = .idle ∧ a ≠ .destructor := by
  cases step_cases hs with
  | push => exact ⟨h, by simp⟩
  | release t _ => exact ⟨h, by simp⟩
  | worker i _ hw =>
      refine ⟨?_, by simp⟩
      cases hw <;> exact h
  | destructor _ hd =>
      cases hd with
      | begin _ => exact absurd h (bodyAt_ne_idle N 0)
      | release k _ => exact absurd h (by simp)
      | requestStop k _ => exact absurd h (bodyAt_ne_idle N (k + 1))
      | destroy m left _ _ => exact absurd h (by simp)

/-- A step takes no worker out of its loop: it would be one step further. -/
theorem step_not_exited (h : Serving p) (hs : step p a = some p') (hd : p'.destructor = .idle)
    (hin : p.workers i ≠ .exited) : p'.workers i ≠ .exited := by
  have hother : ∀ {j : Fin N} {w : Worker}, w ≠ .exited →
      Function.update p.workers j w i ≠ .exited := by
    intro j w hw
    by_cases hij : i = j
    · rw [hij, Function.update_self]
      exact hw
    · rw [Function.update_of_ne hij]
      exact hin
  cases step_cases hs with
  | push => exact hin
  | release t _ => exact hin
  | worker j _ hw =>
      cases hw with
      | turn w ht =>
          refine hother ?_
          rintro rfl
          exact absurd (turn_position h ht) (Nat.ne_of_lt (Nat.succ_pos _))
      | acquire _ _ => exact hother (w := .checkStop) (by simp)
      | pop t rest _ _ => exact hother (w := .call t) (by simp)
      | call t _ => exact hother (w := .running t) (by simp)
  | destructor _ _ => exact absurd rfl (idle_before hs hd).2

theorem Serving.not_exited (h : Serving p) (i : Fin N) : p.workers i ≠ .exited := by
  refine h.1.invariant (I := fun p => p.destructor = .idle → ∀ i, p.workers i ≠ .exited)
    (fun _ i => by simp) (fun p a p' hr hi hs hd i => ?_) h.2 i
  have hidle := (idle_before hs hd).1
  exact step_not_exited ⟨hr, hidle⟩ hs hd (hi hidle i)

/-- Before the destructor begins a worker that cannot take a step waits for a permit. -/
theorem waits_of_blocked (h : Serving p) (hnone : step p (.worker i) = none) :
    p.workers i = .acquire ∧ p.permits = 0 := by
  have hin := h.not_exited i
  rw [step, Pool.workerStep] at hnone
  cases hw : p.workers i with
  | acquire =>
      rw [hw] at hnone
      refine ⟨rfl, Nat.eq_zero_of_not_pos fun hpos => ?_⟩
      simp [hpos] at hnone
  | pop =>
      rw [hw] at hnone
      cases ht : p.tasks with
      | nil => simp [ht] at hnone
      | cons t rest => simp [ht] at hnone
  | exited => exact absurd hw hin
  | _ =>
      rw [hw] at hnone
      exact absurd hnone (by simp)

end QuickStructs.ThreadPool
