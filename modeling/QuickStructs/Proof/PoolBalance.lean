import QuickStructs.Proof.PoolInv

/-!
# No lost wake-up before shutdown

Until the destructor begins, every queued task has exactly one of three things that
will bring a worker to it: a permit, a worker that has taken one and not yet popped,
or an enqueue call that has pushed and not yet released. A worker may pop a task whose
own permit is still to come, and leave a task behind whose permit it took; the balance
is what is kept, not the pairing.
-/

namespace QuickStructs.ThreadPool

open Lib Tally

variable {N : Nat} {p p' : Pool N} {i : Fin N}

/-- Has the worker acquired a permit and not yet popped? -/
def Worker.holdsPermit : Worker → Bool
  | .checkStop | .checkEmpty | .pop => true
  | _ => false

def Balanced (p : Pool N) : Prop :=
  p.tasks.length = p.permits + tally Worker.holdsPermit p.workers + p.pending.length

theorem Balanced.task_left (h : Balanced p) (hi : (p.workers i).holdsPermit = true) :
    p.tasks ≠ [] := by
  have hpos := tally_pos hi
  unfold Balanced at h
  intro ht
  rw [ht, List.length_nil] at h
  omega

/-- A turn before shutdown neither takes nor uses up a permit. -/
theorem turn_holdsPermit {w : Worker} (hstop : p.stopRequested i = false) (h : Balanced p)
    (ht : Turn p i (p.workers i) w) : w.holdsPermit = (p.workers i).holdsPermit := by
  -- a worker that holds a permit does not find the queue empty
  have hleft : p.tasks = [] → (p.workers i).holdsPermit = false := fun htasks =>
    Bool.eq_false_iff.mpr fun hi => h.task_left hi htasks
  generalize hw : p.workers i = w₀ at ht hleft
  cases ht with
  | stop _ => rfl
  | go _ => rfl
  | stopping _ => rfl
  | enter _ => rfl
  | check hs => rw [hstop] at hs; exact absurd hs (by decide)
  | skip _ => rfl
  | leave htasks => exact absurd (hleft htasks) (by decide)
  | stay _ => rfl
  | none_left htasks => exact absurd (hleft htasks) (by decide)
  | done _ => rfl

theorem balanced_worker (hstop : p.stopRequested i = false) (h : Balanced p)
    (hs : WorkerStep p i p') : Balanced p' := by
  have hbal := h
  unfold Balanced at hbal ⊢
  cases hs with
  | turn w ht =>
      show p.tasks.length = p.permits + tally _ (Function.update p.workers i w) + p.pending.length
      rw [tally_same (turn_holdsPermit hstop h ht)]
      exact hbal
  | acquire hw hp =>
      have hmove := tally_enter (p := Worker.holdsPermit) (f := p.workers) (i := i)
        (x := .checkStop) rfl (by rw [hw]; rfl)
      show p.tasks.length = p.permits - 1 + tally _ (Function.update p.workers i .checkStop)
        + p.pending.length
      omega
  | pop t rest hw ht =>
      have hmove := tally_leave (p := Worker.holdsPermit) (f := p.workers) (i := i)
        (x := .call t) rfl (by rw [hw]; rfl)
      show rest.length = p.permits + tally _ (Function.update p.workers i (.call t))
        + p.pending.length
      rw [ht, List.length_cons] at hbal
      omega
  | call t hw =>
      have hmove := tally_same (p := Worker.holdsPermit) (f := p.workers) (i := i)
        (x := .running t) (by rw [hw]; rfl)
      show p.tasks.length = p.permits + tally _ (Function.update p.workers i (.running t))
        + p.pending.length
      omega

/-- **Every step before the stop store keeps the balance.** -/
theorem balanced_step {a : Action N} (hflags : Flags p)
    (h : p.destructor = .idle → Balanced p) (hs : step p a = some p') :
    p'.destructor = .idle → Balanced p' := by
  cases step_cases hs with
  | push =>
      intro hd
      have hbal := h hd
      unfold Balanced at hbal ⊢
      show (p.tasks ++ [p.next]).length = p.permits + _ + (p.pending ++ [p.next]).length
      rw [List.length_append, List.length_append, hbal]
      exact Nat.add_assoc ..
  | release t ht =>
      intro hd
      have hbal := h hd
      have hpos : 0 < p.pending.length := List.length_pos_of_mem ht
      unfold Balanced at hbal ⊢
      show p.tasks.length = p.permits + 1 + tally Worker.holdsPermit p.workers
        + (p.pending.erase t).length
      rw [List.length_erase_of_mem ht]
      omega
  | worker i _ hw =>
      have hsame : p'.destructor = p.destructor := by cases hw <;> rfl
      intro hd
      rw [hsame] at hd
      refine balanced_worker ?_ (h hd) hw
      have hasked := hflags.asked i
      rw [hd] at hasked
      exact Bool.eq_false_iff.mpr fun hi => absurd (hasked.mp hi) (Nat.not_lt_zero _)
  | destructor _ hd =>
      intro hidle
      cases hd with
      | begin _ => exact absurd hidle (bodyAt_ne_idle N 0)
      | release k _ => exact absurd hidle (by simp)
      | requestStop k _ => exact absurd hidle (bodyAt_ne_idle N (k + 1))
      | destroy m left _ _ => exact absurd hidle (by simp)

theorem balanced_reachable (h : Reachable p) (hbefore : p.destructor = .idle) : Balanced p := by
  have hinit : Balanced ({} : Pool N) := by
    unfold Balanced
    rw [tally_none fun _ => rfl]
    rfl
  exact h.invariant (I := fun p => p.destructor = .idle → Balanced p) (fun _ => hinit)
    (fun _ _ _ hr hi hs => balanced_step (flags_reachable hr) hi hs) hbefore

/--
**No lost wake-up and no double execution**, in every state before destruction starts.

The queue, the permits, the workers on their way to the queue and the enqueue calls
not yet released balance. So a worker with a permit always finds a task; when all
workers are blocked in `acquire` and there is no permit, every queued task is matched
by an enqueue call that has pushed and not yet released; and tasks are popped once
each, in the order they were pushed.
-/
theorem pool_balance (p : Pool N) (h : Reachable p) (hbefore : p.destructor = .idle) :
    p.tasks.length = p.permits + tally Worker.holdsPermit p.workers + p.pending.length
      ∧ (∀ i, (p.workers i).holdsPermit = true → p.tasks ≠ [])
      ∧ ((∀ i, p.workers i = .acquire) → p.permits = 0 → p.tasks.length = p.pending.length)
      ∧ p.popped.Nodup
      ∧ p.popped ++ p.tasks = List.range p.next := by
  have hbal := balanced_reachable h hbefore
  have hq := queued_reachable h
  refine ⟨hbal, fun i hi => hbal.task_left hi, fun hall hnone => ?_, ?_, ?_⟩
  · have hzero : tally Worker.holdsPermit p.workers = 0 :=
      tally_none fun i => by rw [hall i]; rfl
    unfold Balanced at hbal
    omega
  · rw [hq.popped]
    exact List.nodup_range
  · rw [hq.tasks, hq.next]
    nth_rewrite 1 [hq.popped]
    rw [List.range_eq_range', List.range_eq_range', ← List.range'_append_1, Nat.zero_add]

/-- One worker and one task: pushed, released, and popped. -/
theorem pool_balance_one_task :
    let run : List (Action 1) :=
      [.push, .worker 0, .release 0, .worker 0, .worker 0, .worker 0, .worker 0]
    let p := (Transition.exec step {} run).get (by decide)
    p.popped = [0] ∧ p.popped ++ p.tasks = List.range p.next :=
  ⟨by decide, (pool_balance _ (Transition.exec_reach _ (Option.some_get _).symm)
    (by decide)).2.2.2.2⟩

/-- **A returned task can be queued with all workers blocked and no permit**: the worker
took the permit of task 1 to pop task 0, whose own permit is still to come. -/
theorem returned_task_waits :
    ∃ p : Pool 1, Reachable p ∧ p.destructor = .idle ∧ (1 ∈ p.returned ∧ 1 ∈ p.tasks)
      ∧ (∀ i, p.workers i = .acquire) ∧ p.permits = 0 :=
  Transition.exists_reach_of_exec
    [.worker 0, .worker 0, .push, .push, .release 1, .worker 0, .worker 0, .worker 0,
      .worker 0, .worker 0, .worker 0, .worker 0]
    (by decide)

end QuickStructs.ThreadPool
