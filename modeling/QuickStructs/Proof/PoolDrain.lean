import QuickStructs.Proof.PoolInv

/-!
# What shutdown does with the backlog

After the stop store no worker passes its loop condition again, so the workers that
have passed it and not yet popped are all the pops that are left: one each, and fewer
only if the queue runs empty. The `break` that waits for an empty queue is reached by
these workers alone. So an accepted task is invoked exactly when it stands in the queue
behind fewer tasks than there are such workers.
-/

namespace QuickStructs.ThreadPool

open Lib Tally

variable {N : Nat} {p p' p₀ p₁ : Pool N} {i : Fin N}

/-- Has the worker passed the loop condition and not yet popped? -/
def Worker.ready : Worker → Bool
  | .acquire | .checkStop | .checkEmpty | .pop => true
  | _ => false

/-- How many workers have one more pop before them. -/
def Pool.ready (p : Pool N) : Nat := tally Worker.ready p.workers

/-- What holds from the stop store on, compared with the state `p₀` before it. -/
structure Draining (p₀ p : Pool N) : Prop where
  stopping : p.stopping = true
  /-- A ready worker pops at most once. -/
  most : p.ready + p.popped.length ≤ p₀.ready + p₀.popped.length
  /-- It pops, or all that was queued before shutdown is popped already. -/
  least : p.ready + p.popped.length = p₀.ready + p₀.popped.length ∨ p₀.next ≤ p.popped.length
  next : p₀.next ≤ p.next

theorem draining_begin (h : p.destructor = .idle) (hs : step p .destructor = some p') :
    Draining p p' := by
  cases step_cases hs with
  | destructor _ hd =>
      cases hd with
      | begin _ => exact ⟨rfl, Nat.le_refl _, Or.inl rfl, Nat.le_refl _⟩
      | release k hd => rw [h] at hd; exact absurd hd (by simp)
      | requestStop k hd => rw [h] at hd; exact absurd hd (by simp)
      | destroy m left hd _ => rw [h] at hd; exact absurd hd (by simp)

/-- A worker leaves the ready ones without a pop only when the queue is empty. -/
theorem turn_ready {w : Worker} (hstop : p.stopping = true) (ht : Turn p i (p.workers i) w) :
    w.ready = (p.workers i).ready
      ∨ p.tasks = [] ∧ (p.workers i).ready = true ∧ w.ready = false := by
  generalize p.workers i = w₀ at ht
  cases ht with
  | stop _ => exact Or.inl rfl
  | go _ => exact Or.inl rfl
  | stopping _ => exact Or.inl rfl
  | enter hs => rw [hstop] at hs; exact absurd hs (by decide)
  | check _ => exact Or.inl rfl
  | skip _ => exact Or.inl rfl
  | leave htasks => exact Or.inr ⟨htasks, rfl, rfl⟩
  | stay _ => exact Or.inl rfl
  | none_left htasks => exact Or.inr ⟨htasks, rfl, rfl⟩
  | done _ => exact Or.inl rfl

theorem draining_worker (hq : Queued p) (h : Draining p₀ p) (hs : WorkerStep p i p') :
    Draining p₀ p' := by
  have hmost := h.most
  have hleast := h.least
  unfold Pool.ready at hmost hleast
  cases hs with
  | turn w ht =>
      refine ⟨h.stopping, ?_, ?_, h.next⟩
      · show tally _ (Function.update p.workers i w) + p.popped.length ≤ _
        rcases turn_ready h.stopping ht with hsame | ⟨_, hold, hnew⟩
        · rw [tally_same hsame]
          exact hmost
        · have hmove := tally_leave hnew hold
          unfold Pool.ready
          omega
      · show tally _ (Function.update p.workers i w) + p.popped.length = _ ∨ _
        rcases turn_ready h.stopping ht with hsame | ⟨htasks, _, _⟩
        · rw [tally_same hsame]
          exact hleast
        · -- the queue is empty, so all that was ever pushed is popped
          have hnext := hq.next
          rw [htasks, List.length_nil] at hnext
          have hle := h.next
          refine Or.inr ?_
          show p₀.next ≤ p.popped.length
          omega
  | acquire hw hp =>
      have hsame := tally_same (p := Worker.ready) (f := p.workers) (i := i)
        (x := .checkStop) (by rw [hw]; rfl)
      refine ⟨h.stopping, ?_, ?_, h.next⟩
      · show tally _ (Function.update p.workers i .checkStop) + p.popped.length ≤ _
        rw [hsame]
        exact hmost
      · show tally _ (Function.update p.workers i .checkStop) + p.popped.length = _ ∨ _
        rw [hsame]
        exact hleast
  | pop t rest hw ht =>
      have hmove := tally_leave (p := Worker.ready) (f := p.workers) (i := i)
        (x := .call t) rfl (by rw [hw]; rfl)
      have hlen : (p.popped ++ [t]).length = p.popped.length + 1 := List.length_append
      refine ⟨h.stopping, ?_, ?_, h.next⟩
      · show tally _ (Function.update p.workers i (.call t)) + (p.popped ++ [t]).length ≤ _
        unfold Pool.ready
        omega
      · show tally _ (Function.update p.workers i (.call t)) + (p.popped ++ [t]).length = _
          ∨ p₀.next ≤ (p.popped ++ [t]).length
        unfold Pool.ready
        omega
  | call t hw =>
      have hsame := tally_same (p := Worker.ready) (f := p.workers) (i := i)
        (x := .running t) (by rw [hw]; rfl)
      refine ⟨h.stopping, ?_, ?_, h.next⟩
      · show tally _ (Function.update p.workers i (.running t)) + p.popped.length ≤ _
        rw [hsame]
        exact hmost
      · show tally _ (Function.update p.workers i (.running t)) + p.popped.length = _ ∨ _
        rw [hsame]
        exact hleast

/-- **Every step after the stop store keeps the account of the pops that are left.** -/
theorem draining_step {a : Action N} (hq : Queued p) (h : Draining p₀ p)
    (hs : step p a = some p') : Draining p₀ p' := by
  cases step_cases hs with
  | push => exact ⟨h.stopping, h.most, h.least, Nat.le_succ_of_le h.next⟩
  | release t ht => exact ⟨h.stopping, h.most, h.least, h.next⟩
  | worker i _ hw => exact draining_worker hq h hw
  | destructor _ hd =>
      cases hd with
      | begin _ => exact ⟨rfl, h.most, h.least, h.next⟩
      | release k _ => exact ⟨h.stopping, h.most, h.least, h.next⟩
      | requestStop k _ => exact ⟨h.stopping, h.most, h.least, h.next⟩
      | destroy m left _ _ => exact ⟨h.stopping, h.most, h.least, h.next⟩

theorem draining_run (h₁ : Reachable p₁) (hbegin : Draining p₀ p₁)
    (hrun : Transition.Reach (Transition.Of step) p₁ p) : Draining p₀ p :=
  hrun.invariant hbegin fun _ _ _ hr hi hs => draining_step (queued_reachable (h₁.trans hr)) hi hs

/-- With all workers out of their loops, the tasks invoked are the tasks popped. -/
theorem Queued.invoked_count (h : Queued p) (hexit : ∀ i, p.workers i = .exited) (t : Nat) :
    p.invoked.count t = if t < p.popped.length then 1 else 0 := by
  have hcalled := h.called t
  rw [tally_none fun i => by rw [hexit i]; rfl, h.popped] at hcalled
  rw [← Nat.add_zero (p.invoked.count t), ← hcalled]
  split
  · rename_i ht
    exact List.count_eq_one_of_mem List.nodup_range (List.mem_range.mpr ht)
  · rename_i ht
    exact List.count_eq_zero_of_not_mem fun hmem => ht (List.mem_range.mp hmem)

/--
**Which accepted tasks survive shutdown.**

Let the stop store be made in a reachable state `p₀`, and let the workers run until
all have left their loops. Then every task whose enqueue call had returned is invoked
exactly once if and only if none of them stood in the queue behind as many tasks as
there were workers past their loop condition and before their pop.
-/
theorem accepted_invoked_iff (p₀ p₁ p : Pool N) (h₀ : Reachable p₀) (hd : p₀.destructor = .idle)
    (hstop : step p₀ .destructor = some p₁) (hrun : Transition.Reach (Transition.Of step) p₁ p)
    (hexit : ∀ i, p.workers i = .exited) :
    (∀ t ∈ p₀.returned, p.invoked.count t = 1)
      ↔ ∀ t ∈ p₀.tasks.drop p₀.ready, t ∉ p₀.returned := by
  have hq₀ := queued_reachable h₀
  have h₁ : Reachable p₁ := h₀.tail hstop
  have hq := queued_reachable (h₁.trans hrun)
  have hdrain := draining_run h₁ (draining_begin hd hstop) hrun
  have hready : p.ready = 0 := tally_none fun i => by rw [hexit i]; rfl
  have hmost := hdrain.most
  have hleast := hdrain.least
  have hnext := hq₀.next
  -- the tasks behind the ready workers are those from `p₀.popped.length + p₀.ready` on
  have hbehind : ∀ t, t ∈ p₀.tasks.drop p₀.ready
      ↔ p₀.popped.length + p₀.ready ≤ t ∧ t < p₀.next := by
    intro t
    rw [hq₀.tasks, List.drop_range', List.mem_range'_1]
    omega
  constructor
  · intro hall t ht hret
    have hone := hall t hret
    rw [hq.invoked_count hexit] at hone
    have hpos := (hbehind t).mp ht
    split at hone
    · omega
    · exact absurd hone (by decide)
  · intro hnone t hret
    rw [hq.invoked_count hexit, if_pos]
    have hlt := hq₀.returned t hret
    have hfront : ¬(p₀.popped.length + p₀.ready ≤ t ∧ t < p₀.next) :=
      fun hb => hnone t ((hbehind t).mpr hb) hret
    omega

/-- One worker blocked in `acquire`, and one task: it is invoked. -/
theorem accepted_invoked_one_task :
    let p₀ := (Transition.exec step ({} : Pool 1) [.worker 0, .worker 0, .push, .release 0]).get
      (by decide)
    let p₁ := (step p₀ .destructor).get (by decide)
    let p := (Transition.exec step p₁ [.worker 0, .worker 0, .worker 0, .worker 0, .worker 0,
      .worker 0, .worker 0]).get (by decide)
    (∀ t ∈ p₀.returned, p.invoked.count t = 1)
      ↔ ∀ t ∈ p₀.tasks.drop p₀.ready, t ∉ p₀.returned :=
  accepted_invoked_iff _ _ _ (Transition.exec_reach _ (Option.some_get _).symm) (by decide)
    (Option.some_get _).symm (Transition.exec_reach _ (Option.some_get _).symm) (by decide)

/-- **An accepted task is dropped**: one worker blocked in `acquire`, two tasks queued. The
worker runs the first one and leaves, since its loop condition reads `m_stopping`. -/
theorem accepted_task_dropped :
    ∃ p₀ p₁ p : Pool 1, Reachable p₀ ∧ p₀.destructor = .idle ∧ 1 ∈ p₀.returned
      ∧ step p₀ .destructor = some p₁ ∧ Transition.Reach (Transition.Of step) p₁ p
      ∧ (∀ i, p.workers i = .exited) ∧ p.invoked = [0] := by
  let p₀ := (Transition.exec step ({} : Pool 1)
    [.worker 0, .worker 0, .push, .release 0, .push, .release 1]).get (by decide)
  let p₁ := (step p₀ .destructor).get (by decide)
  let p := (Transition.exec step p₁ [.worker 0, .worker 0, .worker 0, .worker 0, .worker 0,
    .worker 0, .worker 0]).get (by decide)
  exact ⟨p₀, p₁, p, Transition.exec_reach _ (Option.some_get _).symm, by decide, by decide,
    (Option.some_get _).symm, Transition.exec_reach _ (Option.some_get _).symm, by decide,
    by decide⟩

end QuickStructs.ThreadPool
