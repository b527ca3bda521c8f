import QuickStructs.Proof.PoolInv

/-!
# Shutdown strands no worker

Task permits and stop permits are the same permits, so a worker may take one that was
meant for another. What saves the others is that the stop store closes the way to
`acquire`: from then on a worker takes at most one more permit, and the workers that
have still to take one are those that stand at `acquire` already. The destructor
releases a permit for every worker, so at the end of its body there is one for each of
them.
-/

namespace QuickStructs.ThreadPool

open Lib Tally

variable {N : Nat} {p p' : Pool N} {i : Fin N}

/-- Is the worker at `m_semaphore.acquire()`? -/
def Worker.acquires : Worker → Bool
  | .acquire => true
  | _ => false

/-- How many permits the destructor has released. -/
def Destructor.released (N : Nat) : Destructor → Nat
  | .idle => 0
  | .release k => k
  | .requestStop k => k + 1
  | .members _ => N

/-- The permits the destructor has released are there, or were taken by workers that do
not come back for another one. -/
def Supplied (p : Pool N) : Prop :=
  p.destructor.released N + tally Worker.acquires p.workers ≤ p.permits + N

theorem bodyAt_released (N k : Nat) : (bodyAt N k).released N ≤ k := by
  unfold bodyAt
  split
  · exact Nat.le_refl k
  · show N ≤ k
    omega

theorem supplied_idle (h : p.destructor = .idle) : Supplied p := by
  have hle := tally_le Worker.acquires p.workers
  rw [Supplied, h]
  show 0 + tally Worker.acquires p.workers ≤ p.permits + N
  omega

/-- After the stop store no turn takes a worker to `acquire`. -/
theorem turn_acquires {w w' : Worker} (hstop : p.stopping = true) (h : Turn p i w w') :
    Worker.acquires w' = Worker.acquires w := by
  cases h with
  | enter hs => rw [hstop] at hs; exact absurd hs (by decide)
  | _ => rfl

theorem supplied_worker (hstop : p.stopping = true) (h : Supplied p) (hs : WorkerStep p i p') :
    Supplied p' := by
  unfold Supplied at h ⊢
  cases hs with
  | turn w ht =>
      show p.destructor.released N + tally _ (Function.update p.workers i w) ≤ p.permits + N
      rw [tally_same (turn_acquires hstop ht)]
      exact h
  | acquire hw hp =>
      -- the worker takes a permit, and is one fewer to need one
      have hmove := tally_leave (p := Worker.acquires) (f := p.workers) (i := i)
        (x := .checkStop) rfl (by rw [hw]; rfl)
      show p.destructor.released N + tally _ (Function.update p.workers i .checkStop)
        ≤ p.permits - 1 + N
      omega
  | pop t rest hw ht =>
      show p.destructor.released N + tally _ (Function.update p.workers i (.call t))
        ≤ p.permits + N
      rw [tally_same (by rw [hw]; rfl)]
      exact h
  | call t hw =>
      show p.destructor.released N + tally _ (Function.update p.workers i (.running t))
        ≤ p.permits + N
      rw [tally_same (by rw [hw]; rfl)]
      exact h

/-- **Each permit of the destructor stays, or serves a worker for good.** -/
theorem supplied_destructor (h : Supplied p) (hs : DestructorStep p p') : Supplied p' := by
  unfold Supplied at h ⊢
  cases hs with
  | begin hd =>
      have hle := tally_le Worker.acquires p.workers
      have hbody := bodyAt_released N 0
      show (bodyAt N 0).released N + tally Worker.acquires p.workers ≤ p.permits + N
      omega
  | release k hd =>
      rw [hd] at h
      show k + 1 + tally Worker.acquires p.workers ≤ p.permits + 1 + N
      have hk : k + tally Worker.acquires p.workers ≤ p.permits + N := h
      omega
  | requestStop k hd =>
      rw [hd] at h
      have hbody := bodyAt_released N (k + 1)
      have hk : k + 1 + tally Worker.acquires p.workers ≤ p.permits + N := h
      show (bodyAt N (k + 1)).released N + tally Worker.acquires p.workers ≤ p.permits + N
      omega
  | destroy m left hd _ =>
      rw [hd] at h
      exact h

theorem supplied_step {a : Action N} (hf : Flags p) (h : Supplied p) (hs : step p a = some p') :
    Supplied p' := by
  cases step_cases hs with
  | push => exact h
  | release t ht =>
      have hle : p.destructor.released N + tally Worker.acquires p.workers ≤ p.permits + N := h
      show p.destructor.released N + tally Worker.acquires p.workers ≤ p.permits + 1 + N
      omega
  | worker i _ hw =>
      by_cases hidle : p.destructor = .idle
      · -- before the stop store nothing is asked of the permits
        have hidle' : p'.destructor = .idle := by cases hw <;> exact hidle
        exact supplied_idle hidle'
      · exact supplied_worker (hf.stopping.mpr hidle) h hw
  | destructor _ hd => exact supplied_destructor h hd

theorem supplied_reachable (h : Reachable p) : Supplied p :=
  h.invariant (supplied_idle rfl) fun _ _ _ hr hi hs => supplied_step (flags_reachable hr) hi hs

/--
**Shutdown strands no worker.**

Once the body of the destructor is done, there are at least as many permits as workers
at `acquire`; so no worker is blocked there with no permit left.
-/
theorem no_stranded_worker (p : Pool N) (h : Reachable p) (left : List Member)
    (hbody : p.destructor = .members left) :
    tally Worker.acquires p.workers ≤ p.permits
      ∧ ∀ i, p.workers i = .acquire → 0 < p.permits := by
  have hsupplied := supplied_reachable h
  rw [Supplied, hbody] at hsupplied
  have hle : N + tally Worker.acquires p.workers ≤ p.permits + N := hsupplied
  refine ⟨by omega, fun i hw => ?_⟩
  have hpos := tally_pos (p := Worker.acquires) (f := p.workers) (i := i) (by rw [hw]; rfl)
  omega

/-- Two workers: one sleeps in `acquire`, the other takes a permit of the destructor and
leaves, and the sleeper still finds one. -/
theorem no_stranded_worker_two :
    let p := (Transition.exec step ({} : Pool 2)
      [.worker 0, .worker 0, .worker 1, .worker 1, .destructor, .destructor, .worker 1,
        .destructor, .destructor, .destructor]).get (by decide)
    tally Worker.acquires p.workers ≤ p.permits
      ∧ ∀ i, p.workers i = .acquire → 0 < p.permits :=
  no_stranded_worker _ (Transition.exec_reach _ (Option.some_get _).symm) declared.reverse
    (by decide)

end QuickStructs.ThreadPool
