import QuickStructs.Lib.Tally
import QuickStructs.Thread.ThreadPool

/-!
# What a step of the thread pool can do

Every invariant of the pool is checked against the same few ways a step can go: a push
or a release by an enqueue call, a turn of a worker that changes nothing but its place,
an acquire, a pop, a call, and the steps of the destructor. The case analysis of the
step function is done once, here, together with the two invariants all others rest on:
tasks are popped in the order of their numbers and each popped task is called or about
to be, and the flags say how far the destructor is.
-/

namespace QuickStructs.ThreadPool

open Lib Tally

variable {N : Nat} {p p' : Pool N} {i : Fin N}

/-! ## Steps, case by case -/

/-- The turns of a worker that change nothing but its place. -/
inductive Turn (p : Pool N) (i : Fin N) : Worker → Worker → Prop where
  | stop (h : p.stopRequested i = true) : Turn p i .testStop .exited
  | go (h : p.stopRequested i = false) : Turn p i .testStop .testStopping
  | stopping (h : p.stopping = true) : Turn p i .testStopping .exited
  | enter (h : p.stopping = false) : Turn p i .testStopping .acquire
  | check (h : p.stopRequested i = true) : Turn p i .checkStop .checkEmpty
  | skip (h : p.stopRequested i = false) : Turn p i .checkStop .pop
  | leave (h : p.tasks = []) : Turn p i .checkEmpty .exited
  | stay (h : p.tasks ≠ []) : Turn p i .checkEmpty .pop
  | none_left (h : p.tasks = []) : Turn p i .pop .testStop
  | done (t : Nat) : Turn p i (.running t) .testStop

/-- The steps of worker `i`. -/
inductive WorkerStep (p : Pool N) (i : Fin N) : Pool N → Prop where
  | turn (w : Worker) (h : Turn p i (p.workers i) w) : WorkerStep p i (p.goto i w)
  | acquire (hw : p.workers i = .acquire) (hp : 0 < p.permits) :
      WorkerStep p i { p.goto i .checkStop with permits := p.permits - 1 }
  | pop (t : Nat) (rest : List Nat) (hw : p.workers i = .pop) (ht : p.tasks = t :: rest) :
      WorkerStep p i { p.goto i (.call t) with tasks := rest, popped := p.popped ++ [t] }
  | call (t : Nat) (hw : p.workers i = .call t) :
      WorkerStep p i { p.goto i (.running t) with invoked := p.invoked ++ [t] }

/-- The steps of the destructor. -/
inductive DestructorStep (p : Pool N) : Pool N → Prop where
  | begin (h : p.destructor = .idle) :
      DestructorStep p { p with stopping := true, destructor := bodyAt N 0 }
  | release (k : Nat) (h : p.destructor = .release k) :
      DestructorStep p { p with permits := p.permits + 1, destructor := .requestStop k }
  | requestStop (k : Nat) (h : p.destructor = .requestStop k) :
      DestructorStep p { p with
        stopRequested := fun j => if j.val = k then true else p.stopRequested j
        destructor := bodyAt N (k + 1) }
  | destroy (m : Member) (left : List Member) (h : p.destructor = .members (m :: left))
      (hjoin : m = .workers → ∀ i, p.workers i = .exited) :
      DestructorStep p { p with destructor := .members left }

theorem workerStep_cases (h : p.workerStep i = some p') : WorkerStep p i p' := by
  unfold Pool.workerStep at h
  split at h
  · rename_i hw
    injection h with h
    rw [← h]
    refine .turn _ ?_
    rw [hw]
    split
    · rename_i hs
      exact .stop hs
    · rename_i hs
      exact .go (Bool.eq_false_iff.mpr hs)
  · rename_i hw
    injection h with h
    rw [← h]
    refine .turn _ ?_
    rw [hw]
    split
    · rename_i hs
      exact .stopping hs
    · rename_i hs
      exact .enter (Bool.eq_false_iff.mpr hs)
  · rename_i hw
    split at h
    · rename_i hp
      injection h with h
      rw [← h]
      exact .acquire hw hp
    · exact absurd h (by simp)
  · rename_i hw
    injection h with h
    rw [← h]
    refine .turn _ ?_
    rw [hw]
    split
    · rename_i hs
      exact .check hs
    · rename_i hs
      exact .skip (Bool.eq_false_iff.mpr hs)
  · rename_i hw
    injection h with h
    rw [← h]
    refine .turn _ ?_
    rw [hw]
    split
    · rename_i ht
      exact .leave ht
    · rename_i ht
      exact .stay ht
  · rename_i hw
    split at h
    · rename_i ht
      injection h with h
      rw [← h]
      refine .turn _ ?_
      rw [hw]
      exact .none_left ht
    · rename_i t rest ht
      injection h with h
      rw [← h]
      exact .pop t rest hw ht
  · rename_i t hw
    injection h with h
    rw [← h]
    exact .call t hw
  · rename_i t hw
    injection h with h
    rw [← h]
    refine .turn _ ?_
    rw [hw]
    exact .done t
  · exact absurd h (by simp)

theorem destructorStep_cases (h : p.destructorStep = some p') : DestructorStep p p' := by
  unfold Pool.destructorStep at h
  split at h
  · rename_i hd
    injection h with h
    rw [← h]
    exact .begin hd
  · rename_i k hd
    injection h with h
    rw [← h]
    exact .release k hd
  · rename_i k hd
    injection h with h
    rw [← h]
    exact .requestStop k hd
  · exact absurd h (by simp)
  · rename_i m left hd
    split at h
    · exact absurd h (by simp)
    · rename_i hjoin
      injection h with h
      rw [← h]
      refine .destroy m left hd fun hm => ?_
      exact Decidable.not_not.mp fun hall => hjoin ⟨hm, hall⟩

/-- The steps of a pool, each under its action. -/
inductive PoolStep (p : Pool N) : Action N → Pool N → Prop where
  | push : PoolStep p .push { p with
      tasks := p.tasks ++ [p.next], pending := p.pending ++ [p.next], next := p.next + 1 }
  | release (t : Nat) (ht : t ∈ p.pending) : PoolStep p (.release t) { p with
      permits := p.permits + 1, pending := p.pending.erase t, returned := p.returned ++ [t] }
  | worker (i : Fin N) (p' : Pool N) (h : WorkerStep p i p') : PoolStep p (.worker i) p'
  | destructor (p' : Pool N) (h : DestructorStep p p') : PoolStep p .destructor p'

theorem step_cases {a : Action N} (h : step p a = some p') : PoolStep p a p' := by
  cases a with
  | push =>
      rw [step] at h
      injection h with h
      rw [← h]
      exact .push
  | release t =>
      obtain ⟨ht, rfl⟩ := Transition.of_guard h
      exact .release t ht
  | worker i => exact .worker i p' (workerStep_cases h)
  | destructor => exact .destructor p' (destructorStep_cases h)

/-! ## Tasks, from the queue to the call -/

/-- Is the worker about to call this task? -/
def Worker.calls (t : Nat) (w : Worker) : Bool := w == .call t

theorem calls_call (t t' : Nat) : Worker.calls t (.call t') = (t' == t) := by
  rw [Bool.eq_iff_iff]
  simp [Worker.calls]

/-- Tasks leave the queue in the order of their numbers, which is the order of the pushes. -/
structure Queued (p : Pool N) : Prop where
  popped : p.popped = List.range p.popped.length
  tasks : p.tasks = List.range' p.popped.length p.tasks.length
  next : p.next = p.popped.length + p.tasks.length
  /-- Every popped task was called, or a worker is about to call it. -/
  called : ∀ t, p.popped.count t = p.invoked.count t + tally (Worker.calls t) p.workers
  pending : ∀ t ∈ p.pending, t < p.next
  returned : ∀ t ∈ p.returned, t < p.next

theorem queued_init : Queued ({} : Pool N) where
  popped := rfl
  tasks := rfl
  next := rfl
  called := by
    intro t
    rw [tally_none fun _ => rfl]
    rfl
  pending := by intro t ht; exact absurd ht (by simp)
  returned := by intro t ht; exact absurd ht (by simp)

theorem queued_push (h : Queued p) : Queued { p with
    tasks := p.tasks ++ [p.next], pending := p.pending ++ [p.next], next := p.next + 1 } where
  popped := h.popped
  tasks := by
    show p.tasks ++ [p.next] = List.range' p.popped.length (p.tasks ++ [p.next]).length
    rw [List.length_append, List.length_singleton, List.range'_1_concat, ← h.tasks, h.next]
  next := by
    show p.next + 1 = p.popped.length + (p.tasks ++ [p.next]).length
    rw [List.length_append, List.length_singleton, h.next]
    omega
  called := h.called
  pending := by
    intro t ht
    show t < p.next + 1
    rcases List.mem_append.mp ht with ht | ht
    · have := h.pending t ht
      omega
    · rw [List.mem_singleton.mp ht]
      omega
  returned := by
    intro t ht
    show t < p.next + 1
    have := h.returned t ht
    omega

theorem queued_release (h : Queued p) {t : Nat} (ht : t ∈ p.pending) : Queued { p with
    permits := p.permits + 1, pending := p.pending.erase t, returned := p.returned ++ [t] } where
  popped := h.popped
  tasks := h.tasks
  next := h.next
  called := h.called
  pending := fun t' ht' => h.pending t' (List.mem_of_mem_erase ht')
  returned := by
    intro t' ht'
    rcases List.mem_append.mp ht' with ht' | ht'
    · exact h.returned t' ht'
    · rw [List.mem_singleton.mp ht']
      exact h.pending t ht

/-- A worker that moves between points where it calls nothing. -/
theorem Queued.goto (h : Queued p) {w : Worker} (hold : ∀ t, Worker.calls t (p.workers i) = false)
    (hnew : ∀ t, Worker.calls t w = false) : Queued (p.goto i w) where
  popped := h.popped
  tasks := h.tasks
  next := h.next
  called := by
    intro t
    show p.popped.count t = p.invoked.count t + tally _ (Function.update p.workers i w)
    rw [tally_same ((hnew t).trans (hold t).symm)]
    exact h.called t
  pending := h.pending
  returned := h.returned

theorem turn_calls {w w' : Worker} (h : Turn p i w w') (t : Nat) :
    Worker.calls t w = false ∧ Worker.calls t w' = false := by
  cases h <;> exact ⟨rfl, rfl⟩

/-- **A pop takes the lowest number left.** -/
theorem queued_pop (h : Queued p) {t : Nat} {rest : List Nat} (hw : p.workers i = .pop)
    (ht : p.tasks = t :: rest) :
    Queued { p.goto i (.call t) with tasks := rest, popped := p.popped ++ [t] } := by
  have htasks := h.tasks
  have hnext := h.next
  have hlen : (p.popped ++ [t]).length = p.popped.length + 1 := List.length_append
  rw [ht, List.length_cons] at htasks hnext
  rw [List.range'_succ, List.cons.injEq] at htasks
  obtain ⟨hhead, hrest⟩ := htasks
  refine ⟨?_, ?_, ?_, fun t' => ?_, h.pending, h.returned⟩
  · show p.popped ++ [t] = List.range (p.popped ++ [t]).length
    rw [hlen, List.range_succ, ← h.popped, hhead]
  · show rest = List.range' (p.popped ++ [t]).length rest.length
    rw [hlen]
    exact hrest
  · show p.next = (p.popped ++ [t]).length + rest.length
    omega
  · show (p.popped ++ [t]).count t'
      = p.invoked.count t' + tally _ (Function.update p.workers i (.call t))
    have hcalled := h.called t'
    have hmove := tally_update (Worker.calls t') p.workers i (.call t)
    have hpop : Worker.calls t' Worker.pop = false := rfl
    rw [hw, hpop, calls_call] at hmove
    rw [List.count_append, List.count_singleton]
    cases htt : t == t' <;> simp [htt] at hmove ⊢ <;> omega

/-- **A called task is no longer about to be called.** -/
theorem queued_call (h : Queued p) {t : Nat} (hw : p.workers i = .call t) :
    Queued { p.goto i (.running t) with invoked := p.invoked ++ [t] } := by
  refine ⟨h.popped, h.tasks, h.next, fun t' => ?_, h.pending, h.returned⟩
  show p.popped.count t'
    = (p.invoked ++ [t]).count t' + tally _ (Function.update p.workers i (.running t))
  have hcalled := h.called t'
  have hmove := tally_update (Worker.calls t') p.workers i (.running t)
  have hrun : Worker.calls t' (Worker.running t) = false := rfl
  rw [hw, hrun, calls_call] at hmove
  rw [List.count_append, List.count_singleton]
  cases htt : t == t' <;> simp [htt] at hmove ⊢ <;> omega

theorem queued_step {a : Action N} (h : Queued p) (hs : step p a = some p') : Queued p' := by
  cases step_cases hs with
  | push => exact queued_push h
  | release t ht => exact queued_release h ht
  | destructor _ hd =>
      -- the destructor touches no task
      cases hd <;> exact ⟨h.popped, h.tasks, h.next, h.called, h.pending, h.returned⟩
  | worker i _ hw =>
      cases hw with
      | turn w ht => exact h.goto (fun t => (turn_calls ht t).1) (fun t => (turn_calls ht t).2)
      | acquire hw _ =>
          have hg := h.goto (i := i) (w := .checkStop) (fun t => by rw [hw]; rfl) (fun _ => rfl)
          exact ⟨hg.popped, hg.tasks, hg.next, hg.called, hg.pending, hg.returned⟩
      | pop t rest hw ht => exact queued_pop h hw ht
      | call t hw => exact queued_call h hw

theorem queued_reachable (h : Reachable p) : Queued p :=
  h.invariant queued_init fun _ _ _ _ hi hs => queued_step hi hs

/-! ## How far the destructor is -/

/-- How many threads the destructor has asked to stop. -/
def Destructor.asked (N : Nat) : Destructor → Nat
  | .idle => 0
  | .release k | .requestStop k => k
  | .members _ => N

/-- What the flags say. -/
structure Flags (p : Pool N) : Prop where
  stopping : p.stopping = true ↔ p.destructor ≠ .idle
  asked : ∀ i, p.stopRequested i = true ↔ i.val < p.destructor.asked N

theorem bodyAt_ne_idle (N k : Nat) : bodyAt N k ≠ .idle := by
  unfold bodyAt
  split <;> simp

theorem bodyAt_asked {k : Nat} (i : Fin N) : i.val < (bodyAt N k).asked N ↔ i.val < k := by
  unfold bodyAt
  split
  · exact Iff.rfl
  · have hi := i.isLt
    exact ⟨fun _ => by omega, fun _ => hi⟩

theorem flags_init : Flags ({} : Pool N) where
  stopping := by simp
  asked := by intro i; simp [Destructor.asked]

theorem flags_step {a : Action N} (h : Flags p) (hs : step p a = some p') : Flags p' := by
  cases step_cases hs with
  | push => exact ⟨h.stopping, h.asked⟩
  | release t ht => exact ⟨h.stopping, h.asked⟩
  | worker i _ hw => cases hw <;> exact ⟨h.stopping, h.asked⟩
  | destructor _ hd =>
      have hasked := h.asked
      have hstopping := h.stopping
      cases hd with
      | begin hd =>
          rw [hd] at hasked
          refine ⟨iff_of_true rfl (bodyAt_ne_idle N 0), fun i => ?_⟩
          rw [bodyAt_asked]
          exact hasked i
      | release k hd =>
          rw [hd] at hasked hstopping
          exact ⟨hstopping.trans (by simp), hasked⟩
      | requestStop k hd =>
          rw [hd] at hasked hstopping
          have hstop : p.stopping = true := hstopping.mpr (by simp)
          refine ⟨iff_of_true hstop (bodyAt_ne_idle N (k + 1)), fun i => ?_⟩
          rw [bodyAt_asked]
          show (if i.val = k then true else p.stopRequested i) = true ↔ i.val < k + 1
          have hi : p.stopRequested i = true ↔ i.val < k := hasked i
          split
          · exact iff_of_true rfl (by omega)
          · rw [hi]
            omega
      | destroy m left hd _ =>
          rw [hd] at hasked hstopping
          exact ⟨hstopping.trans (by simp), hasked⟩

theorem flags_reachable (h : Reachable p) : Flags p :=
  h.invariant flags_init fun _ _ _ _ hi hs => flags_step hi hs

end QuickStructs.ThreadPool
