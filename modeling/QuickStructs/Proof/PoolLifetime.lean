import QuickStructs.Proof.PoolLocks
import Mathlib.Data.List.Infix

/-!
# What the workers may still touch during destruction

`m_workers` is declared before `m_mutex`, `m_semaphore` and `m_stopping`, so these are
destroyed first and the jthreads are joined after. A worker that still has to operate on
one of them at that moment does so when it is gone: one that is about to load
`m_stopping` or is in `acquire`, one that goes on to lock `m_mutex` or has it locked, one
whose task is in a call of `enqueue`. A worker comes to such a place anew only where a
task begins a call; once the body of the destructor is done every worker has been asked
to stop, so none comes to a load of `m_stopping` or to an `acquire` again.
-/

namespace QuickStructs.ThreadPool

open Lib

variable {N M : Nat} {p q : LockedPool N M} {i : Fin N}

/-- What a call operates on until it returns. The queue outlives the workers. -/
def Call.needs : Call → List Member
  | .lockPush | .emplace | .unlockPush _ => [.mutex, .semaphore]
  | .release _ => [.semaphore]
  | .lockSize | .size | .unlockSize => [.mutex]

/-- What a worker that has been asked to stop operates on until it leaves its loop or its
task begins a call. A `break` on an empty queue needs no mutex. -/
def Place.needs (queued : Bool) : Place → List Member
  | .testStopping => [.stopping]
  | .acquire => [.semaphore]
  | .checkStop | .checkEmpty => if queued then [.mutex] else []
  | .lock | .empty | .take | .unlock _ => [.mutex]
  | .running _ (some c) => c.needs
  | _ => []

/-- Is there a task in the queue? -/
def LockedPool.queued (p : LockedPool N M) : Bool := !p.tasks.isEmpty

/-- The member that the next step of the destructor destroys. -/
def LockedPool.destroys (p : LockedPool N M) : Option Member :=
  match p.destructor with
  | .members (m :: _) => some m
  | _ => none

/-- No worker needs the member that the step destroys, no task begins a call that needs a
member that is gone, and no client pushes a task without the mutex for a worker that
would go on to lock it. -/
def LockedPool.Clean (p : LockedPool N M) : Move N M → Prop
  | .destructor => ∀ m ∈ p.destroys, ∀ i, m ∉ (p.workers i).needs p.queued
  | .taskCalls _ f => ∀ m ∈ f.entry.needs, p.alive m = true
  | .client j =>
    p.clients j = some .emplace → p.alive .mutex = true
      ∨ ∀ i, p.workers i ≠ .checkStop ∧ p.workers i ≠ .checkEmpty
  | _ => True

instance (p : LockedPool N M) (m : Move N M) : Decidable (p.Clean m) :=
  match m with
  | .destructor => inferInstanceAs (Decidable (∀ m ∈ p.destroys, _))
  | .taskCalls _ f => inferInstanceAs (Decidable (∀ m ∈ f.entry.needs, _))
  | .client _ => inferInstanceAs (Decidable (_ → _))
  | .worker _ | .clientCalls _ _ => inferInstanceAs (Decidable True)

/-- Some worker is about to operate on a member that has been destroyed. -/
def LockedPool.UsesDestroyed (p : LockedPool N M) : Prop :=
  ∃ i, ∃ m ∈ (p.workers i).touches, p.alive m = false

structure Untouched (p : LockedPool N M) : Prop where
  /-- The members go in the reverse of the order they are declared in. -/
  order : ∀ left, p.destructor = .members left → left <:+ declared.reverse
  /-- The workers are joined before what is declared ahead of them goes. -/
  joined : p.alive .workers = false → ∀ i, p.workers i = .exited
  needs : ∀ i, ∀ m ∈ (p.workers i).needs p.queued, p.alive m = true

/-! ## Members that are gone -/

/-- A member that is gone puts the destructor past its body. -/
theorem gone_members {m : Member} (hm : p.alive m = false) :
    ∃ left, p.destructor = .members left ∧ left.contains m = false := by
  unfold LockedPool.alive at hm
  split at hm
  · rename_i left hd
    exact ⟨left, hd, hm⟩
  · exact absurd hm (by decide)

/-- **Past the body every worker has been asked to stop.** -/
theorem Flags.gone (h : Flags p.pool) {m : Member} (hm : p.alive m = false) :
    p.stopping = true ∧ ∀ i, p.stopRequested i = true := by
  obtain ⟨left, hd, _⟩ := gone_members hm
  have hpool : p.pool.destructor = .members left := hd
  refine ⟨h.stopping.mpr (by rw [hpool]; simp), fun i => (h.asked i).mpr ?_⟩
  rw [hpool]
  exact i.isLt

/-- What is declared later goes earlier. -/
theorem later_gone (ho : ∀ left, p.destructor = .members left → left <:+ declared.reverse)
    {m : Member} (m' : Member) (hm : p.alive m = false)
    (hlater : ∀ left ∈ declared.reverse.tails, left.contains m = false → left.contains m' = false) :
    p.alive m' = false := by
  obtain ⟨left, hd, hleft⟩ := gone_members hm
  unfold LockedPool.alive
  rw [hd]
  exact hlater left ((List.mem_tails ..).mpr (ho left hd)) hleft

/-- A destroyed member is gone. -/
theorem destroyed_gone (ho : ∀ left, p.destructor = .members left → left <:+ declared.reverse)
    {m : Member} {left : List Member} (hd : p.destructor = .members (m :: left)) :
    ({ p with destructor := .members left } : LockedPool N M).alive m = false := by
  have hall : ∀ left ∈ declared.reverse.tails, ∀ m ∈ left.head?, left.tail.contains m = false := by
    decide
  exact hall (m :: left) ((List.mem_tails ..).mpr (ho _ hd)) m rfl

theorem alive_body {k : Nat} (hd : p.destructor = bodyAt N k) (m : Member) : p.alive m = true := by
  unfold LockedPool.alive
  rw [hd]
  unfold bodyAt
  split
  · rename_i left hleft
    split at hleft
    · exact absurd hleft (by simp)
    · injection hleft with hleft
      rw [← hleft]
      cases m <;> rfl
  · rfl

theorem body_order {k : Nat} {left : List Member} (hd : bodyAt N k = .members left) :
    left <:+ declared.reverse := by
  unfold bodyAt at hd
  split at hd
  · exact absurd hd (by simp)
  · injection hd with hd
    rw [hd]

/-- What a destruction leaves alive. -/
theorem alive_destroy {m m' : Member} {left : List Member}
    (hd : p.destructor = .members (m :: left)) (hm : p.alive m' = true) (hne : m' ≠ m) :
    ({ p with destructor := .members left } : LockedPool N M).alive m' = true := by
  unfold LockedPool.alive at *
  rw [hd] at hm
  dsimp only at hm ⊢
  rw [List.contains_cons, Bool.or_eq_true, beq_iff_eq] at hm
  exact hm.resolve_left hne

/-! ## Step by step -/

theorem untouched_init : Untouched ({} : LockedPool N M) where
  order := by intro left h; exact absurd h (by simp)
  joined := by intro h; exact absurd h (by simp [LockedPool.alive])
  needs := fun _ _ _ => rfl

/-- A call needs less and less. -/
theorem call_needs {me : Fin N ⊕ Fin M} {c : Call} {c' : Option Call} (h : p.CallStep me c q c')
    (t : Nat) (b : Bool) : ∀ m ∈ (Place.running t c').needs b, m ∈ c.needs := by
  cases h <;> simp [Place.needs, Call.needs]

/-- The queue only tells whether a `break` needs the mutex. -/
theorem needs_queued {b b' : Bool} {w : Place} {m : Member} (hm : m ∈ w.needs b')
    (hq : b' = true → b = true) : m ∈ w.needs b := by
  cases w with
  | checkStop | checkEmpty =>
      cases b' with
      | false => exact absurd hm (by simp [Place.needs])
      | true => rw [hq rfl]; exact hm
  | running t c => cases c <;> exact hm
  | _ => exact hm

/-- What a place needs of a queue that just got its first task. -/
theorem needs_pushed {b : Bool} {w : Place} {m : Member} (hm : m ∈ w.needs true) :
    m ∈ w.needs b ∨ (m = .mutex ∧ (w = .checkStop ∨ w = .checkEmpty)) := by
  cases w with
  | checkStop => exact .inr ⟨List.mem_singleton.mp hm, .inl rfl⟩
  | checkEmpty => exact .inr ⟨List.mem_singleton.mp hm, .inr rfl⟩
  | running t c => cases c <;> exact .inl hm
  | _ => exact .inl hm

theorem LockedPool.queued_iff : p.queued = true ↔ p.tasks ≠ [] := by
  unfold LockedPool.queued
  cases p.tasks <;> simp

/-- A turn asks for nothing that is gone. -/
theorem turn_needs (hf : Flags p.pool) {w w' : Place}
    (h : ∀ m ∈ w.needs p.queued, p.alive m = true) (ht : p.Turn i w w') :
    ∀ m ∈ w'.needs p.queued, p.alive m = true := by
  have hstop : p.stopRequested i = false → ∀ m, p.alive m = true := by
    intro hs m
    refine Bool.eq_true_of_not_eq_false fun hm => ?_
    rw [(hf.gone hm).2 i] at hs
    exact absurd hs (by decide)
  intro m hm
  cases ht with
  | stop _ => exact absurd hm (by simp [Place.needs])
  | go hs => exact hstop hs m
  | stopping _ => exact absurd hm (by simp [Place.needs])
  | enter hs =>
      refine Bool.eq_true_of_not_eq_false fun hgone => ?_
      rw [(hf.gone hgone).1] at hs
      exact absurd hs (by decide)
  | check _ => exact h m hm
  | skip hs => exact hstop hs m
  | leave _ => exact absurd hm (by simp [Place.needs])
  | stay htasks =>
      refine h m ?_
      rw [Place.needs, if_pos (LockedPool.queued_iff.mpr htasks)]
      exact hm
  | none_left _ => exact h m hm
  | found _ => exact h m hm
  | done _ => exact absurd hm (by simp [Place.needs])

/-- A worker that has left its loop makes no step. -/
theorem workerStep_not_exited (hs : p.WorkerStep i q) : p.workers i ≠ .exited := by
  intro he
  cases hs with
  | turn w ht => rw [he] at ht; cases ht
  | acquire hw _ => rw [he] at hw; exact absurd hw (by simp)
  | lock hw _ => rw [he] at hw; exact absurd hw (by simp)
  | take t rest hw _ => rw [he] at hw; exact absurd hw (by simp)
  | unlock t hw => rw [he] at hw; exact absurd hw (by simp)
  | call t hw => rw [he] at hw; exact absurd hw (by simp)
  | calls t c r c' hw _ => rw [he] at hw; exact absurd hw (by simp)

/-- A worker comes to a place where it needs nothing that is gone. -/
theorem Untouched.goto (h : Untouched p) (hne : p.workers i ≠ .exited) {w : Place}
    (hd : q.destructor = p.destructor) (hw : q.workers = Function.update p.workers i w)
    (hqueue : ∀ j, ∀ m ∈ (p.workers j).needs q.queued,
      m ∈ (p.workers j).needs p.queued ∨ p.alive m = true)
    (hnew : ∀ m ∈ w.needs q.queued, p.alive m = true) : Untouched q := by
  have halive : ∀ m, q.alive m = p.alive m := fun m => by unfold LockedPool.alive; rw [hd]
  refine ⟨fun left hl => h.order left (hd ▸ hl), fun hm => ?_, fun j m hm => ?_⟩
  · rw [halive] at hm
    exact absurd (h.joined hm i) hne
  · rw [hw] at hm
    rw [halive]
    by_cases hj : j = i
    · rw [hj, Function.update_self] at hm
      exact hnew m hm
    · rw [Function.update_of_ne hj] at hm
      exact (hqueue j m hm).elim (h.needs j m) id

/-- A call pushes with the mutex alive, and else nobody needs more. -/
theorem call_queue {me : Fin N ⊕ Fin M} {c : Call} {c' : Option Call} (h : p.CallStep me c q c')
    (hmutex : c = .emplace → p.alive .mutex = true
      ∨ ∀ i, p.workers i ≠ .checkStop ∧ p.workers i ≠ .checkEmpty) {j : Fin N} {m : Member}
    (hm : m ∈ (p.workers j).needs q.queued) :
    m ∈ (p.workers j).needs p.queued ∨ p.alive m = true := by
  cases h with
  | emplace =>
      rcases needs_pushed (needs_queued hm fun _ => rfl) with hm | ⟨hm, hw⟩
      · exact .inl hm
      · rcases hmutex rfl with halive | hnone
        · rw [hm]
          exact .inr halive
        · exact absurd hw (not_or.mpr (hnone j))
  | _ => exact .inl hm

theorem untouched_worker (hf : Flags p.pool) (h : Untouched p) (hs : p.WorkerStep i q) :
    Untouched q := by
  have hne := workerStep_not_exited hs
  have hneeds := h.needs i
  have hsame : ∀ j, ∀ m ∈ (p.workers j).needs p.queued,
      m ∈ (p.workers j).needs p.queued ∨ p.alive m = true := fun _ _ => .inl
  cases hs with
  | turn w ht => exact h.goto hne rfl rfl hsame (turn_needs hf hneeds ht)
  | acquire hw _ =>
      rw [hw] at hneeds
      refine h.goto (w := .checkStop) hne rfl rfl hsame fun m hm => ?_
      -- the semaphore is declared after the mutex, and it lives
      refine Bool.eq_true_of_not_eq_false fun hgone => ?_
      have hmutex : m = .mutex := by
        rcases needs_pushed (b := false) (needs_queued hm fun _ => rfl) with hm | hm
        · exact absurd hm (by simp [Place.needs])
        · exact hm.1
      rw [hmutex] at hgone
      have hsem := later_gone h.order .semaphore hgone (by decide)
      rw [hneeds .semaphore (List.mem_singleton_self _)] at hsem
      exact absurd hsem (by decide)
  | lock hw _ =>
      rw [hw] at hneeds
      exact h.goto (w := .empty) hne rfl rfl hsame hneeds
  | take t rest hw ht =>
      rw [hw] at hneeds
      have hqueued : p.queued = true := LockedPool.queued_iff.mpr (by rw [ht]; simp)
      exact h.goto (w := .unlock (some t)) hne rfl rfl
        (fun j m hm => .inl (needs_queued hm fun _ => hqueued)) hneeds
  | unlock t hw =>
      refine h.goto hne rfl rfl hsame fun m hm => ?_
      cases t <;> exact absurd hm (by simp [Place.needs])
  | call t hw => exact h.goto (w := .running t none) hne rfl rfl hsame nofun
  | calls t c r c' hw hc =>
      rw [hw] at hneeds
      have hd : r.destructor = p.destructor := by cases hc <;> rfl
      have hworkers : (r.goto i (.running t c')).workers
          = Function.update p.workers i (.running t c') :=
        congrArg (Function.update · i _) hc.threads.1
      refine h.goto hne hd hworkers (fun j m hm => call_queue hc (fun he => .inl ?_) hm)
        fun m hm => hneeds m (call_needs hc t _ m hm)
      -- the call that pushes needs the mutex itself
      rw [he] at hneeds
      exact hneeds .mutex (List.mem_cons_self ..)

theorem untouched_destroy {m : Member} {left : List Member} (h : Untouched p)
    (hd : p.destructor = .members (m :: left)) (hjoin : m = .workers → ∀ i, p.workers i = .exited)
    (hc : p.Clean .destructor) : Untouched { p with destructor := .members left } := by
  have hnext : m ∈ p.destroys := by
    unfold LockedPool.destroys
    rw [hd]
    rfl
  refine ⟨fun left' hl => ?_, fun hm => ?_, fun j m' hm' => ?_⟩
  · injection hl with hl
    rw [← hl]
    exact (List.suffix_cons m left).trans (h.order _ hd)
  · by_cases hmw : m = .workers
    · exact hjoin hmw
    · refine h.joined (Bool.eq_false_iff.mpr fun hw => ?_)
      rw [alive_destroy hd hw (Ne.symm hmw)] at hm
      exact absurd hm (by decide)
  · have hne : m' ≠ m := fun he => hc m hnext j (he ▸ hm')
    exact alive_destroy hd (h.needs j m' hm') hne

/-- **Every clean step leaves the workers apart from what is gone.** -/
theorem untouched_step {m : Move N M} (hf : Flags p.pool) (h : Untouched p) (hc : p.Clean m)
    (hs : p.step m = some q) : Untouched q := by
  cases LockedPool.step_cases hs with
  | worker i _ hw => exact untouched_worker hf h hw
  | taskCalls i f t hw =>
      have hne : p.workers i ≠ .exited := by rw [hw]; simp
      exact h.goto (w := .running t (some f.entry)) hne rfl rfl (fun _ _ => .inl) hc
  | clientCalls j f _ => exact ⟨h.order, h.joined, h.needs⟩
  | client j c r c' hj hcall =>
      have hd : r.destructor = p.destructor := by cases hcall <;> rfl
      have halive : ∀ m, (r.clientAt j c').alive m = p.alive m := by
        intro m
        show r.alive m = p.alive m
        unfold LockedPool.alive
        rw [hd]
      have hworkers : (r.clientAt j c').workers = p.workers := hcall.threads.1
      refine ⟨fun left hl => h.order left (hd ▸ hl), fun hm => ?_, fun k m hm => ?_⟩
      · rw [halive] at hm
        rw [hworkers]
        exact h.joined hm
      · rw [hworkers] at hm
        rw [halive]
        have hpush : c = .emplace → p.alive .mutex = true
            ∨ ∀ i, p.workers i ≠ .checkStop ∧ p.workers i ≠ .checkEmpty :=
          fun he => hc (hj.trans (congrArg some he))
        exact (call_queue hcall hpush hm).elim (h.needs k m) id
  | destructor _ hd =>
      cases hd with
      | begin _ =>
          have hall : ∀ m, ({ p with stopping := true, destructor := bodyAt N 0 } :
              LockedPool N M).alive m = true := alive_body rfl
          refine ⟨fun left hl => body_order hl, fun hm => ?_, fun j m _ => hall m⟩
          rw [hall] at hm
          exact absurd hm (by decide)
      | release k _ =>
          refine ⟨fun left hl => absurd hl (by simp), fun hm => absurd hm ?_, fun _ _ _ => rfl⟩
          exact Bool.noConfusion
      | requestStop k _ =>
          have hall := alive_body (p := { p with
            stopRequested := fun j => if j.val = k then true else p.stopRequested j
            destructor := bodyAt N (k + 1) }) rfl
          refine ⟨fun left hl => body_order hl, fun hm => ?_, fun j m _ => hall m⟩
          rw [hall] at hm
          exact absurd hm (by decide)
      | destroy m left hd hjoin => exact untouched_destroy h hd hjoin hc

/-! ## What a step that is not clean leads to -/

/-- Some run leads to a worker that is about to operate on a destroyed member. -/
def LockedPool.Doomed (p : LockedPool N M) : Prop :=
  ∃ r, Transition.Reach (Transition.Of LockedPool.step) p r ∧ r.UsesDestroyed

theorem doomed_step {m : Move N M} (hs : p.step m = some q) (h : q.Doomed) : p.Doomed := by
  obtain ⟨r, hr, hu⟩ := h
  exact ⟨r, (Transition.Reach.tail .init hs).trans hr, hu⟩

theorem doomed_now {m : Member} {w : Place} (hw : p.workers i = w) (hm : m ∈ w.touches)
    (hgone : p.alive m = false) : p.Doomed :=
  ⟨p, .init, i, m, hw ▸ hm, hgone⟩

/-- One turn of a worker, to a place where it operates on a member that is gone. -/
theorem doomed_turn {m : Member} {w : Place} (hs : p.step (.worker i) = some q)
    (hw : q.workers i = w) (hd : q.destructor = p.destructor) (hm : m ∈ w.touches)
    (hgone : p.alive m = false) : p.Doomed := by
  refine doomed_step hs (doomed_now hw hm ?_)
  unfold LockedPool.alive
  rw [hd]
  exact hgone

theorem goto_self (w : Place) : (p.goto i w).workers i = w := Function.update_self ..

/-- A worker that has found a task comes to its unlock. -/
theorem doomed_take (hw : p.workers i = .take) (ht : p.tasks ≠ [])
    (hgone : p.alive .mutex = false) :
    p.Doomed := by
  obtain ⟨t, rest, ht⟩ := List.exists_cons_of_ne_nil ht
  have hs : p.step (.worker i) = some
      { p.goto i (.unlock (some t)) with tasks := rest, popped := p.popped ++ [t] } := by
    unfold LockedPool.step LockedPool.workerStep
    dsimp only
    rw [hw, ht]
  exact doomed_turn hs (goto_self _) rfl (List.mem_singleton_self _) hgone

/-- A worker that does not `break` comes to its lock. -/
theorem doomed_checkEmpty (hw : p.workers i = .checkEmpty) (ht : p.tasks ≠ [])
    (hgone : p.alive .mutex = false) : p.Doomed := by
  have hs : p.step (.worker i) = some (p.goto i .lock) := by
    unfold LockedPool.step LockedPool.workerStep
    dsimp only
    rw [hw]
    exact congrArg some (congrArg _ (if_neg ht))
  exact doomed_turn hs (goto_self _) rfl (List.mem_singleton_self _) hgone

/-- So does a worker in the call of its task. -/
theorem doomed_call {t : Nat} {c : Call} (hw : p.workers i = .running t (some c))
    (hm : .mutex ∈ c.needs) (hgone : p.alive .mutex = false) : p.Doomed := by
  have hturn : ∀ {r : LockedPool N M} {c' : Call}, p.callStep (.inl i) c = some (r, some c') →
      r.destructor = p.destructor → .mutex ∈ c'.touches → p.Doomed := by
    intro r c' hcall hd hm'
    have hs : p.step (.worker i) = some (r.goto i (.running t (some c'))) := by
      unfold LockedPool.step LockedPool.workerStep
      dsimp only
      rw [hw]
      dsimp only
      rw [hcall]
      rfl
    exact doomed_turn hs (goto_self _) hd hm' hgone
  cases c with
  | emplace => exact hturn rfl rfl (List.mem_singleton_self _)
  | size => exact hturn rfl rfl (List.mem_singleton_self _)
  | release _ => exact absurd hm (by simp [Call.needs])
  | _ => exact doomed_now hw (List.mem_singleton_self _) hgone

/-- **Whoever needs the mutex comes to lock or to unlock it.** -/
theorem doomed_mutex (he : p.Exclusive) (hf : Flags p.pool)
    (hm : .mutex ∈ (p.workers i).needs p.queued) (hgone : p.alive .mutex = false) : p.Doomed := by
  have hqueued : .mutex ∈ (if p.queued then [Member.mutex] else []) → p.tasks ≠ [] := by
    intro h
    refine LockedPool.queued_iff.mp (Bool.eq_true_of_not_eq_false fun hq => ?_)
    rw [hq] at h
    exact absurd h (by simp)
  generalize hw : p.workers i = w at hm
  cases w with
  | lock => exact doomed_now hw (List.mem_singleton_self _) hgone
  | unlock t => exact doomed_now hw (List.mem_singleton_self _) hgone
  | take => exact doomed_take hw (he.found i hw) hgone
  | empty =>
      have hs : p.step (.worker i)
          = some (p.goto i (if p.tasks = [] then .unlock none else .take)) := by
        unfold LockedPool.step LockedPool.workerStep
        dsimp only
        rw [hw]
      by_cases ht : p.tasks = []
      · rw [if_pos ht] at hs
        exact doomed_turn hs (goto_self _) rfl (List.mem_singleton_self _) hgone
      · rw [if_neg ht] at hs
        exact doomed_step hs (doomed_take (goto_self _) ht hgone)
  | checkEmpty => exact doomed_checkEmpty hw (hqueued hm) hgone
  | checkStop =>
      have hs : p.step (.worker i) = some (p.goto i .checkEmpty) := by
        unfold LockedPool.step LockedPool.workerStep
        dsimp only
        rw [hw]
        exact congrArg some (congrArg _ (if_pos ((hf.gone hgone).2 i)))
      exact doomed_step hs (doomed_checkEmpty (goto_self _) (hqueued hm) hgone)
  | running t c =>
      cases c with
      | none => exact absurd hm (by simp [Place.needs])
      | some c => exact doomed_call hw hm hgone
  | _ => exact absurd hm (by simp [Place.needs])

/-- A call that needs the semaphore needs the mutex, or is about to release. -/
theorem call_needs_semaphore {c : Call} (hm : .semaphore ∈ c.needs) :
    .mutex ∈ c.needs ∨ .semaphore ∈ c.touches := by
  cases c <;> simp [Call.needs, Call.touches] at hm ⊢

/-- With the semaphore gone, the mutex is the next to go. -/
theorem destroy_mutex (ho : ∀ left, p.destructor = .members left → left <:+ declared.reverse)
    (hsem : p.alive .semaphore = false) (hmutex : p.alive .mutex = true) :
    ∃ q, p.step .destructor = some q ∧ q.workers = p.workers ∧ q.alive .mutex = false := by
  obtain ⟨left, hd, hleft⟩ := gone_members hsem
  have hnext : ∀ left ∈ declared.reverse.tails, left.contains .semaphore = false →
      left.contains .mutex = true → left.head? = some .mutex := by decide
  unfold LockedPool.alive at hmutex
  rw [hd] at hmutex
  obtain ⟨rest, hrest⟩ := List.head?_eq_some_iff.mp
    (hnext left ((List.mem_tails ..).mpr (ho left hd)) hleft hmutex)
  rw [hrest] at hd
  refine ⟨{ p with destructor := .members rest }, ?_, rfl, destroyed_gone ho hd⟩
  unfold LockedPool.step LockedPool.destructorStep
  dsimp only
  rw [hd]
  exact if_neg fun hblocked => absurd hblocked.1 (by decide)

/-- **Whoever needs a member that is gone comes to operate on one.** -/
theorem doomed_needs (he : p.Exclusive) (hf : Flags p.pool)
    (ho : ∀ left, p.destructor = .members left → left <:+ declared.reverse) {m : Member}
    (hm : m ∈ (p.workers i).needs p.queued) (hgone : p.alive m = false) : p.Doomed := by
  have hmutex : m = .mutex → p.Doomed := by
    intro hmm
    rw [hmm] at hm hgone
    exact doomed_mutex he hf hm hgone
  generalize hw : p.workers i = w at hm
  cases w with
  | testStopping => exact doomed_now hw hm hgone
  | acquire => exact doomed_now hw hm hgone
  | checkStop | checkEmpty =>
      rcases needs_pushed (b := false) (needs_queued hm fun _ => rfl) with hm | hm
      · exact absurd hm (by simp [Place.needs])
      · exact hmutex hm.1
  | lock => exact hmutex (List.mem_singleton.mp hm)
  | empty => exact hmutex (List.mem_singleton.mp hm)
  | take => exact hmutex (List.mem_singleton.mp hm)
  | unlock t => exact hmutex (List.mem_singleton.mp hm)
  | running t c =>
      cases c with
      | none => exact absurd hm (by simp [Place.needs])
      | some c =>
          have hcases : m = .mutex ∨ m = .semaphore := by
            cases c <;> simp [Place.needs, Call.needs] at hm <;> simp [hm]
          rcases hcases with hmm | hsem
          · exact hmutex hmm
          · rw [hsem] at hm hgone
            rcases call_needs_semaphore hm with hcm | hct
            · by_cases hma : p.alive .mutex = true
              · obtain ⟨q, hs, hworkers, hqgone⟩ := destroy_mutex ho hgone hma
                exact doomed_step hs (doomed_call ((congrFun hworkers i).trans hw) hcm hqgone)
              · exact doomed_call hw hcm (Bool.eq_false_iff.mpr hma)
            · exact doomed_now hw hct hgone
  | _ => exact absurd hm (by simp [Place.needs])

/-- **A step that is not clean dooms the pool.** -/
theorem unclean_doomed {m : Move N M} (he : q.Exclusive) (hf : Flags q.pool)
    (ho : ∀ left, p.destructor = .members left → left <:+ declared.reverse)
    (hs : p.step m = some q) (hc : ¬p.Clean m) : q.Doomed := by
  cases LockedPool.step_cases hs with
  | worker i _ _ => exact absurd trivial hc
  | clientCalls j f _ => exact absurd trivial hc
  | taskCalls i f t hw =>
      obtain ⟨m, hm, hgone⟩ : ∃ m ∈ f.entry.needs, p.alive m = false := by
        simpa [LockedPool.Clean] using hc
      refine doomed_needs (i := i) he hf ho ?_ hgone
      rw [goto_self]
      exact hm
  | client j c r c' hj hcall =>
      obtain ⟨hemplace, hgone, i, hi⟩ : p.clients j = some .emplace ∧ p.alive .mutex = false
          ∧ ∃ i, p.workers i = .checkStop ∨ p.workers i = .checkEmpty := by
        have h : p.clients j = some .emplace ∧ p.alive .mutex = false
            ∧ ∃ i, p.workers i ≠ .checkStop → p.workers i = .checkEmpty := by
          simpa [LockedPool.Clean] using hc
        obtain ⟨hj, hgone, i, hi⟩ := h
        exact ⟨hj, hgone, i, Decidable.or_iff_not_imp_left.mpr hi⟩
      rw [hj] at hemplace
      rw [Option.some.inj hemplace] at hcall
      cases hcall with
      | emplace =>
          refine doomed_needs (i := i) he hf ho (m := .mutex) ?_ hgone
          have hqueued : (LockedPool.clientAt { p with
              tasks := p.tasks ++ [p.next], pending := p.pending ++ [p.next], next := p.next + 1 } j
              (some (.unlockPush p.next))).queued = true :=
            LockedPool.queued_iff.mpr (List.append_ne_nil_of_right_ne_nil _ (by simp))
          rw [hqueued]
          have hneeds : ∀ w : Place, w = .checkStop ∨ w = .checkEmpty → .mutex ∈ w.needs true := by
            intro w hw
            rcases hw with hw | hw <;> rw [hw] <;> exact List.mem_singleton_self _
          exact hneeds _ hi
  | destructor _ hd =>
      cases hd with
      | destroy m left hd hjoin =>
          have hcm : p.destroys = some m := by
            unfold LockedPool.destroys
            rw [hd]
          obtain ⟨i, hi⟩ : ∃ i, m ∈ (p.workers i).needs p.queued := by
            simpa [LockedPool.Clean, hcm] using hc
          refine doomed_needs (i := i) he hf (fun left' hl => ?_) hi (destroyed_gone ho hd)
          injection hl with hl
          rw [← hl]
          exact (List.suffix_cons m left).trans (ho _ hd)
      | begin hd => exact absurd (by simp [LockedPool.Clean, LockedPool.destroys, hd]) hc
      | release k hd => exact absurd (by simp [LockedPool.Clean, LockedPool.destroys, hd]) hc
      | requestStop k hd => exact absurd (by simp [LockedPool.Clean, LockedPool.destroys, hd]) hc

/-- The members a worker operates on are those it needs, and the queue. -/
theorem touches_needs {w : Place} {m : Member} (b : Bool) (hm : m ∈ w.touches) :
    m ∈ w.needs b ∨ (m = .tasks ∧ w ≠ .exited) := by
  cases w with
  | running t c =>
      cases c with
      | none => exact absurd hm (by simp [Place.touches])
      | some c =>
          cases c <;> simp [Place.touches, Place.needs, Call.touches, Call.needs] at hm ⊢ <;>
            simp [hm]
  | _ => simp [Place.touches, Place.needs] at hm ⊢ <;> simp [hm]

/--
**No worker touches a destroyed member in a clean run, and in no other.**

Take a run in which each member is destroyed when no worker needs it, no task begins a
call that needs a member that is gone, and no client pushes a task after the mutex is
gone while a worker is at the tests of the `break`. Every member that the next step of a
worker operates on lives. And after a first step that is not so, some run goes on to a
worker that is about to operate on a destroyed member.
-/
theorem no_use_after_destroy (p : LockedPool N M)
    (h : Transition.Reach (Transition.When LockedPool.Clean (Transition.Of LockedPool.step)) {} p) :
    (∀ i, ∀ m ∈ (p.workers i).touches, p.alive m = true)
      ∧ ∀ m q, p.step m = some q → ¬p.Clean m →
        ∃ r, Transition.Reach (Transition.Of LockedPool.step) q r ∧ r.UsesDestroyed := by
  have hall : ∀ {p : LockedPool N M}, Transition.Reach
      (Transition.When LockedPool.Clean (Transition.Of LockedPool.step)) {} p → p.Reachable :=
    fun hr => hr.mono fun _ _ _ hs => hs.2
  have hinv : Untouched p := h.invariant untouched_init fun _ _ _ hr hi hs =>
    untouched_step (hall hr).flags hi hs.1 hs.2
  refine ⟨fun i m hm => ?_, fun m q hs hc => ?_⟩
  · rcases touches_needs p.queued hm with hm | ⟨hm, hne⟩
    · exact hinv.needs i m hm
    · -- the queue outlives the workers
      rw [hm]
      refine Bool.eq_true_of_not_eq_false fun hgone => ?_
      exact hne (hinv.joined (later_gone hinv.order .workers hgone (by decide)) i)
  · have hq : q.Reachable := (hall h).tail hs
    exact unclean_doomed hq.refines.1 hq.flags hinv.order hs hc

/-- A worker that comes to its lock late: `m_stopping` and `m_semaphore` go in a clean run,
and `m_mutex` may not. -/
theorem no_use_after_destroy_lock :
    let run : List (Move 1 1) :=
      [.clientCalls 0 .enqueue, .client 0, .client 0, .client 0, .client 0, .worker 0, .worker 0,
       .worker 0, .worker 0, .destructor, .destructor, .destructor, .destructor, .destructor,
       .destructor]
    let p := (Transition.exec (Transition.guarded LockedPool.Clean LockedPool.step) {} run).get
      (by decide)
    let q := (p.step .destructor).get (by decide)
    ((p.workers 0).touches = [.mutex] ∧ p.alive .mutex = true ∧ p.alive .semaphore = false)
      ∧ ∃ r, Transition.Reach (Transition.Of LockedPool.step) q r ∧ r.UsesDestroyed := by
  intro run p q
  have h := no_use_after_destroy p (Transition.exec_reach_when _ (Option.some_get _).symm)
  exact ⟨⟨by decide, h.1 0 .mutex (by decide), by decide⟩,
    h.2 .destructor q (Option.some_get _).symm (by decide)⟩

/-- **A worker acquires a destroyed semaphore**: it is past its loop condition when the
stop store is made, and the destructor does not wait for it before `m_semaphore` goes. -/
theorem acquire_after_destroy :
    ∃ p : LockedPool 1 0, p.Reachable ∧ p.workers 0 = .acquire ∧ p.alive .semaphore = false
      ∧ (p.step (.worker 0)).isSome = true :=
  Transition.exists_reach_of_exec
    [.worker 0, .worker 0, .destructor, .destructor, .destructor, .destructor, .destructor,
      .destructor]
    (by decide)

/-- A worker in the locked block unlocks a mutex that is gone, and so does the task it
runs, which releases a semaphore that is gone too. -/
example :
    (∃ p : LockedPool 1 1, p.Reachable ∧ p.workers 0 = .unlock (some 0)
        ∧ p.alive .mutex = false ∧ (p.step (.worker 0)).isSome = true)
      ∧ ∃ p : LockedPool 1 1, p.Reachable ∧ p.workers 0 = .running 0 (some (.release 1))
        ∧ p.alive .semaphore = false ∧ (p.step (.worker 0)).isSome = true :=
  ⟨Transition.exists_reach_of_exec
    [.clientCalls 0 .enqueue, .client 0, .client 0, .client 0, .client 0, .worker 0, .worker 0,
      .worker 0, .worker 0, .worker 0, .worker 0, .worker 0, .destructor, .destructor, .destructor,
      .destructor, .destructor, .destructor, .destructor]
    (by decide),
   Transition.exists_reach_of_exec
    [.clientCalls 0 .enqueue, .client 0, .client 0, .client 0, .client 0, .worker 0, .worker 0,
      .worker 0, .worker 0, .worker 0, .worker 0, .worker 0, .worker 0, .worker 0,
      .taskCalls 0 .enqueue, .worker 0, .destructor, .destructor, .destructor, .destructor,
      .destructor, .destructor, .destructor, .worker 0, .worker 0]
    (by decide)⟩

end QuickStructs.ThreadPool
