import QuickStructs.Lib.Lock
import QuickStructs.Thread.SpinMutex

/-!
# Mutual exclusion, and what `try_lock` does to it

`lock()` has two places where it can succeed, and both do the same thing: they find the
flag clear and set it in one step, whatever a `test` saw before. So a step of the mutex
is one of a few: a move that leaves the flag alone, a `test_and_set` that takes the
lock, one that misses, the `clear`, and the `test_and_set` of `try_lock()`, which is read
the other way round. As long as the last one is not executed, the flag tells whether the
abstract lock has a holder, and the owner is that holder.
-/

namespace QuickStructs.SpinMutex

open Lib

variable {T : Type} [DecidableEq T] {m m' : Mutex T} {a : Action T} {t u : T} {p : Thread}

/-! ## Steps, case by case -/

inductive MutexStep (m : Mutex T) : Action T → Mutex T → Prop where
  /-- A thread goes on, and the flag stays. -/
  | move (a : Action T) (t : T) (p : Thread) (ht : m.threads t ≠ .owner) (hp : p ≠ .owner)
      (htry : p = .trying → a = .tryLock t) : MutexStep m a (m.goto t p)
  /-- A `test_and_set` of `lock()` that finds the flag clear. -/
  | take (a : Action T) (t : T) (ht : m.threads t ≠ .owner) (hflag : m.flag = false) :
      MutexStep m a { m.goto t .owner with flag := true }
  /-- A `test_and_set` of `lock()` that finds the flag set. -/
  | miss (a : Action T) (t : T) (i : Nat) (ht : m.threads t ≠ .owner) (hflag : m.flag = true) :
      MutexStep m a { m.goto t (spinFrom i) with flag := true }
  | clear (t : T) (ht : m.threads t = .owner) :
      MutexStep m (.unlock t) { m.goto t .outside with flag := false }
  /-- The `test_and_set` of `try_lock()`. -/
  | try_lock (t : T) (ht : m.threads t = .trying) :
      MutexStep m (.advance t) { m.goto t (if m.flag then .owner else .outside) with
        flag := true, tries := m.tries ++ [⟨m.flag, m.flag, true⟩] }

theorem spinFrom_ne_owner (i : Nat) : spinFrom i ≠ .owner := by
  unfold spinFrom
  split <;> simp

theorem spinFrom_ne_trying (i : Nat) : spinFrom i ≠ .trying := by
  unfold spinFrom
  split <;> simp

/-- The two acquisition points are one kind of step. -/
theorem testAndSet_step (a : Action T) (i : Nat) (ht : m.threads t ≠ .owner) :
    MutexStep m a { m.goto t (if !m.flag then .owner else spinFrom i) with flag := true } := by
  cases hflag : m.flag with
  | false => exact .take a t ht hflag
  | true => exact .miss a t i ht hflag

theorem advance_cases (h : m.advance t = some m') : MutexStep m (.advance t) m' := by
  unfold Mutex.advance at h
  split at h
  · exact absurd h (by simp)
  · rename_i ht
    injection h with h
    rw [← h]
    exact testAndSet_step _ 0 (by rw [ht]; simp)
  · rename_i i ht
    injection h with h
    rw [← h]
    refine .move _ t _ (by rw [ht]; simp) ?_ ?_
    · split
      · simp
      · exact spinFrom_ne_owner (i + 1)
    · intro hp
      split at hp
      · exact absurd hp (by simp)
      · exact absurd hp (spinFrom_ne_trying (i + 1))
  · rename_i i ht
    injection h with h
    rw [← h]
    exact testAndSet_step _ (i + 1) (by rw [ht]; simp)
  · rename_i ht
    injection h with h
    rw [← h]
    exact .move _ t _ (by rw [ht]; simp) (spinFrom_ne_owner 0)
      fun hp => absurd hp (spinFrom_ne_trying 0)
  · -- `try_lock()` returns what it has read, and means the opposite
    rename_i ht
    injection h with h
    rw [← h]
    exact .try_lock t ht
  · exact absurd h (by simp)

theorem step_cases (h : step m a = some m') : MutexStep m a m' := by
  cases a with
  | advance t => exact advance_cases h
  | lock t =>
      obtain ⟨ht, rfl⟩ := Transition.of_guard h
      exact .move _ t .fast (by rw [ht]; simp) (by simp) (by simp)
  | tryLock t =>
      obtain ⟨ht, rfl⟩ := Transition.of_guard h
      exact .move _ t .trying (by rw [ht]; simp) (by simp) fun _ => rfl
  | unlock t =>
      obtain ⟨ht, rfl⟩ := Transition.of_guard h
      exact .clear t ht

/-! ## The flag and the abstract lock -/

/-- The mutex stands for a lock with this holder. -/
structure Tracks (m : Mutex T) (holder : Option T) : Prop where
  flag : m.flag = holder.isSome
  owner : Lock.Agrees (fun t => m.threads t = .owner) holder

omit [DecidableEq T] in
theorem tracks_init : Tracks ({} : Mutex T) none where
  flag := rfl
  owner := by
    intro t
    exact iff_of_false (by simp) (by simp)

/-- A step of one thread makes no other thread an owner. -/
theorem goto_other (hu : u ≠ t) :
    (Function.update m.threads t p) u = .owner ↔ m.threads u = .owner := by
  rw [Function.update_of_ne hu]

theorem tracks_goto {holder : Option T} (h : Tracks m holder) (ht : m.threads t ≠ .owner)
    (hp : p ≠ .owner) : Tracks (m.goto t p) holder where
  flag := h.flag
  owner := by
    refine h.owner.congr fun u => ?_
    show (Function.update m.threads t p) u = .owner ↔ m.threads u = .owner
    by_cases hu : u = t
    · rw [hu, Function.update_self]
      exact iff_of_false hp ht
    · exact goto_other hu

/-- **A step that is not the `test_and_set` of a `try_lock` is a step of the lock.** -/
theorem tracks_step {holder : Option T} (h : Tracks m holder) (hno : NoTry m a)
    (hs : step m a = some m') : ∃ holder', Lock.Does holder holder' ∧ Tracks m' holder' := by
  have hflag := h.flag
  cases step_cases hs with
  | move _ t p ht hp _ => exact ⟨holder, .nothing holder, tracks_goto h ht hp⟩
  | miss _ t i ht hf =>
      have hgoto := tracks_goto h ht (spinFrom_ne_owner i)
      refine ⟨holder, .nothing holder, ?_, hgoto.owner⟩
      show true = holder.isSome
      rw [← hflag, hf]
  | take _ t ht hf =>
      -- the flag was clear, so the lock was free
      rw [hf] at hflag
      have hnone : holder = none := Option.not_isSome_iff_eq_none.mp (by rw [← hflag]; simp)
      subst hnone
      refine ⟨some t, .acquire t, rfl, ?_⟩
      exact h.owner.acquire (Function.update_self ..) fun u hu => goto_other hu
  | clear t ht =>
      have hsome : holder = some t := (h.owner t).mp ht
      subst hsome
      refine ⟨none, .release t, rfl, ?_⟩
      refine h.owner.release ht ?_ fun u hu => goto_other hu
      show Function.update m.threads t .outside t ≠ .owner
      rw [Function.update_self]
      simp
  | try_lock t ht => exact absurd ht hno

/-- **The refinement, over runs without `try_lock`.** -/
theorem tracks_reach (h : Transition.Reach (Transition.When NoTry (Transition.Of step)) {} m) :
    ∃ holder, Tracks m holder := by
  refine h.invariant (I := fun m => ∃ holder, Tracks m holder) ⟨none, tracks_init⟩
    fun m a m' _ hi hs => ?_
  obtain ⟨holder, ht⟩ := hi
  obtain ⟨holder', _, ht'⟩ := tracks_step ht hs.1 hs.2
  exact ⟨holder', ht'⟩

/-! ## Threads that only call `lock` and `unlock` -/

theorem lockOnly_trying
    (h : Transition.Reach (Transition.When LockOnly (Transition.Of step)) {} m) :
    ∀ t, m.threads t ≠ .trying := by
  refine h.invariant (I := fun m => ∀ t, m.threads t ≠ .trying) (fun _ => by simp)
    fun m a m' _ hi hs => ?_
  have hmove : ∀ (t : T) (p : Thread), p ≠ .trying →
      ∀ u, (Function.update m.threads t p) u ≠ .trying := by
    intro t p hp u
    by_cases hu : u = t
    · rw [hu, Function.update_self]
      exact hp
    · rw [Function.update_of_ne hu]
      exact hi u
  cases step_cases hs.2 with
  | move _ t p _ _ htry =>
      refine hmove t p fun hp => ?_
      have honly := hs.1
      rw [htry hp] at honly
      exact honly
  | take _ t _ _ => exact hmove t .owner (by simp)
  | miss _ t i _ _ => exact hmove t _ (spinFrom_ne_trying i)
  | clear t _ => exact hmove t .outside (by simp)
  | try_lock t ht => exact absurd ht (hi t)

theorem lockOnly_noTry (h : Transition.Reach (Transition.When LockOnly (Transition.Of step)) {} m) :
    Transition.Reach (Transition.When NoTry (Transition.Of step)) {} m := by
  induction h with
  | init => exact .init
  | @tail m m' a hr hs ih =>
      refine ih.tail ⟨?_, hs.2⟩
      cases a with
      | advance t => exact lockOnly_trying hr t
      | lock t => trivial
      | tryLock t => trivial
      | unlock t => trivial

/--
**`lock` gives mutual exclusion.**

Any threads call `lock` and `unlock`, in any interleaving of their atomic operations. Then
at most one of them is past its `lock` and not yet at its `clear`, and the flag is set
exactly when there is one.
-/
theorem lock_mutual_exclusion (m : Mutex T)
    (h : Transition.Reach (Transition.When LockOnly (Transition.Of step)) {} m) :
    (∀ t u, m.threads t = .owner → m.threads u = .owner → t = u)
      ∧ (m.flag = true ↔ ∃ t, m.threads t = .owner) := by
  obtain ⟨holder, ht⟩ := tracks_reach (lockOnly_noTry h)
  refine ⟨fun t u => ht.owner.unique, ?_⟩
  rw [ht.flag]
  exact ht.owner.held_iff

/-- Two threads: one takes the fast path, the other sees the lock free in its spin phase and
misses it in the stale window. -/
theorem lock_mutual_exclusion_two :
    let m := (Transition.exec (Transition.guarded LockOnly step) ({} : Mutex (Fin 2))
      [.lock 0, .advance 0, .lock 1, .advance 1, .unlock 0, .advance 1, .lock 0, .advance 0,
        .advance 1]).get (by decide)
    (∀ t u, m.threads t = .owner → m.threads u = .owner → t = u)
      ∧ (m.flag = true ↔ ∃ t, m.threads t = .owner) :=
  lock_mutual_exclusion _ (Transition.exec_reach_when _ (Option.some_get _).symm)

/-! ## `try_lock` -/

/-- What the Lockable contract asks of a call of `try_lock()`. -/
structure Try.Lockable (x : Try) : Prop where
  taken : x.returned = true → x.before = false ∧ x.after = true
  kept : x.returned = false → x.after = x.before

/-- The contract of the mutex: at most one owner, no lock held without an owner, and every
`try_lock()` so far either took a free lock or left the lock as it was. -/
structure Lockable (m : Mutex T) : Prop where
  one_owner : ∀ t u, m.threads t = .owner → m.threads u = .owner → t = u
  owned : m.flag = true → ∃ t, m.threads t = .owner
  tries : ∀ x ∈ m.tries, x.Lockable

/-- `try_lock()` returns what the flag was, and sets it. -/
theorem tries_reachable (h : Reachable m) :
    ∀ x ∈ m.tries, x.returned = x.before ∧ x.after = true := by
  refine h.invariant (I := fun m => ∀ x ∈ m.tries, x.returned = x.before ∧ x.after = true)
    (fun x hx => absurd hx (by simp)) fun m a m' _ hi hs => ?_
  cases step_cases hs with
  | move _ t p _ _ _ => exact hi
  | take _ t _ _ => exact hi
  | miss _ t i _ _ => exact hi
  | clear t _ => exact hi
  | try_lock t _ =>
      intro x hx
      rcases List.mem_append.mp hx with hx | hx
      · exact hi x hx
      · rw [List.mem_singleton.mp hx]
        exact ⟨rfl, rfl⟩

/-- **No call of `try_lock()` meets the contract**, whether it finds the flag set or clear. -/
theorem try_not_lockable (h : Reachable m) {x : Try} (hx : x ∈ m.tries) : ¬x.Lockable := by
  intro hl
  obtain ⟨hret, hafter⟩ := tries_reachable h x hx
  cases hr : x.returned with
  | true =>
      -- the lock was held, and the caller believes it took it
      obtain ⟨hbefore, _⟩ := hl.taken hr
      rw [← hret, hr] at hbefore
      exact absurd hbefore (by decide)
  | false =>
      -- the lock was free, and is now held by nobody
      have hkept := hl.kept hr
      rw [hafter, ← hret, hr] at hkept
      exact absurd hkept (by decide)

/-- The record of the calls grows when one is executed, and only then. -/
theorem tries_step (hs : step m a = some m') :
    (NoTry m a ∧ m'.tries = m.tries) ∨ m'.tries ≠ [] := by
  by_cases hno : NoTry m a
  · refine Or.inl ⟨hno, ?_⟩
    cases step_cases hs with
    | move _ t p _ _ _ => rfl
    | take _ t _ _ => rfl
    | miss _ t i _ _ => rfl
    | clear t _ => rfl
    | try_lock t ht => exact absurd ht hno
  · refine Or.inr ?_
    cases a with
    | advance t =>
        have ht : m.threads t = .trying := Decidable.not_not.mp hno
        rw [step, Mutex.advance, ht] at hs
        injection hs with hs
        rw [← hs]
        simp
    | lock t => exact absurd trivial hno
    | tryLock t => exact absurd trivial hno
    | unlock t => exact absurd trivial hno

theorem noTry_of_tries_nil (h : Reachable m) (hm : m.tries = []) :
    Transition.Reach (Transition.When NoTry (Transition.Of step)) {} m := by
  induction h with
  | init => exact .init
  | tail hr hs ih =>
      rcases tries_step hs with ⟨hno, htries⟩ | hne
      · exact (ih (htries.symm.trans hm)).tail ⟨hno, hs⟩
      · exact absurd hm hne

/-- A run without `try_lock` keeps the contract. -/
theorem lockable_of_noTry
    (h : Transition.Reach (Transition.When NoTry (Transition.Of step)) {} m) : Lockable m := by
  obtain ⟨holder, ht⟩ := tracks_reach h
  refine ⟨fun t u => ht.owner.unique, fun hflag => ?_, ?_⟩
  · rw [ht.flag] at hflag
    exact ht.owner.held_iff.mp hflag
  · refine h.invariant (I := fun m => ∀ x ∈ m.tries, x.Lockable)
      (fun x hx => absurd hx (by simp)) fun m a m' _ hi hs => ?_
    cases step_cases hs.2 with
    | move _ t p _ _ _ => exact hi
    | take _ t _ _ => exact hi
    | miss _ t i _ _ => exact hi
    | clear t _ => exact hi
    | try_lock t ht => exact absurd ht hs.1

/--
**When the mutex is Lockable.**

In every reachable state the contract has been kept if and only if the run that led there
executed no `try_lock()`.
-/
theorem lockable_iff_noTry (m : Mutex T) (h : Reachable m) :
    Lockable m ↔ Transition.Reach (Transition.When NoTry (Transition.Of step)) {} m := by
  constructor
  · intro hl
    refine noTry_of_tries_nil h (List.eq_nil_iff_forall_not_mem.mpr fun x hx => ?_)
    exact try_not_lockable h hx (hl.tries x hx)
  · exact lockable_of_noTry

/-- One thread owns the lock through `lock()`, another waits for it. -/
theorem lockable_iff_noTry_two :
    let m := (Transition.exec step ({} : Mutex (Fin 2))
      [.lock 0, .advance 0, .lock 1, .advance 1]).get (by decide)
    Lockable m ↔ Transition.Reach (Transition.When NoTry (Transition.Of step)) {} m :=
  lockable_iff_noTry _ (Transition.exec_reach _ (Option.some_get _).symm)

/-- **Two owners**: one thread is past `lock()`, and the other's `try_lock()` returns true. -/
theorem try_lock_two_owners :
    ∃ m : Mutex (Fin 2), Reachable m ∧ m.threads 0 = .owner ∧ m.threads 1 = .owner
      ∧ m.tries = [⟨true, true, true⟩] ∧ ¬Lockable m := by
  let m := (Transition.exec step ({} : Mutex (Fin 2))
    [.lock 0, .advance 0, .tryLock 1, .advance 1]).get (by decide)
  have h0 : m.threads 0 = .owner := by decide
  have h1 : m.threads 1 = .owner := by decide
  refine ⟨m, Transition.exec_reach _ (Option.some_get _).symm, h0, h1, by decide, fun hl => ?_⟩
  exact absurd (hl.one_owner 0 1 h0 h1) (by decide)

end QuickStructs.SpinMutex
