import Mathlib.Data.Fintype.Basic
import QuickStructs.Proof.MutexExcl
import QuickStructs.Thread.SpinMutexWeak

/-!
# What the mutex is there for

The owner of the mutex knows all accesses to what the mutex protects, and when the mutex is free
the flag passes them on: the `clear` left them there, and the `test_and_set` that takes the lock
takes them too. A `test_and_set` that misses neither takes anything away nor needs to learn.
-/

namespace QuickStructs.SpinMutex

open Lib

variable {T C : Type}
variable {w w' : Weak T C} {m m' : Mutex T} {a : Action T} {t u : T} {p : Thread} {c : C}
variable {o : Orders} {order : MemoryOrder}

/-! ## The invariant -/

structure WeakInv (w : Weak T C) : Prop where
  locked : ∃ holder, Tracks w.mutex holder
  trying : ∀ t, w.mutex.threads t ≠ .trying
  owned : ∀ t, w.mutex.threads t = .owner → ∀ c, w.before.Knows t c
  free : w.mutex.flag = false →
    ∀ c, w.before.reads c ≤ w.before.passes () ∧ w.before.writes c ≤ w.before.passes ()
  clean : w.before.raced = false

theorem weak_init : WeakInv ({} : Weak T C) where
  locked := ⟨none, tracks_init⟩
  trying := fun _ => by simp
  owned := fun _ ht => absurd ht (by simp)
  free := fun _ _ => ⟨le_rfl, le_rfl⟩
  clean := rfl

/-- **An access of the owner.** -/
theorem weak_access (hi : WeakInv w) (ht : w.mutex.threads t = .owner) {s : Before T Unit C}
    (hknows : ∀ d, w.before.Knows t d → s.Knows t d) (hraced : s.raced = false) :
    WeakInv { w with before := s } where
  locked := hi.locked
  trying := hi.trying
  owned := by
    intro u hu d
    obtain ⟨holder, hl⟩ := hi.locked
    obtain rfl := hl.owner.unique hu ht
    exact hknows d (hi.owned u hu d)
  free := by
    intro hflag
    obtain ⟨holder, hl⟩ := hi.locked
    have hheld := hl.owner.held_iff.mpr ⟨t, ht⟩
    have htrue : w.mutex.flag = true := hl.flag.trans hheld
    exact absurd (htrue.symm.trans hflag) (by decide)
  clean := hraced

/-! ## Step by step -/

variable [DecidableEq T]

/-- No thread gets into `try_lock`. -/
theorem not_trying (h : ∀ u, m.threads u ≠ .trying) (hp : p ≠ .trying) (t u : T) :
    (m.goto t p).threads u ≠ .trying := by
  show Function.update m.threads t p u ≠ .trying
  by_cases hu : u = t
  · rw [hu, Function.update_self]
    exact hp
  · rw [Function.update_of_ne hu]
    exact h u

/-- A thread that goes on without the flag. -/
theorem weak_move (hi : WeakInv w) (ht : w.mutex.threads t ≠ .owner) (hp : p ≠ .owner)
    (hp' : p ≠ .trying) : WeakInv { w with mutex := w.mutex.goto t p } where
  locked := by
    obtain ⟨holder, hl⟩ := hi.locked
    exact ⟨holder, tracks_goto hl ht hp⟩
  trying := not_trying hi.trying hp' t
  owned := by
    intro u hu
    by_cases hut : u = t
    · have hself : Function.update w.mutex.threads t p u = .owner := hu
      rw [hut, Function.update_self] at hself
      exact absurd hself hp
    · exact hi.owned u ((goto_other hut).mp hu)
  free := hi.free
  clean := hi.clean

/-- **A `test_and_set` of `lock`**: whether it takes the lock or not. -/
theorem weak_testAndSet (hi : WeakInv w) (horder : order.acquires = true) (i : Nat)
    (hs : step w.mutex (.advance t)
      = some { w.mutex.goto t (if !w.mutex.flag then .owner else spinFrom i) with flag := true }) :
    WeakInv { mutex := { w.mutex.goto t (if !w.mutex.flag then .owner else spinFrom i) with
                flag := true }
              before := w.before.exchange order t () } where
  locked := by
    obtain ⟨holder, hl⟩ := hi.locked
    obtain ⟨holder', _, hl'⟩ := tracks_step (a := .advance t) hl (hi.trying t) hs
    exact ⟨holder', hl'⟩
  trying := by
    refine not_trying hi.trying ?_ t
    split
    · simp
    · exact spinFrom_ne_trying i
  owned := by
    intro u hu c
    have hgrows := Before.grows_exchange w.before order t ()
    by_cases hut : u = t
    · subst hut
      have hself : Function.update w.mutex.threads u _ u = .owner := hu
      rw [Function.update_self] at hself
      cases hflag : w.mutex.flag with
      | true =>
          rw [hflag] at hself
          exact absurd hself (spinFrom_ne_owner i)
      | false =>
          -- the lock was free, and the flag had it all
          obtain ⟨hreads, hwrites⟩ := hi.free hflag c
          have hlearn := Before.passes_le_exchange w.before horder u ()
          exact ⟨le_trans hreads hlearn, le_trans hwrites hlearn⟩
    · obtain ⟨hreads, hwrites⟩ := hi.owned u ((goto_other hut).mp hu) c
      exact ⟨le_trans hreads (hgrows.knows u), le_trans hwrites (hgrows.knows u)⟩
  free := fun hflag => absurd hflag (by simp)
  clean := hi.clean

/-- **The `clear` of `unlock`**: what the owner knows stays at the flag. -/
theorem weak_clear (hi : WeakInv w) (horder : order.releases = true)
    (ht : w.mutex.threads t = .owner) :
    WeakInv { mutex := { w.mutex.goto t .outside with flag := false }
              before := w.before.store order t () } where
  locked := by
    obtain ⟨holder, hl⟩ := hi.locked
    have hs : step w.mutex (.unlock t) = some { w.mutex.goto t .outside with flag := false } :=
      if_pos ht
    obtain ⟨holder', _, hl'⟩ := tracks_step (a := .unlock t) hl trivial hs
    exact ⟨holder', hl'⟩
  trying := not_trying hi.trying (by simp) t
  owned := by
    intro u hu
    by_cases hut : u = t
    · have hself : Function.update w.mutex.threads t .outside u = .owner := hu
      rw [hut, Function.update_self] at hself
      exact absurd hself (by simp)
    · -- there was no other owner
      obtain ⟨holder, hl⟩ := hi.locked
      exact absurd (hl.owner.unique ((goto_other hut).mp hu) ht) hut
  free := by
    intro _ c
    have hpasses := Before.passes_store w.before horder t ()
    show w.before.reads c ≤ _ ∧ w.before.writes c ≤ _
    rw [hpasses]
    exact hi.owned t ht c
  clean := hi.clean

theorem weak_advance (ho : o.fast.acquires = true ∧ o.spin.acquires = true) (hi : WeakInv w)
    {seen : Bool} (hs : w.advance o t seen = some w') : WeakInv w' := by
  cases ht : w.mutex.threads t with
  | outside =>
      simp only [Weak.advance, ht, step, Mutex.advance] at hs
      exact absurd hs (by simp)
  | fast =>
      have hstep : step w.mutex (.advance t) = some
          { w.mutex.goto t (if !w.mutex.flag then .owner else spinFrom 0) with flag := true } := by
        simp only [step, Mutex.advance, ht]
      simp only [Weak.advance, Weak.exchange, ht, hstep, Option.map_some, Option.some.injEq] at hs
      subst hs
      exact weak_testAndSet hi ho.1 0 hstep
  | test i =>
      simp only [Weak.advance, ht, step, Mutex.advance, Option.map_some, Option.some.injEq] at hs
      subst hs
      refine weak_move hi (by rw [ht]; simp) ?_ ?_
      · split
        · simp
        · exact spinFrom_ne_owner (i + 1)
      · split
        · simp
        · exact spinFrom_ne_trying (i + 1)
  | testAndSet i =>
      have hstep : step w.mutex (.advance t) = some
          { w.mutex.goto t (if !w.mutex.flag then .owner else spinFrom (i + 1)) with
            flag := true } := by
        simp only [step, Mutex.advance, ht]
      simp only [Weak.advance, Weak.exchange, ht, hstep, Option.map_some, Option.some.injEq] at hs
      subst hs
      exact weak_testAndSet hi ho.2 (i + 1) hstep
  | yield =>
      simp only [Weak.advance, Weak.exchange, ht, step, Mutex.advance, Option.map_some,
        Option.some.injEq] at hs
      subst hs
      exact weak_move hi (by rw [ht]; simp) (spinFrom_ne_owner 0) (spinFrom_ne_trying 0)
  | trying => exact absurd ht (hi.trying t)
  | owner =>
      simp only [Weak.advance, ht, step, Mutex.advance] at hs
      exact absurd hs (by simp)

variable [DecidableEq C] [Fintype T]

theorem weak_step {x : WeakAction T C}
    (ho : o.fast.acquires = true ∧ o.spin.acquires = true ∧ o.clear.releases = true)
    (hi : WeakInv w) (hlock : WeakLockOnly w x) (hs : weakStep o w x = some w') : WeakInv w' := by
  cases x with
  | lock t =>
      obtain ⟨m', hm, rfl⟩ := Option.map_eq_some_iff.mp hs
      obtain ⟨ht, rfl⟩ := Transition.of_guard hm
      exact weak_move hi (by rw [ht]; simp) (by simp) (by simp)
  | tryLock t => exact absurd hlock id
  | unlock t =>
      obtain ⟨m', hm, rfl⟩ := Option.map_eq_some_iff.mp hs
      obtain ⟨ht, rfl⟩ := Transition.of_guard hm
      exact weak_clear hi ho.2.2 ht
  | advance t seen => exact weak_advance ⟨ho.1, ho.2.1⟩ hi hs
  | read t c =>
      obtain ⟨ht, rfl⟩ := Transition.of_guard hs
      refine weak_access hi ht ?_ (Before.read_raced hi.clean (hi.owned t ht c).2)
      intro d hd
      exact Before.knows_of_read hd fun _ => rfl
  | write t c =>
      obtain ⟨ht, rfl⟩ := Transition.of_guard hs
      refine weak_access hi ht ?_ (Before.write_raced hi.clean (hi.owned t ht c))
      intro d hd
      exact Before.knows_of_write hd fun _ => rfl

theorem weak_inv_reachable
    (ho : o.fast.acquires = true ∧ o.spin.acquires = true ∧ o.clear.releases = true)
    (h : WeakReachable o w) : WeakInv w :=
  h.invariant weak_init fun _ _ _ _ hi hs => weak_step ho hi hs.1 hs.2

/--
**What the mutex is there for.**

Any threads call `lock` and `unlock`, and make accesses to any cells while they own the mutex. With
the memory orders of the code no access races, there is at most one owner, and all accesses of all
threads happen before what the owner does next.
-/
theorem critical_ordered (w : Weak T C) (h : WeakReachable {} w) :
    w.before.raced = false
      ∧ (∀ t u, w.mutex.threads t = .owner → w.mutex.threads u = .owner → t = u)
      ∧ ∀ t, w.mutex.threads t = .owner → ∀ c, w.before.Knows t c := by
  have hi := weak_inv_reachable ⟨rfl, rfl, rfl⟩ h
  obtain ⟨holder, hl⟩ := hi.locked
  exact ⟨hi.clean, fun t u => hl.owner.unique, hi.owned⟩

/-- One thread writes and unlocks, another one takes the lock and reads. -/
def inTurn (t u : T) (c : C) : List (WeakAction T C) :=
  [.lock t, .advance t true, .write t c, .unlock t, .lock u, .advance u true, .read u c]

theorem critical_ordered_turn :
    let w := (Transition.exec (Transition.guarded WeakLockOnly (weakStep {})) {}
      (inTurn (0 : Fin 2) 1 ())).get (by decide)
    w.before.reads () 1 = 1 ∧ w.before.writes () 0 = 1 ∧ w.before.raced = false :=
  ⟨by decide, by decide, (critical_ordered _
    (Transition.exec_reach_when _ (Option.some_get _).symm)).1⟩

/-! ## Each order is needed -/

/-- The second thread has come too early, and takes the lock in its spin phase. -/
def inTurnSpinning (t u : T) (c : C) : List (WeakAction T C) :=
  [.lock t, .advance t true, .lock u, .advance u true, .write t c, .unlock t, .advance u false,
    .advance u true, .read u c]

theorem inTurn_races (o : Orders) (ho : ¬(o.fast.acquires = true ∧ o.clear.releases = true)) :
    (Transition.exec (Transition.guarded WeakLockOnly (weakStep o)) {}
      (inTurn (0 : Fin 2) 1 ())).any (fun w => w.before.raced) = true := by
  obtain ⟨fast, spin, tryLock, clear⟩ := o
  cases fast <;> cases clear <;> first | exact absurd ⟨rfl, rfl⟩ ho | rfl

theorem inTurnSpinning_races (o : Orders) (ho : ¬o.spin.acquires = true) :
    (Transition.exec (Transition.guarded WeakLockOnly (weakStep o)) {}
      (inTurnSpinning (0 : Fin 2) 1 ())).any (fun w => w.before.raced) = true := by
  obtain ⟨fast, spin, tryLock, clear⟩ := o
  cases spin <;> cases fast <;> cases clear <;> first | exact absurd rfl ho | rfl

/-- A run that races, under these orders. -/
theorem not_free_of_races {run : List (WeakAction (Fin 2) Unit)}
    (hraces : (Transition.exec (Transition.guarded WeakLockOnly (weakStep o)) {} run).any
      (fun w => w.before.raced) = true) :
    ¬∀ w : Weak (Fin 2) Unit, WeakReachable o w → w.before.raced = false := by
  intro hfree
  cases hr : Transition.exec (Transition.guarded WeakLockOnly (weakStep o)) {} run with
  | none =>
      rw [hr] at hraces
      exact Bool.false_ne_true hraces
  | some w =>
      rw [hr] at hraces
      have hclean := hfree w (Transition.exec_reach_when _ hr)
      exact Bool.false_ne_true (hclean.symm.trans hraces)

/--
**The weakest orders that make it a mutex.**

No run of threads that call `lock` and `unlock` races for what the mutex protects if and only if
both `test_and_set`s of `lock` acquire and the `clear` of `unlock` releases, as in the code.
-/
theorem lock_orders_iff (o : Orders) :
    (∀ (T C : Type) [DecidableEq T] [DecidableEq C] [Fintype T] (w : Weak T C),
      WeakReachable o w → w.before.raced = false) ↔
      o.fast.acquires = true ∧ o.spin.acquires = true ∧ o.clear.releases = true := by
  constructor
  · intro hfree
    have hnone : ∀ w : Weak (Fin 2) Unit, WeakReachable o w → w.before.raced = false := fun w hw =>
      hfree (Fin 2) Unit w hw
    have hturn : o.fast.acquires = true ∧ o.clear.releases = true := by
      by_contra ho
      exact not_free_of_races (inTurn_races o ho) hnone
    have hspin : o.spin.acquires = true := by
      by_contra ho
      exact not_free_of_races (inTurnSpinning_races o ho) hnone
    exact ⟨hturn.1, hspin, hturn.2⟩
  · intro ho T C _ _ _ w hw
    exact (weak_inv_reachable ho hw).clean

end QuickStructs.SpinMutex
