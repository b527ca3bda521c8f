import QuickStructs.Lib.Progress
import QuickStructs.Proof.MutexExcl
import Mathlib.Data.Fin.Basic

/-!
# When somebody gets the lock

A thread in `lock()` that finds the flag clear is at most three operations away from setting it:
the `yield`, the `test` and the `test_and_set`. Until then only another thread can set it, which
then owns the lock. So the lock is never stuck while its threads move; but it may pass one of
them over for ever. After `try_lock()` all this is lost: the flag it sets on a free lock is
cleared by no one, and who is not in `try_lock()` himself never gets past it.
-/

namespace QuickStructs.SpinMutex

open Lib Progress

variable {T : Type} [DecidableEq T] {m m' : Mutex T} {a : Action T} {t u : T}

/-- The states that a run without calls of `try_lock()` leads to. -/
abbrev LockOnlyReach (m m' : Mutex T) : Prop :=
  Transition.Reach (Transition.When LockOnly (Transition.Of step)) m m'

/-! ## Somebody gets it -/

/-- The operations before the one that sets the flag, as long as it stays clear. -/
def Thread.ahead : Thread → Nat
  | .yield => 2
  | .test _ => 1
  | _ => 0

/-- The lock is free, and no `try_lock()` is under way. -/
def Free (m : Mutex T) : Prop := m.flag = false ∧ ∀ t, m.threads t ≠ .trying

theorem goto_self (p : Thread) : (m.goto t p).threads t = p := Function.update_self ..

theorem goto_of_ne (hu : u ≠ t) (p : Thread) : (m.goto t p).threads u = m.threads u :=
  Function.update_of_ne hu ..

theorem free_goto {p : Thread} (h : Free m) (hp : p ≠ .trying) : Free (m.goto t p) := by
  refine ⟨h.1, fun u => ?_⟩
  by_cases hu : u = t
  · rw [hu, goto_self]
    exact hp
  · rw [goto_of_ne hu]
    exact h.2 u

/-- One operation of a thread that finds the lock free brings it nearer. -/
theorem advance_free (h : Free m) (hs : m.advance u = some m') :
    (∃ o, m'.threads o = .owner)
      ∨ ∃ p, m' = m.goto u p ∧ p ≠ .trying ∧ p.ahead + 1 = (m.threads u).ahead := by
  have hnot : (!m.flag) = true := by rw [h.1]; rfl
  unfold Mutex.advance at hs
  split at hs
  · exact absurd hs (by simp)
  · rw [if_pos hnot, Option.some.injEq] at hs
    exact .inl ⟨u, hs ▸ goto_self _⟩
  · rename_i i ht
    rw [if_pos hnot, Option.some.injEq] at hs
    exact .inr ⟨.testAndSet i, hs.symm, by simp, by rw [ht]; rfl⟩
  · rw [if_pos hnot, Option.some.injEq] at hs
    exact .inl ⟨u, hs ▸ goto_self _⟩
  · rename_i ht
    rw [Option.some.injEq] at hs
    exact .inr ⟨.test 0, hs.symm, by simp, by rw [ht]; rfl⟩
  · rename_i ht
    exact absurd ht (h.2 u)
  · exact absurd hs (by simp)

/-- A step of the others does not take a thread further away. -/
theorem free_step (t : T) (h : Free m) (hs : Transition.guarded LockOnly step m a = some m') :
    (∃ o, m'.threads o = .owner)
      ∨ Free m' ∧ (m'.threads t).ahead + credit (· == .advance t) a ≤ (m.threads t).ahead := by
  obtain ⟨hn, hs⟩ := Option.ite_none_right_eq_some.mp hs
  -- a step that is not counted, at a thread that has nothing ahead afterwards
  have hother : ∀ {u : T} {p : Thread}, p ≠ .trying → p.ahead ≤ (m.threads u).ahead →
      (a == .advance t) = false → Free (m.goto u p)
        ∧ ((m.goto u p).threads t).ahead + credit (· == .advance t) a ≤ (m.threads t).ahead := by
    intro u p hp hle ha
    refine ⟨free_goto h hp, ?_⟩
    rw [credit, ha]
    by_cases hut : t = u
    · rw [hut, goto_self]
      exact hle
    · rw [goto_of_ne hut]
      exact Nat.le_refl _
  cases a with
  | lock u =>
      obtain ⟨_, rfl⟩ := Transition.of_guard hs
      exact .inr (hother (by simp) (Nat.zero_le _) rfl)
  | tryLock u => exact absurd hn id
  | unlock u =>
      obtain ⟨hu, rfl⟩ := Transition.of_guard hs
      refine .inr ⟨⟨rfl, (free_goto h (t := u) (p := .outside) (by simp)).2⟩, ?_⟩
      exact (hother (u := u) (p := .outside) (by simp) (Nat.zero_le _) rfl).2
  | advance u =>
      rcases advance_free h hs with howner | ⟨p, rfl, hp, hahead⟩
      · exact .inl howner
      · by_cases hut : t = u
        · subst hut
          refine .inr ⟨free_goto h hp, ?_⟩
          rw [goto_self, credit, if_pos (by simp)]
          exact Nat.le_of_eq hahead
        · exact .inr (hother hp (by omega) (by simpa using fun he => hut he.symm))

theorem ahead_le (p : Thread) : p.ahead ≤ 2 := by
  cases p <;> simp [Thread.ahead]

/--
**The lock is not stuck.**

Any threads call `lock` and `unlock`. However they go on, as soon as one and the same thread has
made three operations in its calls of `lock`, there was a moment at which some thread owned the
lock.
-/
theorem lock_progress (m m' : Mutex T) (h : LockOnlyReach {} m) (t : T) (as : List (Action T))
    (hrun : Transition.exec (Transition.guarded LockOnly step) m as = some m')
    (hthree : 3 ≤ as.count (.advance t)) :
    Passes (Transition.guarded LockOnly step) (fun m => ∃ o, m.threads o = .owner) m as := by
  cases hflag : m.flag with
  | true =>
      obtain ⟨holder, ht⟩ := tracks_reach (lockOnly_noTry h)
      exact .here (ht.owner.held_iff.mp (ht.flag.symm.trans hflag))
  | false =>
      refine passes_of_rank (fun m => (m.threads t).ahead) (· == .advance t)
        (fun s a s' hi hs => free_step t hi hs) as ⟨hflag, lockOnly_trying h⟩ hrun ?_
      have hle := ahead_le (m.threads t)
      show _ < as.countP (· == .advance t)
      rw [← List.count]
      omega

/-- One thread unlocks, and the other takes the lock in the third of its operations. -/
theorem lock_progress_two :
    let m := (Transition.exec (Transition.guarded LockOnly step) ({} : Mutex (Fin 2))
      [.lock 0, .advance 0, .lock 1, .advance 1]).get (by decide)
    Passes (Transition.guarded LockOnly step) (fun m => ∃ o, m.threads o = .owner) m
      [.advance 1, .unlock 0, .advance 1, .lock 0, .advance 1] :=
  lock_progress _ _ (Transition.exec_reach_when _ (Option.some_get _).symm) 1 _
    (Option.some_get (by decide)).symm (by decide)

/-! ## But not everybody -/

/-- One thread owns the lock, the other is in its spin phase or yields. -/
def Overtakes (o w : T) (m : Mutex T) : Prop :=
  m.flag = true ∧ m.threads o = .owner ∧ ((∃ i, m.threads w = .test i) ∨ m.threads w = .yield)

theorem spinFrom_spins (i : Nat) : (∃ j, spinFrom i = .test j) ∨ spinFrom i = .yield := by
  unfold spinFrom
  split
  · exact .inl ⟨i, rfl⟩
  · exact .inr rfl

/-- A thread in its spin phase goes on spinning if it finds the flag set. -/
theorem spin_held {w : T} (hflag : m.flag = true)
    (h : (∃ i, m.threads w = .test i) ∨ m.threads w = .yield) :
    ∃ i, m.advance w = some (m.goto w (spinFrom i)) := by
  rcases h with ⟨i, hw⟩ | hw
  · refine ⟨i + 1, ?_⟩
    rw [Mutex.advance, hw, hflag]
    rfl
  · refine ⟨0, ?_⟩
    rw [Mutex.advance, hw]

/-- What one round of the two threads consists of. -/
def overtaking (o w : T) : List (Action T) := [.unlock o, .lock o, .advance o, .advance w]

/-- The owner unlocks and locks again, and the other finds the flag set once more. -/
theorem overtakes_again {o w : T} (hne : w ≠ o) (h : Overtakes o w m) :
    ∃ m', Transition.exec (Transition.guarded LockOnly step) m (overtaking o w) = some m'
      ∧ Overtakes o w m' := by
  obtain ⟨hflag, howner, hspin⟩ := h
  let m₁ : Mutex T := { m.goto o .outside with flag := false }
  let m₂ : Mutex T := m₁.goto o .fast
  let m₃ : Mutex T := { m₂.goto o .owner with flag := true }
  have h₁ : step m (.unlock o) = some m₁ := if_pos howner
  have h₂ : step m₁ (.lock o) = some m₂ := if_pos (goto_self (m := m) .outside)
  have h₃ : step m₂ (.advance o) = some m₃ := by
    have hfast : m₂.threads o = .fast := goto_self _
    rw [step, Mutex.advance, hfast]
    rfl
  have hw : m₃.threads w = m.threads w := by
    show (m₂.goto o .owner).threads w = _
    rw [goto_of_ne hne, goto_of_ne hne]
    exact goto_of_ne hne _
  obtain ⟨i, h₄⟩ := spin_held (m := m₃) (w := w) rfl (by rw [hw]; exact hspin)
  refine ⟨m₃.goto w (spinFrom i), ?_, rfl, ?_, ?_⟩
  · simp only [overtaking, Transition.exec, Transition.guarded, LockOnly, if_true, h₁, h₂, h₃,
      Option.bind_some]
    rw [step, h₄]
    rfl
  · rw [goto_of_ne (Ne.symm hne)]
    exact goto_self _
  · rw [goto_self]
    exact spinFrom_spins i

theorem overtakes_rounds {o w : T} (hne : w ≠ o) : ∀ (n : Nat) {m : Mutex T}, Overtakes o w m →
    ∃ m', Transition.exec (Transition.guarded LockOnly step) m
        (List.replicate n (overtaking o w)).flatten = some m' ∧ Overtakes o w m' := by
  intro n
  induction n with
  | zero =>
      intro m h
      exact ⟨m, rfl, h⟩
  | succ n ih =>
      intro m h
      obtain ⟨m₁, hround, h₁⟩ := overtakes_again hne h
      obtain ⟨m', hrest, h'⟩ := ih h₁
      refine ⟨m', ?_, h'⟩
      rw [List.replicate_succ, List.flatten_cons, Transition.exec_append, hround]
      exact hrest

/-- How it begins: one thread owns the lock, and the other comes. -/
theorem overtakes_start {o w : T} (hne : w ≠ o) :
    ∃ m, Transition.exec (Transition.guarded LockOnly step) ({} : Mutex T)
      [.lock o, .advance o, .lock w, .advance w] = some m ∧ Overtakes o w m := by
  let m₁ : Mutex T := ({} : Mutex T).goto o .fast
  let m₂ : Mutex T := { m₁.goto o .owner with flag := true }
  let m₃ : Mutex T := m₂.goto w .fast
  have h₁ : step ({} : Mutex T) (.lock o) = some m₁ := by
    rw [step, if_pos rfl]
  have h₂ : step m₁ (.advance o) = some m₂ := by
    have hfast : m₁.threads o = .fast := goto_self _
    rw [step, Mutex.advance, hfast]
    rfl
  have hw : m₂.threads w = .outside := by
    show (m₁.goto o .owner).threads w = _
    rw [goto_of_ne hne, goto_of_ne hne]
  have h₃ : step m₂ (.lock w) = some m₃ := if_pos hw
  have h₄ : step m₃ (.advance w) = some { m₃.goto w (spinFrom 0) with flag := true } := by
    have hfast : m₃.threads w = .fast := goto_self _
    rw [step, Mutex.advance, hfast]
    rfl
  refine ⟨{ m₃.goto w (spinFrom 0) with flag := true }, ?_, rfl, ?_, ?_⟩
  · simp only [Transition.exec, Transition.guarded, LockOnly, if_true, h₁, h₂, h₃, h₄,
      Option.bind_some]
  · show (m₃.goto w (spinFrom 0)).threads o = .owner
    rw [goto_of_ne (Ne.symm hne), goto_of_ne (Ne.symm hne)]
    exact goto_self _
  · show (∃ i, (m₃.goto w (spinFrom 0)).threads w = .test i) ∨ _
    rw [goto_self]
    exact spinFrom_spins 0

/-- An owner stays the owner until it unlocks. -/
theorem owner_stays {w : T} (hw : m.threads w = .owner) (ha : a ≠ .unlock w)
    (hs : step m a = some m') : m'.threads w = .owner := by
  have hother : ∀ {u : T} (p : Thread), m.threads u ≠ .owner → (m.goto u p).threads w = .owner := by
    intro u p hu
    have hne : w ≠ u := by
      rintro rfl
      exact hu hw
    rw [goto_of_ne hne]
    exact hw
  cases step_cases hs with
  | move _ t p ht _ _ => exact hother p ht
  | take _ t ht _ => exact hother _ ht
  | miss _ t i ht _ => exact hother _ ht
  | clear t ht =>
      have hne : w ≠ t := by
        rintro rfl
        exact ha rfl
      exact (goto_of_ne hne _).trans hw
  | try_lock t ht => exact hother _ (by rw [ht]; simp)

theorem owner_stays_run {w : T} : ∀ (as : List (Action T)) {m m' : Mutex T},
    m.threads w = .owner → .unlock w ∉ as →
    Transition.exec (Transition.guarded LockOnly step) m as = some m' → m'.threads w = .owner := by
  intro as
  induction as with
  | nil =>
      intro m m' hw _ hrun
      rw [Transition.exec, Option.some.injEq] at hrun
      rw [← hrun]
      exact hw
  | cons a as ih =>
      intro m m' hw ha hrun
      rw [List.mem_cons, not_or] at ha
      obtain ⟨m₁, hs, hrest⟩ := exec_cons hrun
      have hs' := (Option.ite_none_right_eq_some.mp hs).2
      exact ih (owner_stays hw (Ne.symm ha.1) hs') ha.2 hrest

/--
**A thread can be overtaken for ever.**

Of any two threads one can own the lock and give it up `n` times, while the other makes more than
`n` operations in one and the same call of `lock` and never owns the lock.
-/
theorem lock_starves (o w : T) (hne : w ≠ o) (n : Nat) :
    ∃ as m', Transition.exec (Transition.guarded LockOnly step) ({} : Mutex T) as = some m'
      ∧ as.count (.unlock o) = n ∧ as.count (.lock w) = 1 ∧ as.count (.advance w) = n + 1
      ∧ ∀ k mk, Transition.exec (Transition.guarded LockOnly step) {} (as.take k) = some mk →
          mk.threads w ≠ .owner := by
  obtain ⟨m₀, hstart, h₀⟩ := overtakes_start hne
  obtain ⟨m', hrounds, _, _, hspin⟩ := overtakes_rounds hne n h₀
  have how : o ≠ w := Ne.symm hne
  have hcount : ∀ (b : Action T) (k : Nat), (List.replicate k (overtaking o w)).flatten.count b
      = k * (overtaking o w).count b := by
    intro b k
    induction k with
    | zero => simp
    | succ k ih =>
        rw [List.replicate_succ, List.flatten_cons, List.count_append, ih, Nat.succ_mul,
          Nat.add_comm]
  have hrun : Transition.exec (Transition.guarded LockOnly step) ({} : Mutex T)
      ([.lock o, .advance o, .lock w, .advance w]
        ++ (List.replicate n (overtaking o w)).flatten) = some m' := by
    rw [Transition.exec_append, hstart]
    exact hrounds
  refine ⟨_, m', hrun, ?_, ?_, ?_, ?_⟩
  · rw [List.count_append, hcount]
    simp [overtaking]
  · rw [List.count_append, hcount]
    simp [overtaking, how]
  · rw [List.count_append, hcount]
    simp [overtaking, how]
    omega
  · intro k mk hk howner
    have hall := hrun
    rw [← List.take_append_drop k (_ ++ _), Transition.exec_append, hk] at hall
    have hnever : .unlock w ∉ [.lock o, .advance o, .lock w, .advance w]
        ++ (List.replicate n (overtaking o w)).flatten := by
      simp [overtaking, hne]
    have hend := owner_stays_run _ howner (fun hmem => hnever (List.mem_of_mem_drop hmem)) hall
    rcases hspin with ⟨i, hi⟩ | hy
    · rw [hi] at hend
      exact absurd hend (by simp)
    · rw [hy] at hend
      exact absurd hend (by simp)

/-- Three times. -/
theorem lock_starves_three :
    ∃ as m', Transition.exec (Transition.guarded LockOnly step) ({} : Mutex (Fin 2)) as = some m'
      ∧ as.count (.unlock 0) = 3 ∧ as.count (.lock 1) = 1 ∧ as.count (.advance 1) = 4
      ∧ ∀ k mk, Transition.exec (Transition.guarded LockOnly step) {} (as.take k) = some mk →
          mk.threads 1 ≠ .owner :=
  lock_starves 0 1 (by decide) 3

/-! ## After `try_lock()` -/

/-- The flag is set, by no owner, and nobody is in `try_lock()`. -/
def Lost (m : Mutex T) : Prop :=
  m.flag = true ∧ ∀ t, m.threads t ≠ .owner ∧ m.threads t ≠ .trying

theorem lost_goto {p : Thread} (h : Lost m) (hp : p ≠ .owner) (hp' : p ≠ .trying) :
    Lost { m.goto t p with flag := true } := by
  refine ⟨rfl, fun u => ?_⟩
  by_cases hu : u = t
  · show (m.goto t p).threads u ≠ _ ∧ (m.goto t p).threads u ≠ _
    rw [hu, goto_self]
    exact ⟨hp, hp'⟩
  · show (m.goto t p).threads u ≠ _ ∧ (m.goto t p).threads u ≠ _
    rw [goto_of_ne hu]
    exact h.2 u

/-- **A lost lock is not found again.** -/
theorem lost_stays (hm : Lost m) (h : LockOnlyReach m m') : Lost m' := by
  refine h.invariant hm fun m a m' _ hi hs => ?_
  cases step_cases hs.2 with
  | move _ t p _ hp htry =>
      have hp' : p ≠ .trying := fun he => by
        have honly := hs.1
        rw [htry he] at honly
        exact honly
      have hgoto := lost_goto (t := t) hi hp hp'
      exact ⟨hi.1, hgoto.2⟩
  | take _ t _ hflag => exact absurd (hi.1.symm.trans hflag) (by decide)
  | miss _ t i _ _ => exact lost_goto hi (spinFrom_ne_owner i) (spinFrom_ne_trying i)
  | clear t ht => exact absurd ht (hi.2 t).1
  | try_lock t ht => exact absurd ht (hi.2 t).2

theorem lockOnly_one (ha : LockOnly m a) (hs : step m a = some m') : LockOnlyReach m m' :=
  Transition.Reach.tail .init ⟨ha, hs⟩

/-- A thread at a `test_and_set` of `lock()` takes the free lock. -/
theorem takes_free (hflag : m.flag = false)
    (ht : m.threads t = .fast ∨ ∃ i, m.threads t = .testAndSet i) :
    ∃ m', LockOnlyReach m m' ∧ m'.threads t = .owner := by
  refine ⟨{ m.goto t .owner with flag := true }, lockOnly_one (a := .advance t) trivial ?_,
    goto_self _⟩
  rcases ht with ht | ⟨i, ht⟩
  · rw [step, Mutex.advance, ht, hflag]
    rfl
  · rw [step, Mutex.advance, ht, hflag]
    rfl

theorem tests_free (hflag : m.flag = false) {i : Nat} (ht : m.threads t = .test i) :
    ∃ m', LockOnlyReach m m' ∧ m'.threads t = .owner := by
  have hs : step m (.advance t) = some (m.goto t (.testAndSet i)) := by
    rw [step, Mutex.advance, ht, hflag]
    rfl
  obtain ⟨m', hreach, howner⟩ := takes_free (m := m.goto t (.testAndSet i)) hflag
    (.inr ⟨i, goto_self _⟩)
  exact ⟨m', (lockOnly_one (a := .advance t) trivial hs).trans hreach, howner⟩

/-- Who is not in `try_lock()` can get the free lock. -/
theorem gets_free (hflag : m.flag = false) (ht : m.threads t ≠ .trying) :
    ∃ m', LockOnlyReach m m' ∧ m'.threads t = .owner := by
  cases hp : m.threads t with
  | outside =>
      have hs : step m (.lock t) = some (m.goto t .fast) := by
        rw [step, if_pos hp]
      obtain ⟨m', hreach, howner⟩ := takes_free (m := m.goto t .fast) hflag (.inl (goto_self _))
      exact ⟨m', (lockOnly_one (a := .lock t) trivial hs).trans hreach, howner⟩
  | fast => exact takes_free hflag (.inl hp)
  | test i => exact tests_free hflag hp
  | testAndSet i => exact takes_free hflag (.inr ⟨i, hp⟩)
  | yield =>
      have hs : step m (.advance t) = some (m.goto t (.test 0)) := by
        rw [step, Mutex.advance, hp]
        rfl
      obtain ⟨m', hreach, howner⟩ := tests_free (m := m.goto t (.test 0)) hflag (goto_self _)
      exact ⟨m', (lockOnly_one (a := .advance t) trivial hs).trans hreach, howner⟩
  | trying => exact absurd hp ht
  | owner => exact ⟨m, .init, hp⟩

/-- A `try_lock()` that finds the flag set makes its caller an owner. -/
theorem tries_held (hflag : m.flag = true) (ht : m.threads t = .trying) :
    ∃ m', LockOnlyReach m m' ∧ m'.threads t = .owner := by
  refine ⟨_, lockOnly_one (a := .advance t) trivial (by rw [step, Mutex.advance, ht]), ?_⟩
  show (m.goto t (if m.flag then .owner else .outside)).threads t = .owner
  rw [hflag, goto_self]
  rfl

/--
**When the lock is lost for good.**

With at least two threads: whatever they do from now on short of a new call of `try_lock`, no
thread ever owns the lock, if and only if the flag is set, nobody owns the lock, and nobody is in
`try_lock`.
-/
theorem lock_lost_iff [Nontrivial T] (m : Mutex T) :
    (∀ m', LockOnlyReach m m' → ∀ t, m'.threads t ≠ .owner) ↔ Lost m := by
  constructor
  · intro hnever
    have hnone : ∀ t, m.threads t ≠ .owner := hnever m .init
    have hget : ∀ t, ¬∃ m', LockOnlyReach m m' ∧ m'.threads t = .owner :=
      fun t ⟨m', hreach, howner⟩ => hnever m' hreach t howner
    cases hflag : m.flag with
    | true => exact ⟨hflag, fun t => ⟨hnone t, fun ht => hget t (tries_held hflag ht)⟩⟩
    | false =>
        -- then all of them are in `try_lock()`, and the second one will own the lock
        have hall : ∀ t, m.threads t = .trying := fun t => by
          by_contra ht
          exact hget t (gets_free hflag ht)
        obtain ⟨t, u, hne⟩ := exists_pair_ne T
        let m₁ : Mutex T := { m.goto t (if m.flag then .owner else .outside) with
          flag := true, tries := m.tries ++ [⟨m.flag, m.flag, true⟩] }
        have hs : step m (.advance t) = some m₁ := by
          rw [step, Mutex.advance, hall t]
        obtain ⟨m', hreach, howner⟩ := tries_held (m := m₁) (t := u) rfl
          ((goto_of_ne (Ne.symm hne) _).trans (hall u))
        exact absurd ⟨m', (lockOnly_one (a := .advance t) trivial hs).trans hreach, howner⟩ (hget u)
  · intro hlost m' hreach t
    exact ((lost_stays hlost hreach).2 t).1

/-- A `try_lock()` takes the free lock, and nobody has it. -/
theorem lock_lost_iff_try :
    let m := (Transition.exec step ({} : Mutex (Fin 2)) [.tryLock 0, .advance 0]).get (by decide)
    ∀ m', LockOnlyReach m m' → ∀ t, m'.threads t ≠ .owner :=
  (lock_lost_iff _).mpr ⟨by decide, by decide⟩

end QuickStructs.SpinMutex
