import QuickStructs.Lib.Lock
import QuickStructs.Proof.PoolInv
import QuickStructs.Thread.ThreadPoolLocks

/-!
# The locked blocks are steps of the pool

`ThreadPool.lean` lets a locked block happen at once. That is what it looks like to the
others: the mutex keeps them out of their own blocks, so nothing changes under the lock
but what its holder does. The one thing a worker does there that matters is to find the
queue empty or to take its first task, the one thing an enqueue call does is to push, and
what they do before and after is no step of the pool. So every run with locks is a run of
the pool, and what was proved of the pool holds of it.
-/

namespace QuickStructs.ThreadPool

open Lib

variable {N M : Nat} {p q : LockedPool N M} {me : Fin N ⊕ Fin M} {i : Fin N}

/-! ## Steps, case by case -/

inductive LockedPool.CallStep (p : LockedPool N M) (me : Fin N ⊕ Fin M) :
    Call → LockedPool N M → Option Call → Prop where
  | lockPush (h : p.holder = none) :
      CallStep p me .lockPush { p with holder := some me } (some .emplace)
  | emplace : CallStep p me .emplace { p with
      tasks := p.tasks ++ [p.next], pending := p.pending ++ [p.next], next := p.next + 1 }
      (some (.unlockPush p.next))
  | unlockPush (t : Nat) :
      CallStep p me (.unlockPush t) { p with holder := none } (some (.release t))
  | release (t : Nat) : CallStep p me (.release t) { p with
      permits := p.permits + 1, pending := p.pending.erase t, returned := p.returned ++ [t] } none
  | lockSize (h : p.holder = none) :
      CallStep p me .lockSize { p with holder := some me } (some .size)
  | size : CallStep p me .size p (some .unlockSize)
  | unlockSize : CallStep p me .unlockSize { p with holder := none } none

/-- The turns of a worker that change nothing but its place. -/
inductive LockedPool.Turn (p : LockedPool N M) (i : Fin N) : Place → Place → Prop where
  | stop (h : p.stopRequested i = true) : Turn p i .testStop .exited
  | go (h : p.stopRequested i = false) : Turn p i .testStop .testStopping
  | stopping (h : p.stopping = true) : Turn p i .testStopping .exited
  | enter (h : p.stopping = false) : Turn p i .testStopping .acquire
  | check (h : p.stopRequested i = true) : Turn p i .checkStop .checkEmpty
  | skip (h : p.stopRequested i = false) : Turn p i .checkStop .lock
  | leave (h : p.tasks = []) : Turn p i .checkEmpty .exited
  | stay (h : p.tasks ≠ []) : Turn p i .checkEmpty .lock
  | none_left (h : p.tasks = []) : Turn p i .empty (.unlock none)
  | found (h : p.tasks ≠ []) : Turn p i .empty .take
  | done (t : Nat) : Turn p i (.running t none) .testStop

inductive LockedPool.WorkerStep (p : LockedPool N M) (i : Fin N) : LockedPool N M → Prop where
  | turn (w : Place) (h : p.Turn i (p.workers i) w) : WorkerStep p i (p.goto i w)
  | acquire (hw : p.workers i = .acquire) (hp : 0 < p.permits) :
      WorkerStep p i { p.goto i .checkStop with permits := p.permits - 1 }
  | lock (hw : p.workers i = .lock) (hfree : p.holder = none) :
      WorkerStep p i { p.goto i .empty with holder := some (.inl i) }
  | take (t : Nat) (rest : List Nat) (hw : p.workers i = .take) (ht : p.tasks = t :: rest) :
      WorkerStep p i
        { p.goto i (.unlock (some t)) with tasks := rest, popped := p.popped ++ [t] }
  | unlock (t : Option Nat) (hw : p.workers i = .unlock t) :
      WorkerStep p i { p.goto i (t.elim .testStop .call) with holder := none }
  | call (t : Nat) (hw : p.workers i = .call t) :
      WorkerStep p i { p.goto i (.running t none) with invoked := p.invoked ++ [t] }
  | calls (t : Nat) (c : Call) (q : LockedPool N M) (c' : Option Call)
      (hw : p.workers i = .running t (some c)) (h : p.CallStep (.inl i) c q c') :
      WorkerStep p i (q.goto i (.running t c'))

inductive LockedPool.DestructorStep (p : LockedPool N M) : LockedPool N M → Prop where
  | begin (h : p.destructor = .idle) :
      DestructorStep p { p with stopping := true, destructor := bodyAt N 0 }
  | release (k : Nat) (h : p.destructor = .release k) :
      DestructorStep p { p with permits := p.permits + 1, destructor := .requestStop k }
  | requestStop (k : Nat) (h : p.destructor = .requestStop k) :
      DestructorStep p { p with
        stopRequested := fun j => if j.val = k then true else p.stopRequested j
        destructor := bodyAt N (k + 1) }
  | destroy (m : Member) (left : List Member) (h : p.destructor = .members (m :: left))
      (hjoin : m = .workers → ∀ i, p.workers i = .exited) :
      DestructorStep p { p with destructor := .members left }

/-- The steps of a pool, each under its move. -/
inductive LockedPool.Step (p : LockedPool N M) : Move N M → LockedPool N M → Prop where
  | worker (i : Fin N) (q : LockedPool N M) (h : p.WorkerStep i q) : Step p (.worker i) q
  | taskCalls (i : Fin N) (f : Method) (t : Nat) (hw : p.workers i = .running t none) :
      Step p (.taskCalls i f) (p.goto i (.running t (some f.entry)))
  | clientCalls (j : Fin M) (f : Method) (hc : p.clients j = none) :
      Step p (.clientCalls j f) (p.clientAt j (some f.entry))
  | client (j : Fin M) (c : Call) (q : LockedPool N M) (c' : Option Call)
      (hc : p.clients j = some c) (h : p.CallStep (.inr j) c q c') :
      Step p (.client j) (q.clientAt j c')
  | destructor (q : LockedPool N M) (h : p.DestructorStep q) : Step p .destructor q

theorem LockedPool.callStep_cases {c : Call} {r : LockedPool N M × Option Call}
    (h : p.callStep me c = some r) : p.CallStep me c r.1 r.2 := by
  cases c with
  | lockPush =>
      obtain ⟨hfree, rfl⟩ := Transition.of_guard h
      exact .lockPush hfree
  | emplace =>
      injection h with h
      rw [← h]
      exact .emplace
  | unlockPush t =>
      injection h with h
      rw [← h]
      exact .unlockPush t
  | release t =>
      injection h with h
      rw [← h]
      exact .release t
  | lockSize =>
      obtain ⟨hfree, rfl⟩ := Transition.of_guard h
      exact .lockSize hfree
  | size =>
      injection h with h
      rw [← h]
      exact .size
  | unlockSize =>
      injection h with h
      rw [← h]
      exact .unlockSize

theorem LockedPool.workerStep_cases (h : p.workerStep i = some q) : p.WorkerStep i q := by
  unfold LockedPool.workerStep at h
  split at h
  · rename_i hw
    injection h with h
    rw [← h]
    refine .turn _ ?_
    rw [hw]
    split
    · rename_i hs
      exact .stop hs
    · rename_i hs
      exact .go (Bool.eq_false_iff.mpr hs)
  · rename_i hw
    injection h with h
    rw [← h]
    refine .turn _ ?_
    rw [hw]
    split
    · rename_i hs
      exact .stopping hs
    · rename_i hs
      exact .enter (Bool.eq_false_iff.mpr hs)
  · rename_i hw
    obtain ⟨hp, rfl⟩ := Transition.of_guard h
    exact .acquire hw hp
  · rename_i hw
    injection h with h
    rw [← h]
    refine .turn _ ?_
    rw [hw]
    split
    · rename_i hs
      exact .check hs
    · rename_i hs
      exact .skip (Bool.eq_false_iff.mpr hs)
  · rename_i hw
    injection h with h
    rw [← h]
    refine .turn _ ?_
    rw [hw]
    split
    · rename_i ht
      exact .leave ht
    · rename_i ht
      exact .stay ht
  · rename_i hw
    obtain ⟨hfree, rfl⟩ := Transition.of_guard h
    exact .lock hw hfree
  · rename_i hw
    injection h with h
    rw [← h]
    refine .turn _ ?_
    rw [hw]
    split
    · rename_i ht
      exact .none_left ht
    · rename_i ht
      exact .found ht
  · rename_i hw
    split at h
    · exact absurd h (by simp)
    · rename_i t rest ht
      injection h with h
      rw [← h]
      exact .take t rest hw ht
  · rename_i t hw
    injection h with h
    rw [← h]
    exact .unlock t hw
  · rename_i t hw
    injection h with h
    rw [← h]
    exact .call t hw
  · rename_i t hw
    injection h with h
    rw [← h]
    refine .turn _ ?_
    rw [hw]
    exact .done t
  · rename_i t c hw
    obtain ⟨r, hr, rfl⟩ := Option.map_eq_some_iff.mp h
    exact .calls t c r.1 r.2 hw (callStep_cases hr)
  · exact absurd h (by simp)

theorem LockedPool.destructorStep_cases (h : p.destructorStep = some q) : p.DestructorStep q := by
  unfold LockedPool.destructorStep at h
  split at h
  · rename_i hd
    injection h with h
    rw [← h]
    exact .begin hd
  · rename_i k hd
    injection h with h
    rw [← h]
    exact .release k hd
  · rename_i k hd
    injection h with h
    rw [← h]
    exact .requestStop k hd
  · exact absurd h (by simp)
  · rename_i m left hd
    split at h
    · exact absurd h (by simp)
    · rename_i hjoin
      injection h with h
      rw [← h]
      refine .destroy m left hd fun hm => ?_
      exact Decidable.not_not.mp fun hall => hjoin ⟨hm, hall⟩

theorem LockedPool.step_cases {m : Move N M} (h : p.step m = some q) : p.Step m q := by
  cases m with
  | worker i => exact .worker i q (workerStep_cases h)
  | taskCalls i f =>
      unfold LockedPool.step at h
      dsimp only at h
      split at h
      · rename_i t hw
        injection h with h
        rw [← h]
        exact .taskCalls i f t hw
      · exact absurd h (by simp)
  | clientCalls j f =>
      unfold LockedPool.step at h
      dsimp only at h
      split at h
      · rename_i hc
        injection h with h
        rw [← h]
        exact .clientCalls j f hc
      · exact absurd h (by simp)
  | client j =>
      unfold LockedPool.step at h
      dsimp only at h
      split at h
      · exact absurd h (by simp)
      · rename_i c hc
        obtain ⟨r, hr, rfl⟩ := Option.map_eq_some_iff.mp h
        exact .client j c r.1 r.2 hc (callStep_cases hr)
  | destructor => exact .destructor q (destructorStep_cases h)

/-- A call leaves the threads where they are. -/
theorem LockedPool.CallStep.threads {c : Call} {c' : Option Call} (h : p.CallStep me c q c') :
    q.workers = p.workers ∧ q.clients = p.clients := by
  cases h <;> exact ⟨rfl, rfl⟩

/-- A call takes no task. -/
theorem LockedPool.CallStep.tasks {c : Call} {c' : Option Call} (h : p.CallStep me c q c') :
    p.tasks ≠ [] → q.tasks ≠ [] := by
  intro ht
  cases h with
  | emplace => exact List.append_ne_nil_of_left_ne_nil ht _
  | _ => exact ht

/-! ## Who holds the mutex -/

/-- Has the thread locked the mutex? -/
def Call.inside : Call → Bool
  | .emplace | .unlockPush _ | .size | .unlockSize => true
  | _ => false

/-- The task the call has pushed, until the release. -/
def Call.pushed : Call → Option Nat
  | .unlockPush t | .release t => some t
  | _ => none

def Place.inside : Place → Bool
  | .empty | .take | .unlock _ => true
  | .running _ c => c.any Call.inside
  | _ => false

def Place.pushed : Place → Option Nat
  | .running _ c => c.bind Call.pushed
  | _ => none

def LockedPool.inside (p : LockedPool N M) : Fin N ⊕ Fin M → Bool :=
  Sum.elim (fun i => (p.workers i).inside) fun j => (p.clients j).any Call.inside

def LockedPool.pushed (p : LockedPool N M) : Fin N ⊕ Fin M → Option Nat :=
  Sum.elim (fun i => (p.workers i).pushed) fun j => (p.clients j).bind Call.pushed

@[simp] theorem LockedPool.inside_goto (w : Place) :
    (p.goto i w).inside = Function.update p.inside (.inl i) w.inside := by
  unfold LockedPool.inside
  rw [Sum.update_elim_inl]
  exact congrArg (Sum.elim · _) (Function.comp_update Place.inside p.workers i w)

@[simp] theorem LockedPool.inside_clientAt (j : Fin M) (c : Option Call) :
    (p.clientAt j c).inside = Function.update p.inside (.inr j) (c.any Call.inside) := by
  unfold LockedPool.inside
  rw [Sum.update_elim_inr]
  exact congrArg (Sum.elim _)
    (Function.comp_update (fun o : Option Call => o.any Call.inside) p.clients j c)

@[simp] theorem LockedPool.pushed_goto (w : Place) :
    (p.goto i w).pushed = Function.update p.pushed (.inl i) w.pushed := by
  unfold LockedPool.pushed
  rw [Sum.update_elim_inl]
  exact congrArg (Sum.elim · _) (Function.comp_update Place.pushed p.workers i w)

@[simp] theorem LockedPool.pushed_clientAt (j : Fin M) (c : Option Call) :
    (p.clientAt j c).pushed = Function.update p.pushed (.inr j) (c.bind Call.pushed) := by
  unfold LockedPool.pushed
  rw [Sum.update_elim_inr]
  exact congrArg (Sum.elim _)
    (Function.comp_update (fun o : Option Call => o.bind Call.pushed) p.clients j c)

/-- What the mutex keeps up. -/
structure LockedPool.Exclusive (p : LockedPool N M) : Prop where
  /-- The thread in a locked block is the holder. -/
  held : Lock.Agrees (fun t => p.inside t = true) p.holder
  /-- The queue is still not empty when the worker that has seen so takes a task. -/
  found : ∀ i, p.workers i = .take → p.tasks ≠ []
  /-- A call that has pushed and not released has a task pending, and no other has it. -/
  pending : ∀ t k, p.pushed t = some k → k ∈ p.pending
  distinct : ∀ t u k, p.pushed t = some k → p.pushed u = some k → t = u

/-- What a step of the thread `me` is to the mutex: its holder then, and whether `me` is
in a locked block. -/
inductive LockedPool.LockUse (p : LockedPool N M) (me : Fin N ⊕ Fin M) :
    Option (Fin N ⊕ Fin M) → Bool → Prop where
  | keep : LockUse p me p.holder (p.inside me)
  | lock (hfree : p.holder = none) : LockUse p me (some me) true
  | unlock (hin : p.inside me = true) : LockUse p me none false

/-- What a step of the thread `me` is to the pending tasks, and the one it has then. -/
inductive LockedPool.PushUse (p : LockedPool N M) (me : Fin N ⊕ Fin M) :
    List Nat → Option Nat → Prop where
  | keep : PushUse p me p.pending (p.pushed me)
  | push : PushUse p me (p.pending ++ [p.next]) (some p.next)
  | release (k : Nat) (hk : p.pushed me = some k) : PushUse p me (p.pending.erase k) none

theorem held_move {b : Bool} (h : Lock.Agrees (fun t => p.inside t = true) p.holder)
    (hin : q.inside = Function.update p.inside me b) (hu : p.LockUse me q.holder b) :
    Lock.Agrees (fun t => q.inside t = true) q.holder := by
  have hsame : ∀ t, t ≠ me → (q.inside t = true ↔ p.inside t = true) := by
    intro t ht
    rw [hin, Function.update_of_ne ht]
  have hme : q.inside me = b := by rw [hin, Function.update_self]
  generalize q.holder = holder at hu
  cases hu with
  | keep =>
      refine h.congr fun t => ?_
      by_cases ht : t = me
      · rw [ht, hme]
      · exact hsame t ht
  | lock hfree =>
      rw [hfree] at h
      exact h.acquire hme hsame
  | unlock hpin =>
      refine h.release hpin ?_ hsame
      rw [hme]
      exact Bool.false_ne_true

theorem pending_move {o : Option Nat} (h : p.Exclusive)
    (hpush : q.pushed = Function.update p.pushed me o) (hu : p.PushUse me q.pending o) :
    ∀ t k, q.pushed t = some k → k ∈ q.pending := by
  intro t k hk
  rw [hpush] at hk
  generalize q.pending = pending at hu
  by_cases ht : t = me
  · rw [ht, Function.update_self] at hk
    cases hu with
    | keep => exact h.pending me k hk
    | push =>
        rw [← Option.some.inj hk]
        exact List.mem_append_right _ (List.mem_singleton_self _)
    | release _ _ => exact absurd hk (by simp)
  · rw [Function.update_of_ne ht] at hk
    have hmem := h.pending t k hk
    cases hu with
    | keep => exact hmem
    | push => exact List.mem_append_left _ hmem
    | release k' hk' =>
        -- another call has another task
        have hne : k ≠ k' := fun he => ht (h.distinct t me k hk (he ▸ hk'))
        exact (List.mem_erase_of_ne hne).mpr hmem

theorem distinct_move {o : Option Nat} (h : p.Exclusive) (hfresh : ∀ t ∈ p.pending, t < p.next)
    (hpush : q.pushed = Function.update p.pushed me o) (hu : p.PushUse me q.pending o) :
    ∀ t u k, q.pushed t = some k → q.pushed u = some k → t = u := by
  generalize q.pending = pending at hu
  -- the task of the thread that moves was its own before, or is new
  have hnew : ∀ t k, t ≠ me → p.pushed t = some k → o ≠ some k := by
    intro t k ht hk ho
    cases hu with
    | keep => exact ht (h.distinct t me k hk ho)
    | push =>
        have hlt := hfresh k (h.pending t k hk)
        rw [Option.some.inj ho] at hlt
        exact Nat.lt_irrefl k hlt
    | release _ _ => exact absurd ho (by simp)
  intro t u k ht hu'
  rw [hpush] at ht hu'
  by_cases htme : t = me
  · by_cases hume : u = me
    · rw [htme, hume]
    · rw [htme, Function.update_self] at ht
      rw [Function.update_of_ne hume] at hu'
      exact absurd ht (hnew u k hume hu')
  · rw [Function.update_of_ne htme] at ht
    by_cases hume : u = me
    · rw [hume, Function.update_self] at hu'
      exact absurd hu' (hnew t k htme ht)
    · rw [Function.update_of_ne hume] at hu'
      exact h.distinct t u k ht hu'

/-- What a step of a call is to the mutex and to the pending tasks. -/
theorem LockedPool.CallStep.uses {c : Call} {c' : Option Call} (h : p.CallStep me c q c')
    (hin : p.inside me = c.inside) (hpushed : p.pushed me = c.pushed) :
    p.LockUse me q.holder (c'.any Call.inside) ∧ p.PushUse me q.pending (c'.bind Call.pushed) := by
  have hkeep : ∀ {b}, c.inside = b → p.LockUse me p.holder b := fun hb => hb ▸ hin ▸ .keep
  have hstay : ∀ {o}, c.pushed = o → p.PushUse me p.pending o := fun ho => ho ▸ hpushed ▸ .keep
  cases h with
  | lockPush hfree => exact ⟨.lock hfree, hstay rfl⟩
  | emplace => exact ⟨hkeep rfl, .push⟩
  | unlockPush t => exact ⟨.unlock hin, hstay rfl⟩
  | release t => exact ⟨hkeep rfl, .release t hpushed⟩
  | lockSize hfree => exact ⟨.lock hfree, hstay rfl⟩
  | size => exact ⟨hkeep rfl, hstay rfl⟩
  | unlockSize => exact ⟨.unlock hin, hstay rfl⟩

theorem LockedPool.Turn.uses {w w' : Place} (h : p.Turn i w w') :
    w'.inside = w.inside ∧ w'.pushed = w.pushed := by
  cases h <;> exact ⟨rfl, rfl⟩

/-- The workers before `m_tasks.front()` still find a task when a worker comes to a place
and no task is taken. -/
theorem LockedPool.Exclusive.found_keep (h : p.Exclusive) {w : Place}
    (hq : q.workers = Function.update p.workers i w) (htasks : p.tasks ≠ [] → q.tasks ≠ [])
    (hw : w = .take → p.tasks ≠ []) : ∀ j, q.workers j = .take → q.tasks ≠ [] := by
  intro j hj
  rw [hq] at hj
  by_cases hji : j = i
  · rw [hji, Function.update_self] at hj
    exact htasks (hw hj)
  · rw [Function.update_of_ne hji] at hj
    exact htasks (h.found j hj)

theorem exclusive_init : ({} : LockedPool N M).Exclusive where
  held := by
    intro t
    cases t <;> exact iff_of_false Bool.false_ne_true (by simp)
  found := by intro i h; exact absurd h (by simp)
  pending := by intro t k h; cases t <;> exact absurd h (by simp [LockedPool.pushed, Place.pushed])
  distinct := by
    intro t u k h
    cases t <;> exact absurd h (by simp [LockedPool.pushed, Place.pushed])

theorem exclusive_worker (h : p.Exclusive) (hfresh : ∀ t ∈ p.pending, t < p.next)
    (hs : p.WorkerStep i q) : q.Exclusive := by
  have hkeep : ∀ {b}, (p.workers i).inside = b → p.LockUse (.inl i) p.holder b :=
    fun hb => hb ▸ .keep
  have hstay : ∀ {o}, (p.workers i).pushed = o → p.PushUse (.inl i) p.pending o :=
    fun ho => ho ▸ .keep
  -- the worker comes to `w`, with its uses of the mutex and of the pending tasks
  have hmove : ∀ {q : LockedPool N M} {w : Place}, q.workers = Function.update p.workers i w →
      q.clients = p.clients → p.LockUse (.inl i) q.holder w.inside →
      p.PushUse (.inl i) q.pending w.pushed →
      (∀ j, q.workers j = .take → q.tasks ≠ []) → q.Exclusive := by
    intro q w hw hc hl hp hfound
    have hqin : q.inside = Function.update p.inside (.inl i) w.inside := by
      rw [← LockedPool.inside_goto]
      unfold LockedPool.inside
      rw [hw, hc]
      rfl
    have hqpushed : q.pushed = Function.update p.pushed (.inl i) w.pushed := by
      rw [← LockedPool.pushed_goto]
      unfold LockedPool.pushed
      rw [hw, hc]
      rfl
    exact ⟨held_move h.held hqin hl, hfound, pending_move h hqpushed hp,
      distinct_move h hfresh hqpushed hp⟩
  cases hs with
  | turn w ht =>
      obtain ⟨hin, hpushed⟩ := ht.uses
      refine hmove rfl rfl (hkeep hin.symm) (hstay hpushed.symm) (h.found_keep rfl id fun hw => ?_)
      rw [hw] at ht
      generalize p.workers i = w₀ at ht
      cases ht with
      | found htasks => exact htasks
  | acquire hw _ =>
      exact hmove (w := .checkStop) rfl rfl (hkeep (by rw [hw]; rfl)) (hstay (by rw [hw]; rfl))
        (h.found_keep rfl id nofun)
  | lock hw hfree =>
      exact hmove (w := .empty) rfl rfl (.lock hfree) (hstay (by rw [hw]; rfl))
        (h.found_keep rfl id nofun)
  | take t rest hw ht =>
      have hin : (p.workers i).inside = true := by rw [hw]; rfl
      refine hmove (w := .unlock (some t)) rfl rfl (hkeep hin) (hstay (by rw [hw]; rfl))
        fun j hj => ?_
      -- no other worker is in the block
      have hji : j ≠ i := by
        intro hji
        rw [hji] at hj
        exact absurd ((Function.update_self ..).symm.trans hj) (by simp)
      have hj' : p.workers j = .take := (Function.update_of_ne hji ..).symm.trans hj
      have hsame : (Sum.inl j : Fin N ⊕ Fin M) = .inl i :=
        h.held.unique (congrArg Place.inside hj') hin
      exact absurd (Sum.inl.inj hsame) hji
  | unlock t hw =>
      have hin : (p.workers i).inside = true := by rw [hw]; rfl
      have hpushed : (p.workers i).pushed = none := by rw [hw]; rfl
      cases t with
      | none =>
          exact hmove (w := .testStop) rfl rfl (.unlock hin) (hstay hpushed)
            (h.found_keep rfl id nofun)
      | some t =>
          exact hmove (w := .call t) rfl rfl (.unlock hin) (hstay hpushed)
            (h.found_keep rfl id nofun)
  | call t hw =>
      exact hmove (w := .running t none) rfl rfl (hkeep (by rw [hw]; rfl))
        (hstay (by rw [hw]; rfl)) (h.found_keep rfl id nofun)
  | calls t c r c' hw hc =>
      obtain ⟨hl, hp⟩ := hc.uses (congrArg Place.inside hw) (congrArg Place.pushed hw)
      have hworkers : (r.goto i (.running t c')).workers
          = Function.update p.workers i (.running t c') :=
        congrArg (Function.update · i _) hc.threads.1
      exact hmove hworkers hc.threads.2 hl hp (h.found_keep hworkers hc.tasks nofun)

/-- A client comes to `c`, or returns. -/
theorem exclusive_client (h : p.Exclusive) (hfresh : ∀ t ∈ p.pending, t < p.next) {j : Fin M}
    {c : Option Call} (hw : q.workers = p.workers) (hc : q.clients = p.clients)
    (hl : p.LockUse (.inr j) q.holder (c.any Call.inside))
    (hp : p.PushUse (.inr j) q.pending (c.bind Call.pushed)) (ht : p.tasks ≠ [] → q.tasks ≠ []) :
    (q.clientAt j c).Exclusive := by
  have hin : q.inside = p.inside := by unfold LockedPool.inside; rw [hw, hc]
  have hpushed : q.pushed = p.pushed := by unfold LockedPool.pushed; rw [hw, hc]
  have hqin := LockedPool.inside_clientAt (p := q) j c
  have hqpushed := LockedPool.pushed_clientAt (p := q) j c
  rw [hin] at hqin
  rw [hpushed] at hqpushed
  refine ⟨held_move h.held hqin hl, fun i hi => ht (h.found i ?_),
    pending_move h hqpushed hp, distinct_move h hfresh hqpushed hp⟩
  rw [← hw]
  exact hi

theorem exclusive_step {m : Move N M} (h : p.Exclusive) (hfresh : ∀ t ∈ p.pending, t < p.next)
    (hs : p.step m = some q) : q.Exclusive := by
  cases LockedPool.step_cases hs with
  | worker i _ hw => exact exclusive_worker h hfresh hw
  | taskCalls i f t hw =>
      have hin : (p.goto i (.running t (some f.entry))).inside = p.inside := by
        rw [LockedPool.inside_goto]
        refine Function.update_eq_self_iff.mpr (Eq.trans ?_ (congrArg Place.inside hw).symm)
        cases f <;> rfl
      have hpushed : (p.goto i (.running t (some f.entry))).pushed = p.pushed := by
        rw [LockedPool.pushed_goto]
        refine Function.update_eq_self_iff.mpr (Eq.trans ?_ (congrArg Place.pushed hw).symm)
        cases f <;> rfl
      refine ⟨?_, h.found_keep rfl id nofun, ?_, ?_⟩
      · rw [hin]
        exact h.held
      · rw [hpushed]
        exact h.pending
      · rw [hpushed]
        exact h.distinct
  | clientCalls j f hc =>
      have hin : p.inside (.inr j) = (some f.entry).any Call.inside := by
        refine (congrArg (fun o : Option Call => o.any Call.inside) hc).trans ?_
        cases f <;> rfl
      have hpushed : p.pushed (.inr j) = (some f.entry).bind Call.pushed := by
        refine (congrArg (fun o : Option Call => o.bind Call.pushed) hc).trans ?_
        cases f <;> rfl
      exact exclusive_client h hfresh rfl rfl (hin ▸ .keep) (hpushed ▸ .keep) id
  | client j c r c' hc hcall =>
      obtain ⟨hw, hclients⟩ := hcall.threads
      obtain ⟨hl, hp⟩ := hcall.uses (congrArg (fun o : Option Call => o.any Call.inside) hc)
        (congrArg (fun o : Option Call => o.bind Call.pushed) hc)
      exact exclusive_client h hfresh hw hclients hl hp hcall.tasks
  | destructor _ hd =>
      -- the destructor leaves the mutex and the queue alone
      cases hd <;> exact ⟨h.held, h.found, h.pending, h.distinct⟩

/-! ## The pool of a pool with locks -/

/-- Where the worker is when the locked block is one step. -/
def Place.worker : Place → Worker
  | .testStop | .unlock none => .testStop
  | .testStopping => .testStopping
  | .acquire => .acquire
  | .checkStop => .checkStop
  | .checkEmpty => .checkEmpty
  | .lock | .empty | .take => .pop
  | .unlock (some t) | .call t => .call t
  | .running t _ => .running t
  | .exited => .exited

def LockedPool.pool (p : LockedPool N M) : Pool N where
  tasks := p.tasks
  permits := p.permits
  stopping := p.stopping
  stopRequested := p.stopRequested
  workers := Place.worker ∘ p.workers
  destructor := p.destructor
  pending := p.pending
  next := p.next
  returned := p.returned
  popped := p.popped
  invoked := p.invoked

/-- A worker that comes to a place. -/
theorem pool_goto (p : LockedPool N M) (i : Fin N) (w : Place) :
    (p.goto i w).pool = p.pool.goto i w.worker := by
  unfold LockedPool.pool LockedPool.goto Pool.goto
  rw [Function.comp_update]

/-- A place the pool does not know from the one before. -/
theorem pool_stay {w : Place} (hw : w.worker = (p.workers i).worker) :
    (p.goto i w).pool = p.pool := by
  unfold LockedPool.pool LockedPool.goto
  rw [Function.comp_update, hw]
  exact congrArg (fun f : Fin N → Worker => { p.pool with workers := f })
    (Function.update_eq_self i (Place.worker ∘ p.workers))

/-- Nothing happens to the pool, or a step of it. -/
def LockedPool.Shows (p q : LockedPool N M) : Prop :=
  q.pool = p.pool ∨ ∃ a, ThreadPool.step p.pool a = some q.pool

theorem shows_call {c : Call} {c' : Option Call} (hs : p.CallStep me c q c')
    (hp : ∀ t, c = .release t → t ∈ p.pending) : p.Shows q := by
  cases hs with
  | emplace => exact .inr ⟨.push, rfl⟩
  | release t => exact .inr ⟨.release t, if_pos (hp t rfl)⟩
  | _ => exact .inl rfl

theorem shows_turn {w : Place} (ht : p.Turn i (p.workers i) w) : p.Shows (p.goto i w) := by
  unfold LockedPool.Shows
  rw [pool_goto]
  have hplace : p.pool.workers i = (p.workers i).worker := rfl
  generalize hw : p.workers i = w₀ at ht hplace
  have hstep : ∀ {v : Worker}, p.pool.workerStep i = some (p.pool.goto i v) →
      ∃ a, ThreadPool.step p.pool a = some (p.pool.goto i v) := fun h => ⟨.worker i, h⟩
  unfold Pool.workerStep at hstep
  rw [hplace] at hstep
  cases ht with
  | stop h => exact .inr (hstep (by rw [show p.pool.stopRequested i = true from h]; rfl))
  | go h => exact .inr (hstep (by rw [show p.pool.stopRequested i = false from h]; rfl))
  | stopping h => exact .inr (hstep (by rw [show p.pool.stopping = true from h]; rfl))
  | enter h => exact .inr (hstep (by rw [show p.pool.stopping = false from h]; rfl))
  | check h => exact .inr (hstep (by rw [show p.pool.stopRequested i = true from h]; rfl))
  | skip h => exact .inr (hstep (by rw [show p.pool.stopRequested i = false from h]; rfl))
  | leave h => exact .inr (hstep (congrArg some (congrArg _ (if_pos h))))
  | stay h => exact .inr (hstep (congrArg some (congrArg _ (if_neg h))))
  | none_left h => exact .inr (hstep (by rw [show p.pool.tasks = [] from h]; rfl))
  | found _ =>
      rw [← pool_goto]
      exact .inl (pool_stay (congrArg Place.worker hw).symm)
  | done t => exact .inr (hstep rfl)

theorem shows_worker (h : p.Exclusive) (hs : p.WorkerStep i q) : p.Shows q := by
  have hstep : ∀ {w : Worker} {r : Pool N}, (p.workers i).worker = w →
      (p.pool.workers i = w → p.pool.workerStep i = some r) →
      ∃ a, ThreadPool.step p.pool a = some r := fun hw hr => ⟨.worker i, hr hw⟩
  cases hs with
  | turn w ht => exact shows_turn ht
  | acquire hw hp =>
      refine .inr (hstep (congrArg Place.worker hw) fun hpool => ?_)
      unfold Pool.workerStep
      rw [hpool]
      refine (if_pos hp).trans (congrArg some ?_)
      exact congrArg (fun r : Pool N => { r with permits := p.permits - 1 })
        (pool_goto p i .checkStop).symm
  | lock hw hfree => exact .inl (pool_stay (w := .empty) (congrArg Place.worker hw).symm)
  | take t rest hw ht =>
      refine .inr (hstep (congrArg Place.worker hw) fun hpool => ?_)
      unfold Pool.workerStep
      rw [hpool, show p.pool.tasks = t :: rest from ht]
      exact congrArg (fun r : Pool N => some { r with tasks := rest, popped := p.popped ++ [t] })
        (pool_goto p i (.unlock (some t))).symm
  | unlock t hw =>
      refine .inl (pool_stay (p := p) ?_)
      rw [hw]
      cases t <;> rfl
  | call t hw =>
      refine .inr (hstep (congrArg Place.worker hw) fun hpool => ?_)
      unfold Pool.workerStep
      rw [hpool]
      exact congrArg (fun r : Pool N => some { r with invoked := p.invoked ++ [t] })
        (pool_goto p i (.running t none)).symm
  | calls t c r c' hw hc =>
      have hstay : (r.goto i (.running t c')).pool = r.pool := by
        refine pool_stay ?_
        rw [hc.threads.1, hw]
        rfl
      have hshows : p.Shows r := shows_call hc fun k hk => h.pending (.inl i) k <| by
        refine (congrArg Place.pushed hw).trans ?_
        rw [hk]
        rfl
      unfold LockedPool.Shows
      rw [hstay]
      exact hshows

/-- **A step with locks is a step of the pool, or nothing to it.** -/
theorem shows_step {m : Move N M} (h : p.Exclusive) (hs : p.step m = some q) : p.Shows q := by
  cases LockedPool.step_cases hs with
  | worker i _ hw => exact shows_worker h hw
  | taskCalls i f t hw => exact .inl (pool_stay (by rw [hw]; rfl))
  | clientCalls j f hc => exact .inl rfl
  | client j c r c' hc hcall =>
      have hshows : p.Shows r := shows_call hcall fun k hk => h.pending (.inr j) k <| by
        refine (congrArg (fun o : Option Call => o.bind Call.pushed) hc).trans ?_
        rw [hk]
        rfl
      exact hshows
  | destructor _ hd =>
      cases hd with
      | begin hd =>
          refine .inr ⟨.destructor, ?_⟩
          unfold ThreadPool.step Pool.destructorStep
          dsimp only
          rw [show p.pool.destructor = .idle from hd]
          rfl
      | release k hd =>
          refine .inr ⟨.destructor, ?_⟩
          unfold ThreadPool.step Pool.destructorStep
          dsimp only
          rw [show p.pool.destructor = .release k from hd]
          rfl
      | requestStop k hd =>
          refine .inr ⟨.destructor, ?_⟩
          unfold ThreadPool.step Pool.destructorStep
          dsimp only
          rw [show p.pool.destructor = .requestStop k from hd]
          rfl
      | destroy mem left hd hjoin =>
          refine .inr ⟨.destructor, ?_⟩
          unfold ThreadPool.step Pool.destructorStep
          dsimp only
          rw [show p.pool.destructor = .members (mem :: left) from hd]
          refine if_neg fun hblocked => hblocked.2 fun i => ?_
          exact congrArg Place.worker (hjoin hblocked.1 i)

/-- **The pool of every run with locks is reached by a run of the pool.** -/
theorem LockedPool.Reachable.refines (h : p.Reachable) :
    p.Exclusive ∧ ThreadPool.Reachable p.pool := by
  refine h.invariant (I := fun p => p.Exclusive ∧ ThreadPool.Reachable p.pool)
    ⟨exclusive_init, .init⟩ fun p m q _ ⟨he, hr⟩ hs => ?_
  have hfresh : ∀ t ∈ p.pending, t < p.next := (queued_reachable hr).pending
  refine ⟨exclusive_step he hfresh hs, ?_⟩
  rcases shows_step he hs with heq | ⟨a, ha⟩
  · rw [heq]
    exact hr
  · exact hr.tail ha

/-- **Once the destructor has asked every worker to stop.** -/
theorem LockedPool.Reachable.flags (h : p.Reachable) : Flags p.pool :=
  flags_reachable h.refines.2

end QuickStructs.ThreadPool
