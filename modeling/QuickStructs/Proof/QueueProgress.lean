import Mathlib.Algebra.BigOperators.Group.Multiset.Basic
import Mathlib.Algebra.Order.Group.Multiset
import Mathlib.Tactic.Abel
import QuickStructs.Lib.Progress
import QuickStructs.Proof.Delivery

/-!
# All calls that can return do

A thread has so many steps left in its call, and a push besides those of the consumer that it
may wake, up to where that one blocks again. Each step uses up one of them, so after the last call
the threads come to rest, and then none of them is anywhere but outside or blocked. A consumer
that is blocked then has no item to wait for: there were fewer pushes than calls to pop.
-/

namespace QuickStructs.ThreadSafeQueue

open Lib Tally Progress

variable {n : Nat} {T : Type} {moved : T → T} {q q' : Queue n T} {a : Action n T}
variable {t u : Fin n} {p : Thread T}

/-! ## What is left to do -/

/-- The steps that a thread has left until it blocks or returns. -/
def Thread.rank : Thread T → Nat
  | .idle => 0
  | .pushLock _ => 9
  | .pushItem _ => 8
  | .pushUnlock => 7
  -- the notification, and the five steps of a consumer that wakes
  | .notify => 6
  | .popLock => 5
  | .test => 4
  | .wait => 1
  | .waiting => 0
  | .woken => 5
  | .front => 3
  | .pop _ => 2
  | .popUnlock _ => 1

/-- The item that it has still to enqueue. -/
def Thread.item : Thread T → List T
  | .pushLock value => [value]
  | .pushItem value => [value]
  | _ => []

/-- Has it an item still to pop? -/
def Thread.toPop : Thread T → Bool
  | .popLock => true
  | .test => true
  | .wait => true
  | .waiting => true
  | .woken => true
  | .front => true
  | .pop _ => true
  | _ => false

/-- The item that a call of `push` brings. -/
def Action.value : Action n T → List T
  | .push _ value => [value]
  | _ => []

def Action.pushes : Action n T → Bool
  | .push _ _ => true
  | _ => false

def Action.pops : Action n T → Bool
  | .waitAndPop _ => true
  | _ => false

def Action.wakes : Action n T → Bool
  | .spurious _ => true
  | _ => false

/-- The steps that an action brings, its own included. -/
def Action.brings (a : Action n T) : Nat :=
  10 * credit Action.pushes a + 6 * credit Action.pops a + 6 * credit Action.wakes a

/-- The items that were enqueued, and those that are still to be. -/
def Queue.brought (q : Queue n T) : Multiset T :=
  (q.enqueued : Multiset T) + ∑ t, ((q.threads t).item : Multiset T)

/-- What one action does to the accounts. -/
structure Pays (q : Queue n T) (a : Action n T) (q' : Queue n T) : Prop where
  steps : total Thread.rank q'.threads + 1 ≤ total Thread.rank q.threads + a.brings
  items : q'.brought = q.brought + (a.value : Multiset T)
  pops : q'.popped.length + tally Thread.toPop q'.threads
    = q.popped.length + tally Thread.toPop q.threads + credit Action.pops a

/-- One thread goes on. -/
theorem pays_goto (hthreads : q'.threads = Function.update q.threads t p)
    (hrank : p.rank + 1 ≤ (q.threads t).rank + a.brings)
    (hitems : q'.enqueued ++ p.item = q.enqueued ++ (q.threads t).item ++ a.value)
    (hpop : q'.popped.length + p.toPop.toNat
      = q.popped.length + (q.threads t).toPop.toNat + credit Action.pops a) : Pays q a q' := by
  have hsteps := total_update Thread.rank q.threads t p
  have hmoved := sum_update (fun p : Thread T => (p.item : Multiset T)) q.threads t p
  have hpops := tally_update Thread.toPop q.threads t p
  rw [← hthreads] at hsteps hmoved hpops
  refine ⟨by omega, ?_, by omega⟩
  refine add_right_cancel (b := ((q.threads t).item : Multiset T)) ?_
  calc q'.brought + ((q.threads t).item : Multiset T)
      = (q'.enqueued : Multiset T) + (p.item : Multiset T)
        + ∑ u, ((q.threads u).item : Multiset T) := by
          rw [Queue.brought, add_assoc, hmoved, add_assoc, add_comm (p.item : Multiset T)]
    _ = q.brought + (a.value : Multiset T) + ((q.threads t).item : Multiset T) := by
          rw [Multiset.coe_add, hitems, ← Multiset.coe_add, ← Multiset.coe_add, Queue.brought]
          abel

/-- One thread goes on in its call, and does nothing to the items. -/
theorem pays_same {p₀ : Thread T} (ht : q.threads t = p₀)
    (hthreads : q'.threads = Function.update q.threads t p) (henq : q'.enqueued = q.enqueued)
    (hpopped : q'.popped = q.popped) (hrank : p.rank < p₀.rank) (hitem : p.item = p₀.item)
    (hpop : p.toPop = p₀.toPop) : Pays q (.advance t) q' := by
  subst ht
  refine pays_goto hthreads (Nat.le_trans hrank (Nat.le_add_right _ _)) ?_ ?_
  · rw [henq, hitem]
    exact (List.append_nil _).symm
  · rw [hpopped, hpop]
    rfl

theorem advance_pays (h : q.advance moved t = some q') : Pays q (.advance t) q' := by
  unfold Queue.advance at h
  split at h
  · exact absurd h (by simp)
  · rename_i value ht
    obtain ⟨_, rfl⟩ := Transition.of_guard h
    exact pays_same ht rfl rfl rfl (by simp [Thread.rank]) rfl rfl
  · rename_i value ht
    injection h with h
    rw [← h]
    refine pays_goto (p := .pushUnlock) rfl (by simp [ht, Thread.rank]) ?_ (by rw [ht]; rfl)
    rw [ht]
    exact congrArg (_ ++ ·) (List.append_nil _).symm
  · rename_i ht
    injection h with h
    rw [← h]
    exact pays_same ht rfl rfl rfl (by simp [Thread.rank]) rfl rfl
  · exact absurd h (by simp)
  · rename_i ht
    obtain ⟨_, rfl⟩ := Transition.of_guard h
    exact pays_same ht rfl rfl rfl (by simp [Thread.rank]) rfl rfl
  · rename_i ht
    injection h with h
    rw [← h]
    split
    · exact pays_same ht rfl rfl rfl (by simp [Thread.rank]) rfl rfl
    · exact pays_same ht rfl rfl rfl (by simp [Thread.rank]) rfl rfl
  · rename_i ht
    injection h with h
    rw [← h]
    exact pays_same ht rfl rfl rfl (by simp [Thread.rank]) rfl rfl
  · exact absurd h (by simp)
  · rename_i ht
    obtain ⟨_, rfl⟩ := Transition.of_guard h
    exact pays_same ht rfl rfl rfl (by simp [Thread.rank]) rfl rfl
  · rename_i ht
    split at h
    · rename_i val rest hq
      injection h with h
      rw [← h]
      exact pays_same ht rfl rfl rfl (by simp [Thread.rank]) rfl rfl
    · exact absurd h (by simp)
  · rename_i val ht
    injection h with h
    rw [← h]
    refine pays_goto (p := .popUnlock val) rfl (by simp [ht, Thread.rank])
      (by rw [ht]; exact (List.append_nil _).symm) ?_
    rw [ht, List.length_append]
    rfl
  · rename_i val ht
    injection h with h
    rw [← h]
    exact pays_same ht rfl rfl rfl (by simp [Thread.rank]) rfl rfl

/-- A notification costs what the consumer then has left to do, and one step more. -/
theorem notify_pays (ht : q.threads t = .notify) (hu : q.threads u = .waiting) :
    Pays q (.notifyOne t u) ((q.goto t .idle).goto u .woken) := by
  have hu' : Function.update q.threads t .idle u = .waiting :=
    (Function.update_of_ne (ne_of_waiting ht hu) ..).trans hu
  have hsteps := total_update Thread.rank q.threads t .idle
  have hsteps' := total_update Thread.rank (Function.update q.threads t .idle) u .woken
  rw [ht] at hsteps
  rw [hu'] at hsteps'
  simp only [Thread.rank] at hsteps hsteps'
  have hpops : tally Thread.toPop (Function.update (Function.update q.threads t .idle) u .woken)
      = tally Thread.toPop q.threads := by
    rw [tally_same (by rw [hu']; rfl), tally_same (by rw [ht]; rfl)]
  have hitems : ∑ v, ((Function.update (Function.update q.threads t .idle) u .woken v).item
      : Multiset T) = ∑ v, ((q.threads v).item : Multiset T) := by
    rw [sum_same (w := fun p : Thread T => (p.item : Multiset T)) (by rw [hu']; rfl),
      sum_same (w := fun p : Thread T => (p.item : Multiset T)) (by rw [ht]; rfl)]
  refine ⟨?_, ?_, congrArg (q.popped.length + ·) hpops⟩
  · show total Thread.rank (Function.update (Function.update q.threads t .idle) u .woken) + 1 ≤ _
    omega
  · exact (congrArg ((q.enqueued : Multiset T) + ·) hitems).trans (add_zero _).symm

/-- **Every action pays for itself.** -/
theorem step_pays (h : step moved q a = some q') : Pays q a q' := by
  cases a with
  | advance t => exact advance_pays h
  | push t value =>
      rw [step] at h
      split at h
      · rename_i ht
        injection h with h
        rw [← h]
        refine pays_goto (p := .pushLock value) rfl (by rw [ht]; exact Nat.le_refl _) ?_
          (by rw [ht]; rfl)
        rw [ht]
        exact congrArg (· ++ [value]) (List.append_nil _).symm
      · exact absurd h (by simp)
  | waitAndPop t =>
      rw [step] at h
      split at h
      · rename_i ht
        injection h with h
        rw [← h]
        exact pays_goto (p := .popLock) rfl (by rw [ht]; exact Nat.le_refl _)
          (by rw [ht]; exact (List.append_nil _).symm) (by rw [ht]; rfl)
      · exact absurd h (by simp)
  | notifyOne t u =>
      rw [step] at h
      split at h
      · rename_i ht hu
        injection h with h
        rw [← h]
        exact notify_pays ht hu
      · exact absurd h (by simp)
  | notifyNone t =>
      rw [step] at h
      split at h
      · rename_i ht
        obtain ⟨_, rfl⟩ := Transition.of_guard h
        refine pays_goto (p := .idle) rfl ?_ (by rw [ht]; exact (List.append_nil _).symm)
          (by rw [ht]; rfl)
        rw [ht]
        exact Nat.succ_le_succ (Nat.zero_le _)
      · exact absurd h (by simp)
  | spurious t =>
      rw [step] at h
      split at h
      · rename_i ht
        injection h with h
        rw [← h]
        exact pays_goto (p := .woken) rfl (by rw [ht]; exact Nat.le_refl _)
          (by rw [ht]; exact (List.append_nil _).symm) (by rw [ht]; rfl)
      · exact absurd h (by simp)

/-! ## Over a run -/

theorem sum_brings (as : List (Action n T)) : (as.map Action.brings).sum
    = 10 * as.countP Action.pushes + 6 * as.countP Action.pops + 6 * as.countP Action.wakes := by
  induction as with
  | nil => rfl
  | cons a as ih =>
      rw [List.map_cons, List.sum_cons, ih, Action.brings, countP_cons_credit, countP_cons_credit,
        countP_cons_credit]
      omega

/-- **What was enqueued** are the items that the calls of `push` have brought, but for those of the
calls that have still to enqueue theirs. -/
theorem run_items {as : List (Action n T)}
    (hrun : Transition.exec (step moved) ({} : Queue n T) as = some q) :
    (q.enqueued : Multiset T) + ∑ t, ((q.threads t).item : Multiset T)
      = (as.flatMap Action.value : Multiset T) := by
  refine Transition.exec_trace
    (I := fun as q => q.brought = (as.flatMap Action.value : Multiset T)) ?_ ?_ as hrun
  · exact (zero_add _).trans (Finset.sum_eq_zero fun _ _ => rfl)
  · intro as q a q' hi hs
    rw [(step_pays hs).items, hi, Multiset.coe_add, List.flatMap_append, List.flatMap_singleton]

/-- Each call of `push` brings one. -/
theorem length_values (as : List (Action n T)) :
    (as.flatMap Action.value).length = as.countP Action.pushes := by
  induction as with
  | nil => rfl
  | cons a as ih =>
      rw [List.flatMap_cons, List.length_append, ih, countP_cons_credit, Nat.add_comm]
      cases a <;> rfl

/-- The accounts at the end of a run. -/
theorem run_accounts {as : List (Action n T)}
    (hrun : Transition.exec (step moved) ({} : Queue n T) as = some q) :
    as.length ≤ 10 * as.countP Action.pushes + 6 * as.countP Action.pops
      + 6 * as.countP Action.wakes
      ∧ q.popped.length + tally Thread.toPop q.threads = as.countP Action.pops := by
  have hrank : total Thread.rank ({} : Queue n T).threads = 0 :=
    total_const (f := fun _ : Fin n => (Thread.idle : Thread T)) (k := 0) fun _ => rfl
  constructor
  · have hpaid := exec_paid (fun q : Queue n T => total Thread.rank q.threads) Action.brings
      (fun _ _ _ hs => (step_pays hs).steps) as hrun
    rw [sum_brings, hrank] at hpaid
    omega
  · have hcounts := exec_counts (I := fun _ => True) (C := fun _ => True)
      (fun q : Queue n T => q.popped.length + tally Thread.toPop q.threads) Action.pops
      (fun _ _ _ _ _ hs => ⟨trivial, (step_pays hs).pops⟩) as trivial (fun _ _ => trivial) hrun
    have hstart : tally Thread.toPop ({} : Queue n T).threads = 0 := tally_none fun _ => rfl
    rw [hcounts.2, hstart]
    exact Nat.zero_add _

/-! ## At rest -/

/-- A call that begins, or a thread that wakes without a notification. -/
def Action.outside (a : Action n T) : Bool := a.pushes || a.pops || a.wakes

/-- No thread can go on by itself. -/
def AtRest (moved : T → T) (q : Queue n T) : Prop :=
  ∀ a : Action n T, a.outside = false → step moved q a = none

/-- Whoever has the mutex goes on. -/
theorem holder_goes_on (hi : Inv moved q) (ht : (q.threads t).holds = true) :
    step moved q (.advance t) ≠ none := by
  have hknows := hi.ordered.knows t
  rw [step, Queue.advance]
  generalize q.threads t = p at ht hknows
  cases p with
  | front =>
      cases hq : q.queue with
      | nil => exact absurd hq hknows
      | cons val rest => simp
  | pushItem | pushUnlock | test | wait | pop | popUnlock => simp
  | idle | pushLock | notify | popLock | waiting | woken => exact absurd ht (by simp [Thread.holds])

/-- **At rest** nobody has the mutex, and a thread is in no call or blocked. -/
theorem idle_or_waiting (hi : Inv moved q) (hrest : AtRest moved q) (t : Fin n) :
    q.threads t = .idle ∨ q.threads t = .waiting := by
  have hfree : q.mutex = none := by
    cases hm : q.mutex with
    | none => rfl
    | some u => exact absurd (hrest (.advance u) rfl) (holder_goes_on hi ((hi.locked u).mpr hm))
  have hholds : (q.threads t).holds ≠ true := fun ht =>
    holder_goes_on hi ht (hrest (.advance t) rfl)
  have hadvance := hrest (.advance t) rfl
  rw [step, Queue.advance] at hadvance
  cases ht : q.threads t with
  | idle => exact .inl rfl
  | waiting => exact .inr rfl
  | pushLock | popLock | woken =>
      rw [ht] at hadvance
      exact absurd hadvance (by simp [Queue.lock, hfree])
  | notify =>
      by_cases hwaits : ∃ u, q.threads u = .waiting
      · obtain ⟨u, hu⟩ := hwaits
        have hnotify := hrest (.notifyOne t u) rfl
        simp only [step, ht, hu] at hnotify
        exact absurd hnotify (by simp)
      · have hnotify := hrest (.notifyNone t) rfl
        have hnone : ∀ u, (q.threads u).blocked = false := by
          intro u
          cases hu : q.threads u with
          | waiting => exact absurd ⟨u, hu⟩ hwaits
          | _ => rfl
        simp only [step, ht, if_pos hnone] at hnotify
        exact absurd hnotify (by simp)
  | pushItem | pushUnlock | test | wait | front | pop | popUnlock =>
      exact absurd (by rw [ht]; rfl) hholds

/--
**All calls that can return do.**

A run is no longer than its calls and the wake-ups without a notification make it. When no thread
can go on by itself any more, the items enqueued are those that the pushes have brought, each as
often as it was brought, and the calls to pop have returned the first of them, in order, as many as
there are pushes or as there are such calls; the others wait.
-/
theorem queue_drains (moved : T → T) (as : List (Action n T)) (q : Queue n T)
    (hrun : Transition.exec (step moved) {} as = some q) :
    as.length ≤ 10 * as.countP Action.pushes + 6 * as.countP Action.pops
      + 6 * as.countP Action.wakes
      ∧ (AtRest moved q →
        q.enqueued.Perm (as.flatMap Action.value)
          ∧ q.enqueued.length = as.countP Action.pushes
          ∧ q.popped.map Prod.snd
            = q.enqueued.take (min (as.countP Action.pushes) (as.countP Action.pops))
          ∧ (∀ t, q.poppedBy t = q.returned t)
          ∧ tally Thread.blocked q.threads
            = as.countP Action.pops - as.countP Action.pushes) := by
  obtain ⟨hlength, hpops⟩ := run_accounts hrun
  refine ⟨hlength, fun hrest => ?_⟩
  have hi : Inv moved q := inv_reachable (Transition.exec_reach as hrun)
  have hwhere := idle_or_waiting hi hrest
  have hnone : ∀ k : Thread T → Bool, k .idle = false → k .waiting = false →
      tally k q.threads = 0 := fun k hk hk' => tally_none fun t => by
    rcases hwhere t with ht | ht <;> rw [ht] <;> assumption
  have hblocked : tally Thread.toPop q.threads = tally Thread.blocked q.threads := by
    refine Finset.sum_congr rfl fun t _ => ?_
    rcases hwhere t with ht | ht <;> rw [ht] <;> rfl
  have hbrought : q.enqueued.Perm (as.flatMap Action.value) := by
    have hnothing : ∑ t, ((q.threads t).item : Multiset T) = 0 := Finset.sum_eq_zero fun t _ => by
      rcases hwhere t with ht | ht <;> rw [ht] <;> rfl
    have hall := run_items hrun
    rw [hnothing, add_zero] at hall
    exact Multiset.coe_eq_coe.mp hall
  have hpushes : q.enqueued.length = as.countP Action.pushes :=
    hbrought.length_eq.trans (length_values as)
  have hitems : q.enqueued = q.popped.map Prod.snd ++ q.queue := by
    refine hi.ordered.settled fun t val ht => ?_
    rcases hwhere t with h | h <;> rw [h] at ht <;> exact absurd ht (by simp)
  have hsum : q.enqueued.length = q.popped.length + q.queue.length := by
    rw [hitems, List.length_append, List.length_map]
  -- who waits has left no item
  have hempty : 0 < tally Thread.blocked q.threads → q.queue.length = 0 := by
    intro hpos
    obtain ⟨t, ht⟩ : ∃ t, (q.threads t).blocked = true := by
      by_contra hno
      have hzero : tally Thread.blocked q.threads = 0 := tally_none fun t =>
        Bool.eq_false_iff.mpr fun ht => hno ⟨t, ht⟩
      omega
    have hle := hi.supplied ⟨t, ht⟩
    rw [hnone Thread.supplies rfl rfl] at hle
    exact Nat.le_zero.mp hle
  have hmany : q.popped.length = min (as.countP Action.pushes) (as.countP Action.pops) := by
    by_cases hpos : 0 < tally Thread.blocked q.threads
    · have hzero := hempty hpos
      omega
    · omega
  refine ⟨hbrought, hpushes, ?_, fun t => ?_, ?_⟩
  · rw [← hmany, hitems, List.take_left' (List.length_map ..)]
  · rw [hi.handed t]
    rcases hwhere t with ht | ht <;> rw [ht] <;> exact List.append_nil _
  · by_cases hpos : 0 < tally Thread.blocked q.threads
    · have hzero := hempty hpos
      omega
    · omega

/-- Two calls to pop and one push: one consumer waits and is woken, the other one waits for ever. -/
theorem queue_drains_three :
    let as : List (Action 3 Nat) :=
      [.waitAndPop 0, .advance 0, .advance 0, .advance 0, .push 2 7, .advance 2, .advance 2,
        .advance 2, .notifyOne 2 0, .advance 0, .advance 0, .advance 0, .advance 0, .advance 0,
        .waitAndPop 1, .advance 1, .advance 1, .advance 1]
    let q := (Transition.exec (step id) {} as).get (by decide)
    q.popped.map Prod.snd = q.enqueued.take 1 ∧ tally Thread.blocked q.threads = 1 := by
  intro as q
  have hdrains := (queue_drains id as q (Option.some_get _).symm).2
  have hrest : AtRest id q := by
    intro a ha
    cases a with
    | push _ _ | waitAndPop _ | spurious _ => exact Bool.noConfusion ha
    | advance t =>
        revert t
        decide
    | notifyOne t u =>
        revert t u
        decide
    | notifyNone t =>
        revert t
        decide
  obtain ⟨_, _, hpopped, _, hblocked⟩ := hdrains hrest
  exact ⟨hpopped, hblocked⟩

end QuickStructs.ThreadSafeQueue
