import QuickStructs.Lib.Lock
import QuickStructs.Lib.Tally
import QuickStructs.Structs.ThreadSafeQueue

/-!
# Items are delivered in order, and no consumer is stranded

Whoever works on the queue has the mutex, so what a thread has seen of the queue is still
true of it in its next step, and what it takes from the front is what it pops.

A notification is sent when the mutex is free again, and by then another consumer may have
taken the item. So no item has a consumer of its own. What holds is a balance: as long as a
consumer waits, there are at most as many items as threads that will see to one, which are
the pushes that have still to notify and the consumers that have still to look. To begin to
wait is allowed only when there is no item.
-/

namespace QuickStructs.ThreadSafeQueue

open Lib Tally

variable {n : Nat} {T : Type} {moved : T → T} {q q' : Queue n T} {a : Action n T}
variable {t u : Fin n} {p : Thread T}

/-! ## Steps, case by case -/

/-- Will it see to an item? -/
def Thread.supplies (p : Thread T) : Bool := p.notifies || p.awake

/-- `p` is a point outside the mutex at which a thread may arrive at any time. -/
structure Thread.Open (p : Thread T) : Prop where
  holds : p.holds = false
  blocked : p.blocked = false
  hand : p.hand = []

inductive QueueStep (moved : T → T) (q : Queue n T) : Action n T → Queue n T → Prop where
  /-- A thread goes on, and has the mutex neither before nor after. -/
  | move (a : Action n T) (t : Fin n) (p : Thread T) (ht : (q.threads t).holds = false)
      (hp : p.Open) (hhand : (q.threads t).hand = [])
      (hle : (q.threads t).supplies.toNat ≤ p.supplies.toNat) : QueueStep moved q a (q.goto t p)
  | lock (t : Fin n) (p : Thread T) (hfree : q.mutex = none) (ht : (q.threads t).Open)
      (hp : (∃ value, p = .pushItem value) ∨ p = .test)
      (hsame : (q.threads t).supplies = p.supplies) :
      QueueStep moved q (.advance t) { q.goto t p with mutex := some t }
  | pushItem (t : Fin n) (value : T) (ht : q.threads t = .pushItem value) :
      QueueStep moved q (.advance t) { q.goto t .pushUnlock with
        queue := q.queue ++ [value], enqueued := q.enqueued ++ [value] }
  | pushUnlock (t : Fin n) (ht : q.threads t = .pushUnlock) :
      QueueStep moved q (.advance t) (q.unlock t .notify)
  | found (t : Fin n) (ht : q.threads t = .test) (hq : q.queue ≠ []) :
      QueueStep moved q (.advance t) (q.goto t .front)
  | empty (t : Fin n) (ht : q.threads t = .test) (hq : q.queue = []) :
      QueueStep moved q (.advance t) (q.goto t .wait)
  | wait (t : Fin n) (ht : q.threads t = .wait) :
      QueueStep moved q (.advance t) (q.unlock t .waiting)
  | front (t : Fin n) (val : T) (rest : List T) (ht : q.threads t = .front)
      (hq : q.queue = val :: rest) :
      QueueStep moved q (.advance t) { q.goto t (.pop val) with queue := moved val :: rest }
  | pop (t : Fin n) (val : T) (ht : q.threads t = .pop val) :
      QueueStep moved q (.advance t) { q.goto t (.popUnlock val) with
        queue := q.queue.tail, popped := q.popped ++ [(t, val)] }
  | popUnlock (t : Fin n) (val : T) (ht : q.threads t = .popUnlock val) :
      QueueStep moved q (.advance t) { q.unlock t .idle with
        returned := Function.update q.returned t (q.returned t ++ [val]) }
  | notifyOne (t u : Fin n) (ht : q.threads t = .notify) (hu : q.threads u = .waiting) :
      QueueStep moved q (.notifyOne t u) ((q.goto t .idle).goto u .woken)
  | notifyNone (t : Fin n) (ht : q.threads t = .notify)
      (hnone : ∀ u, (q.threads u).blocked = false) :
      QueueStep moved q (.notifyNone t) (q.goto t .idle)

theorem advance_cases (h : q.advance moved t = some q') : QueueStep moved q (.advance t) q' := by
  unfold Queue.advance at h
  split at h
  · exact absurd h (by simp)
  · rename_i value ht
    obtain ⟨hfree, rfl⟩ := Transition.of_guard h
    exact .lock t _ hfree (by rw [ht]; exact ⟨rfl, rfl, rfl⟩) (Or.inl ⟨value, rfl⟩)
      (by rw [ht]; rfl)
  · rename_i value ht
    injection h with h
    rw [← h]
    exact .pushItem t value ht
  · rename_i ht
    injection h with h
    rw [← h]
    exact .pushUnlock t ht
  · exact absurd h (by simp)
  · rename_i ht
    obtain ⟨hfree, rfl⟩ := Transition.of_guard h
    exact .lock t _ hfree (by rw [ht]; exact ⟨rfl, rfl, rfl⟩) (Or.inr rfl) (by rw [ht]; rfl)
  · rename_i ht
    injection h with h
    rw [← h]
    cases hq : q.queue with
    | nil => exact .empty t ht hq
    | cons val rest => exact .found t ht (by rw [hq]; simp)
  · rename_i ht
    injection h with h
    rw [← h]
    exact .wait t ht
  · exact absurd h (by simp)
  · rename_i ht
    obtain ⟨hfree, rfl⟩ := Transition.of_guard h
    exact .lock t _ hfree (by rw [ht]; exact ⟨rfl, rfl, rfl⟩) (Or.inr rfl) (by rw [ht]; rfl)
  · rename_i ht
    split at h
    · rename_i val rest hq
      injection h with h
      rw [← h]
      exact .front t val rest ht hq
    · exact absurd h (by simp)
  · rename_i val ht
    injection h with h
    rw [← h]
    exact .pop t val ht
  · rename_i val ht
    injection h with h
    rw [← h]
    exact .popUnlock t val ht

/-- A thread that does not have the mutex goes to a point outside it. -/
theorem step_open {p₀ : Thread T} (ht : q.threads t = p₀) (hfree : p₀.holds = false)
    (hhand : p₀.hand = []) (hp : p.Open) (hle : p₀.supplies.toNat ≤ p.supplies.toNat)
    (h : some (q.goto t p) = some q') : QueueStep moved q a q' := by
  subst ht
  rw [← Option.some.inj h]
  exact .move a t p hfree hp hhand hle

theorem step_cases (h : step moved q a = some q') : QueueStep moved q a q' := by
  cases a with
  | advance t => exact advance_cases h
  | push t value =>
      rw [step] at h
      split at h
      · rename_i ht
        exact step_open ht rfl rfl ⟨rfl, rfl, rfl⟩ (Nat.zero_le _) h
      · exact absurd h (by simp)
  | waitAndPop t =>
      rw [step] at h
      split at h
      · rename_i ht
        exact step_open ht rfl rfl ⟨rfl, rfl, rfl⟩ (Nat.zero_le _) h
      · exact absurd h (by simp)
  | notifyOne t u =>
      rw [step] at h
      split at h
      · rename_i ht hu
        injection h with h
        rw [← h]
        exact .notifyOne t u ht hu
      · exact absurd h (by simp)
  | notifyNone t =>
      rw [step] at h
      split at h
      · rename_i ht
        obtain ⟨hnone, rfl⟩ := Transition.of_guard h
        exact .notifyNone t ht hnone
      · exact absurd h (by simp)
  | spurious t =>
      rw [step] at h
      split at h
      · rename_i ht
        exact step_open ht rfl rfl ⟨rfl, rfl, rfl⟩ (Nat.zero_le _) h
      · exact absurd h (by simp)

/-- A thread that notifies does not wait. -/
theorem ne_of_waiting (ht : q.threads t = .notify) (hu : q.threads u = .waiting) : u ≠ t := by
  intro hut
  rw [hut, ht] at hu
  exact absurd hu (by simp)

/-! ## The mutex -/

/-- Those that have the mutex are its holder. -/
def Locked (q : Queue n T) : Prop := Lock.Agrees (fun t => (q.threads t).holds = true) q.mutex

/-- A step of one thread does not give the mutex to another. -/
theorem goto_other (hu : u ≠ t) :
    (Function.update q.threads t p u).holds = true ↔ (q.threads u).holds = true := by
  rw [Function.update_of_ne hu]

theorem locked_same (h : Locked q) (hp : p.holds = (q.threads t).holds) : Locked (q.goto t p) := by
  refine Lock.Agrees.congr h fun u => ?_
  show (Function.update q.threads t p u).holds = true ↔ _
  by_cases hu : u = t
  · rw [hu, Function.update_self, hp]
  · exact goto_other hu

theorem locked_unlock (h : Locked q) (ht : (q.threads t).holds = true) (hp : p.holds = false) :
    Locked (q.unlock t p) := by
  refine Lock.Agrees.release h ht ?_ fun u hu => goto_other hu
  show ¬(Function.update q.threads t p t).holds = true
  rw [Function.update_self, hp]
  decide

theorem locked_step (h : Locked q) (hs : step moved q a = some q') : Locked q' := by
  cases step_cases hs with
  | move _ t p ht hp _ _ => exact locked_same h (hp.holds.trans ht.symm)
  | lock t p hfree ht hp _ =>
      have hfree' : Lock.Agrees (fun t => (q.threads t).holds = true) none := hfree ▸ h
      refine hfree'.acquire ?_ fun u hu => goto_other hu
      show (Function.update q.threads t p t).holds = true
      rw [Function.update_self]
      rcases hp with ⟨value, rfl⟩ | rfl <;> rfl
  | pushItem t value ht => exact locked_same h (by rw [ht]; rfl)
  | pushUnlock t ht => exact locked_unlock h (by rw [ht]; rfl) rfl
  | found t ht _ => exact locked_same h (by rw [ht]; rfl)
  | empty t ht _ => exact locked_same h (by rw [ht]; rfl)
  | wait t ht => exact locked_unlock h (by rw [ht]; rfl) rfl
  | front t val rest ht _ => exact locked_same h (by rw [ht]; rfl)
  | pop t val ht => exact locked_same h (by rw [ht]; rfl)
  | popUnlock t val ht => exact locked_unlock h (by rw [ht]; rfl) rfl
  | notifyOne t u ht hu =>
      have hne := ne_of_waiting ht hu
      have hidle : Locked (q.goto t .idle) := locked_same h (by rw [ht]; rfl)
      refine locked_same hidle ?_
      show _ = (Function.update q.threads t .idle u).holds
      rw [Function.update_of_ne hne, hu]
      rfl
  | notifyNone t ht _ => exact locked_same h (by rw [ht]; rfl)

/-! ## What a thread has seen of the queue -/

/-- What the holder of the mutex knows. -/
def Knows (moved : T → T) (q : Queue n T) : Thread T → Prop
  | .wait => q.queue = []
  | .front => q.queue ≠ []
  | .pop val =>
    ∃ rest, q.queue = moved val :: rest
      ∧ q.enqueued = q.popped.map Prod.snd ++ val :: rest
  | _ => True

/-- The items that were enqueued are those that were popped, and then those in the queue. An
item that was moved from and not yet popped is the thread's to account for. -/
structure Ordered (moved : T → T) (q : Queue n T) : Prop where
  knows : ∀ t, Knows moved q (q.threads t)
  settled : (∀ t val, q.threads t ≠ .pop val) → q.enqueued = q.popped.map Prod.snd ++ q.queue

theorem knows_of_not_holds (hp : p.holds = false) : Knows moved q p := by
  cases p <;> trivial

/-- Without a change to the queue, a thread knows what it knew. -/
theorem knows_congr (hqueue : q'.queue = q.queue) (henq : q'.enqueued = q.enqueued)
    (hpop : q'.popped = q.popped) (h : Knows moved q p) : Knows moved q' p := by
  unfold Knows at h ⊢
  rw [hqueue, henq, hpop]
  exact h

/-- A step that changes the queue is made by the holder, and no other thread knows anything. -/
theorem knows_other (h : Locked q) (ht : (q.threads t).holds = true) (hu : u ≠ t) :
    Knows moved q' (q.threads u) := by
  refine knows_of_not_holds (Bool.eq_false_iff.mpr fun hheld => hu ?_)
  exact h.unique hheld ht

/-- After a step of the holder, it alone has to know something. -/
theorem knows_change (hl : Locked q) (hheld : (q.threads t).holds = true)
    (hthreads : q'.threads = Function.update q.threads t p) (hp : Knows moved q' p) :
    ∀ u, Knows moved q' (q'.threads u) := by
  intro u
  rw [hthreads]
  by_cases hu : u = t
  · rw [hu, Function.update_self]
    exact hp
  · rw [Function.update_of_ne hu]
    exact knows_other hl hheld hu

theorem not_pop_of_threads (ht : ∀ val, q.threads t ≠ .pop val)
    (hno : ∀ u val, Function.update q.threads t p u ≠ .pop val) :
    ∀ u val, q.threads u ≠ .pop val := by
  intro u val
  by_cases hu : u = t
  · rw [hu]
    exact ht val
  · have hother := hno u val
    rw [Function.update_of_ne hu] at hother
    exact hother

/-- **A thread goes on, and the queue stays.** -/
theorem ordered_goto (h : Ordered moved q) (hthreads : q'.threads = Function.update q.threads t p)
    (hqueue : q'.queue = q.queue) (henq : q'.enqueued = q.enqueued) (hpopped : q'.popped = q.popped)
    (ht : ∀ val, q.threads t ≠ .pop val) (hp : Knows moved q p) : Ordered moved q' where
  knows := by
    intro u
    rw [hthreads]
    by_cases hu : u = t
    · rw [hu, Function.update_self]
      exact knows_congr hqueue henq hpopped hp
    · rw [Function.update_of_ne hu]
      exact knows_congr hqueue henq hpopped (h.knows u)
  settled := by
    intro hno
    rw [hthreads] at hno
    rw [hqueue, henq, hpopped]
    exact h.settled (not_pop_of_threads ht hno)

theorem ordered_step (hl : Locked q) (h : Ordered moved q) (hs : step moved q a = some q') :
    Ordered moved q' := by
  cases step_cases hs with
  | move _ t p ht hp _ _ =>
      refine ordered_goto h rfl rfl rfl rfl (fun val hval => ?_) (knows_of_not_holds hp.holds)
      rw [hval] at ht
      exact absurd ht (by simp [Thread.holds])
  | lock t p _ ht hp _ =>
      refine ordered_goto h rfl rfl rfl rfl (fun val hval => ?_) ?_
      · have hheld := ht.holds
        rw [hval] at hheld
        exact absurd hheld (by simp [Thread.holds])
      · rcases hp with ⟨value, rfl⟩ | rfl <;> trivial
  | pushItem t value ht =>
      have hheld : (q.threads t).holds = true := by rw [ht]; rfl
      refine ⟨knows_change hl hheld rfl trivial, fun hno => ?_⟩
      have hbefore := h.settled (not_pop_of_threads (by simp [ht]) hno)
      show q.enqueued ++ [value] = q.popped.map Prod.snd ++ (q.queue ++ [value])
      rw [hbefore, List.append_assoc]
  | pushUnlock t ht => exact ordered_goto h rfl rfl rfl rfl (by simp [ht]) trivial
  | found t ht hq => exact ordered_goto h rfl rfl rfl rfl (by simp [ht]) hq
  | empty t ht hq => exact ordered_goto h rfl rfl rfl rfl (by simp [ht]) hq
  | wait t ht => exact ordered_goto h rfl rfl rfl rfl (by simp [ht]) trivial
  | front t val rest ht hq =>
      have hheld : (q.threads t).holds = true := by rw [ht]; rfl
      have hnone : ∀ u val, q.threads u ≠ .pop val := by
        intro u val hu
        by_cases hut : u = t
        · rw [hut, ht] at hu
          exact absurd hu (by simp)
        · exact hut (hl.unique (t := u) (by show (q.threads u).holds = true; rw [hu]; rfl) hheld)
      have hbefore := h.settled hnone
      rw [hq] at hbefore
      refine ⟨knows_change hl hheld rfl ⟨rest, rfl, hbefore⟩, fun hno => ?_⟩
      exact absurd (Function.update_self ..) (hno t val)
  | pop t val ht =>
      have hheld : (q.threads t).holds = true := by rw [ht]; rfl
      obtain ⟨rest, hq, hbefore⟩ : Knows moved q (.pop val) := ht ▸ h.knows t
      refine ⟨knows_change hl hheld rfl trivial, fun _ => ?_⟩
      show q.enqueued = (q.popped ++ [(t, val)]).map Prod.snd ++ q.queue.tail
      rw [hbefore, hq, List.map_append, List.append_assoc]
      rfl
  | popUnlock t val ht => exact ordered_goto h rfl rfl rfl rfl (by simp [ht]) trivial
  | notifyOne t u ht hu =>
      have hidle : Ordered moved (q.goto t .idle) :=
        ordered_goto h rfl rfl rfl rfl (by simp [ht]) trivial
      refine ordered_goto hidle rfl rfl rfl rfl (fun val => ?_) trivial
      have hne := ne_of_waiting ht hu
      show Function.update q.threads t .idle u ≠ _
      rw [Function.update_of_ne hne, hu]
      simp
  | notifyNone t ht _ => exact ordered_goto h rfl rfl rfl rfl (by simp [ht]) trivial

/-- The items that were popped are the first ones that were enqueued. -/
theorem Ordered.popped_first (h : Ordered moved q) : q.popped.map Prod.snd <+: q.enqueued := by
  by_cases hpop : ∃ t val, q.threads t = .pop val
  · obtain ⟨t, val, ht⟩ := hpop
    obtain ⟨rest, _, henq⟩ : Knows moved q (.pop val) := ht ▸ h.knows t
    exact ⟨val :: rest, henq.symm⟩
  · refine ⟨q.queue, (h.settled fun t val ht => hpop ⟨t, val, ht⟩).symm⟩

/-! ## The balance of items and threads -/

/-- As long as a thread waits, there are no more items than threads that will see to one. -/
def Supplied (q : Queue n T) : Prop :=
  (∃ t, (q.threads t).blocked = true) → q.queue.length ≤ tally Thread.supplies q.threads

/-- **One thread goes on**, and does not begin to wait. -/
theorem supplied_goto (h : Supplied q) (hthreads : q'.threads = Function.update q.threads t p)
    (hp : p.blocked = false)
    (hle : q'.queue.length + (q.threads t).supplies.toNat
      ≤ q.queue.length + p.supplies.toNat) : Supplied q' := by
  rintro ⟨u, hu⟩
  rw [hthreads] at hu ⊢
  have hne : u ≠ t := by
    intro hut
    rw [hut, Function.update_self, hp] at hu
    exact absurd hu (by decide)
  rw [Function.update_of_ne hne] at hu
  have hbefore := h ⟨u, hu⟩
  have hmove := tally_update Thread.supplies q.threads t p
  omega

theorem supplied_step (ho : Ordered moved q) (h : Supplied q) (hs : step moved q a = some q') :
    Supplied q' := by
  cases step_cases hs with
  | move _ t p _ hp _ hle => exact supplied_goto h rfl hp.blocked (Nat.add_le_add_left hle _)
  | lock t p _ _ hp hsame =>
      refine supplied_goto h rfl ?_ (Nat.le_of_eq (by rw [hsame]; rfl))
      rcases hp with ⟨value, rfl⟩ | rfl <;> rfl
  | pushItem t value ht =>
      -- one item more, and one push that has to notify
      refine supplied_goto h rfl rfl ?_
      rw [ht]
      show (q.queue ++ [value]).length + 0 ≤ q.queue.length + 1
      rw [List.length_append]
      exact Nat.le_refl _
  | pushUnlock t ht => exact supplied_goto h rfl rfl (by rw [ht]; exact Nat.le_refl _)
  | found t ht _ => exact supplied_goto h rfl rfl (by rw [ht]; exact Nat.le_refl _)
  | empty t ht hq =>
      intro _
      show q.queue.length ≤ _
      rw [hq]
      exact Nat.zero_le _
  | wait t ht =>
      -- what the predicate has seen is still so
      have hempty : q.queue = [] := by
        have hknows := ho.knows t
        rw [ht] at hknows
        exact hknows
      intro _
      show q.queue.length ≤ _
      rw [hempty]
      exact Nat.zero_le _
  | front t val rest ht hq =>
      refine supplied_goto h rfl rfl ?_
      rw [ht, hq]
      exact Nat.le_refl _
  | pop t val ht =>
      obtain ⟨rest, hq, _⟩ : Knows moved q (.pop val) := ht ▸ ho.knows t
      refine supplied_goto h rfl rfl ?_
      rw [ht]
      show q.queue.tail.length + 1 ≤ q.queue.length + 0
      rw [hq]
      exact Nat.le_refl _
  | popUnlock t val ht => exact supplied_goto h rfl rfl (by rw [ht]; exact Nat.le_refl _)
  | notifyOne t u ht hu =>
      -- the item passes from the push to the consumer that wakes
      have hne := ne_of_waiting ht hu
      intro _
      have hbefore := h ⟨u, by rw [hu]; rfl⟩
      have hleave := tally_leave (p := Thread.supplies) (f := q.threads) (i := t)
        (x := Thread.idle) rfl (by rw [ht]; rfl)
      have hthread : Function.update q.threads t .idle u = .waiting := by
        rw [Function.update_of_ne hne, hu]
      have henter := tally_enter (p := Thread.supplies) (f := Function.update q.threads t .idle)
        (i := u) (x := Thread.woken) rfl (by rw [hthread]; rfl)
      show q.queue.length
        ≤ tally Thread.supplies (Function.update (Function.update q.threads t .idle) u .woken)
      omega
  | notifyNone t ht hnone =>
      -- nobody waits, so the balance may be lost
      rintro ⟨u, hu⟩
      have hu' : (Function.update q.threads t .idle u).blocked = true := hu
      by_cases hut : u = t
      · rw [hut, Function.update_self] at hu'
        exact absurd hu' Bool.false_ne_true
      · rw [Function.update_of_ne hut, hnone u] at hu'
        exact absurd hu' Bool.false_ne_true

/-! ## What the calls return -/

def Queue.poppedBy (q : Queue n T) (t : Fin n) : List T :=
  (q.popped.filter fun e => e.1 = t).map Prod.snd

/-- What a thread has popped it has returned, or is about to return. -/
def Handed (q : Queue n T) : Prop := ∀ t, q.poppedBy t = q.returned t ++ (q.threads t).hand

/-- A thread goes on between points at which it has nothing to return. -/
theorem handed_goto (h : Handed q) (hthreads : q'.threads = Function.update q.threads t p)
    (hpopped : q'.popped = q.popped) (hreturned : q'.returned = q.returned)
    (ht : (q.threads t).hand = []) (hp : p.hand = []) : Handed q' := by
  intro u
  have hbefore := h u
  unfold Queue.poppedBy at hbefore ⊢
  rw [hpopped, hbefore, hreturned, hthreads]
  by_cases hu : u = t
  · rw [hu, Function.update_self, ht, hp]
  · rw [Function.update_of_ne hu]

theorem handed_step (h : Handed q) (hs : step moved q a = some q') : Handed q' := by
  cases step_cases hs with
  | move _ t p _ hp hhand _ => exact handed_goto h rfl rfl rfl hhand hp.hand
  | lock t p _ ht hp _ =>
      refine handed_goto h rfl rfl rfl ht.hand ?_
      rcases hp with ⟨value, rfl⟩ | rfl <;> rfl
  | pushItem t value ht => exact handed_goto h rfl rfl rfl (by rw [ht]; rfl) rfl
  | pushUnlock t ht => exact handed_goto h rfl rfl rfl (by rw [ht]; rfl) rfl
  | found t ht _ => exact handed_goto h rfl rfl rfl (by rw [ht]; rfl) rfl
  | empty t ht _ => exact handed_goto h rfl rfl rfl (by rw [ht]; rfl) rfl
  | wait t ht => exact handed_goto h rfl rfl rfl (by rw [ht]; rfl) rfl
  | front t val rest ht _ => exact handed_goto h rfl rfl rfl (by rw [ht]; rfl) rfl
  | pop t val ht =>
      intro u
      have hbefore := h u
      unfold Queue.poppedBy at hbefore
      show ((q.popped ++ [(t, val)]).filter fun e => e.1 = u).map Prod.snd
        = q.returned u ++ (Function.update q.threads t (.popUnlock val) u).hand
      rw [List.filter_append, List.map_append, hbefore, List.append_assoc]
      by_cases hu : u = t
      · rw [hu, Function.update_self, ht, List.filter_cons_of_pos (by simp)]
        rfl
      · rw [Function.update_of_ne hu, List.filter_cons_of_neg (by simpa using Ne.symm hu)]
        simp
  | popUnlock t val ht =>
      intro u
      have hbefore : q.poppedBy u = _ := h u
      show q.poppedBy u = Function.update q.returned t (q.returned t ++ [val]) u
        ++ (Function.update q.threads t .idle u).hand
      rw [hbefore]
      by_cases hu : u = t
      · rw [hu, Function.update_self, Function.update_self, ht]
        exact (List.append_nil _).symm
      · rw [Function.update_of_ne hu, Function.update_of_ne hu]
  | notifyOne t u ht hu =>
      have hne := ne_of_waiting ht hu
      have hidle : Handed (q.goto t .idle) := handed_goto h rfl rfl rfl (by rw [ht]; rfl) rfl
      refine handed_goto hidle rfl rfl rfl ?_ rfl
      show (Function.update q.threads t .idle u).hand = []
      rw [Function.update_of_ne hne, hu]
      rfl
  | notifyNone t ht _ => exact handed_goto h rfl rfl rfl (by rw [ht]; rfl) rfl

/-! ## Runs -/

structure Inv (moved : T → T) (q : Queue n T) : Prop where
  locked : Locked q
  ordered : Ordered moved q
  supplied : Supplied q
  handed : Handed q

theorem inv_init : Inv moved ({} : Queue n T) where
  locked := fun t => iff_of_false (by simp [Thread.holds]) (by simp)
  ordered := ⟨fun _ => trivial, fun _ => rfl⟩
  supplied := fun _ => Nat.zero_le _
  handed := fun _ => rfl

theorem inv_reachable (h : Reachable moved q) : Inv moved q :=
  h.invariant inv_init fun _ _ _ _ hi hs =>
    ⟨locked_step hi.locked hs, ordered_step hi.locked hi.ordered hs,
      supplied_step hi.ordered hi.supplied hs, handed_step hi.handed hs⟩

/-- Every item is delivered once and in order, and no consumer is stranded. -/
structure Delivers (q : Queue n T) : Prop where
  /-- The items come out as they went in. -/
  order : q.popped.map Prod.snd <+: q.enqueued
  /-- A call returns the item that it has popped. -/
  returns : ∀ t, q.poppedBy t = q.returned t ++ (q.threads t).hand
  /-- Nobody waits while there is an item and nobody sees to it. -/
  stranded : ¬(q.queue ≠ [] ∧ (∀ t, (q.threads t).notifies = false)
    ∧ (∀ t, (q.threads t).awake = false) ∧ ∃ t, q.threads t = .waiting)

/--
**The queue delivers.**

A consumer that has popped its item does not count as awake, although it is still running; so
the last statement says a little more than that somebody is awake.
-/
theorem queue_delivers (moved : T → T) (q : Queue n T) (h : Reachable moved q) : Delivers q := by
  have hinv := inv_reachable h
  refine ⟨hinv.ordered.popped_first, hinv.handed, ?_⟩
  rintro ⟨hqueue, hnotifies, hawake, t, ht⟩
  have hle := hinv.supplied ⟨t, by rw [ht]; rfl⟩
  have hnone : tally Thread.supplies q.threads = 0 := tally_none fun u => by
    unfold Thread.supplies
    rw [hnotifies u, hawake u]
    rfl
  have hpos := List.length_pos_of_ne_nil hqueue
  omega

/-- Two consumers and a producer: one consumer waits, the other takes the item before the
notification, and the first wakes for nothing and waits again. -/
theorem queue_delivers_three :
    Delivers ((Transition.exec (step id) ({} : Queue 3 Nat)
      [.waitAndPop 0, .advance 0, .advance 0, .advance 0, .push 2 7, .advance 2, .advance 2,
        .advance 2, .waitAndPop 1, .advance 1, .advance 1, .advance 1, .advance 1, .notifyOne 2 0,
        .advance 1, .advance 0, .advance 0, .advance 0, .push 2 8, .advance 2, .advance 2]).get
      (by decide)) :=
  queue_delivers id _ (Transition.exec_reach _ (Option.some_get _).symm)

end QuickStructs.ThreadSafeQueue
