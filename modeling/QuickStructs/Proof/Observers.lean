import QuickStructs.Structs.SPSCObservers
import QuickStructs.Proof.RingInv

/-!
# What the observers tell

An endpoint thread does not move its own counter while it observes. So one of the two loads
may be taken as made at the instant of the other, and the difference is the number of elements
at that instant: the first load where the thread owns the counter it loads last, the second
where it owns the one it loads first.

A third thread owns neither. Its two loads are of two instants, and the tail of the second may
be ahead of the head of the first.
-/

namespace QuickStructs.SPSCQueue

open Lib

variable {α : Type} {C : Capacity} {q q' : Queue α} {w w' : Watched α} {t : Caller} {c : Call}
variable {r : Return}

/-- The answer is right for `n` elements. -/
def Capacity.Tells (C : Capacity) (n : Nat) : Observer → Answer → Prop
  | .size, .number v => v.toNat = n
  | .empty, .truth b => b = true ↔ n = 0
  | .full, .truth b => b = true ↔ n = C.size
  | _, _ => False

/-- The position that the first load of a call shows. -/
def Call.position (c : Call) : Nat :=
  match c.observer with
  | .empty => c.poppedAt
  | .full | .size => c.pushedAt

/-- A call that waits for its second load. -/
structure Call.Ok (C : Capacity) (q : Queue α) (t : Caller) (c : Call) : Prop where
  loaded : c.loaded = UInt64.ofNat c.position
  order : c.poppedAt ≤ c.pushedAt
  room : c.pushedAt ≤ c.poppedAt + C.size
  /-- Nothing is unpublished or put back. -/
  pushed : c.pushedAt ≤ q.pushed.length
  popped : c.poppedAt ≤ q.popped.length
  start : c.pushedAt - c.poppedAt ∈ c.seen
  now : q.count ∈ c.seen
  /-- The producer does not push while it observes. -/
  producer : t = .producer → c.pushedAt = q.pushed.length
  /-- The consumer does not pop while it observes. -/
  consumer : t = .consumer → c.poppedAt = q.popped.length

/-- A call that has returned. -/
structure Return.Ok (C : Capacity) (r : Return) : Prop where
  /-- The number of elements at some instant, for the endpoint threads. -/
  exact : r.caller ≠ .third →
    ∃ n ∈ r.call.seen, n ≤ C.size ∧ C.Tells n r.call.observer r.answer
  /-- The distance of the two positions, for any thread. -/
  size : r.call.observer = .size →
    r.answer = .number (UInt64.ofNat r.call.pushedAt - UInt64.ofNat r.poppedBy)
  room : r.call.pushedAt ≤ r.poppedBy + C.size

structure WatchInv (C : Capacity) (w : Watched α) : Prop where
  queue : Inv C w.queue
  calls : ∀ t c, w.calls t = some c → c.Ok C w.queue t
  returned : ∀ r ∈ w.returned, r.Ok C

theorem watchInv_init : WatchInv C ({} : Watched α) where
  queue := inv_init
  calls := by intro t c hc; exact absurd hc (by simp)
  returned := by intro r hr; exact absurd hr List.not_mem_nil

/-! ## Two loads of one instant -/

theorem window_lt (C : Capacity) {lo hi : Nat} (hroom : hi ≤ lo + C.size) : hi - lo < 2 ^ 64 := by
  have hsize := C.kCapacity.toNat_lt
  unfold Capacity.size at hroom
  omega

/-- **Two counters of one instant tell how many elements there are.** -/
theorem answer_tells (C : Capacity) (o : Observer) {lo hi : Nat} {first second : UInt64}
    (hle : lo ≤ hi) (hroom : hi ≤ lo + C.size)
    (hfirst : first = UInt64.ofNat (if o = .empty then lo else hi))
    (hsecond : second = UInt64.ofNat (if o = .empty then hi else lo)) :
    C.Tells (hi - lo) o (C.answer o first second) := by
  have hlt := window_lt C hroom
  have hsub := counter_sub hle hlt
  subst hfirst hsecond
  cases o with
  | empty =>
      show decide _ = true ↔ _
      rw [decide_eq_true_iff]
      constructor
      · intro heq
        have := counter_inj hle hlt heq
        omega
      · intro hzero
        have hsame : hi = lo := by omega
        rw [hsame]
  | full =>
      show decide (UInt64.ofNat hi - UInt64.ofNat lo = C.kCapacity) = true ↔ _
      rw [decide_eq_true_iff, ← UInt64.toNat_inj, hsub]
      exact Iff.rfl
  | size => exact hsub

/-- The second load of a call, whatever it loads. -/
theorem second_eq (h : Inv C q) (o : Observer) :
    o.second q = UInt64.ofNat (if o = .empty then q.pushed.length else q.popped.length) := by
  cases o with
  | empty => exact h.head
  | full => exact h.tail
  | size => exact h.tail

theorem Inv.pushed_le (h : Inv C q) : q.pushed.length ≤ q.popped.length + C.size :=
  Nat.le_trans (contents_length q) h.room

theorem first_eq (hc : c.Ok C q t) :
    c.loaded = UInt64.ofNat (if c.observer = .empty then c.poppedAt else c.pushedAt) := by
  rw [hc.loaded, Call.position]
  cases c.observer <;> rfl

/-- What the first load has read is still there at the second. -/
theorem tells_now (h : Inv C q) (hc : c.Ok C q t)
    (hfirst : c.loaded
      = UInt64.ofNat (if c.observer = .empty then q.popped.length else q.pushed.length)) :
    ∃ n ∈ c.seen, n ≤ C.size
      ∧ C.Tells n c.observer (C.answer c.observer c.loaded (c.observer.second q)) := by
  have hroom := h.pushed_le
  have hcount : q.count ≤ C.size := by
    unfold Queue.count
    omega
  exact ⟨_, hc.now, hcount, answer_tells C _ h.order hroom hfirst (second_eq h c.observer)⟩

/-- What the second load reads was there at the first. -/
theorem tells_start (hc : c.Ok C q t)
    (hsecond : c.observer.second q
      = UInt64.ofNat (if c.observer = .empty then c.pushedAt else c.poppedAt)) :
    ∃ n ∈ c.seen, n ≤ C.size
      ∧ C.Tells n c.observer (C.answer c.observer c.loaded (c.observer.second q)) := by
  have hroom := hc.room
  have hcount : c.pushedAt - c.poppedAt ≤ C.size := by omega
  exact ⟨_, hc.start, hcount, answer_tells C _ hc.order hroom (first_eq hc) hsecond⟩

/-- The producer's second load: its own counter has not moved since the first. -/
theorem producer_tells (h : Inv C q) (hc : c.Ok C q .producer) :
    ∃ n ∈ c.seen, n ≤ C.size
      ∧ C.Tells n c.observer (C.answer c.observer c.loaded (c.observer.second q)) := by
  have hpushed := hc.producer rfl
  by_cases ho : c.observer = .empty
  · refine tells_start hc ?_
    rw [second_eq h, if_pos ho, if_pos ho, hpushed]
  · refine tells_now h hc ?_
    rw [first_eq hc, if_neg ho, if_neg ho, hpushed]

/-- The consumer's second load. -/
theorem consumer_tells (h : Inv C q) (hc : c.Ok C q .consumer) :
    ∃ n ∈ c.seen, n ≤ C.size
      ∧ C.Tells n c.observer (C.answer c.observer c.loaded (c.observer.second q)) := by
  have hpopped := hc.consumer rfl
  by_cases ho : c.observer = .empty
  · refine tells_now h hc ?_
    rw [first_eq hc, if_pos ho, if_pos ho, hpopped]
  · refine tells_start hc ?_
    rw [second_eq h, if_neg ho, if_neg ho, hpopped]

/-! ## Step by step -/

/-- Each step of the queue moves one of the two histories at most, that of its thread. -/
theorem step_moves {a : Action α} (h : step C q a = some q') :
    a.caller = .producer ∧ q'.popped = q.popped ∧ q.pushed.length ≤ q'.pushed.length
      ∨ a.caller = .consumer ∧ q'.pushed = q.pushed ∧ q.popped.length ≤ q'.popped.length := by
  cases step_cases h with
  | emplace x hp => exact Or.inl ⟨rfl, rfl, Nat.le_refl _⟩
  | full x head hp _ => exact Or.inl ⟨rfl, rfl, Nat.le_refl _⟩
  | room x head hp _ => exact Or.inl ⟨rfl, rfl, Nat.le_refl _⟩
  | construct x head hp => exact Or.inl ⟨rfl, rfl, Nat.le_refl _⟩
  | publish x head hp =>
      refine Or.inl ⟨rfl, rfl, ?_⟩
      rw [List.length_append]
      exact Nat.le_add_right _ _
  | pop hc => exact Or.inr ⟨rfl, rfl, Nat.le_refl _⟩
  | empty tail hc _ => exact Or.inr ⟨rfl, rfl, Nat.le_refl _⟩
  | found tail hc _ => exact Or.inr ⟨rfl, rfl, Nat.le_refl _⟩
  | move tail hc => exact Or.inr ⟨rfl, rfl, Nat.le_refl _⟩
  | destroy tail out hc => exact Or.inr ⟨rfl, rfl, Nat.le_refl _⟩
  | release tail out hc =>
      refine Or.inr ⟨rfl, rfl, ?_⟩
      rw [List.length_append]
      exact Nat.le_add_right _ _

/-- A call of one thread while another takes a step. -/
theorem call_see {a : Action α} (hs : step C q a = some q') (hc : c.Ok C q t) (ht : t ≠ a.caller) :
    (c.see q').Ok C q' t := by
  have hpushed := hc.pushed
  have hpopped := hc.popped
  have hstart : c.pushedAt - c.poppedAt ∈ c.seen ++ [q'.count] := List.mem_append_left _ hc.start
  have hnow : q'.count ∈ c.seen ++ [q'.count] := List.mem_append_right _ List.mem_cons_self
  rcases step_moves hs with ⟨ha, hsame, hmore⟩ | ⟨ha, hsame, hmore⟩
  · exact
      { loaded := hc.loaded, order := hc.order, room := hc.room, start := hstart, now := hnow
        pushed := Nat.le_trans hpushed hmore
        popped := by rw [hsame]; exact hpopped
        producer := fun hp => absurd (hp.trans ha.symm) ht
        consumer := fun hp => by rw [hsame]; exact hc.consumer hp }
  · exact
      { loaded := hc.loaded, order := hc.order, room := hc.room, start := hstart, now := hnow
        pushed := by rw [hsame]; exact hpushed
        popped := Nat.le_trans hpopped hmore
        producer := fun hp => by rw [hsame]; exact hc.producer hp
        consumer := fun hp => absurd (hp.trans ha.symm) ht }

/-- The first load of a call. -/
theorem call_begin (h : Inv C q) (o : Observer) (t : Caller) : (q.begin o).Ok C q t where
  loaded := by
    cases o with
    | empty => exact h.tail
    | full => exact h.head
    | size => exact h.head
  order := h.order
  room := h.pushed_le
  pushed := Nat.le_refl _
  popped := Nat.le_refl _
  start := List.mem_cons_self
  now := List.mem_cons_self
  producer := fun _ => rfl
  consumer := fun _ => rfl

/-- The second load of a call. -/
theorem call_finish (h : Inv C q) (hc : c.Ok C q t) : (c.finish C t q).Ok C where
  exact := by
    intro hthird
    cases t with
    | producer => exact producer_tells h hc
    | consumer => exact consumer_tells h hc
    | third => exact absurd rfl hthird
  size := by
    intro hsize
    have ho : c.observer = .size := hsize
    have hloaded := hc.loaded
    unfold Call.position at hloaded
    rw [ho] at hloaded
    show C.answer c.observer c.loaded (c.observer.second q) = _
    rw [ho, hloaded, second_eq h]
    rfl
  room := by
    have hroom := hc.room
    have hpopped := hc.popped
    show c.pushedAt ≤ q.popped.length + C.size
    omega

/-- **Every step keeps the invariant.** -/
theorem watchInv_step {a : Watch α} (h : WatchInv C w) (hs : watch C w a = some w') :
    WatchInv C w' := by
  cases a with
  | queue a =>
      rw [watch, Option.ite_none_right_eq_some] at hs
      obtain ⟨hfree, hmap⟩ := hs
      obtain ⟨q', hstep, rfl⟩ := Option.map_eq_some_iff.mp hmap
      refine ⟨inv_step h.queue hstep, fun t c hc => ?_, h.returned⟩
      obtain ⟨c₀, hc₀, rfl⟩ := Option.map_eq_some_iff.mp hc
      refine call_see hstep (h.calls t c₀ hc₀) fun ht => ?_
      -- the thread of the step is in no call
      rw [ht, hfree] at hc₀
      exact absurd hc₀ (by simp)
  | call t o =>
      obtain ⟨_, rfl⟩ := Transition.of_guard hs
      refine ⟨h.queue, fun u c hc => ?_, h.returned⟩
      by_cases hu : u = t
      · subst hu
        have hcall : Function.update w.calls u (some (w.queue.begin o)) u = some c := hc
        rw [Function.update_self] at hcall
        cases hcall
        exact call_begin h.queue o u
      · have hcall : Function.update w.calls t (some (w.queue.begin o)) u = some c := hc
        rw [Function.update_of_ne hu] at hcall
        exact h.calls u c hcall
  | finish t =>
      rw [watch] at hs
      split at hs
      · rename_i c₀ hc₀
        cases hs
        refine ⟨h.queue, fun u c hc => ?_, fun r hr => ?_⟩
        · have hcall : Function.update w.calls t none u = some c := hc
          by_cases hu : u = t
          · rw [hu, Function.update_self] at hcall
            exact absurd hcall (by simp)
          · rw [Function.update_of_ne hu] at hcall
            exact h.calls u c hcall
        · rcases List.mem_append.mp hr with hr | hr
          · exact h.returned r hr
          · rw [List.mem_singleton.mp hr]
            exact call_finish h.queue (h.calls t c₀ hc₀)
      · exact absurd hs (by simp)

theorem watchInv_reachable (h : WatchedReachable C w) : WatchInv C w :=
  h.invariant watchInv_init fun _ _ _ _ hi hs => watchInv_step hi hs

/--
**The observers are exact for the endpoint threads.**

In every run, each call that has returned to the producer or to the consumer tells the number of
elements at some instant between its two loads, and that number is at most the capacity.
-/
theorem observers_exact (C : Capacity) (w : Watched α) (h : WatchedReachable C w) :
    ∀ r ∈ w.returned, r.caller ≠ .third →
      ∃ n ∈ r.call.seen, n ≤ C.size ∧ C.Tells n r.call.observer r.answer :=
  fun r hr => ((watchInv_reachable h).returned r hr).exact

/-- A queue of one slot, for the runs below. -/
def one : Capacity := ⟨1, by decide, by decide⟩

/-- The consumer asks for the size while a value is published: there was nothing at its first
load. -/
theorem observers_exact_consumer :
    let run : List (Watch Nat) :=
      [.queue (.emplace 7), .queue .loadTail, .call .consumer .size, .queue .construct,
        .queue .publish, .finish .consumer]
    let w := (Transition.exec (watch one) {} run).get (by decide)
    w.returned.map (fun r => (r.answer, r.call.seen)) = [(.number 0, [0, 0, 1])]
      ∧ ∀ r ∈ w.returned, r.caller ≠ .third →
        ∃ n ∈ r.call.seen, n ≤ one.size ∧ one.Tells n r.call.observer r.answer :=
  ⟨by decide, observers_exact one _ (Transition.exec_reach _ (Option.some_get _).symm)⟩

/-! ## A third thread -/

/-- The distance to a counter that has overtaken. -/
theorem counter_overtaken {h t : Nat} (hlt : h < t) (hnear : t - h < 2 ^ 64) :
    (UInt64.ofNat h - UInt64.ofNat t).toNat = 2 ^ 64 - (t - h) := by
  have hsub := counter_sub (Nat.le_of_lt hlt) hnear
  rw [← UInt64.neg_sub, UInt64.toNat_neg, hsub]
  show (2 ^ 64 - (t - h)) % 2 ^ 64 = _
  rw [Nat.mod_eq_of_lt (by omega)]

/--
**The size that a third thread is told is at most the capacity as long as the tail does not overtake
the head it has loaded.**

It is the number of values published by its first load and not popped by its second. When more
than these have been popped, the difference wraps, and the value is above the capacity.
-/
theorem third_size (C : Capacity) (w : Watched α) (h : WatchedReachable C w) :
    ∀ r ∈ w.returned, r.caller = .third → r.call.observer = .size →
      ∃ v, r.answer = .number v
        ∧ (r.poppedBy ≤ r.call.pushedAt →
          v ≤ C.kCapacity ∧ v.toNat = r.call.pushedAt - r.poppedBy)
        ∧ (r.call.pushedAt < r.poppedBy → r.poppedBy - r.call.pushedAt + C.size < 2 ^ 64 →
          C.kCapacity < v) := by
  intro r hr _ hsize
  have hok := (watchInv_reachable h).returned r hr
  have hroom := hok.room
  refine ⟨_, hok.size hsize, fun hle => ?_, fun hlt hnear => ?_⟩
  · have hsub := counter_sub hle (window_lt C hroom)
    refine ⟨UInt64.le_iff_toNat_le.mpr ?_, hsub⟩
    rw [hsub]
    show _ ≤ C.size
    omega
  · have hover := counter_overtaken hlt (by omega)
    refine UInt64.lt_iff_toNat_lt.mpr ?_
    rw [hover]
    show C.size < _
    omega

/-- A value goes through the queue between the two loads of a third thread. -/
def overtake : List (Watch Nat) :=
  [.call .third .size, .queue (.emplace 7), .queue .loadTail, .queue .construct, .queue .publish,
    .queue .pop, .queue .loadHead, .queue .move, .queue .destroy, .queue .release, .finish .third]

/-- A third thread asks for the size after the value is published. -/
theorem third_size_one :
    let run : List (Watch Nat) :=
      [.queue (.emplace 7), .queue .loadTail, .queue .construct, .queue .publish,
        .call .third .size, .finish .third]
    let w := (Transition.exec (watch one) {} run).get (by decide)
    w.returned.map (fun r => r.answer) = [.number 1]
      ∧ ∀ r ∈ w.returned, r.caller = .third → r.call.observer = .size →
        ∃ v, r.answer = .number v
          ∧ (r.poppedBy ≤ r.call.pushedAt →
            v ≤ one.kCapacity ∧ v.toNat = r.call.pushedAt - r.poppedBy)
          ∧ (r.call.pushedAt < r.poppedBy → r.poppedBy - r.call.pushedAt + one.size < 2 ^ 64 →
            one.kCapacity < v) :=
  ⟨by decide, third_size one _ (Transition.exec_reach _ (Option.some_get _).symm)⟩

/-- **Its size is then 2^64 - 1**, in a queue of one slot. -/
theorem third_size_overtaken :
    ∃ w : Watched Nat, WatchedReachable one w ∧ ∃ r ∈ w.returned, r.caller = .third
      ∧ r.call.observer = .size ∧ r.answer = .number 18446744073709551615
      ∧ one.kCapacity < 18446744073709551615 := by
  refine ⟨(Transition.exec (watch one) {} overtake).get (by decide),
    Transition.exec_reach _ (Option.some_get _).symm, ?_⟩
  decide

end QuickStructs.SPSCQueue
