import QuickStructs.Proof.RingInv

/-!
# What the queue promises

First in, first out, with refusals that are justified when they are decided; and one
construction and one destruction for each object, the destructor included.
-/

namespace QuickStructs.SPSCQueue

open Lib

variable {α : Type} {C : Capacity} {q q' : Queue α}

/--
**First in, first out.**

Whatever the interleaving: the values handed out are those pushed first, in order;
an emplace fails exactly when, at its load of `m_tail`, the queue holds `kCapacity`
published values; and a pop fails exactly when, at its load of `m_head`, it holds none.
-/
theorem spsc_fifo (C : Capacity) (q : Queue α) (h : Reachable C q) :
    q.popped <+: q.pushed.map some
      ∧ (∀ q', step C q .loadTail = some q' →
          (q'.producer = .idle ↔ q.pushed.length = q.popped.length + C.size))
      ∧ ∀ q', step C q .loadHead = some q' →
          (q'.consumer = .idle ↔ q.pushed.length = q.popped.length) := by
  have hinv := inv_reachable h
  refine ⟨hinv.fifo, fun q' hs => ?_, fun q' hs => ?_⟩
  · rw [← hinv.full_iff]
    cases step_cases hs with
    | full x head hp hfull =>
        have hhead : head = q.mHead := hinv.producerAt hp
        rw [hhead] at hfull
        exact iff_of_true rfl hfull
    | room x head hp hroom =>
        have hhead : head = q.mHead := hinv.producerAt hp
        rw [hhead] at hroom
        exact iff_of_false (by simp) hroom
  · rw [← hinv.empty_iff]
    cases step_cases hs with
    | empty tail hc hempty =>
        have htail : tail = q.mTail := hinv.consumerAt hc
        rw [htail] at hempty
        exact iff_of_true rfl hempty
    | found tail hc hsome =>
        have htail : tail = q.mTail := hinv.consumerAt hc
        rw [htail] at hsome
        exact iff_of_false (by simp) hsome

/-- Three values through a queue of two slots, which is full when the third one comes first. -/
theorem spsc_fifo_three_values :
    let C : Capacity := ⟨2, by decide, by decide⟩
    let run : List (Action Nat) :=
      [.emplace 7, .loadTail, .construct, .publish, .emplace 8, .pop, .loadTail, .loadHead,
        .construct, .publish, .emplace 9, .loadTail, .move, .destroy, .emplace 9, .release,
        .loadTail, .pop, .loadHead, .construct, .move, .publish, .destroy, .release]
    let q := (Transition.exec (step C) {} run).get (by decide)
    q.pushed = [7, 8, 9] ∧ q.popped = [some 7, some 8] ∧ q.popped <+: q.pushed.map some :=
  ⟨by decide, by decide, (spsc_fifo _ _ (Transition.exec_reach _ (Option.some_get _).symm)).1⟩

/-! ## The calls -/

/-- The value that a call of `emplace` brings. -/
def Action.value : Action α → List α
  | .emplace x => [x]
  | _ => []

/-- The value of the `emplace` that is under way. -/
def Producer.value : Producer α → Option α
  | .idle => none
  | .loadTail x _ | .construct x _ | .publish x _ => some x

/-- The values pushed, and the one of the call that is under way. -/
def Queue.brought (q : Queue α) : List α := q.pushed ++ q.producer.value.toList

/-- A step keeps the value of its call, or refuses it, or pushes it. -/
theorem brought_step {a : Action α} (hs : step C q a = some q') :
    q'.brought.Sublist (q.brought ++ a.value) := by
  have hsame : ∀ q₁ : Queue α, q₁.brought = q.brought → q₁.brought.Sublist (q.brought ++ []) := by
    intro q₁ hbrought
    rw [hbrought]
    exact List.sublist_append_left ..
  unfold Queue.brought at hsame ⊢
  cases step_cases hs with
  | emplace x hp =>
      rw [hp]
      show (q.pushed ++ [x]).Sublist (q.pushed ++ [] ++ [x])
      exact (List.sublist_append_left ..).append_right [x]
  | full x head hp hfull =>
      rw [hp]
      show (q.pushed ++ []).Sublist (q.pushed ++ [x] ++ [])
      rw [List.append_nil, List.append_nil]
      exact List.sublist_append_left ..
  | publish x head hp =>
      rw [hp]
      exact List.Sublist.refl _
  | room x head hp _ | construct x head hp => exact hsame _ (by rw [hp]; rfl)
  | pop _ | empty _ _ _ | found _ _ _ | move _ _ | destroy _ _ _ | release _ _ _ =>
      exact hsame _ rfl

/-- **What was pushed** are the values that the calls of `emplace` have brought, in their order, but
for those refused and the one of a call that goes on. -/
theorem pushed_values (as : List (Action α)) (q : Queue α)
    (hrun : Transition.exec (step C) {} as = some q) :
    (q.pushed ++ q.producer.value.toList).Sublist (as.flatMap Action.value) := by
  refine Transition.exec_trace (I := fun as q => q.brought.Sublist (as.flatMap Action.value))
    (List.Sublist.refl _) ?_ as hrun
  intro as q a q' hi hs
  rw [List.flatMap_append, List.flatMap_singleton]
  exact (brought_step hs).trans (hi.append_right _)

/-! ## Lifetimes -/

theorem construct_free (h : Inv C q) {x : α} {head : UInt64} (hp : q.producer = .construct x head) :
    q.mStorage (C.slotPtr head) = none := by
  obtain ⟨hhead, hroom⟩ := h.producerAt hp
  have hcontents : q.contents.length = q.pushed.length := by
    rw [Queue.contents, hp]
    exact congrArg List.length (List.append_nil _)
  have hfree := h.live.free C.spread (by rw [hcontents, Queue.first]; omega)
  rw [hcontents] at hfree
  rw [hhead, h.head]
  exact hfree

theorem move_live (h : Inv C q) {tail : UInt64} (hc : q.consumer = .move tail) :
    ∃ obj, q.mStorage (C.slotPtr tail) = some obj := by
  have hok := h.consumerAt hc
  obtain ⟨_, obj, hobj, _⟩ := h.front hok.1 hok.2 (by rw [Queue.first, hc]; rfl)
  exact ⟨obj, hobj⟩

theorem destroy_live (h : Inv C q) {tail : UInt64} {out : Option α}
    (hc : q.consumer = .destroy tail out) : ∃ obj, q.mStorage (C.slotPtr tail) = some obj := by
  have hok := h.consumerAt hc
  obtain ⟨_, obj, hobj, _⟩ := h.front hok.1 hok.2.1 (by rw [Queue.first, hc]; rfl)
  exact ⟨obj, hobj⟩

/-! ## The drain loop -/

/-- The loop has destroyed the objects before position `n`, and stands at `n`. -/
structure DrainInv (C : Capacity) (q : Queue α) (d : Drain α) (n : Nat) : Prop where
  tail : d.tail = UInt64.ofNat n
  order : q.popped.length ≤ n ∧ n ≤ q.pushed.length
  live : Ring.Stores C.slotAt d.queue.mStorage n q.pushed.length q.Item
  destroyed : d.queue.destroyed = List.range n

theorem drain_start (h : Inv C q) (hp : q.producer = .idle) (hc : q.consumer = .idle) :
    DrainInv C q q.drainStart q.popped.length := by
  have hfirst : q.first = q.popped.length := by
    rw [Queue.first, hc]
    rfl
  have hcontents : q.contents.length = q.pushed.length := by
    rw [Queue.contents, hp]
    exact congrArg List.length (List.append_nil _)
  have hlive := h.live
  have hdestroyed := h.destroyed
  rw [hfirst] at hlive hdestroyed
  rw [hcontents] at hlive
  exact ⟨h.tail, ⟨Nat.le_refl _, h.order⟩, hlive, hdestroyed⟩

/-- The loop goes on exactly while there is an object left, also across the wrap. -/
theorem drain_tail_iff (h : Inv C q) {d : Drain α} {n : Nat} (hd : DrainInv C q d n) :
    d.tail = q.mHead ↔ n = q.pushed.length := by
  have hnear := h.near
  have ho := hd.order
  rw [hd.tail, h.head]
  constructor
  · exact fun he => (counter_inj ho.2 (by omega) he.symm).symm
  · exact fun he => by rw [he]

theorem drain_live (h : Inv C q) {d : Drain α} {n : Nat} (hd : DrainInv C q d n)
    (hne : d.tail ≠ q.mHead) :
    ∃ obj, d.queue.mStorage (C.slotPtr d.tail) = some obj ∧ obj.object = n := by
  have hn : n ≠ q.pushed.length := fun he => hne ((drain_tail_iff h hd).mpr he)
  have ho := hd.order
  obtain ⟨obj, hobj, hitem⟩ := hd.live.full n (Nat.le_refl _) (by omega)
  rw [hd.tail]
  exact ⟨obj, hobj, hitem.1⟩

/-- **A pass destroys the one object at the position of `tail`.** -/
theorem drain_pass (h : Inv C q) {d d' : Drain α} {n : Nat} (hd : DrainInv C q d n)
    (hpass : drainPass C q.mHead d = some d') : DrainInv C q d' (n + 1) := by
  unfold drainPass at hpass
  split at hpass
  · exact absurd hpass (by simp)
  · rename_i hne
    injection hpass with hpass
    subst hpass
    obtain ⟨obj, hobj, hnum⟩ := drain_live h hd hne
    have hn : n ≠ q.pushed.length := fun he => hne ((drain_tail_iff h hd).mpr he)
    have ho := hd.order
    have hroom := h.room
    have hlen := contents_length q
    have hslot : C.slotPtr d.tail = C.slotAt n := by
      rw [hd.tail]
      rfl
    refine ⟨?_, ⟨by omega, by omega⟩, ?_, ?_⟩
    · show d.tail + 1 = UInt64.ofNat (n + 1)
      rw [hd.tail, counter_succ]
    · show Ring.Stores C.slotAt (Function.update d.queue.mStorage (C.slotPtr d.tail) none) _ _ _
      rw [hslot]
      exact hd.live.pop C.spread (by omega)
    · show d.queue.destroyed ++ occupants d.queue.mStorage (C.slotPtr d.tail) = _
      have hocc : occupants d.queue.mStorage (C.slotPtr d.tail) = [n] := by
        rw [occupants, hobj, ← hnum]
        rfl
      rw [hocc, hd.destroyed, List.range_succ]

/-- **The drain loop ends**, after as many passes as the counters are apart. -/
theorem drain_exits (h : Inv C q) (hp : q.producer = .idle) (hc : q.consumer = .idle) :
    drainPass C q.mHead (q.destructor C) = none := by
  refine Loop.iterate_exits (fun d => (q.mHead - d.tail).toNat)
    (I := fun d => ∃ n, DrainInv C q d n) ?_ _ _ ⟨_, drain_start h hp hc⟩ (Nat.le_refl _)
  rintro d d' ⟨n, hd⟩ hpass
  have hd' := drain_pass h hd hpass
  have ho := hd.order
  have ho' := hd'.order
  have hnear := h.near
  refine ⟨⟨n + 1, hd'⟩, ?_⟩
  rw [h.head, hd.tail, hd'.tail, counter_sub ho'.2 (by omega), counter_sub ho.2 (by omega)]
  omega

/-- **After the destructor every object was destroyed once**, in the order of construction. -/
theorem destructor_destroys (h : Inv C q) (hp : q.producer = .idle) (hc : q.consumer = .idle) :
    (q.destructor C).queue.destroyed = List.range q.built := by
  obtain ⟨n, hd⟩ := Loop.iterate_invariant (I := fun d => ∃ n, DrainInv C q d n) _
    ⟨_, drain_start h hp hc⟩ (fun d d' ⟨n, hd⟩ hpass => ⟨n + 1, drain_pass h hd hpass⟩)
  have hexit := drain_exits h hp hc
  unfold drainPass at hexit
  split at hexit
  · rename_i htail
    have hn := (drain_tail_iff h hd).mp htail
    have hbuilt : q.built = q.pushed.length := by
      rw [h.built, Queue.contents, hp]
      exact congrArg List.length (List.append_nil _)
    rw [hbuilt, ← hn]
    exact hd.destroyed
  · exact absurd hexit (by simp)

/--
**The lifetime of a slot.**

Whatever the interleaving: an object is constructed only in a slot that holds none;
`pop` moves from and destroys only an object that lives; and once both threads are
idle, the destructor ends, destroys only objects that live, and leaves every object
ever constructed destroyed exactly once.
-/
theorem slot_lifetimes (C : Capacity) (q : Queue α) (h : Reachable C q) :
    (∀ x head, q.producer = .construct x head → q.mStorage (C.slotPtr head) = none)
      ∧ (∀ tail, q.consumer = .move tail → ∃ obj, q.mStorage (C.slotPtr tail) = some obj)
      ∧ (∀ tail out, q.consumer = .destroy tail out →
          ∃ obj, q.mStorage (C.slotPtr tail) = some obj)
      ∧ (q.producer = .idle → q.consumer = .idle →
          drainPass C q.mHead (q.destructor C) = none
            ∧ (∀ d, Loop.Visits (drainPass C q.mHead) q.drainStart d → d.tail ≠ q.mHead →
                ∃ obj, d.queue.mStorage (C.slotPtr d.tail) = some obj)
            ∧ (q.destructor C).queue.destroyed = List.range q.built) := by
  have hinv := inv_reachable h
  refine ⟨fun _ _ => construct_free hinv, fun _ => move_live hinv, fun _ _ => destroy_live hinv,
    fun hp hc => ⟨drain_exits hinv hp hc, fun d hd hne => ?_, destructor_destroys hinv hp hc⟩⟩
  obtain ⟨n, hn⟩ := hd.invariant (I := fun d => ∃ n, DrainInv C q d n)
    ⟨_, drain_start hinv hp hc⟩ (fun d d' ⟨n, hd⟩ hpass => ⟨n + 1, drain_pass hinv hd hpass⟩)
  obtain ⟨obj, hobj, _⟩ := drain_live hinv hn hne
  exact ⟨obj, hobj⟩

/-- Two values pushed and one popped: the destructor finds the other. -/
theorem slot_lifetimes_two_values :
    let C : Capacity := ⟨2, by decide, by decide⟩
    let run : List (Action Nat) :=
      [.emplace 7, .loadTail, .construct, .publish, .emplace 8, .loadTail, .construct, .publish,
       .pop, .loadHead, .move, .destroy, .release]
    let q := (Transition.exec (step C) {} run).get (by decide)
    q.destroyed = [0] ∧ (q.destructor C).queue.destroyed = [0, 1] :=
  ⟨by decide, ((slot_lifetimes _ _ (Transition.exec_reach _ (Option.some_get _).symm)).2.2.2
    (by decide) (by decide)).2.2⟩

end QuickStructs.SPSCQueue
