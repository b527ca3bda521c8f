import QuickStructs.Lib.Progress
import QuickStructs.Proof.Lifetime
import QuickStructs.Structs.SPSCExample

/-!
# The example program transfers all items

`prod` and `cons` wait for each other by trying again, so a run of the program may be as long as
the scheduler likes. But whenever the loop of `cons` is not over, one of the two is at most one
call away from success: if there is something in the queue it is `cons`, if there is nothing it is
`prod`, and a queue with at least one slot is not full then. So each round in which neither was
forgotten brings an item in or out.
-/

namespace QuickStructs.SPSCQueue

open Lib Progress

variable {α : Type} {C : Capacity} {item : Nat → α} {total : Nat} {e e' : Example α} {t : Turn}

/-! ## Steps, case by case -/

/-- The steps of the program, each with what is known when it is made. -/
inductive ExampleStep (C : Capacity) (item : Nat → α) (total : Nat) (e : Example α) :
    Turn → Example α → Prop where
  | emplace (hp : e.queue.producer = .idle) (hi : e.i < total) :
      ExampleStep C item total e .prod
        { e with queue.producer := .loadTail (item e.i) e.queue.mHead }
  | full (x : α) (head : UInt64) (hp : e.queue.producer = .loadTail x head)
      (hfull : head - e.queue.mTail = C.kCapacity) :
      ExampleStep C item total e .prod { e with queue.producer := .idle }
  | room (x : α) (head : UInt64) (hp : e.queue.producer = .loadTail x head) :
      ExampleStep C item total e .prod { e with queue.producer := .construct x head }
  | construct (x : α) (head : UInt64) (hp : e.queue.producer = .construct x head) :
      ExampleStep C item total e .prod { e with
        queue := { e.queue.constructAt (C.slotPtr head) x with producer := .publish x head } }
  | publish (x : α) (head : UInt64) (hp : e.queue.producer = .publish x head) :
      ExampleStep C item total e .prod { e with
        queue := { e.queue with
          producer := .idle, mHead := head + 1, pushed := e.queue.pushed ++ [x] }
        i := e.i + 1 }
  | pop (hc : e.queue.consumer = .idle) (hcnt : e.cnt < total) :
      ExampleStep C item total e .cons { e with queue.consumer := .loadHead e.queue.mTail }
  | empty (tail : UInt64) (hc : e.queue.consumer = .loadHead tail)
      (hempty : e.queue.mHead = tail) :
      ExampleStep C item total e .cons { e with queue.consumer := .idle }
  | found (tail : UInt64) (hc : e.queue.consumer = .loadHead tail) :
      ExampleStep C item total e .cons { e with queue.consumer := .move tail }
  | move (tail : UInt64) (hc : e.queue.consumer = .move tail) :
      ExampleStep C item total e .cons { e with
        queue.consumer := .destroy tail ((e.queue.mStorage (C.slotPtr tail)).map Object.value) }
  | destroy (tail : UInt64) (out : Option α) (hc : e.queue.consumer = .destroy tail out) :
      ExampleStep C item total e .cons { e with
        queue := { e.queue.destroyAt (C.slotPtr tail) with consumer := .release tail out } }
  | release (tail : UInt64) (out : Option α) (hc : e.queue.consumer = .release tail out) :
      ExampleStep C item total e .cons { e with
        queue := { e.queue with
          consumer := .idle, mTail := tail + 1, popped := e.queue.popped ++ [out] }
        cnt := e.cnt + 1 }

theorem prod_cases (hs : exampleStep C item total e .prod = some e') :
    (∃ a, step C e.queue a = some e'.queue) ∧ ExampleStep C item total e .prod e' := by
  obtain ⟨a, ha, hs⟩ := Option.bind_eq_some_iff.mp hs
  obtain ⟨q, hq, rfl⟩ := Option.map_eq_some_iff.mp hs
  refine ⟨⟨a, hq⟩, ?_⟩
  unfold Example.prodNext at ha
  split at ha
  · rename_i hp
    obtain ⟨hi, ha⟩ := Option.ite_none_right_eq_some.mp ha
    obtain rfl := Option.some.inj ha
    cases step_cases hq with
    | emplace x _ => exact .emplace hp hi
  · obtain rfl := Option.some.inj ha
    cases step_cases hq with
    | full x head hp hfull => exact .full x head hp hfull
    | room x head hp _ => exact .room x head hp
  · obtain rfl := Option.some.inj ha
    cases step_cases hq with
    | construct x head hp => exact .construct x head hp
  · obtain rfl := Option.some.inj ha
    cases step_cases hq with
    | publish x head hp => exact .publish x head hp

theorem cons_cases (hs : exampleStep C item total e .cons = some e') :
    (∃ a, step C e.queue a = some e'.queue) ∧ ExampleStep C item total e .cons e' := by
  obtain ⟨a, ha, hs⟩ := Option.bind_eq_some_iff.mp hs
  obtain ⟨q, hq, rfl⟩ := Option.map_eq_some_iff.mp hs
  refine ⟨⟨a, hq⟩, ?_⟩
  unfold Example.consNext at ha
  split at ha
  · rename_i hc
    obtain ⟨hcnt, ha⟩ := Option.ite_none_right_eq_some.mp ha
    obtain rfl := Option.some.inj ha
    cases step_cases hq with
    | pop _ => exact .pop hc hcnt
  · obtain rfl := Option.some.inj ha
    cases step_cases hq with
    | empty tail hc hempty => exact .empty tail hc hempty
    | found tail hc _ => exact .found tail hc
  · obtain rfl := Option.some.inj ha
    cases step_cases hq with
    | move tail hc => exact .move tail hc
  · obtain rfl := Option.some.inj ha
    cases step_cases hq with
    | destroy tail out hc => exact .destroy tail out hc
  · obtain rfl := Option.some.inj ha
    cases step_cases hq with
    | release tail out hc => exact .release tail out hc

theorem exampleStep_cases (hs : exampleStep C item total e t = some e') :
    (∃ a, step C e.queue a = some e'.queue) ∧ ExampleStep C item total e t e' := by
  cases t with
  | prod => exact prod_cases hs
  | cons => exact cons_cases hs

/-! ## What the counters count -/

structure ExampleInv (C : Capacity) (item : Nat → α) (total : Nat) (e : Example α) : Prop where
  reachable : Reachable C e.queue
  pushed : e.queue.pushed = (List.range e.i).map item
  popped : e.queue.popped.length = e.cnt
  i_le : e.i ≤ total
  cnt_le : e.cnt ≤ total
  producing : ∀ x, e.queue.producer.value = some x → e.i < total ∧ x = item e.i
  consuming : e.queue.consumer ≠ .idle → e.cnt < total

theorem exampleInv_init : ExampleInv C item total ({} : Example α) where
  reachable := .init
  pushed := rfl
  popped := rfl
  i_le := Nat.zero_le _
  cnt_le := Nat.zero_le _
  producing := fun x hx => absurd hx (by simp [Producer.value])
  consuming := fun hc => absurd rfl hc

theorem ExampleInv.value (h : ExampleInv C item total e) {p : Producer α} {x : α}
    (hp : e.queue.producer = p) (hx : p.value = some x) : e.i < total ∧ x = item e.i :=
  h.producing x (hp ▸ hx)

theorem ExampleInv.busy (h : ExampleInv C item total e) {c : Consumer α}
    (hc : e.queue.consumer = c) (hne : c ≠ .idle) : e.cnt < total :=
  h.consuming (hc ▸ hne)

theorem ExampleInv.cnt_le_i (h : ExampleInv C item total e) : e.cnt ≤ e.i := by
  have ho := (inv_reachable h.reachable).order
  rw [h.pushed, h.popped, List.length_map, List.length_range] at ho
  exact ho

theorem exampleInv_step (h : ExampleInv C item total e)
    (hs : exampleStep C item total e t = some e') : ExampleInv C item total e' := by
  obtain ⟨⟨a, hq⟩, hcases⟩ := exampleStep_cases hs
  have hreach : Reachable C e'.queue := h.reachable.tail hq
  -- the value of the call stays the same until it returns
  have hsame : ∀ {x : α} {p q : Producer α}, e.queue.producer = p → p.value = some x →
      q.value = some x → ∀ y, q.value = some y → e.i < total ∧ y = item e.i := by
    intro x p q hp hx hqx y hy
    rw [hqx, Option.some.injEq] at hy
    exact hy ▸ h.value hp hx
  cases hcases with
  | emplace hp hi =>
      refine ⟨hreach, h.pushed, h.popped, h.i_le, h.cnt_le, fun x hx => ⟨hi, ?_⟩, h.consuming⟩
      exact (Option.some.inj hx).symm
  | full x head hp _ =>
      exact ⟨hreach, h.pushed, h.popped, h.i_le, h.cnt_le,
        fun _ hx => absurd hx (by simp [Producer.value]),
        h.consuming⟩
  | room x head hp =>
      exact ⟨hreach, h.pushed, h.popped, h.i_le, h.cnt_le, hsame hp rfl rfl, h.consuming⟩
  | construct x head hp =>
      exact ⟨hreach, h.pushed, h.popped, h.i_le, h.cnt_le, hsame hp rfl rfl, h.consuming⟩
  | publish x head hp =>
      obtain ⟨hi, rfl⟩ := h.value hp rfl
      refine ⟨hreach, ?_, h.popped, hi, h.cnt_le, fun _ hx => absurd hx (by simp [Producer.value]),
        h.consuming⟩
      show e.queue.pushed ++ [item e.i] = (List.range (e.i + 1)).map item
      rw [h.pushed, List.range_succ, List.map_append]
      rfl
  | pop hc hcnt => exact ⟨hreach, h.pushed, h.popped, h.i_le, h.cnt_le, h.producing, fun _ => hcnt⟩
  | empty tail hc _ =>
      exact ⟨hreach, h.pushed, h.popped, h.i_le, h.cnt_le, h.producing, fun hne => absurd rfl hne⟩
  | found tail hc | move tail hc | destroy tail out hc =>
      exact ⟨hreach, h.pushed, h.popped, h.i_le, h.cnt_le,
        h.producing, fun _ => h.busy hc (by simp)⟩
  | release tail out hc =>
      refine ⟨hreach, h.pushed, ?_, h.i_le,
        h.busy hc (by simp), h.producing, fun hne => absurd rfl hne⟩
      show (e.queue.popped ++ [out]).length = e.cnt + 1
      rw [List.length_append, h.popped]
      rfl

/-! ## Who is next -/

/-- The turns of `prod` before the one that brings an item in. -/
def Producer.turnsLeft : Producer α → Nat
  | .idle => 3
  | .loadTail _ _ => 2
  | .construct _ _ => 1
  | .publish _ _ => 0

/-- The turns of `cons` before the one that brings an item out. -/
def Consumer.turnsLeft : Consumer α → Nat
  | .idle => 4
  | .loadHead _ => 3
  | .move _ => 2
  | .destroy _ _ => 1
  | .release _ _ => 0

/-- The items brought in and those brought out. -/
def Example.moved (e : Example α) : Nat := e.i + e.cnt

theorem moved_le (hs : exampleStep C item total e t = some e') :
    e.i ≤ e'.i ∧ e.cnt ≤ e'.cnt := by
  cases (exampleStep_cases hs).2 <;> simp

/-- Nothing has been brought in or out since. -/
def Stands (C : Capacity) (item : Nat → α) (total i cnt : Nat) (e : Example α) : Prop :=
  ExampleInv C item total e ∧ e.i = i ∧ e.cnt = cnt

variable {i cnt : Nat}

/-- **With something in the queue** each turn of `cons` brings it nearer to an item. -/
theorem cons_helps (hmore : cnt < i) (h : Stands C item total i cnt e)
    (hs : exampleStep C item total e t = some e') :
    i + cnt < e'.moved
      ∨ Stands C item total i cnt e'
        ∧ e'.queue.consumer.turnsLeft + credit (· == .cons) t ≤ e.queue.consumer.turnsLeft := by
  obtain ⟨hinv, rfl, rfl⟩ := h
  have hinv' := exampleInv_step hinv hs
  have hring := inv_reachable hinv.reachable
  cases (exampleStep_cases hs).2 with
  | emplace _ _ | full x head _ _ | room x head _ | construct x head _ =>
      exact .inr ⟨⟨hinv', rfl, rfl⟩, Nat.le_refl _⟩
  | publish x head hp => exact .inl (by simp [Example.moved])
  | pop hc _ => exact .inr ⟨⟨hinv', rfl, rfl⟩, by rw [hc]; exact Nat.le_refl _⟩
  | empty tail hc hempty =>
      have htail : tail = e.queue.mTail := hring.consumerAt hc
      have heq := hring.empty_iff.mp (hempty.trans htail)
      rw [hinv.pushed, hinv.popped, List.length_map, List.length_range] at heq
      omega
  | found tail hc | move tail hc | destroy tail out hc =>
      exact .inr ⟨⟨hinv', rfl, rfl⟩, by rw [hc]; exact Nat.le_refl _⟩
  | release tail out hc => exact .inl (by simp [Example.moved])

/-- **With nothing in the queue** each turn of `prod` brings it nearer to an item. -/
theorem prod_helps (hnone : cnt = i) (h : Stands C item total i cnt e)
    (hs : exampleStep C item total e t = some e') :
    i + cnt < e'.moved
      ∨ Stands C item total i cnt e'
        ∧ e'.queue.producer.turnsLeft + credit (· == .prod) t ≤ e.queue.producer.turnsLeft := by
  obtain ⟨hinv, rfl, rfl⟩ := h
  have hinv' := exampleInv_step hinv hs
  have hring := inv_reachable hinv.reachable
  cases (exampleStep_cases hs).2 with
  | pop _ _ | empty tail _ _ | found tail _ | move tail _ | destroy tail out _ =>
      exact .inr ⟨⟨hinv', rfl, rfl⟩, Nat.le_refl _⟩
  | release tail out hc => exact .inl (by simp [Example.moved])
  | emplace hp _ => exact .inr ⟨⟨hinv', rfl, rfl⟩, by rw [hp]; exact Nat.le_refl _⟩
  | full x head hp hfull =>
      have hhead : head = e.queue.mHead := hring.producerAt hp
      have heq := hring.full_iff.mp (hhead ▸ hfull)
      have hpos := C.size_pos
      rw [hinv.pushed, hinv.popped, List.length_map, List.length_range] at heq
      omega
  | room x head hp | construct x head hp =>
      exact .inr ⟨⟨hinv', rfl, rfl⟩, by rw [hp]; exact Nat.le_refl _⟩
  | publish x head hp => exact .inl (by simp [Example.moved])

theorem turnsLeft_lt (c : Consumer α) (p : Producer α) : c.turnsLeft < 5 ∧ p.turnsLeft < 4 := by
  constructor
  · cases c <;> simp [Consumer.turnsLeft]
  · cases p <;> simp [Producer.turnsLeft]

/-- What has been brought in or out stays so. -/
theorem counters_le (r : List Turn)
    (hrun : Transition.exec (exampleStep C item total) e r = some e') :
    e.i ≤ e'.i ∧ e.cnt ≤ e'.cnt := by
  refine (Transition.exec_reach r hrun).invariant (I := fun s => e.i ≤ s.i ∧ e.cnt ≤ s.cnt)
    ⟨Nat.le_refl _, Nat.le_refl _⟩ fun s t s' _ hs hstep => ?_
  have hle := moved_le hstep
  exact ⟨Nat.le_trans hs.1 hle.1, Nat.le_trans hs.2 hle.2⟩

/-- **A round brings an item in or out**, as long as one is missing. -/
theorem round_moves (r : List Turn) (h : ExampleInv C item total e)
    (hrun : Transition.exec (exampleStep C item total) e r = some e') (hfair : FairRound total r e')
    (hmissing : e.cnt < total) : e.moved < e'.moved := by
  by_contra hstill
  have hsame : e'.i = e.i ∧ e'.cnt = e.cnt := by
    have hle := counters_le r hrun
    unfold Example.moved at hstill
    omega
  -- a state on the way that has more would have left it to the last one
  have hnever : ¬Passes (exampleStep C item total) (fun s => e.i + e.cnt < s.moved) e r :=
    fun hpass => hstill (hpass.last hrun fun s t s' hs hstep =>
      Nat.lt_of_lt_of_le hs (Nat.add_le_add (moved_le hstep).1 (moved_le hstep).2))
  have hstands : Stands C item total e.i e.cnt e := ⟨h, rfl, rfl⟩
  have hturns := turnsLeft_lt e.queue.consumer e.queue.producer
  rcases Nat.lt_or_eq_of_le h.cnt_le_i with hmore | hnone
  · refine hnever (passes_of_rank (fun s => s.queue.consumer.turnsLeft) (· == .cons)
      (fun s t s' hs hstep => cons_helps hmore hs hstep) r hstands hrun ?_)
    have hfive := hfair.2 (by omega)
    exact Nat.lt_of_lt_of_le hturns.1 hfive
  · refine hnever (passes_of_rank (fun s => s.queue.producer.turnsLeft) (· == .prod)
      (fun s t s' hs hstep => prod_helps hnone hs hstep) r hstands hrun ?_)
    have hfour := hfair.1 (by omega)
    exact Nat.lt_of_lt_of_le hturns.2 hfour

/-- The calls that are still to return true. -/
def Example.missing (total : Nat) (e : Example α) : Nat := 2 * total - e.moved

theorem round_missing (r : List Turn) (h : ExampleInv C item total e)
    (hrun : Transition.exec (exampleStep C item total) e r = some e')
    (hfair : FairRound total r e') :
    ExampleInv C item total e' ∧ e'.missing total ≤ e.missing total - 1 := by
  have h' : ExampleInv C item total e' :=
    (Transition.exec_reach r hrun).invariant h fun _ _ _ _ hi hs => exampleInv_step hi hs
  refine ⟨h', ?_⟩
  unfold Example.missing
  rcases Nat.lt_or_eq_of_le h.cnt_le with hmissing | hdone
  · have hmoves := round_moves r h hrun hfair hmissing
    omega
  · have hi := h.cnt_le_i
    have hle := counters_le r hrun
    unfold Example.moved
    omega

/-- **The program is over** when both counters have come to their ends. -/
theorem ExampleInv.joined (h : ExampleInv C item total e) (hcnt : e.cnt = total) :
    e.queue.producer = .idle ∧ e.queue.consumer = .idle ∧ e.joined item total := by
  have hi : e.i = total := Nat.le_antisymm h.i_le (hcnt ▸ h.cnt_le_i)
  have hp : e.queue.producer = .idle := by
    cases hp : e.queue.producer with
    | idle => rfl
    | loadTail x head | construct x head | publish x head =>
        have hlt := (h.value hp rfl).1
        omega
  have hc : e.queue.consumer = .idle := by
    by_contra hne
    have hlt := h.consuming hne
    omega
  refine ⟨hp, hc, ?_, ?_⟩
  · rw [Example.prodNext, hp]
    exact if_neg (by omega)
  · rw [Example.consNext, hc]
    exact if_neg (by omega)

/--
**The program transfers all items.**

In whatever order the two threads take their turns: after at most two rounds for each item, if no
round forgets a thread whose loop is not over, both threads have ended. Then `cons` has counted
all items and has popped them in their order, and the destructor of the queue leaves nothing: as
many objects as there are items were built, and each was destroyed once.
-/
theorem example_transfers (C : Capacity) (item : Nat → α) (total : Nat) (rs : List (List Turn))
    (e : Example α) (h : Rounds (exampleStep C item total) (FairRound total) {} rs e)
    (hlen : 2 * total ≤ rs.length) :
    e.joined item total ∧ e.cnt = total
      ∧ e.queue.popped = (List.range total).map (fun i => some (item i))
      ∧ e.queue.built = total ∧ (e.queue.destructor C).queue.destroyed = List.range total := by
  obtain ⟨hinv, hleft⟩ := h.left (I := ExampleInv C item total)
    (fun s r s' hi hrun hfair => round_missing r hi hrun hfair) exampleInv_init
  have hi := hinv.cnt_le_i
  have hi' := hinv.i_le
  have hzero : 2 * total ≤ e.moved := by
    have hstart : ({} : Example α).missing total = 2 * total := rfl
    rw [hstart] at hleft
    unfold Example.missing at hleft
    omega
  unfold Example.moved at hzero
  have hcnt : e.cnt = total := by omega
  have hall : e.i = total := by omega
  obtain ⟨hp, hc, hjoined⟩ := hinv.joined hcnt
  have hring := inv_reachable hinv.reachable
  have hbuilt : e.queue.built = total := by
    rw [hring.built, Queue.contents, hp, hinv.pushed, hall]
    simp [Producer.unpublished]
  refine ⟨hjoined, hcnt, ?_, hbuilt, ?_⟩
  · have hfifo := hring.fifo
    have hlength : e.queue.popped.length = (e.queue.pushed.map some).length := by
      rw [hinv.popped, hcnt, hinv.pushed, hall]
      simp
    rw [hfifo.eq_of_length hlength, hinv.pushed, hall, List.map_map]
    rfl
  · rw [destructor_destroys hring hp hc, hbuilt]

/-- Two items through one slot. In the first round the consumer finds the queue empty, and the
producer finds it full; both try again. In the last two there is nothing left to do. -/
theorem example_transfers_two :
    let C : Capacity := ⟨1, by decide, by decide⟩
    let r : List Turn :=
      List.replicate 2 .cons ++ List.replicate 6 .prod ++ List.replicate 5 .cons
    let r' : List Turn := List.replicate 4 .prod ++ List.replicate 5 .cons
    let e := (Transition.exec (exampleStep C id 2) {} (r ++ r')).get (by decide)
    e.queue.popped = [some 0, some 1] ∧ e.joined id 2 := by
  intro C r r' e
  let e₁ := (Transition.exec (exampleStep C id 2) {} r).get (by decide)
  have hfirst : Transition.exec (exampleStep C id 2) {} r = some e₁ := (Option.some_get _).symm
  have hsecond : Transition.exec (exampleStep C id 2) e₁ r' = some e := by
    have hall : Transition.exec (exampleStep C id 2) {} (r ++ r') = some e :=
      (Option.some_get _).symm
    rw [Transition.exec_append, hfirst] at hall
    exact hall
  refine ⟨by decide, (example_transfers C id 2 [r, r', [], []] e ?_ (by decide)).1⟩
  exact .cons hfirst ⟨by decide, by decide⟩ (.cons hsecond ⟨by decide, by decide⟩
    (.cons rfl ⟨by decide, by decide⟩ (.cons rfl ⟨by decide, by decide⟩ (.nil _))))

end QuickStructs.SPSCQueue
