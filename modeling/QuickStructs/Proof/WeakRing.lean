import QuickStructs.Proof.Lifetime
import QuickStructs.Structs.SPSCWeak

/-!
# The queue keeps its promises with no stronger memory orders

A counter that a thread loads may be out of date, and no further than the thread itself has
come. It errs on the safe side: the producer sees at most as many values popped as there were,
the consumer at most as many pushed. What a thread may do at a slot is decided by what it has
seen, and what it has seen tells how much the other thread had done by then. Of all the
accesses to a slot the last one of the other thread is always among these.

Without one of the four orders it is not, and two threads meet at a slot.
-/

namespace QuickStructs.SPSCQueue

open Lib

variable {α : Type} {C : Capacity} {w w' : Weak α} {heads tails : Bool}

/-! ## Steps, case by case -/

/-- The steps of a queue, each under its action, with what is known when it is made. -/
inductive WeakStep (heads tails : Bool) (C : Capacity) (w : Weak α) :
    Action α × Nat → Weak α → Prop where
  | emplace (x : α) (i : Nat) (hp : w.queue.producer = .idle) :
      WeakStep heads tails C w (.emplace x, i)
        { w with queue := { w.queue with producer := .loadTail x w.queue.mHead } }
  | full (x : α) (head tail : UInt64) (i done : Nat) (hp : w.queue.producer = .loadTail x head)
      (hload : w.tails.load i = some (tail, done)) (hfull : head - tail = C.kCapacity) :
      WeakStep heads tails C w (.loadTail, i)
        { w with
          queue := { w.queue with producer := .idle }
          tails := w.tails.see i
          producer := if tails then w.producer.learn done else w.producer }
  | room (x : α) (head tail : UInt64) (i done : Nat) (hp : w.queue.producer = .loadTail x head)
      (hload : w.tails.load i = some (tail, done)) (hroom : head - tail ≠ C.kCapacity) :
      WeakStep heads tails C w (.loadTail, i)
        { w with
          queue := { w.queue with producer := .construct x head }
          tails := w.tails.see i
          producer := if tails then w.producer.learn done else w.producer }
  | construct (x : α) (head : UInt64) (i : Nat) (hp : w.queue.producer = .construct x head) :
      WeakStep heads tails C w (.construct, i)
        { w.touchProducer (C.slotPtr head) with
          queue := { w.queue.constructAt (C.slotPtr head) x with producer := .publish x head } }
  | publish (x : α) (head : UInt64) (i : Nat) (hp : w.queue.producer = .publish x head) :
      WeakStep heads tails C w (.publish, i)
        { w with
          queue := { w.queue with
            producer := .idle, mHead := head + 1, pushed := w.queue.pushed ++ [x] }
          heads := w.heads.store (head + 1) w.producer.done }
  | pop (i : Nat) (hc : w.queue.consumer = .idle) :
      WeakStep heads tails C w (.pop, i)
        { w with queue := { w.queue with consumer := .loadHead w.queue.mTail } }
  | empty (tail head : UInt64) (i done : Nat) (hc : w.queue.consumer = .loadHead tail)
      (hload : w.heads.load i = some (head, done)) (hempty : head = tail) :
      WeakStep heads tails C w (.loadHead, i)
        { w with
          queue := { w.queue with consumer := .idle }
          heads := w.heads.see i
          consumer := if heads then w.consumer.learn done else w.consumer }
  | found (tail head : UInt64) (i done : Nat) (hc : w.queue.consumer = .loadHead tail)
      (hload : w.heads.load i = some (head, done)) (hsome : head ≠ tail) :
      WeakStep heads tails C w (.loadHead, i)
        { w with
          queue := { w.queue with consumer := .move tail }
          heads := w.heads.see i
          consumer := if heads then w.consumer.learn done else w.consumer }
  | move (tail : UInt64) (i : Nat) (hc : w.queue.consumer = .move tail) :
      WeakStep heads tails C w (.move, i)
        { w.touchConsumer (C.slotPtr tail) with
          queue := { w.queue with
            consumer := .destroy tail ((w.queue.mStorage (C.slotPtr tail)).map Object.value) } }
  | destroy (tail : UInt64) (out : Option α) (i : Nat) (hc : w.queue.consumer = .destroy tail out) :
      WeakStep heads tails C w (.destroy, i)
        { w.touchConsumer (C.slotPtr tail) with
          queue := { w.queue.destroyAt (C.slotPtr tail) with consumer := .release tail out } }
  | release (tail : UInt64) (out : Option α) (i : Nat) (hc : w.queue.consumer = .release tail out) :
      WeakStep heads tails C w (.release, i)
        { w with
          queue := { w.queue with
            consumer := .idle, mTail := tail + 1, popped := w.queue.popped ++ [out] }
          tails := w.tails.store (tail + 1) w.consumer.done }

theorem weak_loadTail_cases {i : Nat} (h : w.loadTail tails C i = some w') :
    WeakStep heads tails C w (.loadTail, i) w' := by
  rw [Weak.loadTail, Option.bind_eq_some_iff] at h
  obtain ⟨⟨tail, done⟩, hload, h⟩ := h
  rw [Option.map_eq_some_iff] at h
  obtain ⟨q, hs, rfl⟩ := h
  cases step_cases hs with
  | full x head hp hfull => exact .full x head tail i done hp hload hfull
  | room x head hp hroom => exact .room x head tail i done hp hload hroom

theorem weak_loadHead_cases {i : Nat} (h : w.loadHead heads C i = some w') :
    WeakStep heads tails C w (.loadHead, i) w' := by
  rw [Weak.loadHead, Option.bind_eq_some_iff] at h
  obtain ⟨⟨head, done⟩, hload, h⟩ := h
  rw [Option.map_eq_some_iff] at h
  obtain ⟨q, hs, rfl⟩ := h
  cases step_cases hs with
  | empty tail hc hempty => exact .empty tail head i done hc hload hempty
  | found tail hc hsome => exact .found tail head i done hc hload hsome

theorem perform_construct {x : α} {head : UInt64} (hp : w.queue.producer = .construct x head)
    (q : Queue α) :
    w.perform C .construct q = { w.touchProducer (C.slotPtr head) with queue := q } := by
  simp only [Weak.perform, hp]

theorem perform_move {tail : UInt64} (hc : w.queue.consumer = .move tail) (q : Queue α) :
    w.perform C .move q = { w.touchConsumer (C.slotPtr tail) with queue := q } := by
  simp only [Weak.perform, hc]

theorem perform_destroy {tail : UInt64} {out : Option α}
    (hc : w.queue.consumer = .destroy tail out) (q : Queue α) :
    w.perform C .destroy q = { w.touchConsumer (C.slotPtr tail) with queue := q } := by
  simp only [Weak.perform, hc]

theorem weak_step_cases {a : Action α × Nat} (h : stepWith heads tails C w a = some w') :
    WeakStep heads tails C w a w' := by
  obtain ⟨a, i⟩ := a
  have hbase (hd : stepWith heads tails C w (a, i) = (step C w.queue a).map (w.perform C a)) :
      ∃ q, QueueStep C w.queue a q ∧ w.perform C a q = w' := by
    rw [hd, Option.map_eq_some_iff] at h
    obtain ⟨q, hs, hq⟩ := h
    exact ⟨q, step_cases hs, hq⟩
  cases a with
  | loadTail => exact weak_loadTail_cases h
  | loadHead => exact weak_loadHead_cases h
  | emplace x =>
      obtain ⟨_, hq, rfl⟩ := hbase rfl
      cases hq with
      | emplace x hp => exact .emplace x i hp
  | construct =>
      obtain ⟨_, hq, rfl⟩ := hbase rfl
      cases hq with
      | construct x head hp =>
          rw [perform_construct hp]
          exact .construct x head i hp
  | publish =>
      obtain ⟨_, hq, rfl⟩ := hbase rfl
      cases hq with
      | publish x head hp => exact .publish x head i hp
  | pop =>
      obtain ⟨_, hq, rfl⟩ := hbase rfl
      cases hq with
      | pop hc => exact .pop i hc
  | move =>
      obtain ⟨_, hq, rfl⟩ := hbase rfl
      cases hq with
      | move tail hc =>
          rw [perform_move hc]
          exact .move tail i hc
  | destroy =>
      obtain ⟨_, hq, rfl⟩ := hbase rfl
      cases hq with
      | destroy tail out hc =>
          rw [perform_destroy hc]
          exact .destroy tail out i hc
  | release =>
      obtain ⟨_, hq, rfl⟩ := hbase rfl
      cases hq with
      | release tail out hc => exact .release tail out i hc

/-! ## The invariant -/

/-- How many slots the producer has found free and not yet published. -/
def Producer.placing : Producer α → Nat
  | .construct _ _ | .publish _ _ => 1
  | _ => 0

/-- How many values the consumer has found and not yet released. -/
def Consumer.taking : Consumer α → Nat
  | .move _ | .destroy _ _ | .release _ _ => 1
  | _ => 0

/-- How often the consumer has been at the slot of the value that it takes. -/
def Consumer.visits : Consumer α → Nat
  | .destroy _ _ => 1
  | .release _ _ => 2
  | _ => 0

/-- The producer is once at the slot of each position, the consumer twice. What either has seen
of the other's counter covers the position that it is at, and what happened before. -/
structure WeakInv (C : Capacity) (w : Weak α) : Prop where
  inv : Inv C w.queue
  heads : w.heads.Holds UInt64.ofNat (fun i => i) w.queue.pushed.length
  tails : w.tails.Holds UInt64.ofNat (2 * ·) w.queue.popped.length
  room : w.queue.pushed.length + w.queue.producer.placing ≤ w.tails.seen + C.size
  found : w.queue.popped.length + w.queue.consumer.taking ≤ w.heads.seen
  released : 2 * w.tails.seen ≤ w.producer.knows
  published : w.heads.seen ≤ w.consumer.knows
  built : w.producer.done = w.queue.contents.length
  visited : w.consumer.done = 2 * w.queue.popped.length + w.queue.consumer.visits
  placed : w.producer.Through C.slotAt 1 w.queue.contents.length
  taken : w.consumer.Through C.slotAt 2 w.queue.pushed.length
  clean : w.raced = false

theorem weak_init : WeakInv C ({} : Weak α) where
  inv := inv_init
  heads := ⟨rfl, Nat.le_refl _⟩
  tails := ⟨rfl, Nat.le_refl _⟩
  room := Nat.zero_le _
  found := Nat.le_refl _
  released := Nat.le_refl _
  published := Nat.le_refl _
  built := rfl
  visited := rfl
  placed := Side.through_start
  taken := Side.through_start
  clean := rfl

/-! ## What a load tells -/

/-- The producer sees a number of pops there was, and its full test is exact for that number. -/
theorem WeakInv.seeTail (h : WeakInv C w) {x : α} {head tail : UInt64} {i done : Nat}
    (hp : w.queue.producer = .loadTail x head) (hload : w.tails.load i = some (tail, done)) :
    done = 2 * i ∧ w.tails.seen ≤ i ∧ i ≤ w.queue.popped.length
      ∧ (head - tail = C.kCapacity ↔ w.queue.pushed.length = i + C.size) := by
  obtain ⟨htail, hdone, hseen, hle⟩ := h.tails.load hload
  refine ⟨hdone, hseen, hle, ?_⟩
  have hhead : head = w.queue.mHead := h.inv.producerAt hp
  have hroom := h.room
  have ho := h.inv.order
  have hcap := C.kCapacity.toNat_lt
  have hsize : C.kCapacity.toNat = C.size := rfl
  rw [hp] at hroom
  change w.queue.pushed.length + 0 ≤ _ at hroom
  have hsub : (head - tail).toNat = w.queue.pushed.length - i := by
    rw [hhead, h.inv.head, htail]
    exact counter_sub (by omega) (by omega)
  rw [← UInt64.toNat_inj, hsub]
  omega

/-- The consumer sees a number of pushes there was, and its empty test is exact for that number. -/
theorem WeakInv.seeHead (h : WeakInv C w) {tail head : UInt64} {i done : Nat}
    (hc : w.queue.consumer = .loadHead tail) (hload : w.heads.load i = some (head, done)) :
    done = i ∧ w.heads.seen ≤ i ∧ i ≤ w.queue.pushed.length
      ∧ (head = tail ↔ i = w.queue.popped.length) := by
  obtain ⟨hhead, hdone, hseen, hle⟩ := h.heads.load hload
  refine ⟨hdone, hseen, hle, ?_⟩
  have htail : tail = w.queue.mTail := h.inv.consumerAt hc
  have hfound := h.found
  have hnear := h.inv.near
  rw [hhead, htail, h.inv.tail]
  constructor
  · exact counter_inj (by omega) (by omega)
  · exact fun he => by rw [he]

/-! ## Step by step -/

/-- A producer that moves on without constructing or publishing. -/
theorem WeakInv.setProducer (h : WeakInv C w) {p : Producer α}
    (hsame : p.unpublished = w.queue.producer.unpublished) (hok : w.queue.ProducerOk C p)
    (hroom : w.queue.pushed.length + p.placing ≤ w.tails.seen + C.size) :
    WeakInv C { w with queue := { w.queue with producer := p } } := by
  have hcontents : ({ w.queue with producer := p } : Queue α).contents = w.queue.contents :=
    congrArg (w.queue.pushed ++ ·) hsame
  exact
    { inv := h.inv.setProducer hsame hok, heads := h.heads, tails := h.tails, room := hroom
      found := h.found, released := h.released, published := h.published
      built := h.built.trans (congrArg List.length hcontents.symm), visited := h.visited
      placed := by rw [hcontents]; exact h.placed
      taken := h.taken, clean := h.clean }

/-- A consumer that moves on without an access to a slot. -/
theorem WeakInv.setConsumer (h : WeakInv C w) {c : Consumer α}
    (hsame : c.unreleased = w.queue.consumer.unreleased) (hok : w.queue.ConsumerOk c)
    (hvisits : c.visits = w.queue.consumer.visits)
    (hfound : w.queue.popped.length + c.taking ≤ w.heads.seen) :
    WeakInv C { w with queue := { w.queue with consumer := c } } :=
  { inv := h.inv.setConsumer hsame hok, heads := h.heads, tails := h.tails, room := h.room
    found := hfound, released := h.released, published := h.published
    built := h.built, visited := h.visited.trans (by rw [hvisits])
    placed := h.placed, taken := h.taken, clean := h.clean }

theorem WeakInv.learnTail (h : WeakInv C w) {i : Nat} (hseen : w.tails.seen ≤ i)
    (hi : i ≤ w.queue.popped.length) :
    WeakInv C { w with tails := w.tails.see i, producer := w.producer.learn (2 * i) } :=
  { h with
    tails := h.tails.see hi
    room := Nat.le_trans h.room (Nat.add_le_add_right hseen _)
    released := Nat.le_max_right .. }

theorem WeakInv.learnHead (h : WeakInv C w) {i : Nat} (hseen : w.heads.seen ≤ i)
    (hi : i ≤ w.queue.pushed.length) :
    WeakInv C { w with heads := w.heads.see i, consumer := w.consumer.learn i } :=
  { h with
    heads := h.heads.see hi
    found := Nat.le_trans h.found hseen
    published := Nat.le_max_right .. }

theorem weak_full (h : WeakInv C w) {x : α} {head tail : UInt64} {i done : Nat}
    (hp : w.queue.producer = .loadTail x head) (hload : w.tails.load i = some (tail, done))
    (hfull : head - tail = C.kCapacity) :
    WeakInv C { w with
      queue := { w.queue with producer := .idle }
      tails := w.tails.see i
      producer := w.producer.learn done } := by
  obtain ⟨rfl, hseen, hi, htest⟩ := h.seeTail hp hload
  have heq := htest.mp hfull
  exact (h.learnTail hseen hi).setProducer (by rw [hp]; rfl) trivial (Nat.le_of_eq heq)

/-- The producer has seen room, so there is at least as much. -/
theorem weak_room (h : WeakInv C w) {x : α} {head tail : UInt64} {i done : Nat}
    (hp : w.queue.producer = .loadTail x head) (hload : w.tails.load i = some (tail, done))
    (hroom : head - tail ≠ C.kCapacity) :
    WeakInv C { w with
      queue := { w.queue with producer := .construct x head }
      tails := w.tails.see i
      producer := w.producer.learn done } := by
  obtain ⟨rfl, hseen, hi, htest⟩ := h.seeTail hp hload
  have hne : w.queue.pushed.length ≠ i + C.size := fun he => hroom (htest.mpr he)
  have hle := h.room
  have hlt : w.queue.pushed.length < i + C.size := by omega
  have hnow : w.queue.pushed.length < w.queue.popped.length + C.size := by omega
  exact (h.learnTail hseen hi).setProducer (by rw [hp]; rfl) ⟨h.inv.producerAt hp, hnow⟩ hlt

theorem weak_empty (h : WeakInv C w) {tail head : UInt64} {i done : Nat}
    (hc : w.queue.consumer = .loadHead tail) (hload : w.heads.load i = some (head, done))
    (hempty : head = tail) :
    WeakInv C { w with
      queue := { w.queue with consumer := .idle }
      heads := w.heads.see i
      consumer := w.consumer.learn done } := by
  obtain ⟨rfl, hseen, hi, htest⟩ := h.seeHead hc hload
  have heq := htest.mp hempty
  exact (h.learnHead hseen hi).setConsumer (by rw [hc]; rfl) trivial (by rw [hc]; rfl)
    (Nat.le_of_eq heq.symm)

/-- The consumer has seen a value, so there is one. -/
theorem weak_found (h : WeakInv C w) {tail head : UInt64} {i done : Nat}
    (hc : w.queue.consumer = .loadHead tail) (hload : w.heads.load i = some (head, done))
    (hsome : head ≠ tail) :
    WeakInv C { w with
      queue := { w.queue with consumer := .move tail }
      heads := w.heads.see i
      consumer := w.consumer.learn done } := by
  obtain ⟨rfl, hseen, hi, htest⟩ := h.seeHead hc hload
  have hne : done ≠ w.queue.popped.length := fun he => hsome (htest.mpr he)
  have hle := h.found
  have hlt : w.queue.popped.length < done := by omega
  have hnow : w.queue.popped.length < w.queue.pushed.length := by omega
  exact (h.learnHead hseen hi).setConsumer (by rw [hc]; rfl) ⟨h.inv.consumerAt hc, hnow⟩
    (by rw [hc]; rfl) hlt

/-- **The producer meets nobody at the slot that it fills.** The consumer was there at most for the
position one capacity before, which the producer has seen released. -/
theorem WeakInv.producer_alone (h : WeakInv C w) {x : α} {head : UInt64}
    (hp : w.queue.producer = .construct x head) :
    w.producer.races w.consumer (C.slotPtr head) = false := by
  have hslot : C.slotPtr head = C.slotAt w.queue.pushed.length := by
    rw [(h.inv.producerAt hp).1, h.inv.head]
    rfl
  have hroom := h.room
  rw [hp] at hroom
  change w.queue.pushed.length + 1 ≤ _ at hroom
  refine h.taken.races_false fun p hlt he => ?_
  have hseen : p < w.tails.seen := by
    by_contra hge
    exact C.spread p w.queue.pushed.length hlt (by omega) (he.trans hslot)
  have hreleased := h.released
  omega

/-- **The consumer meets nobody at the slot that it empties.** The producer was there last for the
very position, which the consumer has seen published. -/
theorem WeakInv.consumer_alone (h : WeakInv C w) {tail : UInt64} (htail : tail = w.queue.mTail)
    (htaking : w.queue.consumer.taking = 1) :
    w.consumer.races w.producer (C.slotPtr tail) = false := by
  have hslot : C.slotPtr tail = C.slotAt w.queue.popped.length := by
    rw [htail, h.inv.tail]
    rfl
  have hfound := h.found
  have hroom := h.inv.room
  refine h.placed.races_false fun p hlt he => ?_
  have hseen : p < w.heads.seen := by
    by_contra hge
    exact C.spread w.queue.popped.length p (by omega) (by omega) (hslot.symm.trans he.symm)
  have hpublished := h.published
  omega

theorem weak_construct (h : WeakInv C w) {x : α} {head : UInt64}
    (hp : w.queue.producer = .construct x head) :
    WeakInv C { w.touchProducer (C.slotPtr head) with
      queue := { w.queue.constructAt (C.slotPtr head) x with producer := .publish x head } } := by
  have hroom := h.room
  have hbuilt := h.built
  have hplaced := h.placed
  have hslot : C.slotPtr head = C.slotAt w.queue.pushed.length := by
    rw [(h.inv.producerAt hp).1, h.inv.head]
    rfl
  have hcontents : w.queue.contents.length = w.queue.pushed.length := by
    rw [Queue.contents, hp]
    exact congrArg List.length (List.append_nil _)
  have hlen : (w.queue.pushed ++ [x]).length = w.queue.pushed.length + 1 := List.length_append
  rw [hp] at hroom
  rw [hcontents] at hbuilt hplaced
  refine { inv := inv_construct h.inv hp, heads := h.heads, tails := h.tails, room := hroom
           found := h.found, released := h.released, published := h.published, built := ?_
           visited := h.visited, placed := ?_, taken := h.taken, clean := ?_ }
  · show w.producer.done + 1 = (w.queue.pushed ++ [x]).length
    rw [hlen, hbuilt]
  · show (w.producer.touch (C.slotPtr head)).Through C.slotAt 1 (w.queue.pushed ++ [x]).length
    rw [hlen, hslot]
    exact (hplaced.more (Nat.le_succ _)).touch (Nat.lt_succ_self _) (by omega)
  · show (w.raced || w.producer.races w.consumer (C.slotPtr head)) = false
    rw [h.clean, h.producer_alone hp]
    rfl

theorem weak_publish (h : WeakInv C w) {x : α} {head : UInt64}
    (hp : w.queue.producer = .publish x head) :
    WeakInv C { w with
      queue := { w.queue with
        producer := .idle, mHead := head + 1, pushed := w.queue.pushed ++ [x] }
      heads := w.heads.store (head + 1) w.producer.done } := by
  have hroom := h.room
  have hhead : head = w.queue.mHead := h.inv.producerAt hp
  have hlen : (w.queue.pushed ++ [x]).length = w.queue.pushed.length + 1 := List.length_append
  have hcontents : w.queue.contents = w.queue.pushed ++ [x] := by
    rw [Queue.contents, hp]
    rfl
  have hsame : (w.queue.pushed ++ [x]) ++ [] = w.queue.contents := by
    rw [List.append_nil, hcontents]
  rw [hp] at hroom
  refine { inv := inv_publish h.inv hp, heads := ?_, tails := h.tails, room := ?_
           found := h.found, released := h.released, published := h.published, built := ?_
           visited := h.visited, placed := ?_, taken := ?_, clean := h.clean }
  · show (w.heads.store (head + 1) w.producer.done).Holds UInt64.ofNat (fun i => i)
      (w.queue.pushed ++ [x]).length
    rw [hhead, h.inv.head, counter_succ, h.built, hcontents, hlen]
    exact h.heads.store
  · show (w.queue.pushed ++ [x]).length + 0 ≤ _
    rw [hlen]
    exact hroom
  · show w.producer.done = ((w.queue.pushed ++ [x]) ++ []).length
    rw [hsame]
    exact h.built
  · show w.producer.Through C.slotAt 1 ((w.queue.pushed ++ [x]) ++ []).length
    rw [hsame]
    exact h.placed
  · show w.consumer.Through C.slotAt 2 (w.queue.pushed ++ [x]).length
    exact h.taken.more (by omega)

/-- The first of the two accesses to the slot of the value taken, or the second. -/
theorem WeakInv.visit (h : WeakInv C w) {tail : UInt64} (htail : tail = w.queue.mTail)
    (hlt : w.queue.popped.length < w.queue.pushed.length)
    (hvisits : w.queue.consumer.visits + 1 ≤ 2) :
    (w.consumer.touch (C.slotPtr tail)).Through C.slotAt 2 w.queue.pushed.length := by
  have hslot : C.slotPtr tail = C.slotAt w.queue.popped.length := by
    rw [htail, h.inv.tail]
    rfl
  have hvisited := h.visited
  rw [hslot]
  exact h.taken.touch hlt (by omega)

theorem weak_move (h : WeakInv C w) {tail : UInt64} (hc : w.queue.consumer = .move tail) :
    WeakInv C { w.touchConsumer (C.slotPtr tail) with
      queue := { w.queue with
        consumer := .destroy tail ((w.queue.mStorage (C.slotPtr tail)).map Object.value) } } := by
  obtain ⟨htail, hlt⟩ := h.inv.consumerAt hc
  have hfound := h.found
  have hvisited := h.visited
  have htaken := h.visit htail hlt (by rw [hc]; exact Nat.le_succ 1)
  have halone := h.consumer_alone htail (by rw [hc]; rfl)
  rw [hc] at hfound hvisited
  refine { inv := inv_move h.inv hc, heads := h.heads, tails := h.tails, room := h.room
           found := hfound, released := h.released, published := h.published, built := h.built
           visited := ?_, placed := h.placed, taken := htaken, clean := ?_ }
  · show w.consumer.done + 1 = _
    rw [hvisited]
    rfl
  · show (w.raced || w.consumer.races w.producer (C.slotPtr tail)) = false
    rw [h.clean, halone]
    rfl

theorem weak_destroy (h : WeakInv C w) {tail : UInt64} {out : Option α}
    (hc : w.queue.consumer = .destroy tail out) :
    WeakInv C { w.touchConsumer (C.slotPtr tail) with
      queue := { w.queue.destroyAt (C.slotPtr tail) with consumer := .release tail out } } := by
  obtain ⟨htail, hlt, _⟩ := h.inv.consumerAt hc
  have hfound := h.found
  have hvisited := h.visited
  have htaken := h.visit htail hlt (by rw [hc]; exact Nat.le_refl 2)
  have halone := h.consumer_alone htail (by rw [hc]; rfl)
  rw [hc] at hfound hvisited
  refine { inv := inv_destroy h.inv hc, heads := h.heads, tails := h.tails, room := h.room
           found := hfound, released := h.released, published := h.published, built := h.built
           visited := ?_, placed := h.placed, taken := htaken, clean := ?_ }
  · show w.consumer.done + 1 = _
    rw [hvisited]
    rfl
  · show (w.raced || w.consumer.races w.producer (C.slotPtr tail)) = false
    rw [h.clean, halone]
    rfl

theorem weak_release (h : WeakInv C w) {tail : UInt64} {out : Option α}
    (hc : w.queue.consumer = .release tail out) :
    WeakInv C { w with
      queue := { w.queue with
        consumer := .idle, mTail := tail + 1, popped := w.queue.popped ++ [out] }
      tails := w.tails.store (tail + 1) w.consumer.done } := by
  obtain ⟨htail, _⟩ := h.inv.consumerAt hc
  have hfound := h.found
  have hvisited := h.visited
  have hlen : (w.queue.popped ++ [out]).length = w.queue.popped.length + 1 := List.length_append
  rw [hc] at hfound hvisited
  change w.consumer.done = 2 * (w.queue.popped.length + 1) at hvisited
  refine { inv := inv_release h.inv hc, heads := h.heads, tails := ?_, room := h.room
           found := ?_, released := h.released, published := h.published, built := h.built
           visited := ?_, placed := h.placed, taken := h.taken, clean := h.clean }
  · show (w.tails.store (tail + 1) w.consumer.done).Holds UInt64.ofNat (2 * ·)
      (w.queue.popped ++ [out]).length
    rw [htail, h.inv.tail, counter_succ, hvisited, hlen]
    exact h.tails.store
  · show (w.queue.popped ++ [out]).length + 0 ≤ _
    rw [hlen]
    exact hfound
  · show w.consumer.done = 2 * (w.queue.popped ++ [out]).length + 0
    rw [hlen]
    exact hvisited

/-- **Every step keeps the invariant.** -/
theorem weak_inv_step {a : Action α × Nat} (h : WeakInv C w)
    (hs : stepWith true true C w a = some w') : WeakInv C w' := by
  cases weak_step_cases hs with
  | emplace x i hp =>
      have hroom := h.room
      rw [hp] at hroom
      exact h.setProducer (by rw [hp]; rfl) rfl hroom
  | full x head tail i done hp hload hfull => exact weak_full h hp hload hfull
  | room x head tail i done hp hload hroom => exact weak_room h hp hload hroom
  | construct x head i hp => exact weak_construct h hp
  | publish x head i hp => exact weak_publish h hp
  | pop i hc =>
      have hfound := h.found
      rw [hc] at hfound
      exact h.setConsumer (by rw [hc]; rfl) rfl (by rw [hc]; rfl) hfound
  | empty tail head i done hc hload hempty => exact weak_empty h hc hload hempty
  | found tail head i done hc hload hsome => exact weak_found h hc hload hsome
  | move tail i hc => exact weak_move h hc
  | destroy tail out i hc => exact weak_destroy h hc
  | release tail out i hc => exact weak_release h hc

theorem weak_inv_reachable (h : WeakReachable {} C w) : WeakInv C w :=
  h.invariant weak_init fun _ _ _ _ hi hs => weak_inv_step hi hs

theorem one_pow2 : (1 : UInt64) &&& (1 - 1) = 0 := by decide

theorem one_pos : (0 : UInt64) < 1 := by decide

/-- A queue of one slot. -/
def Capacity.one : Capacity := ⟨1, one_pow2, one_pos⟩

/-- A value goes through, up to the first access of the consumer. -/
def handOver : List (Action Unit × Nat) :=
  [(.emplace (), 0), (.loadTail, 0), (.construct, 0), (.publish, 0), (.pop, 0), (.loadHead, 1),
    (.move, 0)]

/-- The producer uses the slot again. -/
def reuse : List (Action Unit × Nat) :=
  handOver ++ [(.destroy, 0), (.release, 0), (.emplace (), 0), (.loadTail, 1), (.construct, 0)]

/-- The consumer moves from an object whose construction it does not know to be over. -/
theorem races_heads : ∀ heads tails, heads = false →
    (Transition.exec (stepWith heads tails Capacity.one) {} handOver).any Weak.raced = true := by
  decide

/-- The producer constructs where the consumer may still be destroying. -/
theorem races_tails : ∀ heads tails, tails = false →
    (Transition.exec (stepWith heads tails Capacity.one) {} reuse).any Weak.raced = true := by
  decide

/-- A run that races, of a queue with these orders. -/
theorem races_of_run {o : Orders} {as : List (Action α × Nat)}
    (h : (Transition.exec (stepWith o.heads o.tails Capacity.one) {} as).any Weak.raced = true) :
    ∃ w : Weak α, WeakReachable o Capacity.one w ∧ w.raced = true := by
  cases hr : Transition.exec (stepWith o.heads o.tails Capacity.one) {} as with
  | none =>
      rw [hr] at h
      exact absurd h Bool.false_ne_true
  | some w =>
      rw [hr] at h
      exact ⟨w, Transition.exec_reach as hr, h⟩

theorem synchronizes_iff {store load : MemoryOrder} :
    synchronizes store load = true ↔ store = .release ∧ load = .acquire := by
  rw [synchronizes, Bool.and_eq_true, decide_eq_true_iff, decide_eq_true_iff]

/--
**The weakest orders that are enough.**

No run of the two threads, on a queue of any capacity and of values of any type, races for a
slot if and only if both stores have release order and both loads of the other thread's counter
have acquire order, as in the code.
-/
theorem race_free_iff (o : Orders) :
    (∀ (α : Type) (C : Capacity) (w : Weak α), WeakReachable o C w → w.raced = false) ↔
      o = {} := by
  constructor
  · intro hfree
    have hnone : ¬ ∃ w : Weak Unit, WeakReachable o Capacity.one w ∧ w.raced = true := by
      rintro ⟨w, hw, hraced⟩
      rw [hfree Unit Capacity.one w hw] at hraced
      exact Bool.false_ne_true hraced
    have hheads : o.heads = true := by
      by_contra hf
      rw [Bool.not_eq_true] at hf
      exact hnone (races_of_run (races_heads o.heads o.tails hf))
    have htails : o.tails = true := by
      by_contra hf
      rw [Bool.not_eq_true] at hf
      exact hnone (races_of_run (races_tails o.heads o.tails hf))
    obtain ⟨loadTail, publish, loadHead, free⟩ := o
    obtain ⟨rfl, rfl⟩ := synchronizes_iff.mp hheads
    obtain ⟨rfl, rfl⟩ := synchronizes_iff.mp htails
    rfl
  · rintro rfl α C w hw
    exact (weak_inv_reachable hw).clean

end QuickStructs.SPSCQueue
