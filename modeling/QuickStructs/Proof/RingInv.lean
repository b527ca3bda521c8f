import QuickStructs.Lib.Ring
import QuickStructs.Structs.SPSCQueue
import Mathlib.Algebra.Ring.Nat

/-!
# The invariant of the single-producer, single-consumer queue

Counters are compared with the two histories: `m_head` is the number of values
pushed and `m_tail` the number popped, modulo 2^64. What each thread has read is out
of date in one direction only, so it errs on the safe side. The live objects are not
quite those from `m_tail` up to `m_head`: one may be constructed and not yet
published, and one destroyed and not yet released. `first` and `contents` say which
they are at every step.
-/

namespace QuickStructs.SPSCQueue

open Lib

/-! ## Counters and slots -/

def Capacity.size (C : Capacity) : Nat := C.kCapacity.toNat

theorem Capacity.size_pos (C : Capacity) : 0 < C.size := UInt64.lt_iff_toNat_lt.mp C.pos

theorem Capacity.kMask_toNat (C : Capacity) : C.kMask.toNat = C.size - 1 :=
  UInt64.toNat_sub_of_le _ _ (UInt64.le_iff_toNat_le.mpr C.size_pos)

theorem Capacity.isPowerOfTwo (C : Capacity) : ∃ k, C.size = 2 ^ k := by
  have h := congrArg UInt64.toNat C.pow2
  rw [UInt64.toNat_and] at h
  have h' : C.size &&& (C.size - 1) = 0 := by
    rw [← C.kMask_toNat]
    exact h
  exact (Nat.and_sub_one_eq_zero_iff_isPowerOfTwo (Nat.pos_iff_ne_zero.mp C.size_pos)).mp h'

/-- The slot of the position `i`, the counter `i` modulo 2^64. -/
def Capacity.slotAt (C : Capacity) (i : Nat) : UInt64 := C.slotPtr (UInt64.ofNat i)

/-- **Masking a wrapped counter is the position modulo the capacity.** -/
theorem Capacity.slotAt_toNat (C : Capacity) (i : Nat) : (C.slotAt i).toNat = i % C.size := by
  obtain ⟨k, hk⟩ := C.isPowerOfTwo
  have hlt : 2 ^ k < 2 ^ 64 := by
    rw [← hk]
    exact C.kCapacity.toNat_lt
  have hle : k ≤ 64 := Nat.le_of_lt ((Nat.pow_lt_pow_iff_right (by omega)).mp hlt)
  have hdvd : 2 ^ k ∣ 2 ^ 64 := Nat.pow_dvd_pow 2 hle
  unfold Capacity.slotAt Capacity.slotPtr
  rw [UInt64.toNat_and, C.kMask_toNat, hk, Nat.and_two_pow_sub_one_eq_mod, UInt64.toNat_ofNat',
    Nat.mod_mod_of_dvd i hdvd]

theorem Capacity.spread (C : Capacity) : Ring.Spread C.slotAt C.size := by
  intro i j hij hj he
  have hmod := congrArg UInt64.toNat he
  rw [C.slotAt_toNat, C.slotAt_toNat] at hmod
  have hdvd : C.size ∣ j - i := Nat.dvd_of_mod_eq_zero (Nat.sub_mod_eq_zero_of_mod_eq hmod.symm)
  have hle := Nat.le_of_dvd (by omega) hdvd
  omega

/-- The distance of two counters, across the wrap. -/
theorem counter_sub {h t : Nat} (hle : t ≤ h) (hlt : h - t < 2 ^ 64) :
    (UInt64.ofNat h - UInt64.ofNat t).toNat = h - t := by
  rw [← UInt64.ofNat_sub hle, UInt64.toNat_ofNat', Nat.mod_eq_of_lt hlt]

theorem counter_inj {h t : Nat} (hle : t ≤ h) (hlt : h - t < 2 ^ 64)
    (he : UInt64.ofNat h = UInt64.ofNat t) : h = t := by
  have hsub := counter_sub hle hlt
  rw [he, UInt64.sub_self] at hsub
  have : (0 : UInt64).toNat = 0 := rfl
  omega

theorem counter_succ (n : Nat) : UInt64.ofNat n + 1 = UInt64.ofNat (n + 1) :=
  (UInt64.ofNat_add n 1).symm

/-! ## Steps, case by case -/

variable {α : Type} {C : Capacity} {q q' : Queue α}

/-- The steps of a queue, each under its action, with what is known when it is made. -/
inductive QueueStep (C : Capacity) (q : Queue α) : Action α → Queue α → Prop where
  | emplace (x : α) (hp : q.producer = .idle) :
      QueueStep C q (.emplace x) { q with producer := .loadTail x q.mHead }
  | full (x : α) (head : UInt64) (hp : q.producer = .loadTail x head)
      (hfull : head - q.mTail = C.kCapacity) : QueueStep C q .loadTail { q with producer := .idle }
  | room (x : α) (head : UInt64) (hp : q.producer = .loadTail x head)
      (hroom : head - q.mTail ≠ C.kCapacity) :
      QueueStep C q .loadTail { q with producer := .construct x head }
  | construct (x : α) (head : UInt64) (hp : q.producer = .construct x head) :
      QueueStep C q .construct
        { q.constructAt (C.slotPtr head) x with producer := .publish x head }
  | publish (x : α) (head : UInt64) (hp : q.producer = .publish x head) :
      QueueStep C q .publish
        { q with producer := .idle, mHead := head + 1, pushed := q.pushed ++ [x] }
  | pop (hc : q.consumer = .idle) :
      QueueStep C q .pop { q with consumer := .loadHead q.mTail }
  | empty (tail : UInt64) (hc : q.consumer = .loadHead tail) (hempty : q.mHead = tail) :
      QueueStep C q .loadHead { q with consumer := .idle }
  | found (tail : UInt64) (hc : q.consumer = .loadHead tail) (hsome : q.mHead ≠ tail) :
      QueueStep C q .loadHead { q with consumer := .move tail }
  | move (tail : UInt64) (hc : q.consumer = .move tail) :
      QueueStep C q .move
        { q with consumer := .destroy tail ((q.mStorage (C.slotPtr tail)).map Object.value) }
  | destroy (tail : UInt64) (out : Option α) (hc : q.consumer = .destroy tail out) :
      QueueStep C q .destroy
        { q.destroyAt (C.slotPtr tail) with consumer := .release tail out }
  | release (tail : UInt64) (out : Option α) (hc : q.consumer = .release tail out) :
      QueueStep C q .release
        { q with consumer := .idle, mTail := tail + 1, popped := q.popped ++ [out] }

theorem step_cases {a : Action α} (h : step C q a = some q') : QueueStep C q a q' := by
  cases a with
  | emplace x =>
      rw [step] at h
      split at h
      · rename_i hp
        injection h with h
        rw [← h]
        exact .emplace x hp
      · exact absurd h (by simp)
  | loadTail =>
      rw [step] at h
      split at h
      · rename_i x head hp
        split at h
        · rename_i hfull
          injection h with h
          rw [← h]
          exact .full x head hp hfull
        · rename_i hroom
          injection h with h
          rw [← h]
          exact .room x head hp hroom
      · exact absurd h (by simp)
  | construct =>
      rw [step] at h
      split at h
      · rename_i x head hp
        injection h with h
        rw [← h]
        exact .construct x head hp
      · exact absurd h (by simp)
  | publish =>
      rw [step] at h
      split at h
      · rename_i x head hp
        injection h with h
        rw [← h]
        exact .publish x head hp
      · exact absurd h (by simp)
  | pop =>
      rw [step] at h
      split at h
      · rename_i hc
        injection h with h
        rw [← h]
        exact .pop hc
      · exact absurd h (by simp)
  | loadHead =>
      rw [step] at h
      split at h
      · rename_i tail hc
        split at h
        · rename_i hempty
          injection h with h
          rw [← h]
          exact .empty tail hc hempty
        · rename_i hsome
          injection h with h
          rw [← h]
          exact .found tail hc hsome
      · exact absurd h (by simp)
  | move =>
      rw [step] at h
      split at h
      · rename_i tail hc
        injection h with h
        rw [← h]
        exact .move tail hc
      · exact absurd h (by simp)
  | destroy =>
      rw [step] at h
      split at h
      · rename_i tail out hc
        injection h with h
        rw [← h]
        exact .destroy tail out hc
      · exact absurd h (by simp)
  | release =>
      rw [step] at h
      split at h
      · rename_i tail out hc
        injection h with h
        rw [← h]
        exact .release tail out hc
      · exact absurd h (by simp)

/-! ## The invariant -/

/-- A value that is constructed and not yet published. -/
def Producer.unpublished : Producer α → List α
  | .publish x _ => [x]
  | _ => []

/-- How many values are destroyed and not yet released. -/
def Consumer.unreleased : Consumer α → Nat
  | .release _ _ => 1
  | _ => 0

/-- The values of all objects ever constructed, in order. -/
def Queue.contents (q : Queue α) : List α := q.pushed ++ q.producer.unpublished

/-- The position of the first live object. -/
def Queue.first (q : Queue α) : Nat := q.popped.length + q.consumer.unreleased

/-- The object of a position is the one constructed there, with its value. -/
def Queue.Item (q : Queue α) (i : Nat) (obj : Object α) : Prop :=
  obj.object = i ∧ q.contents[i]? = some obj.value

/-- What the producer knows. It last saw `m_tail` some time ago, and there is at least
as much room now. -/
def Queue.ProducerOk (C : Capacity) (q : Queue α) : Producer α → Prop
  | .idle => True
  | .loadTail _ head => head = q.mHead
  | .construct _ head => head = q.mHead ∧ q.pushed.length < q.popped.length + C.size
  | .publish _ head => head = q.mHead

/-- What the consumer knows. It last saw `m_head` some time ago, and there is at least
as much to pop now. -/
def Queue.ConsumerOk (q : Queue α) : Consumer α → Prop
  | .idle => True
  | .loadHead tail => tail = q.mTail
  | .move tail => tail = q.mTail ∧ q.popped.length < q.pushed.length
  | .destroy tail out | .release tail out =>
    tail = q.mTail ∧ q.popped.length < q.pushed.length ∧ out = q.pushed[q.popped.length]?

structure Inv (C : Capacity) (q : Queue α) : Prop where
  head : q.mHead = UInt64.ofNat q.pushed.length
  tail : q.mTail = UInt64.ofNat q.popped.length
  order : q.popped.length ≤ q.pushed.length
  room : q.contents.length ≤ q.popped.length + C.size
  /-- What was popped is what was pushed first. -/
  fifo : q.popped <+: q.pushed.map some
  producer : q.ProducerOk C q.producer
  consumer : q.ConsumerOk q.consumer
  /-- The live objects are those from `first` on, each in its slot. -/
  live : Ring.Stores C.slotAt q.mStorage q.first q.contents.length q.Item
  built : q.built = q.contents.length
  destroyed : q.destroyed = List.range q.first

theorem inv_init : Inv C ({} : Queue α) where
  head := rfl
  tail := rfl
  order := Nat.le_refl _
  room := Nat.zero_le _
  fifo := List.nil_prefix
  producer := trivial
  consumer := trivial
  live := Ring.stores_nothing 0
  built := rfl
  destroyed := rfl

theorem Inv.producerAt (h : Inv C q) {p : Producer α} (hp : q.producer = p) :
    q.ProducerOk C p := hp ▸ h.producer

theorem Inv.consumerAt (h : Inv C q) {c : Consumer α} (hc : q.consumer = c) : q.ConsumerOk c :=
  hc ▸ h.consumer

theorem contents_length (q : Queue α) : q.pushed.length ≤ q.contents.length := by
  rw [Queue.contents, List.length_append]
  omega

/-- What is published is not changed by what is not. -/
theorem contents_get {i : Nat} (q : Queue α) (hi : i < q.pushed.length) :
    q.contents[i]? = q.pushed[i]? := List.getElem?_append_left hi

theorem Inv.first_le (h : Inv C q) : q.first ≤ q.pushed.length := by
  have ho := h.order
  unfold Queue.first
  cases hc : q.consumer with
  | release tail out =>
      have hlt := (h.consumerAt hc).2.1
      exact hlt
  | _ => exact ho

theorem Inv.near (h : Inv C q) : q.pushed.length - q.popped.length < 2 ^ 64 := by
  have h1 := h.room
  have h2 := contents_length q
  have h3 := C.kCapacity.toNat_lt
  unfold Capacity.size at h1
  omega

/-- A producer that moves on without constructing keeps the rest of the invariant. -/
theorem Inv.setProducer (h : Inv C q) {p : Producer α}
    (hsame : p.unpublished = q.producer.unpublished) (hp : q.ProducerOk C p) :
    Inv C { q with producer := p } := by
  have hcontents : ({ q with producer := p } : Queue α).contents = q.contents :=
    congrArg (q.pushed ++ ·) hsame
  have hitem : ({ q with producer := p } : Queue α).Item = q.Item := by
    unfold Queue.Item
    rw [hcontents]
  exact
    { head := h.head, tail := h.tail, order := h.order, fifo := h.fifo, consumer := h.consumer
      destroyed := h.destroyed, producer := hp
      room := by rw [hcontents]; exact h.room
      live := by rw [hcontents, hitem]; exact h.live
      built := by rw [hcontents]; exact h.built }

/-- A consumer that moves on without destroying keeps the rest of the invariant. -/
theorem Inv.setConsumer (h : Inv C q) {c : Consumer α}
    (hsame : c.unreleased = q.consumer.unreleased) (hc : q.ConsumerOk c) :
    Inv C { q with consumer := c } := by
  have hfirst : ({ q with consumer := c } : Queue α).first = q.first :=
    congrArg (q.popped.length + ·) hsame
  exact
    { head := h.head, tail := h.tail, order := h.order, fifo := h.fifo, producer := h.producer
      room := h.room, built := h.built, consumer := hc
      live := by rw [hfirst]; exact h.live
      destroyed := by rw [hfirst]; exact h.destroyed }

/-! ## Step by step -/

/-- **The full test is exact** at the moment of the load. -/
theorem Inv.full_iff (h : Inv C q) :
    q.mHead - q.mTail = C.kCapacity ↔ q.pushed.length = q.popped.length + C.size := by
  have ho := h.order
  have hsub := counter_sub h.order h.near
  rw [h.head, h.tail, ← UInt64.toNat_inj, hsub]
  show _ = C.size ↔ _
  omega

/-- **The empty test is exact** at the moment of the load. -/
theorem Inv.empty_iff (h : Inv C q) : q.mHead = q.mTail ↔ q.pushed.length = q.popped.length := by
  rw [h.head, h.tail]
  constructor
  · exact counter_inj h.order h.near
  · exact fun he => by rw [he]

theorem inv_loadTail (h : Inv C q) {x : α} {head : UInt64} (hp : q.producer = .loadTail x head)
    (hroom : head - q.mTail ≠ C.kCapacity) :
    Inv C { q with producer := .construct x head } := by
  have hhead : head = q.mHead := h.producerAt hp
  refine h.setProducer (by rw [hp]; rfl) ⟨hhead, ?_⟩
  have hfull : q.pushed.length ≠ q.popped.length + C.size := by
    intro he
    have hsub := h.full_iff.mpr he
    rw [← hhead] at hsub
    exact hroom hsub
  have h1 := h.room
  have h2 := contents_length q
  omega

theorem inv_construct (h : Inv C q) {x : α} {head : UInt64} (hp : q.producer = .construct x head) :
    Inv C { q.constructAt (C.slotPtr head) x with producer := .publish x head } := by
  obtain ⟨hhead, hroom⟩ := h.producerAt hp
  have hcontents : q.contents = q.pushed := by
    rw [Queue.contents, hp]
    exact List.append_nil _
  have hslot : C.slotPtr head = C.slotAt q.pushed.length := by
    rw [hhead, h.head]
    rfl
  have hfirst := h.first_le
  have hlive := h.live
  have hbuilt := h.built
  rw [hcontents] at hlive hbuilt
  refine { head := h.head, tail := h.tail, order := h.order, fifo := h.fifo, consumer := h.consumer
           destroyed := h.destroyed, producer := hhead, room := ?_, live := ?_, built := ?_ }
  · show (q.pushed ++ [x]).length ≤ q.popped.length + C.size
    rw [List.length_append, List.length_singleton]
    omega
  · show Ring.Stores C.slotAt (Function.update q.mStorage (C.slotPtr head) _) q.first
      (q.pushed ++ [x]).length _
    rw [hslot, List.length_append, List.length_singleton]
    have hspace : q.pushed.length < q.first + C.size := by
      unfold Queue.first
      omega
    refine hlive.push C.spread hfirst hspace ?_ ?_
    · intro i obj hi hitem
      refine ⟨hitem.1, ?_⟩
      show (q.pushed ++ [x])[i]? = some obj.value
      rw [List.getElem?_append_left hi, ← hcontents]
      exact hitem.2
    · exact ⟨hbuilt, List.getElem?_concat_length⟩
  · show q.built + 1 = (q.pushed ++ [x]).length
    rw [List.length_append, hbuilt]
    rfl

/-- What the consumer knows stays true when more is published. -/
theorem consumerOk_more {c : Consumer α} (h : q.ConsumerOk c) (htail : q'.mTail = q.mTail)
    (hpopped : q'.popped = q.popped) (hmore : q.pushed <+: q'.pushed) : q'.ConsumerOk c := by
  have hlen := hmore.length_le
  unfold Queue.ConsumerOk at *
  rw [htail, hpopped]
  cases c with
  | idle => trivial
  | loadHead tail => exact h
  | move tail => exact ⟨h.1, by omega⟩
  | destroy tail out | release tail out =>
      obtain ⟨rest, hrest⟩ := hmore
      refine ⟨h.1, by omega, ?_⟩
      rw [← hrest, List.getElem?_append_left h.2.1]
      exact h.2.2

theorem inv_publish (h : Inv C q) {x : α} {head : UInt64} (hp : q.producer = .publish x head) :
    Inv C { q with producer := .idle, mHead := head + 1, pushed := q.pushed ++ [x] } := by
  have hhead : head = q.mHead := h.producerAt hp
  have ho := h.order
  have hlen : (q.pushed ++ [x]).length = q.pushed.length + 1 := List.length_append
  have hcontents : (q.pushed ++ [x]) ++ [] = q.contents := by
    rw [List.append_nil, Queue.contents, hp]
    rfl
  have hroom := h.room
  have hlive := h.live
  have hbuilt := h.built
  have hitem : q.Item = fun i obj => obj.object = i
      ∧ ((q.pushed ++ [x]) ++ [])[i]? = some obj.value := by
    rw [hcontents]
    rfl
  rw [hitem] at hlive
  rw [← hcontents] at hroom hlive hbuilt
  refine { head := ?_, tail := h.tail, order := ?_, room := hroom, fifo := ?_, producer := trivial
           consumer := ?_, live := hlive, built := hbuilt, destroyed := h.destroyed }
  · show head + 1 = UInt64.ofNat (q.pushed ++ [x]).length
    rw [hhead, h.head, hlen, counter_succ]
  · show q.popped.length ≤ (q.pushed ++ [x]).length
    omega
  · show q.popped <+: (q.pushed ++ [x]).map some
    rw [List.map_append]
    exact h.fifo.trans (List.prefix_append _ _)
  · exact consumerOk_more h.consumer rfl rfl (List.prefix_append _ _)

theorem inv_loadHead (h : Inv C q) {tail : UInt64} (hc : q.consumer = .loadHead tail)
    (hsome : q.mHead ≠ tail) : Inv C { q with consumer := .move tail } := by
  have htail : tail = q.mTail := h.consumerAt hc
  refine h.setConsumer (by rw [hc]; rfl) ⟨htail, ?_⟩
  have hempty : q.pushed.length ≠ q.popped.length := by
    intro he
    have heq := h.empty_iff.mpr he
    rw [← htail] at heq
    exact hsome heq
  have ho := h.order
  omega

/-- The slot the consumer works on, and the object in it. -/
theorem Inv.front (h : Inv C q) {tail : UInt64} (htail : tail = q.mTail)
    (hlt : q.popped.length < q.pushed.length) (hfirst : q.first = q.popped.length) :
    C.slotPtr tail = C.slotAt q.first
      ∧ ∃ obj, q.mStorage (C.slotPtr tail) = some obj ∧ q.Item q.first obj := by
  have hslot : C.slotPtr tail = C.slotAt q.first := by
    rw [htail, h.tail, hfirst]
    rfl
  have hlen := contents_length q
  refine ⟨hslot, ?_⟩
  rw [hslot]
  exact h.live.full q.first (Nat.le_refl _) (by omega)

theorem inv_move (h : Inv C q) {tail : UInt64} (hc : q.consumer = .move tail) :
    Inv C { q with
      consumer := .destroy tail ((q.mStorage (C.slotPtr tail)).map Object.value) } := by
  obtain ⟨htail, hlt⟩ := h.consumerAt hc
  have hfirst : q.first = q.popped.length := by
    rw [Queue.first, hc]
    rfl
  obtain ⟨_, obj, hobj, hitem⟩ := h.front htail hlt hfirst
  refine h.setConsumer (by rw [hc]; rfl) ⟨htail, hlt, ?_⟩
  rw [hobj, ← contents_get q hlt, ← hfirst]
  exact hitem.2.symm

theorem inv_destroy (h : Inv C q) {tail : UInt64} {out : Option α}
    (hc : q.consumer = .destroy tail out) :
    Inv C { q.destroyAt (C.slotPtr tail) with consumer := .release tail out } := by
  obtain ⟨htail, hlt, hout⟩ := h.consumerAt hc
  have hfirst : q.first = q.popped.length := by
    rw [Queue.first, hc]
    rfl
  obtain ⟨hslot, obj, hobj, hitem⟩ := h.front htail hlt hfirst
  have hlen := contents_length q
  have hroom := h.room
  have hlive := h.live
  have hdestroyed := h.destroyed
  rw [hfirst] at hitem hslot hlive hdestroyed
  refine { head := h.head, tail := h.tail, order := h.order, room := h.room, fifo := h.fifo
           producer := h.producer, built := h.built, consumer := ⟨htail, hlt, hout⟩
           live := ?_, destroyed := ?_ }
  · show Ring.Stores C.slotAt (Function.update q.mStorage (C.slotPtr tail) none)
      (q.popped.length + 1) q.contents.length q.Item
    rw [hslot]
    exact hlive.pop C.spread (by omega)
  · show q.destroyed ++ occupants q.mStorage (C.slotPtr tail) = List.range (q.popped.length + 1)
    have hocc : occupants q.mStorage (C.slotPtr tail) = [q.popped.length] := by
      rw [occupants, hobj, ← hitem.1]
      rfl
    rw [hocc, hdestroyed, List.range_succ]

/-- A prefix grows by the next element. -/
theorem prefix_concat {β : Type} {xs ys : List β} {y : β} (h : xs <+: ys)
    (hy : ys[xs.length]? = some y) : xs ++ [y] <+: ys := by
  obtain ⟨zs, rfl⟩ := h
  cases zs with
  | nil => exact absurd hy (by simp)
  | cons z zs =>
      rw [List.getElem?_append_right (Nat.le_refl _), Nat.sub_self] at hy
      injection hy with hy
      exact ⟨zs, by rw [← hy, List.append_assoc]; rfl⟩

/-- What the producer knows stays true when more is released. -/
theorem producerOk_more {p : Producer α} (h : q.ProducerOk C p) (hhead : q'.mHead = q.mHead)
    (hpushed : q'.pushed = q.pushed) (hmore : q.popped.length ≤ q'.popped.length) :
    q'.ProducerOk C p := by
  unfold Queue.ProducerOk at *
  rw [hhead, hpushed]
  cases p with
  | construct x head => exact ⟨h.1, by omega⟩
  | _ => exact h

theorem inv_release (h : Inv C q) {tail : UInt64} {out : Option α}
    (hc : q.consumer = .release tail out) :
    Inv C { q with consumer := .idle, mTail := tail + 1, popped := q.popped ++ [out] } := by
  obtain ⟨htail, hlt, hout⟩ := h.consumerAt hc
  have hlen : (q.popped ++ [out]).length = q.popped.length + 1 := List.length_append
  have hfirst : q.first = (q.popped ++ [out]).length + 0 := by
    rw [Queue.first, hc, hlen]
    rfl
  have hroom := h.room
  have hlive := h.live
  have hdestroyed := h.destroyed
  rw [hfirst] at hlive hdestroyed
  refine { head := h.head, tail := ?_, order := ?_, room := ?_, fifo := ?_, producer := ?_
           consumer := trivial, live := hlive, built := h.built, destroyed := hdestroyed }
  · show tail + 1 = UInt64.ofNat (q.popped ++ [out]).length
    rw [htail, h.tail, hlen, counter_succ]
  · show (q.popped ++ [out]).length ≤ q.pushed.length
    omega
  · show q.contents.length ≤ (q.popped ++ [out]).length + C.size
    omega
  · refine prefix_concat h.fifo ?_
    rw [List.getElem?_map, hout, List.getElem?_eq_getElem hlt]
    rfl
  · refine producerOk_more h.producer rfl rfl ?_
    show q.popped.length ≤ (q.popped ++ [out]).length
    omega

/-- **Every step keeps the invariant.** -/
theorem inv_step {a : Action α} (h : Inv C q) (hs : step C q a = some q') : Inv C q' := by
  cases step_cases hs with
  | emplace x hp => exact h.setProducer (by rw [hp]; rfl) rfl
  | full x head hp _ => exact h.setProducer (by rw [hp]; rfl) trivial
  | room x head hp hroom => exact inv_loadTail h hp hroom
  | construct x head hp => exact inv_construct h hp
  | publish x head hp => exact inv_publish h hp
  | pop hc => exact h.setConsumer (by rw [hc]; rfl) rfl
  | empty tail hc _ => exact h.setConsumer (by rw [hc]; rfl) trivial
  | found tail hc hsome => exact inv_loadHead h hc hsome
  | move tail hc => exact inv_move h hc
  | destroy tail out hc => exact inv_destroy h hc
  | release tail out hc => exact inv_release h hc

theorem inv_reachable (h : Reachable C q) : Inv C q :=
  h.invariant inv_init fun _ _ _ _ hi hs => inv_step hi hs

end QuickStructs.SPSCQueue
