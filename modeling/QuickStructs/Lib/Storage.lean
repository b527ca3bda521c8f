import Mathlib.Data.List.Nodup
import Mathlib.Logic.Function.Basic

/-!
# Raw storage and the objects in it

Buffers of raw slots are allocated and freed, and objects are constructed in slots and
destroyed there. Every object has a number of its own, in the order of construction, so
that what becomes of it can be told after its slot has been used again. An operation on
memory that is not there, a construction over a live object or the destruction of none
is a fault: it is recorded, and does nothing else.

Used without faults, and with buffers freed only when they are empty, every object is
live in one slot or was destroyed once, and every buffer is there or was freed once.
-/

namespace Lib

variable {E : Type}

/-- A live object. -/
structure Object (E : Type) where
  id : Nat
  val : E
  deriving DecidableEq, Repr

structure Buffer (E : Type) where
  /-- The number of slots. -/
  size : Nat
  slots : Nat → Option (Object E) := fun _ => none

structure Storage (E : Type) where
  /-- The buffers that were allocated and not freed, by their addresses. -/
  buffers : Nat → Option (Buffer E) := fun _ => none
  /-- The address of the next buffer. No buffer is at address 0, which is null. -/
  next : Nat := 1
  /-- The number of the next object. -/
  nextId : Nat := 0
  destroyed : List Nat := []
  freed : List Nat := []
  faulted : Bool := false

namespace Storage

variable {s s' t : Storage E} {a b i j n size : Nat} {v : E} {buf : Buffer E} {o p : Object E}

def fault (s : Storage E) : Storage E := { s with faulted := true }

/-- The object in a slot. -/
def slot (s : Storage E) (a i : Nat) : Option (Object E) := (s.buffers a).bind fun b => b.slots i

def put (s : Storage E) (a i : Nat) (x : Option (Object E)) : Storage E :=
  { s with
    buffers :=
      Function.update s.buffers a
        ((s.buffers a).map fun b => { b with slots := Function.update b.slots i x }) }

/-- Allocate a buffer, at address `s.next`. -/
def alloc (s : Storage E) (size : Nat) : Storage E :=
  { s with buffers := Function.update s.buffers s.next (some { size := size }), next := s.next + 1 }

def construct (s : Storage E) (a i : Nat) (v : E) : Storage E :=
  match s.buffers a with
  | some b =>
    if i < b.size ∧ b.slots i = none then
      { s.put a i (some ⟨s.nextId, v⟩) with nextId := s.nextId + 1 }
    else s.fault
  | none => s.fault

def destroy (s : Storage E) (a i : Nat) : Storage E :=
  match s.slot a i with
  | some o => { s.put a i none with destroyed := s.destroyed ++ [o.id] }
  | none => s.fault

/-- Change the value of a live object. -/
def assign (s : Storage E) (a i : Nat) (v : E) : Storage E :=
  match s.slot a i with
  | some o => s.put a i (some { o with val := v })
  | none => s.fault

/-- Free a buffer; to free null does nothing. -/
def free (s : Storage E) (a : Nat) : Storage E :=
  if a = 0 then s
  else
    match s.buffers a with
    | some _ => { s with buffers := Function.update s.buffers a none, freed := s.freed ++ [a] }
    | none => s.fault

/-! ## What is in the slots -/

theorem slot_eq (hb : s.buffers a = some buf) : s.slot a i = buf.slots i := by
  unfold slot
  rw [hb]
  rfl

theorem slot_congr (hb : s'.buffers b = s.buffers b) : s'.slot b j = s.slot b j := by
  unfold slot
  rw [hb]

theorem buffer_of_slot (ho : s.slot a i = some o) :
    ∃ buf, s.buffers a = some buf ∧ buf.slots i = some o := Option.bind_eq_some_iff.mp ho

theorem put_self (hb : s.buffers a = some buf) (x : Option (Object E)) :
    (s.put a i x).buffers a = some { buf with slots := Function.update buf.slots i x } := by
  show Function.update s.buffers a _ a = _
  rw [Function.update_self, hb]
  rfl

theorem put_of_ne (hba : b ≠ a) (x : Option (Object E)) :
    (s.put a i x).buffers b = s.buffers b := by
  show Function.update s.buffers a _ b = _
  rw [Function.update_of_ne hba]

/-- **A slot that was written, and the others.** -/
theorem slot_put (hb : s.buffers a = some buf) (x : Option (Object E)) (b j : Nat) :
    (s.put a i x).slot b j = if b = a ∧ j = i then x else s.slot b j := by
  by_cases hba : b = a
  · rw [hba, slot_eq (put_self hb x), slot_eq hb]
    show Function.update buf.slots i x j = _
    by_cases hji : j = i
    · rw [hji, Function.update_self, if_pos ⟨rfl, rfl⟩]
    · rw [Function.update_of_ne hji, if_neg fun h => hji h.2]
  · rw [if_neg fun h => hba h.1, slot_congr (put_of_ne hba x)]

theorem construct_eq (hb : s.buffers a = some buf) (hi : i < buf.size) (hn : buf.slots i = none) :
    s.construct a i v = { s.put a i (some ⟨s.nextId, v⟩) with nextId := s.nextId + 1 } := by
  unfold construct
  rw [hb]
  exact if_pos ⟨hi, hn⟩

theorem destroy_eq (ho : s.slot a i = some o) :
    s.destroy a i = { s.put a i none with destroyed := s.destroyed ++ [o.id] } := by
  unfold destroy
  rw [ho]

theorem assign_eq (ho : s.slot a i = some o) :
    s.assign a i v = s.put a i (some { o with val := v }) := by
  unfold assign
  rw [ho]

/-- To assign what is there changes nothing. -/
theorem assign_same (ho : s.slot a i = some o) : s.assign a i o.val = s := by
  obtain ⟨buf, hb, hslot⟩ := buffer_of_slot ho
  have hslots : Function.update buf.slots i (some o) = buf.slots := by
    rw [← hslot, Function.update_eq_self]
  have hbuffers : Function.update s.buffers a (some buf) = s.buffers := by
    rw [← hb, Function.update_eq_self]
  rw [assign_eq ho]
  show s.put a i (some o) = s
  unfold put
  rw [hb, Option.map_some, hslots, hbuffers]

theorem slot_assign (ho : s.slot a i = some o) :
    (s.assign a i v).slot a i = some { o with val := v } := by
  obtain ⟨buf, hb, _⟩ := buffer_of_slot ho
  rw [assign_eq ho, slot_put hb, if_pos ⟨rfl, rfl⟩]

theorem free_eq (ha : a ≠ 0) (hb : s.buffers a = some buf) :
    s.free a = { s with buffers := Function.update s.buffers a none, freed := s.freed ++ [a] } := by
  unfold free
  rw [if_neg ha, hb]

/-! ## Every object and every buffer is accounted for -/

/-- The buffers: those that are gone were freed once. -/
structure Placed (s : Storage E) : Prop where
  null : s.buffers 0 = none
  next : 0 < s.next
  beyond : ∀ a, s.next ≤ a → s.buffers a = none
  freed : ∀ a, a ∈ s.freed ↔ 0 < a ∧ a < s.next ∧ s.buffers a = none
  once : s.freed.Nodup

/-- The objects: those that are not live were destroyed once. -/
structure Counted (s : Storage E) : Prop where
  live : ∀ a i o, s.slot a i = some o → o.id < s.nextId ∧ o.id ∉ s.destroyed
  apart : ∀ a i o b j p, s.slot a i = some o → s.slot b j = some p → o.id = p.id → a = b ∧ i = j
  cover : ∀ id, id < s.nextId → id ∈ s.destroyed ∨ ∃ a i o, s.slot a i = some o ∧ o.id = id
  past : ∀ id ∈ s.destroyed, id < s.nextId
  once : s.destroyed.Nodup

theorem placed_empty : Placed ({} : Storage E) where
  null := rfl
  next := Nat.one_pos
  beyond := fun _ _ => rfl
  freed := by
    intro a
    refine iff_of_false (by simp) fun ⟨hpos, hlt, _⟩ => ?_
    have hlt' : a < 1 := hlt
    omega
  once := List.nodup_nil

theorem counted_empty : Counted ({} : Storage E) where
  live := fun _ _ _ ho => absurd ho (by simp [slot])
  apart := fun _ _ _ _ _ _ ho => absurd ho (by simp [slot])
  cover := fun _ hid => absurd hid (Nat.not_lt_zero _)
  past := fun _ hid => absurd hid (by simp)
  once := List.nodup_nil

theorem Placed.lt_next (h : Placed s) (hb : s.buffers a = some buf) : a < s.next := by
  rcases Nat.lt_or_ge a s.next with hlt | hge
  · exact hlt
  · rw [h.beyond a hge] at hb
    exact absurd hb (by simp)

theorem Placed.ne_null (h : Placed s) (hb : s.buffers a = some buf) : a ≠ 0 := by
  intro ha
  rw [ha, h.null] at hb
  exact absurd hb (by simp)

/-- Which buffers there are is not a matter of what is in them. -/
theorem Placed.congr (h : Placed s) (hnext : s'.next = s.next) (hfreed : s'.freed = s.freed)
    (hbuf : ∀ a, s'.buffers a = none ↔ s.buffers a = none) : Placed s' where
  null := (hbuf 0).mpr h.null
  next := hnext ▸ h.next
  beyond := fun a ha => (hbuf a).mpr (h.beyond a (hnext ▸ ha))
  freed := by
    intro a
    rw [hfreed, hnext, hbuf a]
    exact h.freed a
  once := hfreed ▸ h.once

theorem Counted.congr (h : Counted s) (hid : s'.nextId = s.nextId)
    (hdes : s'.destroyed = s.destroyed) (hslot : ∀ a i, s'.slot a i = s.slot a i) :
    Counted s' where
  live := fun a i o ho => by rw [hid, hdes]; exact h.live a i o (hslot a i ▸ ho)
  apart := fun a i o b j p ho hp => h.apart a i o b j p (hslot a i ▸ ho) (hslot b j ▸ hp)
  cover := by
    intro id hlt
    rw [hid] at hlt
    rw [hdes]
    rcases h.cover id hlt with hd | ⟨a, i, o, ho, hoid⟩
    · exact Or.inl hd
    · exact Or.inr ⟨a, i, o, (hslot a i).trans ho, hoid⟩
  past := fun id hd => by rw [hid]; exact h.past id (hdes ▸ hd)
  once := hdes ▸ h.once

/-! ## What each operation does to the account -/

/-- A write leaves as it is where the buffers are. -/
theorem placed_put (h : Placed s) (hb : s.buffers a = some buf) {x : Option (Object E)}
    (hput : s'.buffers = (s.put a i x).buffers) (hnext : s'.next = s.next)
    (hfreed : s'.freed = s.freed) : Placed s' := by
  refine h.congr hnext hfreed fun b => ?_
  rw [hput]
  by_cases hba : b = a
  · rw [hba, put_self hb, hb]
    exact iff_of_false (by simp) (by simp)
  · rw [put_of_ne hba]

theorem counted_construct (h : Counted s) (hn : s.slot a i = none)
    (hslot : ∀ b j, s'.slot b j = if b = a ∧ j = i then some ⟨s.nextId, v⟩ else s.slot b j)
    (hnext : s'.nextId = s.nextId + 1) (hdes : s'.destroyed = s.destroyed) : Counted s' := by
  refine ⟨fun b j o ho => ?_, fun b j o c k p ho hp hid => ?_, fun id hid => ?_, fun id hd => ?_,
    hdes ▸ h.once⟩
  · rw [hnext, hdes]
    rw [hslot b j] at ho
    split at ho
    · cases ho
      exact ⟨Nat.lt_succ_self _, fun hd => Nat.lt_irrefl _ (h.past _ hd)⟩
    · have hlive := h.live b j o ho
      exact ⟨Nat.lt_succ_of_lt hlive.1, hlive.2⟩
  · rw [hslot b j] at ho
    rw [hslot c k] at hp
    -- the new object has a number that no other has
    split at ho
    · rename_i hbj
      split at hp
      · rename_i hck
        exact ⟨hbj.1.trans hck.1.symm, hbj.2.trans hck.2.symm⟩
      · cases ho
        have hlt := (h.live c k p hp).1
        have hid' : s.nextId = p.id := hid
        omega
    · split at hp
      · cases hp
        have hlt := (h.live b j o ho).1
        have hid' : o.id = s.nextId := hid
        omega
      · exact h.apart b j o c k p ho hp hid
  · rw [hnext] at hid
    rw [hdes]
    rcases Nat.lt_succ_iff_lt_or_eq.mp hid with hlt | heq
    · rcases h.cover id hlt with hd | ⟨b, j, o, ho, hoid⟩
      · exact Or.inl hd
      · refine Or.inr ⟨b, j, o, ?_, hoid⟩
        rw [hslot b j, if_neg]
        · exact ho
        · rintro ⟨hba, hji⟩
          rw [hba, hji, hn] at ho
          exact absurd ho (by simp)
    · refine Or.inr ⟨a, i, ⟨s.nextId, v⟩, ?_, heq.symm⟩
      rw [hslot a i, if_pos ⟨rfl, rfl⟩]
  · rw [hdes] at hd
    rw [hnext]
    exact Nat.lt_succ_of_lt (h.past id hd)

theorem counted_destroy (h : Counted s) (ho : s.slot a i = some o)
    (hslot : ∀ b j, s'.slot b j = if b = a ∧ j = i then none else s.slot b j)
    (hnext : s'.nextId = s.nextId) (hdes : s'.destroyed = s.destroyed ++ [o.id]) : Counted s' := by
  have hown := h.live a i o ho
  -- an object that is still live was live before, and is not the one destroyed
  have hstill : ∀ b j p, s'.slot b j = some p → s.slot b j = some p ∧ p.id ≠ o.id := by
    intro b j p hp
    rw [hslot b j] at hp
    split at hp
    · exact absurd hp (by simp)
    · rename_i hne
      exact ⟨hp, fun hid => hne (h.apart b j p a i o hp ho hid)⟩
  refine ⟨fun b j p hp => ?_, fun b j p c k q hp hq => ?_, fun id hid => ?_, fun id hd => ?_, ?_⟩
  · obtain ⟨hp', hne⟩ := hstill b j p hp
    rw [hnext, hdes]
    refine ⟨(h.live b j p hp').1, fun hd => ?_⟩
    rcases List.mem_append.mp hd with hd | hd
    · exact (h.live b j p hp').2 hd
    · exact hne (List.mem_singleton.mp hd)
  · exact h.apart b j p c k q (hstill b j p hp).1 (hstill c k q hq).1
  · rw [hnext] at hid
    rw [hdes]
    rcases h.cover id hid with hd | ⟨b, j, p, hp, hpid⟩
    · exact Or.inl (List.mem_append_left _ hd)
    · by_cases hbj : b = a ∧ j = i
      · rw [hbj.1, hbj.2, ho] at hp
        cases hp
        exact Or.inl (List.mem_append_right _ (List.mem_singleton.mpr hpid.symm))
      · refine Or.inr ⟨b, j, p, ?_, hpid⟩
        rw [hslot b j, if_neg hbj]
        exact hp
  · rw [hdes] at hd
    rw [hnext]
    rcases List.mem_append.mp hd with hd | hd
    · exact h.past id hd
    · rw [List.mem_singleton.mp hd]
      exact hown.1
  · rw [hdes]
    refine List.nodup_append.mpr ⟨h.once, List.nodup_singleton _, fun x hx y hy hxy => ?_⟩
    rw [hxy, List.mem_singleton.mp hy] at hx
    exact hown.2 hx

/-- An assignment changes no object into another. -/
theorem counted_assign (h : Counted s) (ho : s.slot a i = some o) :
    Counted (s.put a i (some { o with val := v })) := by
  obtain ⟨buf, hb, _⟩ := buffer_of_slot ho
  have hslot := slot_put hb (i := i) (some { o with val := v })
  -- an object keeps its number and its slot
  have hstill : ∀ b j p, (s.put a i (some { o with val := v })).slot b j = some p →
      ∃ p', s.slot b j = some p' ∧ p'.id = p.id := by
    intro b j p hp
    rw [hslot b j] at hp
    split at hp
    · rename_i hbj
      cases hp
      refine ⟨o, ?_, rfl⟩
      rw [hbj.1, hbj.2]
      exact ho
    · exact ⟨p, hp, rfl⟩
  refine ⟨fun b j p hp => ?_, fun b j p c k q hp hq hid => ?_, fun id hid => ?_, h.past, h.once⟩
  · obtain ⟨p', hp', hid⟩ := hstill b j p hp
    rw [← hid]
    exact h.live b j p' hp'
  · obtain ⟨p', hp', hpid⟩ := hstill b j p hp
    obtain ⟨q', hq', hqid⟩ := hstill c k q hq
    exact h.apart b j p' c k q' hp' hq' (by rw [hpid, hqid, hid])
  · rcases h.cover id hid with hd | ⟨b, j, p, hp, hpid⟩
    · exact Or.inl hd
    · by_cases hbj : b = a ∧ j = i
      · rw [hbj.1, hbj.2, ho] at hp
        cases hp
        refine Or.inr ⟨a, i, { o with val := v }, ?_, hpid⟩
        rw [hslot a i, if_pos ⟨rfl, rfl⟩]
      · refine Or.inr ⟨b, j, p, ?_, hpid⟩
        rw [hslot b j, if_neg hbj]
        exact hp

/-! ## Working in one buffer -/

/-- No fault so far, and everything accounted for. -/
structure Sane (s : Storage E) : Prop where
  placed : Placed s
  counted : Counted s
  unfaulted : s.faulted = false

theorem sane_empty : Sane ({} : Storage E) := ⟨placed_empty, counted_empty, rfl⟩

/-- At address `a` there is a buffer of `size` slots, with the values `f` in them. -/
def Shows (s : Storage E) (a size : Nat) (f : Nat → Option E) : Prop :=
  ∃ buf, s.buffers a = some buf ∧ buf.size = size ∧ ∀ i, (buf.slots i).map Object.val = f i

/-- The buffers other than `a` are as they were, and there are no new ones. -/
structure Frame (a : Nat) (s s' : Storage E) : Prop where
  others : ∀ b, b ≠ a → s'.buffers b = s.buffers b
  next : s'.next = s.next

variable {f : Nat → Option E}

theorem Frame.refl (a : Nat) (s : Storage E) : Frame a s s := ⟨fun _ _ => rfl, rfl⟩

theorem Frame.trans (h : Frame a s t) (h' : Frame a t s') : Frame a s s' :=
  ⟨fun b hb => (h'.others b hb).trans (h.others b hb), h'.next.trans h.next⟩

theorem Shows.frame (hf : Shows s b size f) (h : Frame a s s') (hba : b ≠ a) :
    Shows s' b size f := by
  obtain ⟨buf, hb, hsize, hslots⟩ := hf
  exact ⟨buf, (h.others b hba).trans hb, hsize, hslots⟩

theorem shows_put (hb : s.buffers a = some buf) (hslots : ∀ i, (buf.slots i).map Object.val = f i)
    (x : Option (Object E)) :
    Shows (s.put a i x) a buf.size (Function.update f i (x.map Object.val)) := by
  refine ⟨_, put_self hb x, rfl, fun j => ?_⟩
  show (Function.update buf.slots i x j).map Object.val = _
  by_cases hji : j = i
  · rw [hji, Function.update_self, Function.update_self]
  · rw [Function.update_of_ne hji, Function.update_of_ne hji]
    exact hslots j

/-- A slot that shows a value has an object. -/
theorem Shows.slot (hf : Shows s a size f) (hv : f i = some v) :
    ∃ o, s.slot a i = some o ∧ o.val = v := by
  obtain ⟨buf, hb, _, hslots⟩ := hf
  rw [slot_eq hb]
  exact Option.map_eq_some_iff.mp ((hslots i).trans hv)

theorem construct_spec (h : Sane s) (hf : Shows s a size f) (hi : i < size) (hn : f i = none)
    (v : E) :
    Sane (s.construct a i v) ∧ Shows (s.construct a i v) a size (Function.update f i (some v))
      ∧ Frame a s (s.construct a i v) := by
  obtain ⟨buf, hb, rfl, hslots⟩ := hf
  have hempty : buf.slots i = none := Option.map_eq_none_iff.mp ((hslots i).trans hn)
  rw [construct_eq hb hi hempty]
  exact ⟨⟨placed_put h.placed hb rfl rfl rfl,
      counted_construct h.counted ((slot_eq hb).trans hempty) (slot_put hb _) rfl rfl, h.unfaulted⟩,
    shows_put hb hslots _, ⟨fun _ hc => put_of_ne hc _, rfl⟩⟩

theorem destroy_spec (h : Sane s) (hf : Shows s a size f) (hv : f i = some v) :
    Sane (s.destroy a i) ∧ Shows (s.destroy a i) a size (Function.update f i none)
      ∧ Frame a s (s.destroy a i) := by
  obtain ⟨o, ho, _⟩ := hf.slot hv
  obtain ⟨buf, hb, rfl, hslots⟩ := hf
  rw [destroy_eq ho]
  exact ⟨⟨placed_put h.placed hb rfl rfl rfl, counted_destroy h.counted ho (slot_put hb _) rfl rfl,
      h.unfaulted⟩,
    shows_put hb hslots none, ⟨fun _ hc => put_of_ne hc _, rfl⟩⟩

theorem assign_spec (h : Sane s) (hf : Shows s a size f) {u : E} (hv : f i = some u) (v : E) :
    Sane (s.assign a i v) ∧ Shows (s.assign a i v) a size (Function.update f i (some v))
      ∧ Frame a s (s.assign a i v) := by
  obtain ⟨o, ho, _⟩ := hf.slot hv
  obtain ⟨buf, hb, rfl, hslots⟩ := hf
  rw [assign_eq ho]
  exact ⟨⟨placed_put h.placed hb rfl rfl rfl, counted_assign h.counted ho, h.unfaulted⟩,
    shows_put hb hslots _, ⟨fun _ hc => put_of_ne hc _, rfl⟩⟩

/-! ## New buffers and old ones -/

/-- A slot is empty in a new buffer, and as it was in the others. -/
theorem slot_alloc (h : Placed s) (b j : Nat) : (s.alloc size).slot b j = s.slot b j := by
  by_cases hb : b = s.next
  · rw [hb]
    show (Function.update s.buffers s.next _ s.next).bind _ = (s.buffers s.next).bind _
    rw [Function.update_self, h.beyond _ (Nat.le_refl _)]
    rfl
  · refine slot_congr ?_
    show Function.update s.buffers s.next _ b = _
    rw [Function.update_of_ne hb]

theorem alloc_of_ne (hb : b ≠ s.next) : (s.alloc size).buffers b = s.buffers b := by
  show Function.update s.buffers s.next _ b = _
  rw [Function.update_of_ne hb]

theorem shows_alloc (s : Storage E) (size : Nat) :
    Shows (s.alloc size) s.next size fun _ => none := by
  refine ⟨{ size := size }, ?_, rfl, fun _ => rfl⟩
  show Function.update s.buffers s.next _ s.next = _
  rw [Function.update_self]

/-- An older buffer is as it was. -/
theorem Shows.alloc (h : Placed s) (hf : Shows s a n f) (size : Nat) :
    Shows (s.alloc size) a n f := by
  obtain ⟨buf, hb, hshow⟩ := hf
  exact ⟨buf, (alloc_of_ne (Nat.ne_of_lt (h.lt_next hb))).trans hb, hshow⟩

theorem sane_alloc (h : Sane s) (size : Nat) : Sane (s.alloc size) where
  placed := by
    have hpos := h.placed.next
    refine ⟨?_, Nat.succ_pos _, fun a ha => ?_, fun a => ?_, h.placed.once⟩
    · rw [alloc_of_ne (by omega)]
      exact h.placed.null
    · have ha' : s.next + 1 ≤ a := ha
      rw [alloc_of_ne (by omega)]
      exact h.placed.beyond a (by omega)
    · show a ∈ s.freed ↔ 0 < a ∧ a < s.next + 1 ∧ _
      rw [h.placed.freed a]
      by_cases ha : a = s.next
      · obtain ⟨buf, hb, _⟩ := shows_alloc s size
        rw [ha, hb]
        exact iff_of_false (by simp) (by simp)
      · rw [alloc_of_ne ha]
        refine and_congr_right fun _ => and_congr_left fun _ => ?_
        omega
  counted := h.counted.congr rfl rfl (slot_alloc h.placed)
  unfaulted := h.unfaulted

theorem free_self (h : Placed s) (hb : s.buffers a = some buf) : (s.free a).buffers a = none := by
  rw [free_eq (h.ne_null hb) hb]
  show Function.update s.buffers a none a = none
  rw [Function.update_self]

theorem frame_free (h : Placed s) (hb : s.buffers a = some buf) : Frame a s (s.free a) := by
  rw [free_eq (h.ne_null hb) hb]
  exact ⟨fun b hba => Function.update_of_ne hba none s.buffers, rfl⟩

/-- **A buffer is freed when nothing is live in it.** -/
theorem sane_free (h : Sane s) (hf : Shows s a size fun _ => none) : Sane (s.free a) := by
  obtain ⟨buf, hb, _, hslots⟩ := hf
  have hnull := h.placed.ne_null hb
  have hframe := frame_free h.placed hb
  have hself := free_self h.placed hb
  -- what is not there now was freed just now or was not there before
  have hother : ∀ c, (s.free a).buffers c = none ↔ c = a ∨ s.buffers c = none := by
    intro c
    by_cases hca : c = a
    · rw [hca]
      exact iff_of_true hself (Or.inl rfl)
    · rw [hframe.others c hca]
      exact ⟨Or.inr, fun hc => hc.resolve_left hca⟩
  have heq := free_eq hnull hb
  refine ⟨⟨(hother 0).mpr (Or.inr h.placed.null), ?_, fun c hc => ?_, fun c => ?_, ?_⟩,
    h.counted.congr ?_ ?_ fun c j => ?_, ?_⟩
  · rw [hframe.next]
    exact h.placed.next
  · rw [hframe.next] at hc
    exact (hother c).mpr (Or.inr (h.placed.beyond c hc))
  · rw [hother c, hframe.next, heq]
    show c ∈ s.freed ++ [a] ↔ _
    rw [List.mem_append, List.mem_singleton, h.placed.freed c]
    have hlt := h.placed.lt_next hb
    constructor
    · rintro (⟨hpos, hc, hgone⟩ | rfl)
      · exact ⟨hpos, hc, Or.inr hgone⟩
      · exact ⟨by omega, hlt, Or.inl rfl⟩
    · rintro ⟨hpos, hc, rfl | hgone⟩
      · exact Or.inr rfl
      · exact Or.inl ⟨hpos, hc, hgone⟩
  · rw [heq]
    refine List.nodup_append.mpr ⟨h.placed.once, List.nodup_singleton _, fun x hx y hy hxy => ?_⟩
    rw [hxy, List.mem_singleton.mp hy, h.placed.freed, hb] at hx
    exact absurd hx.2.2 (by simp)
  · rw [heq]
  · rw [heq]
  · by_cases hca : c = a
    · unfold slot
      rw [hca, hself, hb]
      exact (Option.map_eq_none_iff.mp (hslots j)).symm
    · exact slot_congr (hframe.others c hca)
  · rw [heq]
    exact h.unfaulted

/-! ## Faults -/

theorem construct_faulted (h : s.faulted = true) (a i : Nat) (v : E) :
    (s.construct a i v).faulted = true := by
  unfold construct
  split
  · split
    · exact h
    · rfl
  · rfl

theorem destroy_faulted (h : s.faulted = true) (a i : Nat) : (s.destroy a i).faulted = true := by
  unfold destroy
  split
  · exact h
  · rfl

theorem assign_faulted (h : s.faulted = true) (a i : Nat) (v : E) :
    (s.assign a i v).faulted = true := by
  unfold assign
  split
  · exact h
  · rfl

theorem free_faulted (h : s.faulted = true) (a : Nat) : (s.free a).faulted = true := by
  unfold free
  split
  · exact h
  · split
    · exact h
    · rfl

/-- A construction where there is no buffer. -/
theorem construct_nowhere (hb : s.buffers a = none) (i : Nat) (v : E) :
    (s.construct a i v).faulted = true := by
  unfold construct
  rw [hb]
  rfl

/-- A construction behind the last slot. -/
theorem construct_past (hf : Shows s a size f) (hi : size ≤ i) (v : E) :
    (s.construct a i v).faulted = true := by
  obtain ⟨buf, hb, hsize, _⟩ := hf
  unfold construct
  rw [hb]
  show (if i < buf.size ∧ buf.slots i = none then _ else s.fault).faulted = true
  rw [if_neg fun hc => by omega]
  rfl

/-- A construction destroys nothing and frees nothing. -/
theorem construct_keeps (s : Storage E) (a i : Nat) (v : E) :
    (s.construct a i v).next = s.next ∧ (s.construct a i v).destroyed = s.destroyed
      ∧ (s.construct a i v).freed = s.freed := by
  unfold construct
  split
  · split
    · exact ⟨rfl, rfl, rfl⟩
    · exact ⟨rfl, rfl, rfl⟩
  · exact ⟨rfl, rfl, rfl⟩

/-! ## What is gone -/

/-- What is still to be allocated has not been freed. -/
theorem Placed.unfreed (h : Placed s) (ha : s.next ≤ a) : s.freed.count a = 0 := by
  refine List.count_eq_zero.mpr fun hfreed => ?_
  have hlt := ((h.freed a).mp hfreed).2.1
  omega

theorem Sane.freed_once (h : Sane s) (hpos : 0 < a) (hlt : a < s.next)
    (hgone : s.buffers a = none) :
    s.freed.count a = 1 :=
  List.count_eq_one_of_mem h.placed.once ((h.placed.freed a).mpr ⟨hpos, hlt, hgone⟩)

theorem Sane.not_freed (h : Sane s) (hb : s.buffers a = some buf) : s.freed.count a = 0 := by
  refine List.count_eq_zero.mpr fun hfreed => ?_
  have hgone := ((h.placed.freed a).mp hfreed).2.2
  rw [hb] at hgone
  exact absurd hgone (by simp)

theorem Sane.destroyed_once {id : Nat} (h : Sane s) (hlt : id < s.nextId)
    (hgone : ∀ a i o, s.slot a i = some o → o.id ≠ id) : s.destroyed.count id = 1 := by
  refine List.count_eq_one_of_mem h.counted.once ?_
  rcases h.counted.cover id hlt with hd | ⟨a, i, o, ho, hoid⟩
  · exact hd
  · exact absurd hoid (hgone a i o ho)

theorem Sane.not_destroyed (h : Sane s) (ho : s.slot a i = some o) : s.destroyed.count o.id = 0 :=
  List.count_eq_zero.mpr (h.counted.live a i o ho).2

/-- Without buffers, every object was destroyed once and every buffer freed once. -/
theorem Sane.settled (h : Sane s) (hnone : ∀ a, s.buffers a = none) :
    (∀ id, id < s.nextId → s.destroyed.count id = 1)
    ∧ ∀ a, 0 < a → a < s.next → s.freed.count a = 1 := by
  refine ⟨fun id hid => h.destroyed_once hid fun a i o ho => ?_,
    fun a hpos hlt => h.freed_once hpos hlt (hnone a)⟩
  obtain ⟨buf, hb, _⟩ := buffer_of_slot ho
  rw [hnone a] at hb
  exact absurd hb (by simp)

end Storage

end Lib
