import QuickStructs.Proof.VectorSteps

/-!
# A vector is a list in a buffer

One vector, from its construction on. It owns its buffer, and its buffer is the only one:
so there is nothing left when the destructor has destroyed the elements and freed it.
-/

namespace QuickStructs.Vector

open Lib Storage

variable {E : Type} {T : ElementType E} {r : Run E} {size : Option Nat}

/-- The vector and its list are the same to a client, and the buffer is as it should be. -/
structure Refines (r : Run E) : Prop where
  size : r.vec.mSize = r.list.length
  /-- `operator[]` refers to the element. -/
  elements : ∀ pos, pos < r.list.length → (r.vec.index pos).read r.storage = r.list[pos]?
  at_returns : ∀ index, index < r.list.length → r.vec.at index = .ok (r.vec.index index)
  at_throws : ∀ index, r.vec.at index = .error "u tripping" ↔ r.list.length ≤ index
  room : r.vec.mSize ≤ r.vec.mCap
  /-- The buffer has as many slots as the capacity says, and those below the size are live. -/
  buffer : ∃ buf, r.storage.buffers r.vec.pArr = some buf ∧ buf.size = r.vec.mCap
    ∧ ∀ i, (buf.slots i).isSome ↔ i < r.vec.mSize
  /-- Every construction was in a free slot of a buffer, and only what was live was used. -/
  unfaulted : r.storage.faulted = false
  /-- The destructor leaves nothing behind. -/
  dtor_unfaulted : (r.vec.dtor r.storage).faulted = false
  dtor_live : ∀ a i, (r.vec.dtor r.storage).slot a i = none
  dtor_destroyed : ∀ id, id < (r.vec.dtor r.storage).nextId →
    (r.vec.dtor r.storage).destroyed.count id = 1
  dtor_freed : ∀ a, 0 < a → a < (r.vec.dtor r.storage).next →
    (r.vec.dtor r.storage).freed.count a = 1

/-- The vector owns its buffer, and there is no other. -/
structure Alone (r : Run E) : Prop where
  sane : Sane r.storage
  owns : Owns r.storage r.vec r.list
  only : ∀ a, a ≠ r.vec.pArr → r.storage.buffers a = none

theorem Alone.refines (h : Alone r) : Refines r := by
  have hsize := h.owns.size
  obtain ⟨hs, hself, hframe⟩ := dtor_spec h.sane h.owns
  -- the destructor frees the only buffer there is
  have hnone : ∀ a, (r.vec.dtor r.storage).buffers a = none := by
    intro a
    by_cases ha : a = r.vec.pArr
    · rw [ha]
      exact hself
    · rw [hframe.others a ha]
      exact h.only a ha
  obtain ⟨hdestroyed, hfreed⟩ := hs.settled hnone
  refine ⟨hsize, fun pos _ => h.owns.read pos, fun index hi => ?_, fun index => ?_, ?_, ?_,
    h.sane.unfaulted, hs.unfaulted, fun a i => ?_, hdestroyed, hfreed⟩
  · unfold Vec.at
    rw [if_neg (by omega)]
    rfl
  · unfold Vec.at
    split
    · exact iff_of_true rfl (by omega)
    · exact iff_of_false (by simp) (by omega)
  · rw [hsize]
    exact h.owns.room
  · obtain ⟨buf, hbuf, hcap, hslots⟩ := h.owns.shows
    refine ⟨buf, hbuf, hcap, fun i => ?_⟩
    rw [← Option.isSome_map, hslots i, hsize]
    exact iff_of_eq (isSome_getElem? r.list i)
  · unfold slot
    rw [hnone a]
    rfl

/-- **A vector begins alone.** -/
theorem alone_start (hsize : ∀ n ∈ size, SizeFits T n) : Alone (start T size) := by
  cases size with
  | none =>
      have hbegin := ctor_spec (T := T) (sane_empty (E := E))
      exact ⟨hbegin.sane, hbegin.owns, fun a ha => hbegin.others a ha⟩
  | some n =>
      have hbegin := ctorSize_spec (sane_empty (E := E)) (hsize n rfl)
      exact ⟨hbegin.sane, hbegin.owns, fun a ha => hbegin.others a ha⟩

theorem alone_step {r' : Run E} {op : Op E} (h : Alone r) (hstep : step T r op = some r') :
    Alone r' := by
  obtain ⟨⟨hrange, hfits⟩, rfl⟩ := Transition.of_guard hstep
  have hy := run_spec h.sane h.owns hrange hfits
  exact ⟨hy.sane, hy.owns, hy.change.only h.only⟩

/-- **A vector refines a list and stays inside its buffer.** -/
theorem vector_refines_list (T : ElementType E) (size : Option Nat)
    (hsize : ∀ n ∈ size, SizeFits T n) (r : Run E) (h : Reachable T size r) : Refines r :=
  (h.invariant (alone_start hsize) fun _ _ _ _ hr hstep => alone_step hr hstep).refines

/-- A vector of one element, that has four in the end and has grown twice. -/
theorem vector_refines_list_four :
    Refines ((Transition.exec (step ⟨4, by decide, by decide, 0, fun _ => 0⟩)
      (start (E := Nat) ⟨4, by decide, by decide, 0, fun _ => 0⟩ (some 1))
      [.pushBack 10, .write 0 5, .emplaceBack 20, .popBack, .pushBack 30, .pushBack 40]).get
      (by decide)) :=
  vector_refines_list _ (some 1) (by decide) _
    (Transition.exec_reach _ (Option.some_get _).symm)

end QuickStructs.Vector
