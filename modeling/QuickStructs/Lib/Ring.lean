import Mathlib.Logic.Function.Basic

/-!
# A window of positions in a ring of slots

Positions are counted without end, and each falls on a slot. A ring of `cap` slots
can hold the items of any window of at most `cap` positions, because positions that
close to each other fall on different slots. An item is put at the far end of the
window and taken from the near one; `Stores` says that the slots hold the window and
nothing else.
-/

namespace Lib.Ring

variable {ι β : Type}

/-- Two positions less than `cap` apart fall on different slots. -/
def Spread (slotAt : Nat → ι) (cap : Nat) : Prop :=
  ∀ i j, i < j → j < i + cap → slotAt i ≠ slotAt j

/-- The slots hold an item for each position from `lo` up to `hi`, and nothing else. -/
structure Stores (slotAt : Nat → ι) (slots : ι → Option β) (lo hi : Nat) (Item : Nat → β → Prop) :
    Prop where
  full : ∀ i, lo ≤ i → i < hi → ∃ c, slots (slotAt i) = some c ∧ Item i c
  empty : ∀ j, (∀ i, lo ≤ i → i < hi → slotAt i ≠ j) → slots j = none

variable {slotAt : Nat → ι} {cap lo hi : Nat} {slots : ι → Option β} {Item : Nat → β → Prop}

theorem stores_nothing (lo : Nat) : Stores slotAt (fun _ => (none : Option β)) lo lo Item where
  full := by intro i h1 h2; omega
  empty := by intro j _; rfl

/-- While there is room, the slot of the next position is free. -/
theorem Stores.free (h : Stores slotAt slots lo hi Item) (hs : Spread slotAt cap)
    (hroom : hi < lo + cap) : slots (slotAt hi) = none :=
  h.empty _ fun i h1 h2 => hs i hi h2 (by omega)

variable [DecidableEq ι]

/-- Putting an item at the far end. -/
theorem Stores.push {Item' : Nat → β → Prop} (h : Stores slotAt slots lo hi Item)
    (hs : Spread slotAt cap) (hle : lo ≤ hi) (hroom : hi < lo + cap)
    (hkeep : ∀ i c, i < hi → Item i c → Item' i c) {c : β} (hc : Item' hi c) :
    Stores slotAt (Function.update slots (slotAt hi) (some c)) lo (hi + 1) Item' where
  full := by
    intro i h1 h2
    by_cases hi' : i = hi
    · subst hi'
      exact ⟨c, Function.update_self .., hc⟩
    · have hne : slotAt i ≠ slotAt hi := hs i hi (by omega) (by omega)
      obtain ⟨d, hd, hitem⟩ := h.full i h1 (by omega)
      exact ⟨d, by rw [Function.update_of_ne hne]; exact hd, hkeep i d (by omega) hitem⟩
  empty := by
    intro j hj
    rw [Function.update_of_ne (hj hi hle (by omega)).symm]
    exact h.empty j fun i h1 h2 => hj i h1 (by omega)

/-- Taking the item at the near end. -/
theorem Stores.pop (h : Stores slotAt slots lo hi Item) (hs : Spread slotAt cap)
    (hcap : hi ≤ lo + cap) :
    Stores slotAt (Function.update slots (slotAt lo) none) (lo + 1) hi Item where
  full := by
    intro i h1 h2
    have hne : slotAt i ≠ slotAt lo := (hs lo i (by omega) (by omega)).symm
    obtain ⟨c, hc, hitem⟩ := h.full i (by omega) h2
    exact ⟨c, by rw [Function.update_of_ne hne]; exact hc, hitem⟩
  empty := by
    intro j hj
    by_cases hjl : j = slotAt lo
    · rw [hjl, Function.update_self]
    · rw [Function.update_of_ne hjl]
      refine h.empty j fun i h1 h2 => ?_
      by_cases hil : i = lo
      · rw [hil]
        exact fun he => hjl he.symm
      · exact hj i (by omega) h2

end Lib.Ring
