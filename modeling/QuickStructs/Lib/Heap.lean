import Mathlib.Logic.Function.Basic

/-!
# A heap

Memory as a program with `new` sees it: addresses are handed out in order and never
again, so a cell that was freed stays recognisable as such for whoever still holds its
address. What a cell records, its freedness included, is up to the program.
-/

namespace Lib

variable {β : Type}

structure Heap (β : Type) where
  cells : Nat → Option β := fun _ => none
  /-- The address of the next allocation. -/
  next : Nat := 0
  /-- Nothing has been allocated from there on. -/
  beyond : ∀ a, next ≤ a → cells a = none := by intro a _; rfl

namespace Heap

variable {h : Heap β} {a b : Nat} {x : β} {f : β → β}

/-- Allocate a cell, at address `h.next`. -/
def alloc (h : Heap β) (x : β) : Heap β where
  cells := Function.update h.cells h.next (some x)
  next := h.next + 1
  beyond := by
    intro a ha
    rw [Function.update_of_ne (by omega)]
    exact h.beyond a (by omega)

/-- Hand out the address `h.next`, and put nothing there. -/
def reserve (h : Heap β) : Heap β where
  cells := h.cells
  next := h.next + 1
  beyond := by
    intro a ha
    exact h.beyond a (by omega)

/-- Change what the cell at `a` records. -/
def modify (h : Heap β) (a : Nat) (f : β → β) : Heap β where
  cells := Function.update h.cells a ((h.cells a).map f)
  next := h.next
  beyond := by
    intro b hb
    by_cases hba : b = a
    · rw [hba, Function.update_self, h.beyond a (hba ▸ hb)]
      rfl
    · rw [Function.update_of_ne hba]
      exact h.beyond b hb

theorem lt_next (hx : h.cells a = some x) : a < h.next := by
  rcases Nat.lt_or_ge a h.next with hlt | hge
  · exact hlt
  · rw [h.beyond a hge] at hx
    exact absurd hx (by simp)

@[simp] theorem alloc_self : (h.alloc x).cells h.next = some x := Function.update_self ..

theorem alloc_of_ne (hb : b ≠ h.next) : (h.alloc x).cells b = h.cells b :=
  Function.update_of_ne hb ..

/-- A cell allocated before is still there. -/
theorem alloc_of_some {y : β} (hb : h.cells b = some y) : (h.alloc x).cells b = some y := by
  rw [alloc_of_ne (Nat.ne_of_lt (lt_next hb)), hb]

@[simp] theorem reserve_cells : h.reserve.cells = h.cells := rfl

theorem next_free (h : Heap β) : h.cells h.next = none := h.beyond h.next (Nat.le_refl _)

theorem modify_self (hx : h.cells a = some x) : (h.modify a f).cells a = some (f x) := by
  show Function.update h.cells a ((h.cells a).map f) a = some (f x)
  rw [Function.update_self, hx]
  rfl

theorem modify_of_ne (hb : b ≠ a) : (h.modify a f).cells b = h.cells b :=
  Function.update_of_ne hb ..

/-- Where a cell of the modified heap comes from. -/
theorem modify_cases {y : β} (hb : (h.modify a f).cells b = some y) :
    (∃ x, b = a ∧ h.cells a = some x ∧ y = f x) ∨ (b ≠ a ∧ h.cells b = some y) := by
  by_cases hba : b = a
  · subst hba
    have hmap : Function.update h.cells b ((h.cells b).map f) b = some y := hb
    rw [Function.update_self] at hmap
    obtain ⟨x, hx, hy⟩ := Option.map_eq_some_iff.mp hmap
    exact Or.inl ⟨x, rfl, hx, hy.symm⟩
  · rw [modify_of_ne hba] at hb
    exact Or.inr ⟨hba, hb⟩

/-- Where a cell of the heap comes from, after an allocation. -/
theorem alloc_cases {y : β} (hb : (h.alloc x).cells b = some y) :
    (b = h.next ∧ y = x) ∨ h.cells b = some y := by
  by_cases hbn : b = h.next
  · rw [hbn, alloc_self] at hb
    exact Or.inl ⟨hbn, (Option.some.inj hb).symm⟩
  · rw [alloc_of_ne hbn] at hb
    exact Or.inr hb

end Heap

end Lib
