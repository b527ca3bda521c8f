import Mathlib.Data.List.Basic
import Mathlib.Logic.Function.Basic

/-!
# Locations with one writer

A load of an atomic location need not see the last store to it. It sees some store, and
never one before a store that the same thread has seen already. A store with release order
that a load with acquire order sees passes on what its thread had done by then: all of that
happens before what the loading thread does from then on.

Two threads that share cells which are not atomic race for a cell when one accesses it and
the last access of the other does not happen before. So each thread counts its accesses, and
a store passes on a count.
-/

namespace Lib

variable {β ι : Type}

/-- A location that one thread writes and one other thread reads. -/
structure Published (β : Type) where
  /-- The stores in their order, the initial value first, each with the number of accesses that
  its thread had made. -/
  stores : List (β × Nat)
  /-- The last store that the reader has seen. -/
  seen : Nat := 0

namespace Published

variable {p : Published β} {value : Nat → β} {done : Nat → Nat} {i n d : Nat} {x : β}

def store (p : Published β) (x : β) (done : Nat) : Published β :=
  { p with stores := p.stores ++ [(x, done)] }

/-- What a load gets that sees store `i`, if it may see it. -/
def load (p : Published β) (i : Nat) : Option (β × Nat) :=
  if p.seen ≤ i then p.stores[i]? else none

def see (p : Published β) (i : Nat) : Published β := { p with seen := i }

/-- There were `n` stores after the initial value, and what each one wrote and passes on. -/
structure Holds (p : Published β) (value : Nat → β) (done : Nat → Nat) (n : Nat) : Prop where
  stores : p.stores = (List.range (n + 1)).map fun i => (value i, done i)
  seen : p.seen ≤ n

/-- **What a load may see**: a store there was, not before the last one seen. -/
theorem Holds.load (h : p.Holds value done n) (hload : p.load i = some (x, d)) :
    x = value i ∧ d = done i ∧ p.seen ≤ i ∧ i ≤ n := by
  unfold Published.load at hload
  split at hload
  · rename_i hseen
    rw [h.stores, List.getElem?_map, Option.map_eq_some_iff] at hload
    obtain ⟨j, hj, heq⟩ := hload
    obtain ⟨hlt, rfl⟩ := List.getElem?_eq_some_iff.mp hj
    rw [List.length_range] at hlt
    rw [List.getElem_range] at heq
    injection heq with hx hd
    exact ⟨hx.symm, hd.symm, hseen, by omega⟩
  · exact absurd hload (by simp)

theorem Holds.see (h : p.Holds value done n) (hi : i ≤ n) : (p.see i).Holds value done n :=
  ⟨h.stores, hi⟩

theorem Holds.store (h : p.Holds value done n) :
    (p.store (value (n + 1)) (done (n + 1))).Holds value done (n + 1) where
  stores := by
    show p.stores ++ [(value (n + 1), done (n + 1))] = _
    rw [h.stores, List.range_succ (n := n + 1), List.map_append]
    rfl
  seen := Nat.le_succ_of_le h.seen

end Published

/-- One of two threads that share cells. -/
structure Side (ι : Type) where
  /-- How many accesses to cells it has made. -/
  done : Nat := 0
  /-- The number of its last access to each cell, from 1 on. -/
  last : ι → Nat := fun _ => 0
  /-- How many accesses of the other thread happen before what it does now. -/
  knows : Nat := 0

namespace Side

variable {a b : Side ι} {j : ι}

/-- The thread has seen a store that passes on `d` accesses. -/
def learn (a : Side ι) (d : Nat) : Side ι := { a with knows := max a.knows d }

/-- Does an access of `a` to the cell race with the last one of `b`? -/
def races (a b : Side ι) (j : ι) : Bool := decide (a.knows < b.last j)

/-! ### Threads that go through positions

Each cell serves many positions, one after the other. A thread that makes at most `per` accesses
at a position has made at most `per * (p + 1)` when it is done with position `p`. -/

/-- The last access to each cell was made at a position of that cell before `n`. -/
def Through (a : Side ι) (cellAt : Nat → ι) (per n : Nat) : Prop :=
  ∀ j, a.last j = 0 ∨ ∃ p, p < n ∧ cellAt p = j ∧ a.last j ≤ per * (p + 1)

variable {cellAt : Nat → ι} {per n m : Nat}

theorem through_start : ({} : Side ι).Through cellAt per n := fun _ => .inl rfl

theorem Through.more (h : a.Through cellAt per n) (hle : n ≤ m) : a.Through cellAt per m := by
  intro j
  cases h j with
  | inl h0 => exact .inl h0
  | inr hp =>
      obtain ⟨p, hlt, hcell, hlast⟩ := hp
      exact .inr ⟨p, by omega, hcell, hlast⟩

/-- **No race**: all positions of the cell at which `b` has been are known to `a`. -/
theorem Through.races_false (h : b.Through cellAt per n)
    (hknown : ∀ p, p < n → cellAt p = j → per * (p + 1) ≤ a.knows) : a.races b j = false := by
  refine decide_eq_false (Nat.not_lt.mpr ?_)
  cases h j with
  | inl h0 =>
      rw [h0]
      exact Nat.zero_le _
  | inr hp =>
      obtain ⟨p, hlt, hcell, hlast⟩ := hp
      exact Nat.le_trans hlast (hknown p hlt hcell)

variable [DecidableEq ι]

def touch (a : Side ι) (j : ι) : Side ι :=
  { a with done := a.done + 1, last := Function.update a.last j (a.done + 1) }

theorem touch_last (a : Side ι) (j k : ι) :
    (a.touch j).last k = if k = j then a.done + 1 else a.last k := Function.update_apply ..

theorem Through.touch (h : a.Through cellAt per n) {p : Nat} (hp : p < n)
    (hper : a.done + 1 ≤ per * (p + 1)) : (a.touch (cellAt p)).Through cellAt per n := by
  intro j
  by_cases hj : j = cellAt p
  · refine .inr ⟨p, hp, hj.symm, ?_⟩
    rw [touch_last, if_pos hj]
    exact hper
  · rw [touch_last, if_neg hj]
    exact h j

end Side

end Lib
