import QuickStructs.Lib.Words
import QuickStructs.Utils.XorBitant

/-!
# The period of the state

The update is linear and one to one, so its orbits are cycles and 0 has a cycle of its
own. With the shifts 13, 7 and 5 there is a polynomial of degree 22 that sends some words
other than 0 to zero and others not. The words it sends to zero are a set that no orbit
enters or leaves: whatever the seed, the states miss what is inside of it or what is
outside.
-/

namespace QuickStructs.XorBitant

open Lib.Words

variable {seed : BitVec 64}

/-! ## The state sequence -/

theorem update_eq : update = fun x => xorShiftLeft 5 (xorShiftRight 7 (xorShiftLeft 13 x)) := rfl

theorem linear_update : Linear update := by
  rw [update_eq]
  exact (linear_xorShiftLeft 5).comp ((linear_xorShiftRight 7).comp (linear_xorShiftLeft 13))

theorem injective_update : Function.Injective update := by
  rw [update_eq]
  exact (injective_xorShiftLeft (by decide)).comp
    ((injective_xorShiftRight (by decide)).comp (injective_xorShiftLeft (by decide)))

theorem after_state (seed : BitVec 64) (k : Nat) :
    (Generator.after ⟨seed⟩ k).mState = update^[k] seed := by
  induction k with
  | zero => rfl
  | succ k ih =>
      rw [Function.iterate_succ_apply', ← ih]
      rfl

/-! ## No orbit has all states -/

/-- From the seed on, the states are the words other than 0, each of them once until the
seed comes again. -/
structure FullPeriod (seed : BitVec 64) : Prop where
  never_zero : ∀ k, (Generator.after ⟨seed⟩ k).mState ≠ 0
  visits : ∀ x, x ≠ 0 → ∃ k, k < 2 ^ 64 - 1 ∧ (Generator.after ⟨seed⟩ k).mState = x
  once : ∀ j k, j < 2 ^ 64 - 1 → k < 2 ^ 64 - 1 →
    (Generator.after ⟨seed⟩ j).mState = (Generator.after ⟨seed⟩ k).mState → j = k
  returns : (Generator.after ⟨seed⟩ (2 ^ 64 - 1)).mState = seed

/-- The polynomial X²² + X²⁰ + X¹⁶ + X¹³ + X¹¹ + X⁷ + X⁶ + X⁵ + X² + X + 1. -/
def factor : List Bool :=
  [true, true, true, false, false, true, true, true, false, false, false, true, false, true,
    false, false, true, false, false, false, true, false, true]

/-- A state that the polynomial sends to zero. -/
def inside : BitVec 64 := 0x99b519775970df4#64

theorem poly_inside : poly update factor inside = 0 := by decide

theorem poly_one : poly update factor 1 ≠ 0 := by decide

/-- The sequence does not pass from the outside of the kernel to its inside. -/
theorem not_both {j k : Nat} (hj : (Generator.after ⟨seed⟩ j).mState = inside)
    (hk : (Generator.after ⟨seed⟩ k).mState = 1) : False := by
  rw [after_state] at hj hk
  have hseed : poly update factor seed = 0 := by
    rw [← poly_iterate_eq_zero_iff linear_update injective_update factor j, hj]
    exact poly_inside
  rw [← poly_iterate_eq_zero_iff linear_update injective_update factor k, hk] at hseed
  exact poly_one hseed

/--
**The period is full for no seed.**

Both a state inside the kernel and one outside would have to be visited.
-/
theorem not_fullPeriod (seed : BitVec 64) : ¬FullPeriod seed := by
  intro h
  obtain ⟨j, _, hj⟩ := h.visits inside (by decide)
  obtain ⟨k, _, hk⟩ := h.visits 1 (by decide)
  exact not_both hj hk

/-- The states from seed 1 on leave out a word. -/
theorem one_misses_inside :
    (∀ k, (Generator.after ⟨1⟩ k).mState ≠ inside) ∧ inside ≠ 0 ∧ ¬FullPeriod 1 := by
  have hmiss : ∀ k, (Generator.after ⟨1⟩ k).mState ≠ inside := fun k hk =>
    not_both (k := 0) hk rfl
  refine ⟨hmiss, by decide, fun h => ?_⟩
  obtain ⟨k, _, hk⟩ := h.visits inside (by decide)
  exact hmiss k hk

end QuickStructs.XorBitant
