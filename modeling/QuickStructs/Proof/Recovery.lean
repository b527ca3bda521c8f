import QuickStructs.Proof.Balanced

/-!
# Six answers give the state away

An answer is a product with an odd constant, cut down to its low half, and so it shows the low
half of the state. Of the three steps of an update only the shift to the right brings bits down,
seven of them; with the low half of the next state one knows seven more bits of this one. Six
answers in a row show 32 + 5 · 7 bits, which is more than there are. Five do not.
-/

namespace QuickStructs.XorBitant

open Lib.Words

variable {x y : BitVec 64}

/-- An answer shows the low half of the state. -/
theorem low_of_product
    (h : (x * MAGIC_MULTIPLIER).setWidth 32 = (y * MAGIC_MULTIPLIER).setWidth 32) :
    Low 32 (x ^^^ y) := by
  have hinv : MAGIC_MULTIPLIER * 0xf1de83e19937733d#64 = 1#64 := by decide
  have hback : ∀ z : BitVec 64, z.setWidth 32
      = (z * MAGIC_MULTIPLIER).setWidth 32 * (0xf1de83e19937733d#64).setWidth 32 := fun z => by
    rw [← BitVec.setWidth_mul _ _ (by decide), BitVec.mul_assoc, hinv, BitVec.mul_one]
  rw [low_xor_iff, hback x, hback y, h]

theorem product_of_low (h : Low 32 (x ^^^ y)) :
    (x * MAGIC_MULTIPLIER).setWidth 32 = (y * MAGIC_MULTIPLIER).setWidth 32 := by
  rw [BitVec.setWidth_mul _ _ (by decide), BitVec.setWidth_mul _ _ (by decide), low_xor_iff.mp h]

/-- The states of two generators differ by the states of a third one. -/
theorem iterate_xor (k : Nat) (x y : BitVec 64) :
    update^[k] (x ^^^ y) = update^[k] x ^^^ update^[k] y := by
  induction k generalizing x y with
  | zero => rfl
  | succ k ih =>
      rw [Function.iterate_succ_apply, linear_update, ih]
      rfl

theorem answer_eq_iff (g h : Generator) (k : Nat) :
    g.answer k = h.answer k ↔ Low 32 (update^[k + 1] (g.mState ^^^ h.mState)) := by
  rw [iterate_xor]
  show Generator.answer ⟨g.mState⟩ k = Generator.answer ⟨h.mState⟩ k ↔ _
  rw [answer_eq, answer_eq]
  exact ⟨low_of_product, product_of_low⟩

/-- **An update brings seven bits down.** -/
theorem low_of_update {m : Nat} (h : Low m (update x)) (hlow : Low 7 x) : Low (m + 7) x := by
  have hleft : Low m (xorShiftRight 7 (xorShiftLeft 13 x)) := h.of_xorShiftLeft (a := 5) (by decide)
  refine Low.of_xorShiftLeft (a := 13) (by decide) (hleft.of_xorShiftRight (by decide) ?_)
  -- the first shift does not reach the bits that are known
  intro i hi
  have hbit : (xorShiftLeft 13 x).getLsbD i = (x ^^^ x <<< 13).getLsbD i := rfl
  rw [hbit, BitVec.getLsbD_xor, hlow i hi, BitVec.getLsbD_shiftLeft,
    decide_eq_true (by omega : i < 13)]
  simp

/-- Backwards along a run of states whose low halves are zero. -/
theorem low_of_run (k : Nat) (h : ∀ i ≤ k, Low 32 (update^[i] x)) : Low (32 + 7 * k) x := by
  induction k generalizing x with
  | zero => exact h 0 (Nat.le_refl _)
  | succ k ih =>
      have hnext : Low (32 + 7 * k) (update x) := ih fun i hi => by
        rw [← Function.iterate_succ_apply]
        exact h (i + 1) (Nat.succ_le_succ hi)
      have hmore := low_of_update hnext ((h 0 (Nat.zero_le _)).le (by decide))
      exact hmore.le (by omega)

/-- A word that is not seen in five answers. -/
def hidden : BitVec 64 := 0x1a3e5ce8d32e48d1#64

theorem hidden_low : ∀ k < 5, Low 32 (update^[k + 1] hidden) := by
  intro k hk
  rw [low_iff_setWidth]
  revert k
  decide

/--
**Six answers in a row determine the generator**, and five never do.

Two generators that agree in six answers in a row, wherever these begin, are in the same state
and agree in all answers. For every generator there is another one with the same first five.
-/
theorem six_answers :
    (∀ (g h : Generator) (k : Nat), (∀ i < 6, g.answer (k + i) = h.answer (k + i)) → g = h)
      ∧ ∀ g : Generator, ∃ h : Generator, h ≠ g ∧ ∀ i < 5, h.answer i = g.answer i := by
  constructor
  · intro g h k hsame
    have hlow : ∀ i ≤ 5, Low 32 (update^[i] (update^[k + 1] (g.mState ^^^ h.mState))) := by
      intro i hi
      rw [← Function.iterate_add_apply, ← Nat.add_assoc, Nat.add_comm i k]
      exact (answer_eq_iff g h (k + i)).mp (hsame i (Nat.lt_succ_of_le hi))
    have hzero : update^[k + 1] (g.mState ^^^ h.mState) = 0 :=
      (low_of_run 5 hlow).eq_zero (by decide)
    have hseed : g.mState ^^^ h.mState = 0 :=
      injective_update.iterate (k + 1) (hzero.trans (iterate_zero linear_update (k + 1)).symm)
    exact congrArg Generator.mk (BitVec.xor_eq_zero_iff.mp hseed)
  · intro g
    refine ⟨⟨g.mState ^^^ hidden⟩, fun he => ?_, fun i hi => ?_⟩
    · have hstate : g.mState ^^^ hidden = g.mState := congrArg Generator.mState he
      have hnone : hidden = 0 := by
        calc hidden = g.mState ^^^ (g.mState ^^^ hidden) := by
              rw [← BitVec.xor_assoc, BitVec.xor_self, BitVec.zero_xor]
          _ = 0 := by rw [hstate]; exact BitVec.xor_self
      exact absurd hnone (by decide)
    · rw [answer_eq_iff, BitVec.xor_comm g.mState, BitVec.xor_assoc, BitVec.xor_self,
        BitVec.xor_zero]
      exact hidden_low i hi

end QuickStructs.XorBitant
