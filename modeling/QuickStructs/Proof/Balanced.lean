import QuickStructs.Proof.Period

/-!
# The outputs are balanced

A call returns the low half of the new state times an odd constant. The state after any
number of updates is one to one in the seed, and so is the product; of the words with a
given low half there is one for each high half.
-/

namespace QuickStructs.XorBitant

open Lib.Words

/-- The multiplier is odd, and has an inverse. -/
theorem injective_mul : Function.Injective fun x : BitVec 64 => x * MAGIC_MULTIPLIER := by
  have hinv : MAGIC_MULTIPLIER * 0xf1de83e19937733d#64 = 1#64 := by decide
  intro x y hxy
  calc x = x * (MAGIC_MULTIPLIER * 0xf1de83e19937733d#64) := by rw [hinv, BitVec.mul_one]
    _ = x * MAGIC_MULTIPLIER * 0xf1de83e19937733d#64 := (BitVec.mul_assoc ..).symm
    _ = y * MAGIC_MULTIPLIER * 0xf1de83e19937733d#64 := congrArg (· * _) hxy
    _ = y * (MAGIC_MULTIPLIER * 0xf1de83e19937733d#64) := BitVec.mul_assoc ..
    _ = y := by rw [hinv, BitVec.mul_one]

theorem answer_eq (seed : BitVec 64) (k : Nat) :
    Generator.answer ⟨seed⟩ k = (update^[k + 1] seed * MAGIC_MULTIPLIER).setWidth 32 := by
  rw [Function.iterate_succ_apply', ← after_state]
  rfl

/-- **Each output has 2³² seeds**, at every position and for every value in the range. -/
theorem outputs_balanced (k : Nat) (y : BitVec 32) :
    Generator.min ≤ y ∧ y ≤ Generator.max
      ∧ Nat.card {seed : BitVec 64 // Generator.answer ⟨seed⟩ k = y} = 2 ^ 32 := by
  refine ⟨BitVec.le_def.mpr (Nat.zero_le _), BitVec.le_def.mpr (Nat.le_pred_of_lt y.isLt), ?_⟩
  -- the output is the low half of a word that is one to one in the seed
  have hscramble : Function.Injective fun seed => update^[k + 1] seed * MAGIC_MULTIPLIER :=
    injective_mul.comp (injective_update.iterate (k + 1))
  calc Nat.card {seed : BitVec 64 // Generator.answer ⟨seed⟩ k = y}
      = Nat.card {seed : BitVec 64 //
          (update^[k + 1] seed * MAGIC_MULTIPLIER).setWidth 32 = y} := by
        refine Nat.card_congr (Equiv.subtypeEquivRight fun seed => ?_)
        rw [answer_eq]
    _ = Nat.card {z : BitVec (32 + 32) // z.setWidth 32 = y} :=
        card_of_injective hscramble fun z => z.setWidth 32 = y
    _ = 2 ^ 32 := card_setWidth y

end QuickStructs.XorBitant
