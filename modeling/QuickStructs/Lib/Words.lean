import Mathlib.SetTheory.Cardinal.Finite
import Mathlib.Data.BitVec
import Mathlib.Data.FinEnum
import Mathlib.Algebra.Ring.Nat

/-!
# Maps of words

Words under exclusive or are a vector space over the field of two elements, and a map
`x ↦ x ^^^ x <<< a` or `x ↦ x ^^^ x >>> a` is linear and one to one. So are the maps made
of these, and an orbit of such a map stays inside every subspace that the map keeps.
Such subspaces are given by polynomials: the words that a polynomial of the map sends to
zero. An orbit has only words of this kind, or none.

A map that is one to one takes every value once, so a condition on its values is met as
often as by the words themselves.
-/

namespace Lib.Words

variable {n : Nat} {f g : BitVec n → BitVec n} {x y u v : BitVec n} {a : Nat}

def xorShiftLeft (a : Nat) (x : BitVec n) : BitVec n := x ^^^ x <<< a

def xorShiftRight (a : Nat) (x : BitVec n) : BitVec n := x ^^^ x >>> a

/-! ## Linear maps -/

def Linear (f : BitVec n → BitVec n) : Prop := ∀ x y, f (x ^^^ y) = f x ^^^ f y

theorem Linear.zero (hf : Linear f) : f 0 = 0 := by
  have h : f (0 ^^^ 0) = f 0 ^^^ f 0 := hf 0 0
  rw [BitVec.xor_self, BitVec.xor_self] at h
  exact h

theorem Linear.comp (hf : Linear f) (hg : Linear g) : Linear fun x => f (g x) := by
  intro x y
  show f (g (x ^^^ y)) = f (g x) ^^^ f (g y)
  rw [hg x y, hf]

theorem xor_comm_middle (x y u v : BitVec n) : x ^^^ y ^^^ (u ^^^ v) = x ^^^ u ^^^ (y ^^^ v) := by
  ac_rfl

theorem linear_xorShiftLeft (a : Nat) : Linear (xorShiftLeft (n := n) a) := by
  intro x y
  unfold xorShiftLeft
  rw [BitVec.shiftLeft_xor_distrib, xor_comm_middle]

theorem linear_xorShiftRight (a : Nat) : Linear (xorShiftRight (n := n) a) := by
  intro x y
  unfold xorShiftRight
  rw [BitVec.ushiftRight_xor_distrib, xor_comm_middle]

/-! ## One to one -/

/-- A bit of the result is the bit itself and one below it, which is known by then. -/
theorem injective_xorShiftLeft (ha : 0 < a) : Function.Injective (xorShiftLeft (n := n) a) := by
  intro x y hxy
  have hbit : ∀ i, x.getLsbD i = y.getLsbD i := by
    intro i
    induction i using Nat.strong_induction_on with
    | _ i ih =>
      have h : (x ^^^ x <<< a).getLsbD i = (y ^^^ y <<< a).getLsbD i :=
        congrArg (fun z => z.getLsbD i) hxy
      rw [BitVec.getLsbD_xor, BitVec.getLsbD_xor, BitVec.getLsbD_shiftLeft,
        BitVec.getLsbD_shiftLeft] at h
      by_cases hi : i < a
      · rw [decide_eq_true hi, Bool.not_true, Bool.and_false, Bool.false_and, Bool.false_and,
          Bool.xor_false, Bool.xor_false] at h
        exact h
      · rw [ih (i - a) (by omega)] at h
        exact Bool.xor_left_inj.mp h
  exact BitVec.eq_of_getLsbD_eq fun i _ => hbit i

/-- And here it is one above, so the induction comes down from the top. -/
theorem injective_xorShiftRight (ha : 0 < a) : Function.Injective (xorShiftRight (n := n) a) := by
  intro x y hxy
  have hbit : ∀ k i, n ≤ i + k → x.getLsbD i = y.getLsbD i := by
    intro k
    induction k with
    | zero =>
        intro i hi
        rw [BitVec.getLsbD_of_ge x i hi, BitVec.getLsbD_of_ge y i hi]
    | succ k ih =>
        intro i hi
        have h : (x ^^^ x >>> a).getLsbD i = (y ^^^ y >>> a).getLsbD i :=
          congrArg (fun z => z.getLsbD i) hxy
        rw [BitVec.getLsbD_xor, BitVec.getLsbD_xor, BitVec.getLsbD_ushiftRight,
          BitVec.getLsbD_ushiftRight, ih (a + i) (by omega)] at h
        exact Bool.xor_left_inj.mp h
  exact BitVec.eq_of_getLsbD_eq fun i _ => hbit n i (by omega)

/-! ## Polynomials of a map -/

/-- The polynomial with these coefficients, the constant one first, of the map `f`. -/
def poly (f : BitVec n → BitVec n) : List Bool → BitVec n → BitVec n
  | [], _ => 0
  | c :: cs, x => (if c then x else 0) ^^^ poly f cs (f x)

theorem poly_map (hf : Linear f) (cs : List Bool) (x : BitVec n) :
    poly f cs (f x) = f (poly f cs x) := by
  induction cs generalizing x with
  | nil => exact hf.zero.symm
  | cons c cs ih =>
      rw [poly, poly, hf, ih (f x)]
      -- without a coefficient there is 0, which the map keeps
      cases c with
      | true => rfl
      | false =>
          show 0 ^^^ f (poly f cs (f x)) = f 0 ^^^ f (poly f cs (f x))
          rw [hf.zero]

theorem poly_iterate (hf : Linear f) (cs : List Bool) (k : Nat) (x : BitVec n) :
    poly f cs (f^[k] x) = f^[k] (poly f cs x) := by
  induction k generalizing x with
  | zero => rfl
  | succ k ih =>
      rw [Function.iterate_succ_apply, Function.iterate_succ_apply, ih (f x), poly_map hf]

theorem iterate_zero (hf : Linear f) (k : Nat) : f^[k] 0 = 0 := by
  induction k with
  | zero => rfl
  | succ k ih => rw [Function.iterate_succ_apply, hf.zero, ih]

/-- **An orbit is in the kernel of a polynomial, or apart from it.** -/
theorem poly_iterate_eq_zero_iff (hf : Linear f) (hinj : Function.Injective f) (cs : List Bool)
    (k : Nat) (x : BitVec n) : poly f cs (f^[k] x) = 0 ↔ poly f cs x = 0 := by
  rw [poly_iterate hf]
  constructor
  · intro h
    exact hinj.iterate k (h.trans (iterate_zero hf k).symm)
  · intro h
    rw [h, iterate_zero hf]

/-! ## Words whose low bits are zero -/

/-- The first `m` bits are zero. -/
def Low (m : Nat) (x : BitVec n) : Prop := ∀ i < m, x.getLsbD i = false

variable {m k : Nat}

theorem Low.le (h : Low k x) (hle : m ≤ k) : Low m x := fun i hi => h i (Nat.lt_of_lt_of_le hi hle)

theorem Low.eq_zero (h : Low m x) (hn : n ≤ m) : x = 0 :=
  BitVec.eq_of_getLsbD_eq fun i hi =>
    (h i (Nat.lt_of_lt_of_le hi hn)).trans BitVec.getLsbD_zero.symm

theorem low_iff_setWidth : Low m x ↔ x.setWidth m = 0 := by
  constructor
  · intro h
    refine BitVec.eq_of_getLsbD_eq fun i hi => ?_
    rw [BitVec.getLsbD_setWidth, h i hi, Bool.and_false]
    exact BitVec.getLsbD_zero.symm
  · intro h i hi
    have hbit := congrArg (fun z => z.getLsbD i) h
    simp only [BitVec.getLsbD_setWidth, hi, decide_true, Bool.true_and] at hbit
    exact hbit.trans BitVec.getLsbD_zero

/-- Two words have the same low bits if and only if their sum has none. -/
theorem low_xor_iff : Low m (x ^^^ y) ↔ x.setWidth m = y.setWidth m := by
  rw [low_iff_setWidth, BitVec.setWidth_xor]
  exact BitVec.xor_eq_zero_iff

/-- A shift to the left does not hide low bits: each of them depends on the ones below it. -/
theorem Low.of_xorShiftLeft (ha : 0 < a) (h : Low m (xorShiftLeft a x)) : Low m x := by
  intro i
  induction i using Nat.strong_induction_on with
  | _ i ih =>
    intro hi
    have hbit : (x ^^^ x <<< a).getLsbD i = false := h i hi
    rw [BitVec.getLsbD_xor, BitVec.getLsbD_shiftLeft] at hbit
    by_cases hia : i < a
    · simpa [hia] using hbit
    · rw [ih (i - a) (by omega) (by omega)] at hbit
      simpa using hbit

/-- **A shift to the right shows more bits**: each of them next to one that is known. -/
theorem Low.of_xorShiftRight (ha : 0 < a) (h : Low m (xorShiftRight a x)) (hlow : Low a x) :
    Low (m + a) x := by
  intro i
  induction i using Nat.strong_induction_on with
  | _ i ih =>
    intro hi
    by_cases hia : i < a
    · exact hlow i hia
    · have hbit : (x ^^^ x >>> a).getLsbD (i - a) = false := h (i - a) (by omega)
      rw [BitVec.getLsbD_xor, BitVec.getLsbD_ushiftRight, ih (i - a) (by omega) (by omega),
        Bool.false_xor, Nat.add_sub_cancel' (Nat.le_of_not_lt hia)] at hbit
      exact hbit

/-! ## Counting words -/

/-- A word is its two halves. -/
def highHalf {m : Nat} (y : BitVec n) :
    {z : BitVec (m + n) // z.setWidth n = y} ≃ BitVec m where
  toFun z := z.val.extractLsb' n m
  invFun h := ⟨h ++ y, by rw [BitVec.setWidth_append, dif_pos (Nat.le_refl n), BitVec.setWidth_eq]⟩
  left_inv := by
    rintro ⟨z, rfl⟩
    refine Subtype.ext ?_
    show z.extractLsb' n m ++ z.setWidth n = z
    rw [BitVec.setWidth_eq_extractLsb' (Nat.le_add_left n m)]
    exact BitVec.extractLsb'_append_extractLsb'
  right_inv := by
    intro h
    refine BitVec.eq_of_getLsbD_eq fun i hi => ?_
    rw [BitVec.getLsbD_extractLsb', BitVec.getLsbD_append, if_neg (by omega),
      Nat.add_sub_cancel_left, decide_eq_true hi, Bool.true_and]

theorem card_setWidth {m : Nat} (y : BitVec n) :
    Nat.card {z : BitVec (m + n) // z.setWidth n = y} = 2 ^ m := by
  rw [Nat.card_congr (highHalf y), Nat.card_congr BitVec.equivFin.toEquiv, Nat.card_fin]

/-- A one to one map of words meets a condition as often as the words do. -/
theorem card_of_injective (hf : Function.Injective f)
    (p : BitVec n → Prop) : Nat.card {x // p (f x)} = Nat.card {z // p z} :=
  Nat.card_congr ((Equiv.ofBijective f (Finite.injective_iff_bijective.mp hf)).subtypeEquiv
    fun _ => Iff.rfl)

end Lib.Words
