import Mathlib.Algebra.BigOperators.Group.Finset.Piecewise
import Mathlib.Algebra.Order.BigOperators.Group.Finset
import Mathlib.Data.Fintype.BigOperators

/-!
# Counting threads

With `n` threads, each at some point of its program, an invariant often says how many
stand at points of a kind. `tally` is that number, and it changes by the old and the
new point of the one thread that moves.
-/

namespace Lib.Tally

variable {σ : Type} {n : Nat} {p : σ → Bool} {f : Fin n → σ} {i : Fin n} {x : σ}

/-- How many of the threads stand at a point with `p`. -/
def tally (p : σ → Bool) (f : Fin n → σ) : Nat := ∑ i, (p (f i)).toNat

/-- One thread, and the others. -/
theorem tally_split (p : σ → Bool) (f : Fin n → σ) (i : Fin n) :
    (p (f i)).toNat + ∑ j ∈ Finset.univ.erase i, (p (f j)).toNat = tally p f :=
  Finset.add_sum_erase Finset.univ (fun j => (p (f j)).toNat) (Finset.mem_univ i)

/-- **The accounting of one move**, in whatever can be added up. -/
theorem sum_update {M : Type} [AddCommMonoid M] (w : σ → M) (f : Fin n → σ) (i : Fin n) (x : σ) :
    ∑ j, w (Function.update f i x j) + w (f i) = ∑ j, w (f j) + w x := by
  have hpoint : (fun j => w (Function.update f i x j))
      = Function.update (fun j => w (f j)) i (w x) := by
    funext j
    by_cases hj : j = i
    · rw [hj, Function.update_self, Function.update_self]
    · rw [Function.update_of_ne hj, Function.update_of_ne hj]
  have hall : w (f i) + ∑ j ∈ Finset.univ.erase i, w (f j) = ∑ j, w (f j) :=
    Finset.add_sum_erase Finset.univ (fun j => w (f j)) (Finset.mem_univ i)
  rw [hpoint, Finset.sum_update_of_mem (Finset.mem_univ i), Finset.sdiff_singleton_eq_erase, ← hall,
    add_comm (w x), add_right_comm, add_comm (w (f i))]

/-- A move between points that are worth the same does not count. -/
theorem sum_same {M : Type} [AddCommMonoid M] {w : σ → M} (h : w x = w (f i)) :
    ∑ j, w (Function.update f i x j) = ∑ j, w (f j) := by
  refine Finset.sum_congr rfl fun j _ => ?_
  by_cases hj : j = i
  · rw [hj, Function.update_self, h]
  · rw [Function.update_of_ne hj]

/-- What the threads have altogether, each what its point is worth. -/
def total (w : σ → Nat) (f : Fin n → σ) : Nat := ∑ i, w (f i)

theorem total_update (w : σ → Nat) (f : Fin n → σ) (i : Fin n) (x : σ) :
    total w (Function.update f i x) + w (f i) = total w f + w x := sum_update w f i x

theorem total_le {w : σ → Nat} {k : Nat} (h : ∀ x, w x ≤ k) (f : Fin n → σ) :
    total w f ≤ n * k := by
  calc total w f ≤ ∑ _i : Fin n, k := Finset.sum_le_sum fun i _ => h (f i)
    _ = n * k := by simp

theorem total_const {w : σ → Nat} {k : Nat} (h : ∀ i, w (f i) = k) : total w f = n * k := by
  calc total w f = ∑ _i : Fin n, k := Finset.sum_congr rfl fun i _ => h i
    _ = n * k := by simp

theorem tally_update (p : σ → Bool) (f : Fin n → σ) (i : Fin n) (x : σ) :
    tally p (Function.update f i x) + (p (f i)).toNat = tally p f + (p x).toNat :=
  total_update (fun x => (p x).toNat) f i x

/-- A move between points of which `p` says the same does not count. -/
theorem tally_same (h : p x = p (f i)) : tally p (Function.update f i x) = tally p f :=
  sum_same (w := fun x => (p x).toNat) (congrArg Bool.toNat h)

/-- A move to a point with `p`. -/
theorem tally_enter (hx : p x = true) (hf : p (f i) = false) :
    tally p (Function.update f i x) = tally p f + 1 := by
  have hmove := tally_update p f i x
  rw [hx, hf] at hmove
  exact hmove

/-- A move away from a point with `p`. -/
theorem tally_leave (hx : p x = false) (hf : p (f i) = true) :
    tally p (Function.update f i x) + 1 = tally p f := by
  have hmove := tally_update p f i x
  rw [hx, hf] at hmove
  exact hmove

theorem tally_pos (h : p (f i) = true) : 0 < tally p f := by
  have hall := tally_split p f i
  rw [h, Bool.toNat_true] at hall
  omega

theorem tally_le (p : σ → Bool) (f : Fin n → σ) : tally p f ≤ n := by
  calc tally p f ≤ ∑ _i : Fin n, 1 := Finset.sum_le_sum fun i _ => Bool.toNat_le (p (f i))
    _ = n := by simp

theorem tally_none (h : ∀ i, p (f i) = false) : tally p f = 0 :=
  Finset.sum_eq_zero fun i _ => by rw [h i]; rfl

end Lib.Tally
