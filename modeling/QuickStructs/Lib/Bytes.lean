import Mathlib.Logic.Function.Basic

/-!
# Flat memory

Addresses are numbers, and a cell that is not there is read or written by nobody: both are
faults. Address 0 is the null pointer, and there is no cell.

A copy is told by what it has moved: the cells from `lo` to `hi` behind the destination
have what was behind the source before, and every other cell is as it was. That says
nothing about the source, which the copy may have written over.
-/

namespace Lib

variable {β : Type}

structure Memory (β : Type) where
  bytes : Nat → Option β
  null : bytes 0 = none

namespace Memory

variable {m m' m₁ m₂ : Memory β} {a b toPtr fromPtr dst src n : Nat} {v : β}

theorem ext_bytes (h : ∀ a, m₁.bytes a = m₂.bytes a) : m₁ = m₂ := by
  obtain ⟨f, hf⟩ := m₁
  obtain ⟨g, hg⟩ := m₂
  have hfg : f = g := funext h
  subst hfg
  rfl

/-- The range `[p, p + n)` lies inside the memory. -/
def Inside (m : Memory β) (p n : Nat) : Prop := ∀ i < n, (m.bytes (p + i)).isSome

def load (m : Memory β) (a : Nat) : Option β := m.bytes a

def store (m : Memory β) (a : Nat) (v : β) : Option (Memory β) :=
  if h : (m.bytes a).isSome then
    some
      { bytes := Function.update m.bytes a (some v)
        null := by
          have ha : (0 : Nat) ≠ a := by
            rintro rfl
            rw [m.null] at h
            exact absurd h (by simp)
          rw [Function.update_of_ne ha]
          exact m.null }
  else none

/-- `*to = *from` -/
def assign (m : Memory β) (toPtr fromPtr : Nat) : Option (Memory β) :=
  (m.load fromPtr).bind fun v => m.store toPtr v

/-- What an assignment between two cells does. -/
theorem assign_eq (hto : (m.bytes toPtr).isSome) (hfr : (m.bytes fromPtr).isSome) :
    ∃ m', m.assign toPtr fromPtr = some m'
      ∧ ∀ a, m'.bytes a = if a = toPtr then m.bytes fromPtr else m.bytes a := by
  obtain ⟨v, hv⟩ := Option.isSome_iff_exists.mp hfr
  unfold assign load store
  rw [hv, Option.bind_some, dif_pos hto]
  refine ⟨_, rfl, fun a => ?_⟩
  show Function.update m.bytes toPtr (some v) a = _
  rw [Function.update_apply]

theorem Inside.mono (h : m.Inside dst n) (hsub : dst ≤ a ∧ a + b ≤ dst + n) : m.Inside a b := by
  intro i hi
  have hat := h (a - dst + i) (by omega)
  rwa [show dst + (a - dst + i) = a + i by omega] at hat

theorem Inside.first (h : m.Inside dst (n + 1)) : (m.bytes dst).isSome := h 0 (Nat.succ_pos n)

theorem Inside.last (h : m.Inside dst (n + 1)) : (m.bytes (dst + n)).isSome :=
  h n (Nat.lt_succ_self n)

/-- There is no cell behind a null pointer. -/
theorem Inside.ne_null (h : m.Inside dst n) (hn : n ≠ 0) : dst ≠ 0 := by
  rintro rfl
  have hat := h 0 (Nat.pos_of_ne_zero hn)
  rw [Nat.add_zero, m.null] at hat
  exact absurd hat (by simp)

/-- The cells of one memory are the cells of the other. -/
def SameCells (m m' : Memory β) : Prop := ∀ a, (m'.bytes a).isSome = (m.bytes a).isSome

theorem SameCells.inside (h : SameCells m m') (hin : m.Inside dst n) : m'.Inside dst n := by
  intro i hi
  rw [h]
  exact hin i hi

theorem sameCells_assign (hto : (m.bytes toPtr).isSome) (hfr : (m.bytes fromPtr).isSome)
    (h : ∀ a, m'.bytes a = if a = toPtr then m.bytes fromPtr else m.bytes a) : SameCells m m' := by
  intro a
  rw [h a]
  split
  · rename_i ha
    rw [ha, hto, hfr]
  · rfl

/-- The `n` cells behind `dst` have what was behind `src`, and nothing else has changed. -/
def Moved (m m' : Memory β) (dst src n : Nat) : Prop :=
  ∀ a, m'.bytes a = if dst ≤ a ∧ a < dst + n then m.bytes (src + (a - dst)) else m.bytes a

theorem Moved.inside (h : Moved m m' dst src n) {i : Nat} (hi : i < n) :
    m'.bytes (dst + i) = m.bytes (src + i) := by
  rw [h, if_pos (by omega), Nat.add_sub_cancel_left]

theorem Moved.outside (h : Moved m m' dst src n) (ha : a < dst ∨ dst + n ≤ a) :
    m'.bytes a = m.bytes a := by
  rw [h, if_neg (by omega)]

/-- What is moved determines the memory. -/
theorem Moved.unique (h₁ : Moved m m₁ dst src n) (h₂ : Moved m m₂ dst src n) : m₁ = m₂ :=
  ext_bytes fun a => (h₁ a).trans (h₂ a).symm

theorem moved_zero (m : Memory β) (dst src : Nat) : Moved m m dst src 0 := fun a => by
  rw [if_neg (by omega)]

/-- To move a range onto itself changes nothing. -/
theorem moved_self (m : Memory β) (dst n : Nat) : Moved m m dst dst n := fun a => by
  split
  · rw [show dst + (a - dst) = a by omega]
  · rfl

/-- **Upwards**: the first cell is moved, then the rest. What is still to be read has not been
written over. -/
theorem Moved.cons (hfirst : ∀ a, m₁.bytes a = if a = dst then m.bytes src else m.bytes a)
    (h : Moved m₁ m' (dst + 1) (src + 1) n) (hsafe : dst ≤ src ∨ src + (n + 1) ≤ dst) :
    Moved m m' dst src (n + 1) := by
  intro a
  rw [h a]
  by_cases ha : a = dst
  · subst ha
    rw [if_neg (by omega), if_pos (by omega), hfirst, if_pos rfl, Nat.sub_self, Nat.add_zero]
  by_cases hin : dst + 1 ≤ a ∧ a < dst + 1 + n
  · rw [if_pos hin, if_pos (by omega), hfirst, if_neg (by omega)]
    congr 1
    omega
  · rw [if_neg hin, if_neg (by omega), hfirst, if_neg ha]

/-- **Downwards**: the last cell is moved, then those before it. -/
theorem Moved.concat
    (hlast : ∀ a, m₁.bytes a = if a = dst + n then m.bytes (src + n) else m.bytes a)
    (h : Moved m₁ m' dst src n) (hsafe : src ≤ dst) : Moved m m' dst src (n + 1) := by
  intro a
  rw [h a]
  by_cases ha : a = dst + n
  · subst ha
    rw [if_neg (by omega), if_pos (by omega), hlast, if_pos rfl, Nat.add_sub_cancel_left]
  by_cases hin : dst ≤ a ∧ a < dst + n
  · rw [if_pos hin, if_pos (by omega), hlast, if_neg (by omega)]
  · rw [if_neg hin, if_neg (by omega), hlast, if_neg ha]

/-! ## Copies that read what they have written -/

/-- The `n` cells behind `dst` repeat the cells between `src` and `dst`, and nothing else has
changed. -/
def Filled (m m' : Memory β) (dst src n : Nat) : Prop :=
  ∀ a, m'.bytes a =
    if dst ≤ a ∧ a < dst + n then m.bytes (src + (a - src) % (dst - src)) else m.bytes a

theorem Filled.inside (h : Filled m m' dst src n) (hlt : src < dst) {i : Nat} (hi : i < n) :
    m'.bytes (dst + i) = m.bytes (src + i % (dst - src)) := by
  have hmod : (dst + i - src) % (dst - src) = i % (dst - src) := by
    rw [show dst + i - src = i + (dst - src) by omega, Nat.add_mod_right]
  rw [h, if_pos (by omega), hmod]

theorem Filled.outside (h : Filled m m' dst src n) (ha : a < dst ∨ dst + n ≤ a) :
    m'.bytes a = m.bytes a := by
  rw [h, if_neg (by omega)]

theorem filled_zero (m : Memory β) (dst src : Nat) : Filled m m dst src 0 := by
  intro a
  rw [if_neg (by omega)]

/-- **Upwards, over the cells still to be read**: the first cell is copied, and what is copied
then are the cells behind it, with the new one as the last. -/
theorem Filled.cons (hfirst : ∀ a, m₁.bytes a = if a = dst then m.bytes src else m.bytes a)
    (h : Filled m₁ m' (dst + 1) (src + 1) n) (hlt : src < dst) : Filled m m' dst src (n + 1) := by
  intro a
  rw [h a, Nat.add_sub_add_right]
  by_cases hin : dst + 1 ≤ a ∧ a < dst + 1 + n
  · rw [if_pos hin, if_pos (by omega), hfirst]
    -- the index one further, and once around after the last
    have hindex := Nat.mod_add_div (a - (src + 1)) (dst - src)
    have hsmall := Nat.mod_lt (a - (src + 1)) (by omega : 0 < dst - src)
    by_cases hlast : (a - (src + 1)) % (dst - src) = dst - src - 1
    · have hmod : (a - src) % (dst - src) = 0 := by
        have hnext : a - src = (dst - src) * ((a - (src + 1)) / (dst - src) + 1) := by
          rw [Nat.mul_add, Nat.mul_one]
          omega
        rw [hnext, Nat.mul_mod_right]
      rw [hmod, if_pos (by omega)]
      rfl
    · have hmod : (a - src) % (dst - src) = (a - (src + 1)) % (dst - src) + 1 := by
        have hnext : a - src = (a - (src + 1)) % (dst - src) + 1
            + (dst - src) * ((a - (src + 1)) / (dst - src)) := by omega
        rw [hnext, Nat.add_mul_mod_self_left, Nat.mod_eq_of_lt (by omega)]
      rw [hmod, if_neg (by omega)]
      congr 1
      omega
  · rw [if_neg hin, hfirst]
    by_cases ha : a = dst
    · subst ha
      rw [if_pos rfl, if_pos (by omega), Nat.mod_self]
      rfl
    · rw [if_neg ha, if_neg (by omega)]

end Memory

end Lib
