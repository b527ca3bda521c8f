import QuickStructs.Proof.Strings

/-!
# What a copy upwards does to a range that begins inside its source

The loops of `Memcpy` and `Strcpy` go upwards. When the destination is above the source, by `d`
cells and less than the whole range, the cell that is read is one that was written `d` rounds ago,
and the first `d` cells of the source come again and again. `Memcpy` then leaves what `Memmove`
leaves only if the source was like that before. `Strcpy` has written over the terminator by the
time it comes to where it was, and does not end as long as there is memory.
-/

namespace QuickStructs.Bytes

open Lib Lib.Memory

variable {m m' : Mem} {dst src n k L : Nat}

/-! ## `Memcpy` -/

/-- A loop upwards, from below the destination. -/
theorem copyUp_filled (hto : m.Inside dst n) (hfr : m.Inside src n) (hlt : src < dst) :
    ∃ m', copyUp m dst src n = some m' ∧ Filled m m' dst src n := by
  induction n generalizing m dst src with
  | zero => exact ⟨m, rfl, filled_zero m dst src⟩
  | succ n ih =>
      obtain ⟨m₁, hassign, hcells⟩ := assign_eq hto.first hfr.first
      have hsame := sameCells_assign hto.first hfr.first hcells
      have hto₁ : m₁.Inside (dst + 1) n := hsame.inside (hto.mono (by omega))
      have hfr₁ : m₁.Inside (src + 1) n := hsame.inside (hfr.mono (by omega))
      obtain ⟨m', hrest, hfilled⟩ := ih hto₁ hfr₁ (by omega)
      refine ⟨m', ?_, Filled.cons hcells hfilled hlt⟩
      rw [copyUp, hassign]
      exact hrest

/-- Which byte of the source byte `i` of the destination is a copy of. -/
def sourceIndex (dst src i : Nat) : Nat := if src < dst then i % (dst - src) else i

/-- What `Memcpy` leaves. -/
structure Copied (m m' : Mem) (dst src n : Nat) : Prop where
  inside : ∀ i < n, m'.bytes (dst + i) = m.bytes (src + sourceIndex dst src i)
  outside : ∀ a, a < dst ∨ dst + n ≤ a → m'.bytes a = m.bytes a

theorem memcpy_copied (hdst : m.Inside dst n) (hsrc : m.Inside src n) :
    ∃ m', memcpy m dst src n = some (dst, m') ∧ Copied m m' dst src n := by
  rw [memcpy_eq, byteLoop_eq]
  by_cases hlt : src < dst
  · obtain ⟨m', hloop, hfilled⟩ := copyUp_filled hdst hsrc hlt
    refine ⟨m', by rw [hloop]; rfl, ?_, ?_⟩
    · intro i hi
      rw [sourceIndex, if_pos hlt]
      exact hfilled.inside hlt hi
    · intro a ha
      exact hfilled.outside ha
  · obtain ⟨m', hloop, hmoved⟩ := copyUp_moved hdst hsrc (Or.inl (Nat.le_of_not_lt hlt))
    refine ⟨m', by rw [hloop]; rfl, ?_, ?_⟩
    · intro i hi
      rw [sourceIndex, if_neg hlt]
      exact hmoved.inside hi
    · intro a ha
      exact hmoved.outside ha

/-- The two copies are the same if they take the same bytes. -/
theorem copied_eq_iff (h : Copied m m' dst src n) {m₁ : Mem} (h₁ : Moved m m₁ dst src n) :
    m₁ = m' ↔ ∀ i < n, m.bytes (src + i) = m.bytes (src + sourceIndex dst src i) := by
  constructor
  · intro heq i hi
    rw [← h₁.inside hi, heq, h.inside i hi]
  · intro hsame
    refine ext_bytes ?_
    intro a
    by_cases ha : dst ≤ a ∧ a < dst + n
    · have hat : dst + (a - dst) = a := by omega
      have hi : a - dst < n := by omega
      calc m₁.bytes a = m₁.bytes (dst + (a - dst)) := by rw [hat]
        _ = m.bytes (src + (a - dst)) := h₁.inside hi
        _ = m.bytes (src + sourceIndex dst src (a - dst)) := hsame _ hi
        _ = m'.bytes (dst + (a - dst)) := (h.inside _ hi).symm
        _ = m'.bytes a := by rw [hat]
    · have hout : a < dst ∨ dst + n ≤ a := by omega
      rw [h₁.outside hout, h.outside a hout]

/--
**`Memcpy` on ranges that overlap.**

For every position of the two ranges inside the memory it returns. With the destination above the
source it repeats the bytes that are between the two pointers, else it moves the source. It leaves
the memory that `Memmove` leaves exactly if the source consisted of such repetitions before.
-/
theorem memcpy_overlap (m : Mem) (dst src n : Nat) (hdst : m.Inside dst n) (hsrc : m.Inside src n) :
    ∃ m', memcpy m dst src n = some (dst, m') ∧ Copied m m' dst src n
      ∧ (memmove m dst src n = some (dst, m') ↔
          ∀ i < n, m.bytes (src + i) = m.bytes (src + sourceIndex dst src i)) := by
  obtain ⟨m', hcall, hcopied⟩ := memcpy_copied hdst hsrc
  obtain ⟨m₁, hmove, hmoved⟩ := memmove_moved hdst hsrc
  refine ⟨m', hcall, hcopied, ?_⟩
  rw [hmove, ← copied_eq_iff hcopied hmoved]
  simp

/-- "hi" over the rest of "himom", and on. -/
theorem memcpy_overlap_himom :
    ∃ m', memcpy himom 3 1 10 = some (3, m') ∧ Copied himom m' 3 1 10
      ∧ (memmove himom 3 1 10 = some (3, m') ↔
          ∀ i < 10, himom.bytes (1 + i) = himom.bytes (1 + sourceIndex 3 1 i)) :=
  memcpy_overlap himom 3 1 10 (himom_inside (by decide) (by decide))
    (himom_inside (by decide) (by decide))

/-! ## `Strcpy` -/

/-- The bytes from `src` up to `dst` are not zero. -/
def TextBetween (m : Mem) (src dst : Nat) : Prop :=
  ∀ a, src ≤ a → a < dst → ∃ c, m.bytes a = some c ∧ c ≠ 0

theorem StringAt.textBetween (h : StringAt m src L) (hle : dst ≤ src + L) :
    TextBetween m src dst := by
  intro a ha hlt
  obtain ⟨c, hc, hne⟩ := h.text (a - src) (by omega)
  rw [Nat.add_sub_cancel' ha] at hc
  exact ⟨c, hc, hne⟩

/-- A round below the destination: the byte that is copied is one of them, and is one of those that
are read next. -/
theorem copyString_step (htext : TextBetween m src dst) (hlt : src < dst)
    (hto : (m.bytes dst).isSome) :
    ∃ m₁, (∀ k, copyString m dst src (k + 1) = copyString m₁ (dst + 1) (src + 1) k)
      ∧ (∀ a, m₁.bytes a = if a = dst then m.bytes src else m.bytes a)
      ∧ TextBetween m₁ (src + 1) (dst + 1) := by
  obtain ⟨c, hc, hne⟩ := htext src (Nat.le_refl src) hlt
  obtain ⟨m₁, hround, hcells⟩ := copyByte_eq hto hc
  rw [if_pos hne] at hround
  refine ⟨m₁, ?_, hcells, ?_⟩
  · intro k
    rw [copyString_succ, hround]
    rfl
  · intro a ha hlt'
    rw [hcells]
    by_cases hlast : a = dst
    · rw [if_pos hlast]
      exact ⟨c, hc, hne⟩
    · rw [if_neg hlast]
      exact htext a (by omega) (by omega)

/-- **The loop goes on as far as there is memory.** -/
theorem copyString_fills (htext : TextBetween m src dst) (hlt : src < dst) (hto : m.Inside dst k) :
    ∃ m', copyString m dst src k = .copying m' (dst + k) (src + k) ∧ Filled m m' dst src k := by
  induction k generalizing m dst src with
  | zero => exact ⟨m, rfl, filled_zero m dst src⟩
  | succ k ih =>
      obtain ⟨m₁, hstep, hcells, htext₁⟩ := copyString_step htext hlt hto.first
      obtain ⟨c, hc, _⟩ := htext src (Nat.le_refl src) hlt
      have hfr : (m.bytes src).isSome := by
        rw [hc]
        rfl
      have hto₁ : m₁.Inside (dst + 1) k :=
        (sameCells_assign hto.first hfr hcells).inside (hto.mono (by omega))
      obtain ⟨m', hrest, hfilled⟩ := ih htext₁ (by omega) hto₁
      refine ⟨m', ?_, Filled.cons hcells hfilled hlt⟩
      rw [hstep, hrest, Nat.add_assoc, Nat.add_assoc, Nat.add_comm 1 k]

/-- And where the memory ends it writes outside. -/
theorem copyString_faults (htext : TextBetween m src dst) (hlt : src < dst) (hto : m.Inside dst k)
    (hend : m.bytes (dst + k) = none) {j : Nat} (hj : k < j) : copyString m dst src j = .fault := by
  induction k generalizing m dst src j with
  | zero =>
      obtain ⟨j, rfl⟩ : ∃ i, j = i + 1 := ⟨j - 1, by omega⟩
      obtain ⟨c, hc, _⟩ := htext src (Nat.le_refl src) hlt
      have hstore : m.store dst c = none := by
        rw [Nat.add_zero] at hend
        unfold store
        rw [dif_neg (by rw [hend]; decide)]
      have hround : copyByte m dst src = .fault := by
        have hload : m.load src = some c := hc
        simp only [copyByte, hload, hstore]
      rw [copyString_succ, hround]
      exact Loop.iterate_stable rfl j
  | succ k ih =>
      obtain ⟨j, rfl⟩ : ∃ i, j = i + 1 := ⟨j - 1, by omega⟩
      obtain ⟨m₁, hstep, hcells, htext₁⟩ := copyString_step htext hlt hto.first
      obtain ⟨c, hc, _⟩ := htext src (Nat.le_refl src) hlt
      have hfr : (m.bytes src).isSome := by
        rw [hc]
        rfl
      have hsame := sameCells_assign hto.first hfr hcells
      rw [hstep]
      refine ih htext₁ (by omega) (hsame.inside (hto.mono (by omega))) ?_ (by omega)
      rw [hcells, if_neg (by omega), Nat.add_assoc, Nat.add_comm 1 k]
      exact hend

/--
**When `Strcpy` ends, and what it does when it does not.**

With a string at `src` and room for it at `dst` the call returns exactly if the destination is not
inside the string above its first byte. Else it fills the memory from `dst` on with the text between
the two pointers, again and again, and its first write outside of the memory is the only way out.
-/
theorem strcpy_overlap (m : Mem) (dst src L : Nat) (hstr : StringAt m src L)
    (hdst : m.Inside dst (L + 1)) :
    ((∃ k r, strcpy m dst src k = some r) ↔ dst ≤ src ∨ src + L < dst)
      ∧ (src < dst → dst ≤ src + L → ∀ k, m.Inside dst k →
          (∃ m', copyString m dst src k = .copying m' (dst + k) (src + k)
            ∧ ∀ i < k, m'.bytes (dst + i) = m.bytes (src + i % (dst - src)))
          ∧ (m.bytes (dst + k) = none → ∀ j, k < j → copyString m dst src j = .fault)) := by
  constructor
  · constructor
    · rintro ⟨k, r, hends⟩
      by_contra hinside
      rw [strcpy_overrun hstr (by omega)] at hends
      exact absurd hends (by simp)
    · intro hsafe
      obtain ⟨m', hloop, _⟩ := copyString_ends hstr hdst hsafe
      exact ⟨L + 1 + 0, (dst, m'), by rw [strcpy, hloop]⟩
  · intro hlt hle k hto
    have htext := hstr.textBetween hle
    constructor
    · obtain ⟨m', hloop, hfilled⟩ := copyString_fills htext hlt hto
      refine ⟨m', hloop, ?_⟩
      intro i hi
      exact hfilled.inside hlt hi
    · intro hend j hj
      exact copyString_faults htext hlt hto hend hj

/-- "himom" two bytes further on, in the sixteen bytes that there are. -/
theorem strcpy_overlap_himom :
    ((∃ k r, strcpy himom 3 1 k = some r) ↔ 3 ≤ 1 ∨ 1 + 5 < 3)
      ∧ copyString himom 3 1 15 = .fault := by
  have hstr : StringAt himom 1 5 := by
    refine ⟨?_, rfl⟩
    intro i hi
    match i, hi with
    | 0, _ => exact ⟨104, rfl, by decide⟩
    | 1, _ => exact ⟨105, rfl, by decide⟩
    | 2, _ => exact ⟨109, rfl, by decide⟩
    | 3, _ => exact ⟨111, rfl, by decide⟩
    | 4, _ => exact ⟨109, rfl, by decide⟩
  have hall := strcpy_overlap himom 3 1 5 hstr (himom_inside (by decide) (by decide))
  refine ⟨hall.1,
    (hall.2 (by decide) (by decide) 14 (himom_inside (by decide) (by decide))).2 ?_ 15 ?_⟩
  · rfl
  · decide

end QuickStructs.Bytes
