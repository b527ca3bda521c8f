import QuickStructs.Proof.Overlap

/-!
# Copies of strings

The loop of `Strcpy` has no counter: it ends at the byte it has copied. A round at which the
byte is not zero leaves the rest of the string where it was, as long as the destination is
not inside the string above its first byte. So the terminator is still there when it is read.

A destination inside the string is written over the terminator before that is read, and then
every byte the loop reads is one that it has copied.
-/

namespace QuickStructs.Bytes

open Lib Lib.Memory

variable {m : Mem} {dst src k L : Nat} {c : UInt8}

/-- At `src` there is a string: `L` bytes that are not zero, and a zero. -/
structure StringAt (m : Mem) (src L : Nat) : Prop where
  text : ∀ i < L, ∃ c, m.bytes (src + i) = some c ∧ c ≠ 0
  terminator : m.bytes (src + L) = some 0

theorem StringAt.inside (h : StringAt m src L) : m.Inside src (L + 1) := by
  intro i hi
  rcases Nat.lt_succ_iff_lt_or_eq.mp hi with hlt | heq
  · obtain ⟨c, hc, _⟩ := h.text i hlt
    rw [hc]
    rfl
  · rw [heq, h.terminator]
    rfl

/-- A write in front of what is left of a string, or behind it. -/
theorem StringAt.rest {m₁ : Mem} (h : StringAt m src (L + 1))
    (hsafe : dst ≤ src ∨ src + (L + 1) < dst)
    (hcells : ∀ a, m₁.bytes a = if a = dst then m.bytes src else m.bytes a) :
    StringAt m₁ (src + 1) L where
  text := by
    intro i hi
    rw [hcells, if_neg (by omega), Nat.add_assoc, Nat.add_comm 1 i]
    exact h.text (i + 1) (by omega)
  terminator := by
    rw [hcells, if_neg (by omega), Nat.add_assoc, Nat.add_comm 1 L]
    exact h.terminator

/-- What one round does. -/
theorem copyByte_eq (hto : (m.bytes dst).isSome) (hc : m.bytes src = some c) :
    ∃ m', copyByte m dst src = (if c ≠ 0 then .copying m' (dst + 1) (src + 1) else .ended m')
      ∧ ∀ a, m'.bytes a = if a = dst then m.bytes src else m.bytes a := by
  have hfr : (m.bytes src).isSome := by
    rw [hc]
    rfl
  obtain ⟨m', hassign, hcells⟩ := assign_eq hto hfr
  have hload : m.load src = some c := hc
  have hstore : m.store dst c = some m' := by
    rw [assign, hload] at hassign
    exact hassign
  refine ⟨m', ?_, hcells⟩
  simp only [copyByte, hload, hstore]

theorem copyString_succ (m : Mem) (dst src k : Nat) :
    copyString m dst src (k + 1) = Loop.iterate Progress.round k (copyByte m dst src) := rfl

/-- A round on a byte of the string leaves the loop before the rest of it. -/
theorem copyString_pass (h : StringAt m src (L + 1)) (hto : m.Inside dst (L + 1 + 1))
    (hsafe : dst ≤ src ∨ src + (L + 1) < dst) :
    ∃ m₁, (∀ k, copyString m dst src (k + 1) = copyString m₁ (dst + 1) (src + 1) k)
      ∧ (∀ a, m₁.bytes a = if a = dst then m.bytes src else m.bytes a)
      ∧ StringAt m₁ (src + 1) L ∧ m₁.Inside (dst + 1) (L + 1) := by
  obtain ⟨c, hc, hne⟩ : ∃ c, m.bytes src = some c ∧ c ≠ 0 := h.text 0 (Nat.succ_pos L)
  obtain ⟨m₁, hround, hcells⟩ := copyByte_eq hto.first hc
  have hsame := sameCells_assign hto.first h.inside.first hcells
  rw [if_pos hne] at hround
  refine ⟨m₁, fun k => ?_, hcells, h.rest hsafe hcells, hsame.inside (hto.mono (by omega))⟩
  rw [copyString_succ, hround]
  rfl

/-- **Within the string the loop goes on.** -/
theorem copyString_text (h : StringAt m src L) (hto : m.Inside dst (L + 1))
    (hsafe : dst ≤ src ∨ src + L < dst) (hk : k ≤ L) :
    ∃ m', copyString m dst src k = .copying m' (dst + k) (src + k) ∧ Moved m m' dst src k := by
  induction k generalizing m dst src L with
  | zero => exact ⟨m, rfl, moved_zero m dst src⟩
  | succ k ih =>
      obtain ⟨L, rfl⟩ : ∃ n, L = n + 1 := ⟨L - 1, by omega⟩
      obtain ⟨m₁, hpass, hcells, h₁, hto₁⟩ := copyString_pass h hto hsafe
      obtain ⟨m', hrest, hmoved⟩ := ih h₁ hto₁ (by omega) (by omega)
      refine ⟨m', ?_, Moved.cons hcells hmoved (by omega)⟩
      rw [hpass, hrest, Nat.add_assoc, Nat.add_assoc, Nat.add_comm 1 k]

/-- **At the terminator it ends**, and stays there. -/
theorem copyString_ends (h : StringAt m src L) (hto : m.Inside dst (L + 1))
    (hsafe : dst ≤ src ∨ src + L < dst) :
    ∃ m', (∀ k, copyString m dst src (L + 1 + k) = .ended m') ∧ Moved m m' dst src (L + 1) := by
  induction L generalizing m dst src with
  | zero =>
      have hzero : m.bytes src = some 0 := h.terminator
      obtain ⟨m', hround, hcells⟩ := copyByte_eq hto.first hzero
      rw [if_neg (by decide)] at hround
      refine ⟨m', fun k => ?_, Moved.cons hcells (moved_zero m' _ _) (by omega)⟩
      rw [Nat.zero_add, Nat.add_comm 1 k, copyString_succ, hround]
      exact Loop.iterate_stable rfl k
  | succ L ih =>
      obtain ⟨m₁, hpass, hcells, h₁, hto₁⟩ := copyString_pass h hto hsafe
      obtain ⟨m', hrest, hmoved⟩ := ih h₁ hto₁ (by omega)
      refine ⟨m', fun k => ?_, Moved.cons hcells hmoved (by omega)⟩
      rw [Nat.add_right_comm, hpass]
      exact hrest k

/-- **`Strcpy` copies the string and ends**, after the rounds for its bytes and its terminator:
also where the destination overlaps the string from below. -/
theorem strcpy_correct (m : Mem) (dst src L : Nat) (hstr : StringAt m src L)
    (hdst : m.Inside dst (L + 1)) (hpos : dst ≤ src ∨ src + L < dst) :
    (∀ k ≤ L, ∃ m₁, copyString m dst src k = .copying m₁ (dst + k) (src + k))
      ∧ ∃ m', (∀ k, L + 1 ≤ k → strcpy m dst src k = some (dst, m'))
        ∧ (∀ i ≤ L, m'.bytes (dst + i) = m.bytes (src + i))
        ∧ ∀ a, a < dst ∨ dst + L < a → m'.bytes a = m.bytes a := by
  constructor
  · intro k hk
    obtain ⟨m₁, hloop, _⟩ := copyString_text hstr hdst hpos hk
    exact ⟨m₁, hloop⟩
  · obtain ⟨m', hloop, hmoved⟩ := copyString_ends hstr hdst hpos
    refine ⟨m', fun k hk => ?_, fun i hi => hmoved.inside (by omega),
      fun a ha => hmoved.outside (by omega)⟩
    obtain ⟨j, rfl⟩ := Nat.exists_eq_add_of_le hk
    rw [strcpy, hloop j]

/-- "himom", behind itself. -/
example : (strcpy himom 7 1 6).map (fun r => (List.range 12).map fun i => r.2.bytes (1 + i))
    = some [some 104, some 105, some 109, some 111, some 109, some 0,
      some 104, some 105, some 109, some 111, some 109, some 0] := by decide

/-- "mom", over the "him" of "himom". -/
theorem strcpy_correct_himom :
    (∀ k ≤ 3, ∃ m₁, copyString himom 1 3 k = .copying m₁ (1 + k) (3 + k))
      ∧ ∃ m', (∀ k, 3 + 1 ≤ k → strcpy himom 1 3 k = some (1, m'))
        ∧ (∀ i ≤ 3, m'.bytes (1 + i) = himom.bytes (3 + i))
        ∧ ∀ a, a < 1 ∨ 1 + 3 < a → m'.bytes a = himom.bytes a := by
  refine strcpy_correct himom 1 3 3 ⟨fun i hi => ?_, rfl⟩
    (himom_inside (by decide) (by decide)) (Or.inl (by decide))
  match i, hi with
  | 0, _ => exact ⟨109, rfl, by decide⟩
  | 1, _ => exact ⟨111, rfl, by decide⟩
  | 2, _ => exact ⟨109, rfl, by decide⟩

/-! ## A destination inside the string -/

/-- The bytes from `src` up to the destination are not zero, and the next one to be read is one of
them. -/
def Unending (src : Nat) : Progress → Prop
  | .copying m dst p =>
    (src ≤ p ∧ p < dst) ∧ ∀ a, src ≤ a → a < dst → ∃ c, m.bytes a = some c ∧ c ≠ 0
  | .ended _ => False
  | .fault => True

theorem unending_round {p p' : Progress} (h : Unending src p) (hround : p.round = some p') :
    Unending src p' := by
  cases p with
  | fault => exact absurd hround (by simp [Progress.round])
  | ended m => exact absurd h id
  | copying m dst q =>
      obtain ⟨⟨hle, hlt⟩, htext⟩ := h
      obtain ⟨c, hc, hne⟩ := htext q hle hlt
      obtain rfl : copyByte m dst q = p' := Option.some.inj hround
      by_cases hto : (m.bytes dst).isSome
      · obtain ⟨m', heq, hcells⟩ := copyByte_eq hto hc
        rw [heq, if_pos hne]
        refine ⟨by omega, fun a ha hlast => ?_⟩
        rw [hcells]
        split
        · exact ⟨c, hc, hne⟩
        · exact htext a ha (by omega)
      · have hload : m.load q = some c := hc
        have hstore : m.store dst c = none := dif_neg hto
        simp only [copyByte, hload, hstore]
        trivial

/-- **Where the destination is inside the string, `Strcpy` never ends**, but by a write behind
the memory. -/
theorem strcpy_overrun (hstr : StringAt m src L) (hover : src < dst ∧ dst ≤ src + L) (k : Nat) :
    strcpy m dst src k = none := by
  have hstart : Unending src (.copying m dst src) := by
    refine ⟨by omega, fun a ha hlt => ?_⟩
    obtain ⟨c, hc, hne⟩ := hstr.text (a - src) (by omega)
    rw [Nat.add_sub_cancel' ha] at hc
    exact ⟨c, hc, hne⟩
  have hend : Unending src (copyString m dst src k) :=
    Loop.iterate_invariant k hstart fun _ _ => unending_round
  rw [strcpy]
  cases hloop : copyString m dst src k with
  | ended m' =>
      rw [hloop] at hend
      exact absurd hend id
  | copying _ _ _ => rfl
  | fault => rfl

end QuickStructs.Bytes
