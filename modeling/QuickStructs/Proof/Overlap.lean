import QuickStructs.Memory.Copy

/-!
# Copies between ranges that overlap

Each loop moves one cell and then the rest. Upwards, the cells still to be read are above
the one that is written, unless the destination begins behind the end of the source;
downwards, they are below it. The direction that `Memmove` takes is the one in which they
are not written over.

The eight assignments of a round of `Memcpy` are eight rounds of the plain loop, so it
moves what the plain loop moves, on overlapping ranges too.
-/

namespace QuickStructs.Bytes

open Lib Lib.Memory

variable {m m' : Mem} {dst src n : Nat}

/-- A loop upwards, where the source is not written over before it is read. -/
theorem copyUp_moved (hto : m.Inside dst n) (hfr : m.Inside src n)
    (hsafe : dst ≤ src ∨ src + n ≤ dst) :
    ∃ m', copyUp m dst src n = some m' ∧ Moved m m' dst src n := by
  induction n generalizing m dst src with
  | zero => exact ⟨m, rfl, moved_zero m dst src⟩
  | succ n ih =>
      obtain ⟨m₁, hassign, hcells⟩ := assign_eq hto.first hfr.first
      have hsame := sameCells_assign hto.first hfr.first hcells
      have hto₁ : m₁.Inside (dst + 1) n := hsame.inside (hto.mono (by omega))
      have hfr₁ : m₁.Inside (src + 1) n := hsame.inside (hfr.mono (by omega))
      obtain ⟨m', hrest, hmoved⟩ := ih hto₁ hfr₁ (by omega)
      refine ⟨m', ?_, Moved.cons hcells hmoved hsafe⟩
      rw [copyUp, hassign]
      exact hrest

/-- A loop downwards, from the ends of the two ranges. -/
theorem copyDown_moved (hto : m.Inside dst n) (hfr : m.Inside src n) (hsafe : src ≤ dst) :
    ∃ m', copyDown m (dst + n) (src + n) n = some m' ∧ Moved m m' dst src n := by
  induction n generalizing m with
  | zero => exact ⟨m, rfl, moved_zero m dst src⟩
  | succ n ih =>
      obtain ⟨m₁, hassign, hcells⟩ := assign_eq hto.last hfr.last
      have hsame := sameCells_assign hto.last hfr.last hcells
      have hto₁ : m₁.Inside dst n := hsame.inside (hto.mono (by omega))
      have hfr₁ : m₁.Inside src n := hsame.inside (hfr.mono (by omega))
      obtain ⟨m', hrest, hmoved⟩ := ih hto₁ hfr₁
      refine ⟨m', ?_, Moved.concat hcells hmoved hsafe⟩
      -- `--to` and `--from` are the last cells of the ranges
      show (m.assign (dst + n) (src + n)).bind (fun m => copyDown m (dst + n) (src + n) n) = some m'
      rw [hassign]
      exact hrest

/-- `Memmove` moves the range, whatever the overlap. -/
theorem memmove_moved (hdst : m.Inside dst n) (hsrc : m.Inside src n) :
    ∃ m', memmove m dst src n = some (dst, m') ∧ Moved m m' dst src n := by
  unfold memmove
  split
  · rename_i hguard
    have hn : n = 0 := by
      by_contra hne
      have := hdst.ne_null hne
      have := hsrc.ne_null hne
      omega
    subst hn
    exact ⟨m, rfl, moved_zero m dst src⟩
  · rcases Nat.lt_trichotomy dst src with hlt | heq | hgt
    · obtain ⟨m', hloop, hmoved⟩ := copyUp_moved hdst hsrc (Or.inl (Nat.le_of_lt hlt))
      refine ⟨m', ?_, hmoved⟩
      rw [if_pos hlt, hloop]
      rfl
    · subst heq
      refine ⟨m, ?_, moved_self m dst n⟩
      rw [if_neg (Nat.lt_irrefl dst), if_neg (Nat.lt_irrefl dst)]
    · obtain ⟨m', hloop, hmoved⟩ := copyDown_moved hdst hsrc (Nat.le_of_lt hgt)
      refine ⟨m', ?_, hmoved⟩
      rw [if_neg (by omega), if_pos hgt]
      show Option.map _ (copyDown m (dst + n) (src + n) n) = _
      rw [hloop]
      rfl

/-- **`Memmove` is correct for every overlap**: it returns, the bytes behind `dst` are those
that were behind `src`, and no other byte has changed. -/
theorem memmove_correct (m : Mem) (dst src n : Nat) (hdst : m.Inside dst n)
    (hsrc : m.Inside src n) :
    ∃ m', memmove m dst src n = some (dst, m')
      ∧ (∀ i < n, m'.bytes (dst + i) = m.bytes (src + i))
      ∧ ∀ a, a < dst ∨ dst + n ≤ a → m'.bytes a = m.bytes a := by
  obtain ⟨m', hcall, hmoved⟩ := memmove_moved hdst hsrc
  exact ⟨m', hcall, fun _ hi => hmoved.inside hi, fun _ ha => hmoved.outside ha⟩

/-- Sixteen bytes from address 1, a text and zeros. -/
def himom : Mem where
  bytes a := if 0 < a ∧ a ≤ 16 then some ([104, 105, 109, 111, 109].getD (a - 1) 0) else none
  null := rfl

theorem himom_inside {p n : Nat} (hp : 0 < p) (h : p + n ≤ 17) : himom.Inside p n := by
  intro i hi
  show (if 0 < p + i ∧ p + i ≤ 16 then some _ else none).isSome
  rw [if_pos (by omega)]
  rfl

/-- "hi" over the "mo" of "himom". -/
example : (memmove himom 3 1 2).map (fun r => (List.range 5).map fun i => r.2.bytes (1 + i))
    = some [some 104, some 105, some 104, some 105, some 109] := by decide

/-- Three bytes over the last of themselves. -/
theorem memmove_correct_himom :
    ∃ m', memmove himom 3 1 3 = some (3, m')
      ∧ (∀ i < 3, m'.bytes (3 + i) = himom.bytes (1 + i))
      ∧ ∀ a, a < 3 ∨ 3 + 3 ≤ a → m'.bytes a = himom.bytes a :=
  memmove_correct himom 3 1 3 (himom_inside (by decide) (by decide))
    (himom_inside (by decide) (by decide))

/-! ## The unrolled loop -/

/-- The two loops of `Memcpy` are the plain one. -/
theorem copyBlocks_tail (m : Mem) (dst src n : Nat) :
    ((copyBlocks m dst src n).bind fun s => copyUp s.mem s.toPtr s.fromPtr s.n)
      = copyUp m dst src n := by
  induction m, dst, src, n using copyBlocks.induct with
  | case1 m dst src n ih =>
      simp only [copyBlocks, copyUp, Option.bind_assoc, ih, Nat.add_assoc, Nat.add_zero,
        Nat.reduceAdd]
  | case2 m dst src n hn =>
      rw [copyBlocks]
      · rfl
      · exact hn

/-- A loop that moves its pointers is a loop over offsets. -/
theorem byteLoop_eq (m : Mem) (dst src n : Nat) : byteLoop m dst src n = copyUp m dst src n := by
  induction n generalizing m dst src with
  | zero => rfl
  | succ n ih =>
      have hshift : ∀ m : Mem, (List.range n).foldlM
          (fun m i => m.assign (dst + (i + 1)) (src + (i + 1))) m
            = copyUp m (dst + 1) (src + 1) n := by
        intro m
        rw [← ih, byteLoop]
        congr
        funext m i
        rw [Nat.add_assoc, Nat.add_assoc, Nat.add_comm 1 i]
      rw [byteLoop, List.range_succ_eq_map, List.foldlM_cons, copyUp]
      refine congrArg _ (funext fun m => ?_)
      rw [List.foldlM_map]
      exact hshift m

theorem memcpy_eq (m : Mem) (dst src n : Nat) :
    memcpy m dst src n = (byteLoop m dst src n).map fun m => (dst, m) := by
  rw [byteLoop_eq, ← copyBlocks_tail, Option.map_bind]
  rfl

/-- **`Memcpy` is the plain loop**, whatever the overlap. Where the destination is not above the
source, or the ranges are disjoint, it leaves the memory that `Memmove` leaves. -/
theorem memcpy_plain (m : Mem) (dst src n : Nat) (hdst : m.Inside dst n) (hsrc : m.Inside src n) :
    memcpy m dst src n = (byteLoop m dst src n).map (fun m => (dst, m))
      ∧ (dst ≤ src ∨ dst + n ≤ src ∨ src + n ≤ dst →
        ∃ m', memcpy m dst src n = some (dst, m') ∧ memmove m dst src n = some (dst, m')
          ∧ ∀ a, a < dst ∨ dst + n ≤ a → m'.bytes a = m.bytes a) := by
  refine ⟨memcpy_eq m dst src n, fun horder => ?_⟩
  obtain ⟨m', hloop, hmoved⟩ := copyUp_moved hdst hsrc (by omega)
  obtain ⟨m₁, hmove, hmoved₁⟩ := memmove_moved hdst hsrc
  have heq : m₁ = m' := hmoved₁.unique hmoved
  subst heq
  refine ⟨m₁, ?_, hmove, fun _ ha => hmoved.outside ha⟩
  rw [memcpy_eq, byteLoop_eq, hloop]
  rfl

/-- Ten bytes, one place down. -/
theorem memcpy_plain_himom :
    memcpy himom 1 2 10 = (byteLoop himom 1 2 10).map (fun m => (1, m))
      ∧ (1 ≤ 2 ∨ 1 + 10 ≤ 2 ∨ 2 + 10 ≤ 1 →
        ∃ m', memcpy himom 1 2 10 = some (1, m') ∧ memmove himom 1 2 10 = some (1, m')
          ∧ ∀ a, a < 1 ∨ 1 + 10 ≤ a → m'.bytes a = himom.bytes a) :=
  memcpy_plain himom 1 2 10 (himom_inside (by decide) (by decide))
    (himom_inside (by decide) (by decide))

end QuickStructs.Bytes
