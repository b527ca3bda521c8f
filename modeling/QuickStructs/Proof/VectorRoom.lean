import QuickStructs.Structs.VectorBytes
import QuickStructs.Proof.VectorCapacity

/-!
# The room in the buffers of a vector

The bytes of a buffer are a product modulo 2⁶⁴, and for a growth of three times the capacity,
which is modulo 2⁶⁴ too. Nothing looks at whether that wraps. So there is room for the elements
as long as the exact product does not lie close above a multiple of 2⁶⁴: it is as far above it as
the elements take up bytes. Zero is such a multiple, and a vector without capacity grows to it.

The `operator new` that obtains what it is asked for, and no more, decides the matter: over it
the calls are those of the vector that does not throw.
-/

namespace QuickStructs.Vector

open Lib Storage

variable {E : Type} {T : ElementType E} {N : OperatorNew E}
variable {s s' : Storage E} {v : Vec} {x : E} {n newCap need : Nat}

/-! ## Multiples of 2⁶⁴ -/

/-- A number of bytes is at least `need` above every multiple of 2⁶⁴ up to it. -/
def Clear (bytes need : Nat) : Prop := ∀ j, j * 2 ^ 64 ≤ bytes → j * 2 ^ 64 + need ≤ bytes

theorem clear_iff (bytes need : Nat) : Clear bytes need ↔ need ≤ bytes % 2 ^ 64 := by
  constructor
  · intro h
    have hlast := h (bytes / 2 ^ 64) (Nat.div_mul_le_self _ _)
    omega
  · intro h j hj
    have hle : j ≤ bytes / 2 ^ 64 := (Nat.le_div_iff_mul_le (by decide)).mpr hj
    calc j * 2 ^ 64 + need
        ≤ bytes / 2 ^ 64 * 2 ^ 64 + bytes % 2 ^ 64 :=
          Nat.add_le_add (Nat.mul_le_mul_right _ hle) h
      _ = bytes := Nat.div_add_mod' bytes (2 ^ 64)

/-- The bytes of a growth are three times those of the buffer, modulo 2⁶⁴. -/
theorem growth_bytes (T : ElementType E) (c : Nat) :
    T.size * (c * 3 % 2 ^ 64) % 2 ^ 64 = c * 3 * T.size % 2 ^ 64 := by
  rw [Nat.mul_mod, Nat.mod_mod, ← Nat.mul_mod, Nat.mul_comm]

/-! ## What is obtained -/

theorem allocateWith_cases (T : ElementType E) (N : OperatorNew E) (s : Storage E) (newCap : Nat) :
    allocateWith T N s newCap = none
    ∨ ∃ s' p got, allocateWith T N s newCap = some (s', p, got)
      ∧ T.size * newCap % 2 ^ 64 ≤ got := by
  unfold allocateWith
  split
  · rename_i hzero
    subst hzero
    exact Or.inr ⟨s, 0, 0, rfl, Nat.le_refl 0⟩
  · cases hgot : N.obtains s (T.size * newCap % 2 ^ 64) with
    | none => exact Or.inl rfl
    | some got => exact Or.inr ⟨_, _, got, rfl, N.enough _ _ _ hgot⟩

/-- A constructor throws at once, or obtains the bytes that it has computed. -/
theorem ctorSizeWith_cases (T : ElementType E) (N : OperatorNew E) (s : Storage E) (n : Nat) :
    Vec.ctorSizeWith T N s n = (s, none)
    ∨ ∃ s' v got, Vec.ctorSizeWith T N s n = (s', some (v, got))
      ∧ T.size * max 1 n % 2 ^ 64 ≤ got := by
  simp only [Vec.ctorSizeWith]
  rcases allocateWith_cases T N s (max 1 n) with hnone | ⟨s', p, got, hsome, hle⟩
  · rw [hnone]
    exact Or.inl rfl
  · rw [hsome]
    exact Or.inr ⟨_, _, got, rfl, hle⟩

/-- So does a growth. -/
theorem growWith_cases (T : ElementType E) (N : OperatorNew E) (v : Vec) (s : Storage E)
    (newCap : Nat) : v.growWith T N s newCap = ⟨s, v, true, [⟨s, none⟩]⟩
    ∨ ∃ s' p got, v.growWith T N s newCap
        = ⟨s', { v with pArr := p, mCap := newCap }, false, [⟨s, some got⟩]⟩
      ∧ T.size * newCap % 2 ^ 64 ≤ got := by
  unfold Vec.growWith
  rcases allocateWith_cases T N s newCap with hnone | ⟨s', p, got, hsome, hle⟩
  · rw [hnone]
    exact Or.inl rfl
  · rw [hsome]
    exact Or.inr ⟨_, p, got, rfl, hle⟩

/-- Every growth obtains room for `need` bytes, unless it throws. -/
def Ample (need : Nat) (gs : List (Growth E)) : Prop :=
  ∀ g ∈ gs, ∀ got ∈ g.obtained, need ≤ got

theorem growWith_ample (hneed : need ≤ T.size * newCap % 2 ^ 64) :
    Ample need (v.growWith T N s newCap).growths := by
  intro g hg got hgot
  rcases growWith_cases T N v s newCap with heq | ⟨_, _, got', heq, hle⟩
  · rw [heq] at hg
    rw [List.mem_singleton.mp hg] at hgot
    exact absurd hgot (by simp)
  · rw [heq] at hg
    rw [List.mem_singleton.mp hg] at hgot
    obtain rfl : got' = got := Option.some.inj hgot
    omega

/-! ## What is left of a growth that throws -/

/-- If a growth throws, the call ends there. -/
def Ending.Stops (e : Ending E) : Prop :=
  ∀ g ∈ e.growths, g.obtained = none → e.thrown = true ∧ e.storage = g.before

theorem growWith_stops : (v.growWith T N s newCap).Stops := by
  intro g hg hnone
  rcases growWith_cases T N v s newCap with heq | ⟨_, _, _, heq, _⟩
  · rw [heq] at hg ⊢
    rw [List.mem_singleton.mp hg]
    exact ⟨rfl, rfl⟩
  · rw [heq] at hg
    rw [List.mem_singleton.mp hg] at hnone
    exact absurd hnone (by simp)

theorem Ending.Stops.andThen {e : Ending E} {f : Storage E → Vec → Ending E} (h : e.Stops)
    (hf : ∀ s v, (f s v).Stops) : (e.andThen f).Stops := by
  unfold Ending.andThen
  split
  · exact h
  · intro g hg hnone
    rename_i hreturn
    rcases List.mem_append.mp hg with hg | hg
    · exact absurd (h g hg hnone).1 hreturn
    · exact hf _ _ g hg hnone

theorem test_stops {p : Prop} [Decidable p] :
    (if p then v.growWith T N s (v.mCap * 3 % 2 ^ 64) else ⟨s, v, false, []⟩).Stops := by
  split
  · exact growWith_stops
  · exact fun g hg => absurd hg List.not_mem_nil

theorem appendWith_stops : (v.appendWith T N s x).Stops :=
  Ending.Stops.andThen (Ending.Stops.andThen test_stops fun _ _ => test_stops)
    fun _ _ _ hg => absurd hg List.not_mem_nil

/-! ## The growths of an append -/

theorem appendWith_growths : (v.appendWith T N s x).growths = (v.reserveWith T N s).growths := by
  rw [Vec.appendWith, Ending.andThen]
  split
  · rfl
  · exact List.append_nil _

/-- The growth that is due is made. -/
theorem growth_mem (hdue : v.mCap = 1 ∨ v.mCap ≤ v.mSize) {g : Growth E}
    (hg : g ∈ (v.growWith T N s (v.mCap * 3 % 2 ^ 64)).growths) :
    g ∈ (v.appendWith T N s x).growths := by
  rw [appendWith_growths, Vec.reserveWith, Ending.andThen]
  by_cases hone : v.mCap = 1
  · rw [if_pos hone]
    split
    · exact hg
    · exact List.mem_append_left _ hg
  · rw [if_neg hone, if_neg Bool.false_ne_true, if_pos (hdue.resolve_left hone)]
    exact hg

/-- And no other, if three slots are enough for the elements of a vector that had one. -/
theorem growths_once (hfew : v.mCap = 1 → v.mSize < 3) : (v.appendWith T N s x).growths
    = if v.mCap = 1 ∨ v.mCap ≤ v.mSize then (v.growWith T N s (v.mCap * 3 % 2 ^ 64)).growths
      else [] := by
  rw [appendWith_growths, Vec.reserveWith, Ending.andThen]
  by_cases hone : v.mCap = 1
  · have hlt := hfew hone
    rw [if_pos hone, if_pos (Or.inl hone)]
    rcases growWith_cases T N v s (v.mCap * 3 % 2 ^ 64) with heq | ⟨s', p, got, heq, _⟩
    · rw [heq]
      rfl
    · have hcap : ¬v.mCap * 3 % 2 ^ 64 ≤ v.mSize := by omega
      rw [heq]
      show [(⟨s, some got⟩ : Growth E)]
        ++ Ending.growths (if v.mCap * 3 % 2 ^ 64 ≤ v.mSize then _ else _) = _
      rw [if_neg hcap]
      rfl
  · rw [if_neg hone, if_neg Bool.false_ne_true]
    by_cases hfull : v.mCap ≤ v.mSize
    · rw [if_pos hfull, if_pos (Or.inr hfull)]
      exact List.nil_append _
    · rw [if_neg hfull, if_neg (fun h => h.elim hone hfull)]
      rfl

/-! ## Obtaining what is asked for -/

theorem plain_enough {bytes got : Nat} (h : some bytes = some got) : bytes ≤ got :=
  Nat.le_of_eq (Option.some.inj h)

/-- An `operator new` that does not throw, and obtains the bytes it is asked for. -/
def OperatorNew.plain (E : Type) : OperatorNew E :=
  ⟨fun _ bytes => some bytes, fun _ _ _ => plain_enough⟩

theorem allocateWith_plain (T : ElementType E) (s : Storage E) (newCap : Nat) :
    allocateWith T (.plain E) s newCap
      = some ((allocate T s newCap).1, (allocate T s newCap).2, T.size * newCap % 2 ^ 64) := by
  unfold allocateWith allocate
  split
  · rename_i hzero
    rw [hzero]
    rfl
  · rfl

/-- Over it the constructor is the one without exceptions. -/
theorem ctorSizeWith_plain (T : ElementType E) (s : Storage E) (n : Nat) :
    Vec.ctorSizeWith T (.plain E) s n
      = ((Vec.ctorSize T s n).1, some ((Vec.ctorSize T s n).2, T.size * max 1 n % 2 ^ 64)) := by
  simp only [Vec.ctorSizeWith, allocateWith_plain]
  rfl

/-- Three elements of four bytes. -/
example : (Vec.ctorSizeWith words (.plain Nat) {} 3).2.map Prod.snd = some 12 := by decide

theorem growWith_plain (T : ElementType E) (v : Vec) (s : Storage E) (newCap : Nat) :
    v.growWith T (.plain E) s newCap =
      ⟨(v.growCapacity T s newCap).1, (v.growCapacity T s newCap).2,
      false, [⟨s, some (T.size * newCap % 2 ^ 64)⟩]⟩ := by
  simp only [Vec.growWith, allocateWith_plain]
  rfl

/-- And so is the append. -/
theorem appendWith_plain (T : ElementType E) (v : Vec) (s : Storage E) (x : E) :
    ((v.appendWith T (.plain E) s x).storage, (v.appendWith T (.plain E) s x).vec) = v.append T s x
      ∧ (v.appendWith T (.plain E) s x).thrown = false := by
  simp only [Vec.appendWith, Vec.reserveWith, Ending.andThen, growWith_plain,
    Vec.append, Vec.reserve]
  by_cases hone : v.mCap = 1
  · simp only [if_pos hone, if_neg Bool.false_ne_true]
    split
    · exact ⟨rfl, rfl⟩
    · exact ⟨rfl, rfl⟩
  · simp only [if_neg hone, if_neg Bool.false_ne_true]
    split
    · exact ⟨rfl, rfl⟩
    · exact ⟨rfl, rfl⟩

/-! ## The arithmetic of the sizes -/

/-- `Vector(n)` throws before it constructs anything, or has room for its elements. -/
def CtorSound (T : ElementType E) (N : OperatorNew E) (s : Storage E) (n : Nat) : Prop :=
  Vec.ctorSizeWith T N s n = (s, none)
  ∨ ∃ v got, (Vec.ctorSizeWith T N s n).2 = some (v, got) ∧ n * T.size ≤ got

/-- Every growth of an append throws before it constructs anything, or obtains room for the
elements and one more. -/
structure AppendSound (T : ElementType E) (N : OperatorNew E) (v : Vec) (s : Storage E) (x : E) :
    Prop where
  stops : (v.appendWith T N s x).Stops
  ample : Ample ((v.mSize + 1) * T.size) (v.appendWith T N s x).growths

theorem ctorSound_iff (T : ElementType E) (s : Storage E) (n : Nat) :
    (∀ N, CtorSound T N s n) ↔ n * T.size < 2 ^ 64 := by
  constructor
  · intro hsound
    rcases hsound (.plain E) with hthrown | ⟨v, got, hgot, hroom⟩
    · rw [ctorSizeWith_plain] at hthrown
      exact absurd hthrown (by simp)
    · rw [ctorSizeWith_plain] at hgot
      cases hgot
      exact Nat.lt_of_le_of_lt hroom (Nat.mod_lt _ (by decide))
  · intro hfits N
    rcases ctorSizeWith_cases T N s n with hthrown | ⟨s', v, got, hreturned, hle⟩
    · exact Or.inl hthrown
    · refine Or.inr ⟨v, got, congrArg Prod.snd hreturned, ?_⟩
      rcases Nat.eq_zero_or_pos n with hzero | hpos
      · rw [hzero, Nat.zero_mul]
        exact Nat.zero_le _
      · rw [Nat.max_eq_right hpos, Nat.mul_comm, Nat.mod_eq_of_lt hfits] at hle
        exact hle

theorem appendSound_iff (T : ElementType E) (s : Storage E) (v : Vec) (x : E) :
    (∀ N, AppendSound T N v s x) ↔ (v.mCap = 1 ∨ v.mCap ≤ v.mSize →
      Clear (v.mCap * 3 * T.size) ((v.mSize + 1) * T.size)) := by
  constructor
  · intro hsound hdue
    have hmem : ⟨s, some (T.size * (v.mCap * 3 % 2 ^ 64) % 2 ^ 64)⟩
        ∈ (v.appendWith T (.plain E) s x).growths :=
      growth_mem hdue (by rw [growWith_plain]; exact List.mem_singleton_self _)
    rw [clear_iff, ← growth_bytes]
    exact (hsound (.plain E)).ample _ hmem _ rfl
  · intro hclear N
    refine ⟨appendWith_stops, ?_⟩
    have hfew : v.mCap = 1 → v.mSize < 3 := by
      intro hone
      have hzero := hclear (Or.inl hone) 0 (Nat.zero_le _)
      rw [hone, Nat.zero_mul, Nat.zero_add] at hzero
      exact Nat.le_of_mul_le_mul_right hzero T.pos
    rw [growths_once hfew]
    split
    · rename_i hdue
      refine growWith_ample ?_
      rw [growth_bytes, ← clear_iff]
      exact hclear hdue
    · exact fun g hg => absurd hg List.not_mem_nil

/-- A vector that is full, of less than 2⁶⁴ bytes, has room to grow if it has a capacity and three
times its bytes do not wrap; or if they do, and what is left is more than there was. -/
theorem clear_full {c size : Nat} (hpos : 0 < size) (hfits : c * size < 2 ^ 64) :
    Clear (c * 3 * size) ((c + 1) * size) ↔ (0 < c ∧ c * 3 * size < 2 ^ 64)
      ∨ (2 ^ 64 + size ≤ 2 * (c * size) ∧ c * 3 * size < 2 ^ 65) := by
  rw [clear_iff, Nat.mul_right_comm, Nat.add_mul, Nat.one_mul]
  have hle : 0 < c → size ≤ c * size := fun hc => Nat.le_mul_of_pos_left _ hc
  have hzero : c = 0 → c * size = 0 := fun hc => by rw [hc, Nat.zero_mul]
  generalize c * size = b at *
  have hquot : b * 3 / 2 ^ 64 = 0 ∨ b * 3 / 2 ^ 64 = 1 ∨ b * 3 / 2 ^ 64 = 2 := by omega
  rcases hquot with hquot | hquot | hquot
  · omega
  · omega
  · omega

/-- **When the sizes are enough.** A constructor has room for its elements, or throws before it
constructs any, whatever `operator new` does, exactly if their bytes are less than 2⁶⁴. The growths
of an append have room exactly if three times the capacity, in bytes, is clear of the multiples of
2⁶⁴ by the bytes of the elements and one more. -/
theorem size_arithmetic_iff (T : ElementType E) (s : Storage E) :
    (∀ n, (∀ N, CtorSound T N s n) ↔ n * T.size < 2 ^ 64)
    ∧ ∀ (v : Vec) (x : E), (∀ N, AppendSound T N v s x) ↔ (v.mCap = 1 ∨ v.mCap ≤ v.mSize →
        Clear (v.mCap * 3 * T.size) ((v.mSize + 1) * T.size)) :=
  ⟨ctorSound_iff T s, appendSound_iff T s⟩

/-- A constructor whose elements take up 2⁶⁴ bytes and four obtains four; and `Vector()`, after
`shrink_to_fit`, grows to no bytes at all. -/
theorem size_arithmetic_wraps :
    ¬CtorSound words (.plain Nat) {} (2 ^ 62 + 1)
    ∧ let r := (Vec.ctor words {}).2.shrinkToFit words (Vec.ctor words {}).1
      ¬AppendSound words (.plain Nat) r.2 r.1 7 := by
  constructor
  · rintro (hthrown | ⟨v, got, hgot, hroom⟩)
    · rw [ctorSizeWith_plain] at hthrown
      exact absurd hthrown (by simp)
    · rw [ctorSizeWith_plain] at hgot
      cases hgot
      exact absurd hroom (by decide)
  · intro r hsound
    have hroom := hsound.ample ⟨r.1, some 0⟩ (List.mem_singleton_self _) 0 rfl
    exact absurd hroom (by decide)

/-! ## Writing behind the buffer -/

theorem constructN_past {a size : Nat} (h : Sane s) (hf : Shows s a size fun _ => none) :
    ∀ j, (constructN T s a (size + 1 + j)).faulted = true
  | 0 => by
      obtain ⟨_, hshows, _⟩ := constructN_spec (T := T) h hf size (Nat.le_refl size)
      exact construct_past hshows (Nat.le_refl size) T.default
  | j + 1 => construct_faulted (constructN_past h hf j) ..

/-- **A constructor whose bytes wrap constructs behind its buffer.** -/
theorem ctorSize_overruns (hs : Sane s) (hwrap : 2 ^ 64 ≤ n * T.size) :
    (Vec.ctorSize T s n).1.faulted = true := by
  have hpos : 0 < n := by
    rcases Nat.eq_zero_or_pos n with hzero | hpos
    · rw [hzero, Nat.zero_mul] at hwrap
      exact absurd hwrap (by decide)
    · exact hpos
  have hless : T.size * n % 2 ^ 64 < T.size * n :=
    Nat.lt_of_lt_of_le (Nat.mod_lt _ (by decide)) (Nat.mul_comm n T.size ▸ hwrap)
  have hslots : T.size * n % 2 ^ 64 / T.size < n := Nat.div_lt_of_lt_mul hless
  obtain ⟨j, hj⟩ := Nat.exists_eq_add_of_lt hslots
  have hnew : allocate T s (max 1 n) = (s.alloc (T.size * n % 2 ^ 64 / T.size), s.next) := by
    rw [Nat.max_eq_right hpos, allocate, if_neg (by omega)]
    rfl
  simp only [Vec.ctorSize, hnew]
  have hpast := constructN_past (T := T) (sane_alloc hs _)
    (shows_alloc s (T.size * n % 2 ^ 64 / T.size)) j
  rw [Nat.add_right_comm, ← hj] at hpast
  exact hpast

end QuickStructs.Vector
