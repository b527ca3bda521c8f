import QuickStructs.Proof.VectorRefine

/-!
# A vector and the slots of its buffer

The capacity is what the code believes of the buffer. While it is left alone it is the number
of slots, and it may be zero: then there is no buffer, and no element. A `resize` changes it
and nothing else, so what is said here of a vector names the slots apart from the capacity.

An operation that takes the vector at its word may go wrong then. It either faults, or it
leaves a vector with its elements in a buffer again.
-/

namespace QuickStructs.Vector

open Lib Storage

variable {E : Type} {T : ElementType E}
variable {s s' : Storage E} {v : Vec} {l : List E} {a b i k n newCap : Nat} {x : E}

/-! ## Faults stay -/

theorem destroyN_faulted (h : s.faulted = true) (a k : Nat) : (destroyN s a k).faulted = true := by
  induction k with
  | zero => exact h
  | succ k ih => exact destroy_faulted ih a k

theorem moveN_round_faulted (h : (moveN T s a b k).faulted = true) :
    (moveN T s a b (k + 1)).faulted = true := by
  simp only [moveN]
  split
  · exact assign_faulted (construct_faulted h ..) ..
  · rfl

theorem moveN_faulted (h : (moveN T s a b k).faulted = true) (hk : k ≤ i) :
    (moveN T s a b i).faulted = true := by
  induction hk with
  | refl => exact h
  | step _ ih => exact moveN_round_faulted ih

theorem allocate_faulted (h : s.faulted = true) (newCap : Nat) :
    (allocate T s newCap).1.faulted = true := by
  unfold allocate
  split <;> exact h

theorem growCapacity_faulted (h : s.faulted = true) (v : Vec) (newCap : Nat) :
    (v.growCapacity T s newCap).1.faulted = true := by
  refine free_faulted (destroyN_faulted (moveN_faulted (k := 0) ?_ (Nat.zero_le _)) ..) ..
  exact allocate_faulted h newCap

/-! ## Slots -/

/-- The elements of the list are in the vector's buffer, which has `n` slots. -/
inductive Holds (s : Storage E) (v : Vec) : Nat → List E → Prop where
  | null (hptr : v.pArr = 0) (hsize : v.mSize = 0) : Holds s v 0 []
  | buffer (n : Nat) (l : List E) (ho : Owns s { v with mCap := n } l) : Holds s v n l

theorem Owns.holds (ho : Owns s v l) : Holds s v v.mCap l := .buffer v.mCap l ho

theorem Holds.size (h : Holds s v n l) : v.mSize = l.length := by
  cases h with
  | null _ hsize => exact hsize
  | buffer _ _ ho => exact ho.size

theorem Holds.room (h : Holds s v n l) : l.length ≤ n := by
  cases h with
  | null _ _ => exact Nat.le_refl 0
  | buffer _ _ ho => exact ho.room

/-- What the capacity is said to be does not concern the buffer. -/
theorem Holds.congr {v' : Vec} (h : Holds s v n l) (hptr : v'.pArr = v.pArr)
    (hsize : v'.mSize = v.mSize) : Holds s v' n l := by
  cases h with
  | null hp hs => exact .null (hptr.trans hp) (hsize.trans hs)
  | buffer _ _ ho =>
      refine .buffer n l ⟨?_, hsize.trans ho.size, ho.room, ho.pos⟩
      show Shows s v'.pArr n fun i => l[i]?
      rw [hptr]
      exact ho.shows

theorem Holds.slots (hs : Sane s) (h : Holds s v n l) : v.slots s = n := by
  unfold Vec.slots
  cases h with
  | null hptr _ =>
      rw [hptr, hs.placed.null]
      rfl
  | buffer _ _ ho =>
      obtain ⟨buf, hbuf, hsize, _⟩ := ho.shows
      have hbuf' : s.buffers v.pArr = some buf := hbuf
      rw [hbuf']
      exact hsize

/-- Where there are slots there is a buffer. -/
theorem Holds.there (h : Holds s v n l) (hpos : 0 < n) : ∃ buf, s.buffers v.pArr = some buf := by
  cases h with
  | null _ _ => exact absurd hpos (Nat.lt_irrefl 0)
  | buffer _ _ ho =>
      obtain ⟨buf, hbuf, _⟩ := ho.shows
      exact ⟨buf, hbuf⟩

theorem Holds.lt_next (hs : Sane s) (h : Holds s v n l) : v.pArr < s.next := by
  cases h with
  | null hptr _ => exact hptr ▸ hs.placed.next
  | buffer _ _ ho =>
      obtain ⟨buf, hbuf, _⟩ := ho.shows
      exact hs.placed.lt_next hbuf

theorem Holds.read (h : Holds s v n l) (hs : Sane s) (pos : Nat) :
    (v.index pos).read s = l[pos]? := by
  cases h with
  | null hptr _ =>
      show (s.slot v.pArr pos).map Object.val = none
      unfold Storage.slot
      rw [hptr, hs.placed.null]
      rfl
  | buffer _ _ ho => exact ho.read pos

/-- What an operation comes to, when it does not fault. -/
structure Gives (s : Storage E) (v : Vec) (n : Nat) (l : List E) (p : Storage E × Vec) : Prop where
  sane : Sane p.1
  holds : Holds p.1 p.2 n l
  change : Change s p.1 v.pArr p.2.pArr

theorem Gives.refl (hs : Sane s) (h : Holds s v n l) : Gives s v n l (s, v) :=
  ⟨hs, h, Change.of_frame (Frame.refl _ s)⟩

theorem Yields.gives {p : Storage E × Vec} (h : Yields s v l p) : Gives s v p.2.mCap l p :=
  ⟨h.sane, h.owns.holds, h.change⟩

theorem Gives.trans {p : Storage E × Vec} {q : Storage E × Vec} {m : Nat} {l' : List E}
    (h : Gives s v n l p) (h' : Gives p.1 p.2 m l' q) : Gives s v m l' q :=
  ⟨h'.sane, h'.holds, h.change.trans h'.change⟩

/-! ## Growing -/

theorem growCapacity_zero (v : Vec) (s : Storage E) (hsize : v.mSize = 0) :
    v.growCapacity T s 0 = (s.free v.pArr, { v with pArr := 0, mCap := 0 }) := by
  unfold Vec.growCapacity allocate
  rw [hsize, if_pos rfl]
  rfl

/-- The move to the end of a new buffer that is too short. -/
theorem moveN_short (hs : Sane s) (h : Holds s v n l) (hlt : newCap < l.length)
    (hfits : T.size * newCap < 2 ^ 64) :
    (moveN T (allocate T s newCap).1 v.pArr (allocate T s newCap).2 (newCap + 1)).faulted
      = true := by
  cases h with
  | null _ _ => exact absurd hlt (Nat.not_lt_zero _)
  | buffer _ _ ho =>
      have hold : Shows s v.pArr n fun i => l[i]? := ho.shows
      obtain ⟨buf, hbuf, _⟩ := id hold
      have hne : v.pArr ≠ s.next := Nat.ne_of_lt (hs.placed.lt_next hbuf)
      by_cases hzero : newCap = 0
      · subst hzero
        obtain ⟨o, ho', _⟩ := hold.slot (List.getElem?_eq_getElem hlt)
        have halloc : allocate T s 0 = (s, 0) := if_pos rfl
        rw [halloc]
        simp only [moveN, ho']
        exact assign_faulted (construct_nowhere hs.placed.null ..) ..
      · have hpos : 0 < newCap := Nat.pos_of_ne_zero hzero
        rw [allocate_eq hpos hfits]
        obtain ⟨_, hold', hnew, _⟩ := moveN_spec (T := T) (sane_alloc hs newCap) hne
          (hold.alloc hs.placed newCap) (shows_alloc s newCap) newCap (Nat.le_refl _)
          fun i hi => by rw [List.getElem?_eq_getElem (by omega)]; rfl
        obtain ⟨o, ho', _⟩ := hold'.slot ((upTo_self ..).trans (List.getElem?_eq_getElem hlt))
        simp only [moveN, ho']
        exact assign_faulted (construct_past hnew (Nat.le_refl _) _) ..

/-- **A growth to fewer slots than elements faults**, when it comes to the end of the new
buffer. -/
theorem growCapacity_short (hs : Sane s) (h : Holds s v n l) (hlt : newCap < l.length)
    (hfits : T.size * newCap < 2 ^ 64) : (v.growCapacity T s newCap).1.faulted = true := by
  refine free_faulted (destroyN_faulted (moveN_faulted (moveN_short hs h hlt hfits) ?_) ..) ..
  rw [h.size]
  exact hlt

/-- **A growth to enough slots keeps the elements.** -/
theorem growCapacity_holds (hs : Sane s) (h : Holds s v n l) (hle : l.length ≤ newCap)
    (hfits : T.size * newCap < 2 ^ 64) : Gives s v newCap l (v.growCapacity T s newCap) := by
  by_cases hzero : newCap = 0
  · subst hzero
    have hnil : l = [] := List.eq_nil_of_length_eq_zero (Nat.le_zero.mp hle)
    subst hnil
    rw [growCapacity_zero v s h.size]
    cases h with
    | null hptr hsize =>
        have hfree : s.free v.pArr = s := if_pos hptr
        rw [hfree]
        refine ⟨hs, .null rfl hsize, fun _ _ _ => rfl, Or.inl hptr.symm⟩
    | buffer _ _ ho =>
        have hshows : Shows s v.pArr n fun _ => none := ho.shows
        obtain ⟨buf, hbuf, _⟩ := id hshows
        have hframe := frame_free hs.placed hbuf
        exact ⟨sane_free hs hshows, .null rfl ho.size, fun c hc _ => hframe.others c hc,
          Or.inr ⟨hs.placed.null, free_self hs.placed hbuf⟩⟩
  · have hpos : 0 < newCap := Nat.pos_of_ne_zero hzero
    cases h with
    | null hptr hsize =>
        -- there is nothing to move and nothing to free
        have heq : v.growCapacity T s newCap
            = (s.alloc newCap, { v with pArr := s.next, mCap := newCap }) := by
          rw [growCapacity_eq hpos hfits, hsize, hptr]
          rfl
        rw [heq]
        refine ⟨sane_alloc hs newCap, .buffer newCap [] ⟨?_, hsize, Nat.zero_le _, hpos⟩,
          fun c _ hc => alloc_of_ne hc, Or.inr ⟨hs.placed.beyond _ (Nat.le_refl _), ?_⟩⟩
        · exact shows_alloc s newCap
        · rw [hptr]
          exact (alloc_of_ne (Nat.ne_of_lt hs.placed.next)).trans hs.placed.null
    | buffer _ _ ho =>
        have hy := (growCapacity_spec hs ho hpos hle hfits).gives
        exact ⟨hy.sane, hy.holds, hy.change⟩

theorem growCapacity_cases (hs : Sane s) (h : Holds s v n l) (hfits : T.size * newCap < 2 ^ 64) :
    (v.growCapacity T s newCap).1.faulted = true
    ∨ l.length ≤ newCap ∧ Gives s v newCap l (v.growCapacity T s newCap) := by
  rcases Nat.lt_or_ge newCap l.length with hlt | hle
  · exact Or.inl (growCapacity_short hs h hlt hfits)
  · exact Or.inr ⟨hle, growCapacity_holds hs h hle hfits⟩

/-! ## Appending -/

/-- An append grows the vector not at all, once, or twice. -/
theorem reserve_path (v : Vec) (s : Storage E) (hfits : v.AppendFits T) :
    (v.mCap ≠ 1 ∧ v.mSize < v.mCap ∧ v.reserve T s = (s, v))
    ∨ (v.mCap = 1 ∨ v.mCap ≤ v.mSize) ∧ ∃ m, T.size * m < 2 ^ 64
      ∧ (v.reserve T s = v.growCapacity T s m
        ∨ ∃ m', T.size * m' < 2 ^ 64 ∧ v.reserve T s
          = (v.growCapacity T s m).2.growCapacity T (v.growCapacity T s m).1 m') := by
  by_cases hone : v.mCap = 1
  · have hfit := hfits.1 (Or.inl hone)
    have hcap : (v.growCapacity T s (v.mCap * 3)).2.mCap = 3 := by
      show v.mCap * 3 = 3
      omega
    have hfirst : v.reserve T s = if (v.growCapacity T s (v.mCap * 3)).2.mCap ≤ v.mSize
        then (v.growCapacity T s (v.mCap * 3)).2.growCapacity T (v.growCapacity T s (v.mCap * 3)).1
          ((v.growCapacity T s (v.mCap * 3)).2.mCap * 3 % 2 ^ 64)
        else v.growCapacity T s (v.mCap * 3) := by
      unfold Vec.reserve
      rw [if_pos hone, growth_eq hfit]
      rfl
    refine Or.inr ⟨Or.inl hone, v.mCap * 3, hfit, ?_⟩
    rw [hcap] at hfirst
    split at hfirst
    · rename_i hfull
      have hfit' : T.size * (3 * 3) < 2 ^ 64 := hfits.2 hone (Or.inr hfull)
      exact Or.inr ⟨3 * 3, hfit', hfirst⟩
    · exact Or.inl hfirst
  · have hnone : v.reserve T s = if v.mCap ≤ v.mSize
        then v.growCapacity T s (v.mCap * 3 % 2 ^ 64) else (s, v) := by
      unfold Vec.reserve
      rw [if_neg hone]
    split at hnone
    · rename_i hfull
      have hfit := hfits.1 (Or.inr hfull)
      rw [growth_eq hfit] at hnone
      exact Or.inr ⟨Or.inr hfull, v.mCap * 3, hfit, Or.inl hnone⟩
    · rename_i hfull
      exact Or.inl ⟨hone, Nat.lt_of_not_le hfull, hnone⟩

theorem reserve_any (hs : Sane s) (h : Holds s v n l) (hfits : v.AppendFits T) :
    (v.reserve T s).1.faulted = true ∨ ∃ m, Gives s v m l (v.reserve T s) := by
  rcases reserve_path v s hfits with ⟨_, _, heq⟩ | ⟨_, m, hfit, heq | ⟨m', hfit', heq⟩⟩
  · rw [heq]
    exact Or.inr ⟨n, Gives.refl hs h⟩
  · rw [heq]
    exact (growCapacity_cases hs h hfit).imp_right fun hc => ⟨m, hc.2⟩
  · rw [heq]
    rcases growCapacity_cases hs h hfit with hfault | ⟨_, hfirst⟩
    · exact Or.inl (growCapacity_faulted hfault ..)
    · refine (growCapacity_cases hfirst.sane hfirst.holds hfit').imp_right fun hc => ?_
      exact ⟨m', hfirst.trans hc.2⟩

/-- **An element behind the last one**, in a free slot. -/
theorem place_holds (hs : Sane s) (h : Holds s v n l) (hlt : l.length < n) :
    Gives s v n (l ++ [x]) (s.construct v.pArr v.mSize x, { v with mSize := v.mSize + 1 }) := by
  cases h with
  | null _ _ => exact absurd hlt (Nat.not_lt_zero _)
  | buffer _ _ ho =>
      have hy := (place_spec (x := x) hs ho hlt).gives
      exact ⟨hy.sane, hy.holds.congr rfl rfl, hy.change⟩

/-- Behind the last slot there is none. -/
theorem place_full (hs : Sane s) (h : Holds s v n l) (hle : n ≤ l.length) :
    (s.construct v.pArr v.mSize x).faulted = true := by
  cases h with
  | null hptr _ =>
      rw [hptr]
      exact construct_nowhere hs.placed.null ..
  | buffer _ _ ho =>
      have hsize : v.mSize = l.length := ho.size
      rw [hsize]
      exact construct_past ho.shows hle x

theorem append_cases (hs : Sane s) (h : Holds s v n l) (hfits : v.AppendFits T) :
    (v.append T s x).1.faulted = true ∨ ∃ m, Gives s v m (l ++ [x]) (v.append T s x) := by
  rw [append_eq]
  rcases reserve_any hs h hfits with hfault | ⟨m, hgives⟩
  · exact Or.inl (construct_faulted hfault ..)
  · generalize v.reserve T s = p at hgives ⊢
    rcases Nat.lt_or_ge l.length m with hlt | hle
    · exact Or.inr ⟨m, hgives.trans (place_holds hgives.sane hgives.holds hlt)⟩
    · exact Or.inl (place_full hgives.sane hgives.holds hle)

/-! ## Acts -/

theorem popBack_holds (hs : Sane s) (h : Holds s v n l) : Gives s v n l.dropLast (v.popBack s) := by
  cases h with
  | null hptr hsize =>
      have heq : v.popBack s = (s, v) := if_pos hsize
      rw [heq]
      exact Gives.refl hs (.null hptr hsize)
  | buffer _ _ ho =>
      have hy := popBack_spec hs ho
      unfold Vec.popBack at hy ⊢
      split at hy
      · rename_i hzero
        rw [if_pos hzero]
        exact ⟨hy.sane, hy.owns.holds.congr rfl rfl, hy.change⟩
      · rename_i hzero
        rw [if_neg hzero]
        exact ⟨hy.sane, hy.owns.holds.congr rfl rfl, hy.change⟩

theorem write_holds (hs : Sane s) (h : Holds s v n l) {pos : Nat} (hpos : pos < v.mSize) :
    Gives s v n (l.set pos x) ((v.index pos).write s x, v) := by
  cases h with
  | null _ hsize =>
      rw [hsize] at hpos
      exact absurd hpos (Nat.not_lt_zero _)
  | buffer _ _ ho =>
      have hy := write_spec (x := x) hs ho hpos
      exact ⟨hy.sane, hy.owns.holds.congr rfl rfl, hy.change⟩

/-- A shrinking leaves as many slots as elements. -/
theorem shrink_holds (hs : Sane s) (h : Holds s v n l)
    (hfits : v.mSize < v.mCap → T.size * v.mSize < 2 ^ 64) :
    ∃ m, Gives s v m l (v.shrinkToFit T s) := by
  unfold Vec.shrinkToFit
  split
  · rename_i hlt
    exact ⟨_, growCapacity_holds hs h (Nat.le_of_eq h.size.symm) (hfits hlt)⟩
  · exact ⟨n, Gives.refl hs h⟩

/-- **An act faults, or does to the elements what it does to a list.** -/
theorem act_cases {c : Act E} (hs : Sane s) (h : Holds s v n l) (hrange : c.InRange v)
    (hfits : c.Fits T v) :
    (c.run T s v).1.faulted = true ∨ ∃ m, Gives s v m (c.onList l) (c.run T s v) := by
  cases c with
  | work op =>
      cases op with
      | pushBack x => exact append_cases hs h (hfits rfl)
      | emplaceBack x => exact append_cases hs h (hfits rfl)
      | popBack => exact Or.inr ⟨n, popBack_holds hs h⟩
      | write pos x => exact Or.inr ⟨n, write_holds hs h hrange⟩
  | shrinkToFit => exact Or.inr (shrink_holds hs h hfits)
  | resize newCap =>
      exact Or.inr ⟨n, hs, h.congr rfl rfl, Change.of_frame (Frame.refl _ s)⟩

/-! ## Vectors whose capacity can be trusted -/

/-- The size is not beyond the capacity, and the capacity not beyond the slots. -/
structure Trusted (s : Storage E) (v : Vec) (n : Nat) (l : List E) : Prop where
  holds : Holds s v n l
  room : v.mSize ≤ v.mCap
  cap : v.mCap ≤ n

/-- An act on a trusted vector leaves one, and exactly as many slots as the capacity says if
there were as many before. -/
structure Trusts (s : Storage E) (v : Vec) (n m : Nat) (l : List E)
    (p : Storage E × Vec) : Prop where
  gives : Gives s v m l p
  room : p.2.mSize ≤ p.2.mCap
  cap : p.2.mCap ≤ m
  exact : v.mCap = n → p.2.mCap = m

theorem append_trusted (hs : Sane s) (h : Trusted s v n l) (hpos : 0 < v.mCap)
    (hfits : v.GrowthFits T) : ∃ m, Trusts s v n m (l ++ [x]) (v.append T s x) := by
  have hsize := h.holds.size
  rw [append_eq]
  rcases reserve_cases (s := s) h.room hfits with ⟨heq, hlt⟩ | ⟨heq, hfit⟩
  · rw [heq]
    have hcap := h.cap
    exact ⟨n, place_holds hs h.holds (by omega), hlt, h.cap, id⟩
  · have hroom := h.room
    have hle : l.length ≤ v.mCap * 3 := by omega
    have hgives := growCapacity_holds hs h.holds hle hfit
    have hplace := place_holds (x := x) hgives.sane hgives.holds (by omega)
    rw [heq]
    refine ⟨v.mCap * 3, hgives.trans hplace, ?_, Nat.le_refl _, fun _ => rfl⟩
    show v.mSize + 1 ≤ v.mCap * 3
    omega

/-- **Without capacity an append has nowhere to construct its element.** -/
theorem append_hollow (hs : Sane s) (h : Holds s v n l) (hsize : v.mSize = 0) (hcap : v.mCap = 0) :
    (v.append T s x).1.faulted = true := by
  have hnil : l = [] := List.eq_nil_of_length_eq_zero (h.size.symm.trans hsize)
  subst hnil
  have heq : v.reserve T s = v.growCapacity T s 0 := by
    unfold Vec.reserve
    rw [if_neg (by omega)]
    show (if v.mCap ≤ v.mSize then v.growCapacity T s (v.mCap * 3 % 2 ^ 64) else (s, v)) = _
    rw [if_pos (by omega), hcap]
    rfl
  have hle : ([] : List E).length ≤ 0 := Nat.le_refl 0
  have hgives := growCapacity_holds (T := T) hs h hle (Nat.two_pow_pos 64)
  rw [append_eq, heq]
  exact place_full hgives.sane hgives.holds (Nat.le_refl _)

theorem Trusts.of_gives {p : Storage E × Vec} {l' : List E} (h : Trusted s v n l)
    (hgives : Gives s v n l' p) (hsize : p.2.mSize ≤ v.mSize) (hcap : p.2.mCap = v.mCap) :
    Trusts s v n n l' p :=
  ⟨hgives, hcap ▸ Nat.le_trans hsize h.room, hcap ▸ h.cap, fun hexact => hcap.trans hexact⟩

theorem popBack_size (v : Vec) (s : Storage E) : (v.popBack s).2.mSize = v.mSize - 1 := by
  unfold Vec.popBack
  split
  · rename_i hzero
    show v.mSize = v.mSize - 1
    omega
  · rfl

theorem popBack_cap (v : Vec) (s : Storage E) : (v.popBack s).2.mCap = v.mCap := by
  unfold Vec.popBack
  split
  · rfl
  · rfl

theorem shrink_trusted (hs : Sane s) (h : Trusted s v n l)
    (hfits : v.mSize < v.mCap → T.size * v.mSize < 2 ^ 64) :
    ∃ m, Trusts s v n m l (v.shrinkToFit T s) := by
  unfold Vec.shrinkToFit
  split
  · rename_i hlt
    have hgives := growCapacity_holds hs h.holds (Nat.le_of_eq h.holds.size.symm) (hfits hlt)
    exact ⟨v.mSize, hgives, Nat.le_refl _, Nat.le_refl _, fun _ => rfl⟩
  · exact ⟨n, Trusts.of_gives h (Gives.refl hs h.holds) (Nat.le_refl _) rfl⟩

/-- **An act on a trusted vector**, an append without capacity apart. -/
theorem act_trusted {c : Act E} (hs : Sane s) (h : Trusted s v n l) (hrange : c.InRange v)
    (hfits : c.Fits T v) (hkeeps : c.resizes = false) (hroom : c.appends = true → 0 < v.mCap) :
    ∃ m, Trusts s v n m (c.onList l) (c.run T s v) := by
  cases c with
  | work op =>
      cases op with
      | pushBack x => exact append_trusted hs h (hroom rfl) (hfits rfl).1
      | emplaceBack x => exact append_trusted hs h (hroom rfl) (hfits rfl).1
      | popBack =>
          refine ⟨n, Trusts.of_gives h (popBack_holds hs h.holds) ?_ (popBack_cap v s)⟩
          show (v.popBack s).2.mSize ≤ v.mSize
          rw [popBack_size]
          exact Nat.sub_le ..
      | write pos x =>
          exact ⟨n, Trusts.of_gives h (write_holds hs h.holds hrange) (Nat.le_refl _) rfl⟩
  | shrinkToFit => exact shrink_trusted hs h hfits
  | resize newCap => exact absurd hkeeps (by simp [Act.resizes])

/-- A trusted vector without capacity is empty, and an append to it faults. -/
theorem act_hollow {c : Act E} (hs : Sane s) (h : Trusted s v n l) (hcap : v.mCap = 0)
    (happends : c.appends = true) : (c.run T s v).1.faulted = true := by
  have hroom := h.room
  have hsize : v.mSize = 0 := by omega
  cases c with
  | work op =>
      cases op with
      | pushBack x => exact append_hollow hs h.holds hsize hcap
      | emplaceBack x => exact append_hollow hs h.holds hsize hcap
      | popBack => exact absurd happends (by simp [Act.appends, Op.appends])
      | write pos x => exact absurd happends (by simp [Act.appends, Op.appends])
  | shrinkToFit => exact absurd happends (by simp [Act.appends])
  | resize newCap => exact absurd happends (by simp [Act.appends])

/-! ## The life of a vector -/

/-- What is true of a vector in every life. -/
structure Kept (r : Life E) : Prop where
  sane : Sane r.storage
  holds : Holds r.storage r.vec (r.vec.slots r.storage) r.list
  only : ∀ a, a ≠ r.vec.pArr → r.storage.buffers a = none
  exact : r.resized = false → r.vec.mCap = r.vec.slots r.storage

variable {r r' : Life E} {size : Option Nat}

/-- While nobody resizes, the capacity can be trusted. -/
theorem Kept.trusted (h : Kept r) (hr : r.resized = false) :
    Trusted r.storage r.vec (r.vec.slots r.storage) r.list := by
  have hcap := h.exact hr
  have hroom := h.holds.room
  have hsize := h.holds.size
  exact ⟨h.holds, by omega, Nat.le_of_eq hcap⟩

theorem kept_start (hsize : ∀ n ∈ size, SizeFits T n) : Kept { toRun := start T size } := by
  obtain ⟨hs, ho, honly⟩ := alone_start hsize
  have hslots := ho.holds.slots hs
  refine ⟨hs, ?_, honly, fun _ => hslots.symm⟩
  show Holds _ _ ((start T size).vec.slots (start T size).storage) _
  rw [hslots]
  exact ho.holds

/-- What an act that is enabled comes to. -/
theorem does_cases {c : Act E} (h : does T r c = some r') :
    c.InRange r.vec ∧ c.Fits T r.vec ∧ r'.storage = (c.run T r.storage r.vec).1
      ∧ r'.vec = (c.run T r.storage r.vec).2 ∧ r'.list = c.onList r.list
      ∧ r'.resized = (r.resized || c.resizes) := by
  obtain ⟨⟨hrange, hfits⟩, rfl⟩ := Transition.of_guard h
  exact ⟨hrange, hfits, rfl, rfl, rfl, rfl⟩

theorem kept_step {c : Act E} (h : Kept r) (hdefined : Defined T r c)
    (hdoes : does T r c = some r') :
    Kept r' := by
  obtain ⟨hrange, hfits, hstorage, hvec, hlist, hresized⟩ := does_cases hdoes
  have hunfaulted : (c.run T r.storage r.vec).1.faulted = false := hdefined
  have hgives : ∃ m, Gives r.storage r.vec m (c.onList r.list) (c.run T r.storage r.vec)
      ∧ (r'.resized = false → r'.vec.mCap = m) := by
    cases hr : r'.resized with
    | true =>
        rcases act_cases h.sane h.holds hrange hfits with hfault | ⟨m, hm⟩
        · exact absurd (hunfaulted.symm.trans hfault) Bool.false_ne_true
        · exact ⟨m, hm, fun hc => absurd hc.symm Bool.false_ne_true⟩
    | false =>
        obtain ⟨hr', hkeeps⟩ := Bool.or_eq_false_iff.mp (hresized.symm.trans hr)
        have htrust := h.trusted hr'
        have hroom : c.appends = true → 0 < r.vec.mCap := by
          intro happends
          rcases Nat.eq_zero_or_pos r.vec.mCap with hzero | hpos
          · have hfault := act_hollow (T := T) h.sane htrust hzero happends
            exact absurd (hunfaulted.symm.trans hfault) Bool.false_ne_true
          · exact hpos
        obtain ⟨m, hm⟩ := act_trusted h.sane htrust hrange hfits hkeeps hroom
        exact ⟨m, hm.gives, fun _ => hvec ▸ hm.exact (h.exact hr')⟩
  obtain ⟨m, ⟨hs, hholds, hchange⟩, hexact⟩ := hgives
  rw [← hstorage] at hs
  rw [← hstorage, ← hvec] at hholds hchange
  have hslots := hholds.slots hs
  refine ⟨hs, ?_, hchange.only h.only, fun hr => (hexact hr).trans hslots.symm⟩
  rw [hslots, hlist]
  exact hholds

theorem lived_kept (hsize : ∀ n ∈ size, SizeFits T n) (h : Lived T size r) : Kept r :=
  h.invariant (kept_start hsize) fun _ _ _ _ hr hstep => kept_step hr hstep.1 hstep.2

end QuickStructs.Vector
