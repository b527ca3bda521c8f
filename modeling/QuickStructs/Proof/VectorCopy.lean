import QuickStructs.Proof.VectorAlias

/-!
# Copies of a vector

While no buffer is copied, each vector has a buffer of its own or none, and every buffer
has one owner: an operation on one vector is then nothing to the others. The implicit
copy operations break this at once. They give the buffer a second owner, and the second
destructor to run finds it freed; a buffer that an assignment puts another address in the
place of has no owner any more.

A program may also change the capacity, and an append may then find no slot for its
element. What an append does is decided by the capacity, the size and the slots there are.
And an append may be given an element of a vector, which it reads when it has made room:
one of its own it finds only if it makes none, and `push_back` moves from the element of
any vector.
-/

namespace QuickStructs.Vector

open Lib Storage

variable {V E : Type} {T : ElementType E} {w w' : World V E}
variable {v u d e : V} {x y : Vec} {l : List E} {s s' : Storage E} {a k n pos : Nat} {z : E}
variable {left : E → E}

/-! ## Appends and slots -/

/-- An append finds a slot for its element: the one behind the last element, if the size is
below the capacity, and else one in the buffer that it grows to. -/
def Vec.FindsSlot (v : Vec) (s : Storage E) : Prop :=
  if v.mCap = 1 then v.mSize ≤ 3
  else if v.mSize < v.mCap then v.mSize < v.slots s
  else v.mSize < v.mCap * 3

instance (v : Vec) (s : Storage E) : Decidable (v.FindsSlot s) :=
  inferInstanceAs (Decidable (if v.mCap = 1 then v.mSize ≤ 3 else
    if v.mSize < v.mCap then v.mSize < v.slots s else v.mSize < v.mCap * 3))

/-- From a capacity of one, a vector grows to three slots, and to nine if they are full. -/
theorem reserve_one (hone : x.mCap = 1) (hfit : T.size * (x.mCap * 3) < 2 ^ 64) :
    x.reserve T s = if 3 ≤ x.mSize
      then (x.growCapacity T s 3).2.growCapacity T (x.growCapacity T s 3).1 9
      else x.growCapacity T s 3 := by
  have hthree : x.mCap * 3 = 3 := by omega
  unfold Vec.reserve
  rw [if_pos hone, growth_eq hfit, hthree]
  rfl

/-- From any other, not at all while the size is below it, and once else. -/
theorem reserve_else (hone : x.mCap ≠ 1) : x.reserve T s
    = if x.mCap ≤ x.mSize then x.growCapacity T s (x.mCap * 3 % 2 ^ 64) else (s, x) := by
  unfold Vec.reserve
  rw [if_neg hone]

/-- **An append that finds a slot** has one behind the last element when it has made room. -/
theorem reserve_finds (hs : Sane s) (h : Holds s x n l) (hfits : x.AppendFits T)
    (hslot : x.FindsSlot s) : ∃ m, l.length < m ∧ Gives s x m l (x.reserve T s) := by
  have hsize := h.size
  unfold Vec.FindsSlot at hslot
  by_cases hone : x.mCap = 1
  · rw [if_pos hone] at hslot
    have hfit := hfits.1 (Or.inl hone)
    rw [reserve_one (s := s) hone hfit]
    rw [hone] at hfit
    have hfirst := growCapacity_holds hs h (hsize ▸ hslot) hfit
    by_cases hfull : 3 ≤ x.mSize
    · rw [if_pos hfull]
      have hfit' : T.size * (3 * 3) < 2 ^ 64 := hfits.2 hone (Or.inr hfull)
      have hsecond := growCapacity_holds hfirst.sane hfirst.holds (by omega) hfit'
      exact ⟨_, by omega, hfirst.trans hsecond⟩
    · rw [if_neg hfull]
      exact ⟨_, by omega, hfirst⟩
  · rw [if_neg hone] at hslot
    rw [reserve_else hone]
    by_cases hlt : x.mSize < x.mCap
    · rw [if_pos hlt, h.slots hs, hsize] at hslot
      rw [if_neg (Nat.not_le.mpr hlt)]
      exact ⟨n, hslot, Gives.refl hs h⟩
    · rw [if_neg hlt] at hslot
      have hfit := hfits.1 (Or.inr (Nat.not_lt.mp hlt))
      rw [if_pos (Nat.not_lt.mp hlt), growth_eq hfit]
      exact ⟨_, by omega, growCapacity_holds hs h (by omega) hfit⟩

/-- It puts its element there. -/
theorem append_finds (hs : Sane s) (h : Holds s x n l) (hfits : x.AppendFits T)
    (hslot : x.FindsSlot s) : ∃ m, Gives s x m (l ++ [z]) (x.append T s z) := by
  obtain ⟨m, hlt, hgives⟩ := reserve_finds hs h hfits hslot
  rw [append_eq]
  exact ⟨m, hgives.trans (place_holds hgives.sane hgives.holds hlt)⟩

/-- **An append that finds none** constructs its element, or moves one, where there is no slot. -/
theorem append_lost (hs : Sane s) (h : Holds s x n l) (hfits : x.AppendFits T)
    (hslot : ¬x.FindsSlot s) : (x.append T s z).1.faulted = true := by
  have hsize := h.size
  unfold Vec.FindsSlot at hslot
  rw [append_eq]
  by_cases hone : x.mCap = 1
  · rw [if_pos hone] at hslot
    have hfit := hfits.1 (Or.inl hone)
    rw [reserve_one (s := s) hone hfit, if_pos (by omega)]
    rw [hone] at hfit
    refine construct_faulted (growCapacity_faulted ?_ ..) ..
    exact growCapacity_short hs h (by omega) hfit
  · rw [if_neg hone] at hslot
    by_cases hlt : x.mSize < x.mCap
    · rw [if_pos hlt, h.slots hs, hsize] at hslot
      rw [reserve_else hone, if_neg (Nat.not_le.mpr hlt)]
      exact place_full hs h (Nat.not_lt.mp hslot)
    · rw [if_neg hlt] at hslot
      have hfit := hfits.1 (Or.inr (Nat.not_lt.mp hlt))
      rw [reserve_else hone, growth_eq hfit, if_pos (Nat.not_lt.mp hlt)]
      rcases growCapacity_cases hs h hfit with hfault | ⟨hle, hgives⟩
      · exact construct_faulted hfault ..
      · exact place_full hgives.sane hgives.holds (by omega)

/-! ## Values -/

/-- The vectors are values, and what they used is given back. -/
structure Values (w : World V E) : Prop where
  /-- A vector shows its own list, whatever is done to the others. -/
  size : ∀ v x l, w.vectors v = some x → w.lists v = some l → x.mSize = l.length
  elements : ∀ v x l pos, w.vectors v = some x → w.lists v = some l → pos < l.length →
    (x.index pos).read w.storage = l[pos]?
  unfaulted : w.storage.faulted = false
  /-- When the last vector is gone, everything was destroyed once and freed once. -/
  destroyed : (∀ v, w.vectors v = none) → ∀ id, id < w.storage.nextId →
    w.storage.destroyed.count id = 1
  freed : (∀ v, w.vectors v = none) → ∀ a, 0 < a → a < w.storage.next →
    w.storage.freed.count a = 1

/-- Each vector has a buffer of its own or none, and each buffer is owned. -/
structure Apart (w : World V E) : Prop where
  sane : Sane w.storage
  holds : ∀ v x, w.vectors v = some x → ∃ n l, w.lists v = some l ∧ Holds w.storage x n l
  once : ∀ v u x y, w.vectors v = some x → w.vectors u = some y → x.pArr ≠ 0 →
    x.pArr = y.pArr → v = u
  owned : ∀ a, w.storage.buffers a ≠ none → ∃ v x, w.vectors v = some x ∧ x.pArr = a

theorem Holds.frame (hs : Sane s) (h : Holds s x n l)
    (hb : x.pArr ≠ 0 → s'.buffers x.pArr = s.buffers x.pArr) : Holds s' x n l := by
  cases h with
  | null hptr hsize => exact .null hptr hsize
  | buffer _ _ ho =>
      obtain ⟨buf, hbuf, hshow⟩ := ho.shows
      have hptr : x.pArr ≠ 0 := hs.placed.ne_null hbuf
      exact .buffer n l ⟨⟨buf, (hb hptr).trans hbuf, hshow⟩, ho.size, ho.room, ho.pos⟩

/-- A buffer is there, unless its address is null. -/
theorem Holds.buffer_ne (h : Holds s x n l) (hptr : x.pArr ≠ 0) : s.buffers x.pArr ≠ none := by
  cases h with
  | null hp _ => exact absurd hp hptr
  | buffer _ _ ho =>
      obtain ⟨buf, hbuf, _⟩ := ho.shows
      have hbuf' : s.buffers x.pArr = some buf := hbuf
      rw [hbuf']
      simp

/-- A vector without a buffer has no element. -/
theorem Holds.null_empty (hs : Sane s) (h : Holds s x n l) (hptr : x.pArr = 0) :
    x.mSize = 0 ∧ l = [] := by
  cases h with
  | null _ hsize => exact ⟨hsize, rfl⟩
  | buffer _ _ ho =>
      obtain ⟨buf, hbuf, _⟩ := ho.shows
      exact absurd hptr (hs.placed.ne_null hbuf)

/-- What an act on a vector does is nothing to another buffer. -/
theorem Gives.other {p : Storage E × Vec} (h : Gives s x n l p) (ha : s.buffers a ≠ none)
    (hne : a ≠ x.pArr) : p.1.buffers a = s.buffers a ∧ p.2.pArr ≠ a := by
  -- a new buffer was not there before
  have hnew : p.2.pArr ≠ a := by
    rcases h.change.moved with heq | ⟨hfresh, _⟩
    · rw [heq]
      exact hne.symm
    · exact fun hp => ha (hp ▸ hfresh)
  exact ⟨h.change.others a hne hnew.symm, hnew⟩

/-- **The destructor** leaves nothing of the vector's buffer, and the others alone. -/
theorem dtor_holds (hs : Sane s) (h : Holds s x n l) :
    Sane (x.dtor s) ∧ (x.dtor s).buffers x.pArr = none
      ∧ ∀ c, c ≠ x.pArr → (x.dtor s).buffers c = s.buffers c := by
  cases h with
  | null hptr hsize =>
      have heq : x.dtor s = s := by
        unfold Vec.dtor
        rw [hsize, hptr]
        rfl
      rw [heq, hptr]
      exact ⟨hs, hs.placed.null, fun _ _ => rfl⟩
  | buffer _ _ ho =>
      obtain ⟨hs', hgone, hframe⟩ := dtor_spec hs ho
      exact ⟨hs', hgone, hframe.others⟩

theorem apart_init : Apart ({} : World V E) where
  sane := sane_empty
  holds := fun _ _ hx => absurd hx (by simp)
  once := fun _ _ _ _ hx => absurd hx (by simp)
  owned := fun _ ha => absurd rfl ha

theorem Apart.values (h : Apart w) : Values w := by
  have hnone : (∀ v, w.vectors v = none) → ∀ a, w.storage.buffers a = none := by
    intro hgone a
    by_contra ha
    obtain ⟨v, x, hx, _⟩ := h.owned a ha
    rw [hgone v] at hx
    exact absurd hx (by simp)
  have hholds : ∀ v x l, w.vectors v = some x → w.lists v = some l →
      ∃ n, Holds w.storage x n l := by
    intro v x l hx hl
    obtain ⟨n, l', hl', ho⟩ := h.holds v x hx
    rw [← Option.some.inj (hl'.symm.trans hl)]
    exact ⟨n, ho⟩
  refine ⟨fun v x l hx hl => ?_, fun v x l pos hx hl _ => ?_, h.sane.unfaulted,
    fun hgone => (h.sane.settled (hnone hgone)).1, fun hgone => (h.sane.settled (hnone hgone)).2⟩
  · obtain ⟨n, ho⟩ := hholds v x l hx hl
    exact ho.size
  · obtain ⟨n, ho⟩ := hholds v x l hx hl
    exact ho.read h.sane pos

/-! ## Elements of vectors -/

theorem vec_eq (hx : w.vectors v = some x) (hy : w.vectors u = some y) (hvu : v = u) : x = y := by
  rw [hvu, hy] at hx
  exact (Option.some.inj hx).symm

theorem appended_eq {k : List E} (hl : w.lists v = some l) (hk : w.lists u = some k)
    (hz : k[pos]? = some z) : w.appended v u pos = some (l ++ [z]) := by
  unfold World.appended
  rw [hl, hk, Option.bind_some, Option.bind_some, hz]
  rfl

/-- The element that an append is given. -/
theorem Apart.element (h : Apart w) (hy : w.vectors u = some y) (hpos : pos < y.mSize) :
    ∃ k z, w.lists u = some k ∧ k[pos]? = some z ∧ (y.index pos).read w.storage = some z := by
  obtain ⟨n, k, hk, ho⟩ := h.holds u y hy
  rw [ho.size] at hpos
  have hz := List.getElem?_eq_getElem hpos
  exact ⟨k, k[pos], hk, hz, (ho.read h.sane pos).trans hz⟩

/-- An append of an element faults if it finds no slot, or if it frees the element first. -/
theorem ref_faults (left : E → E) (h : Apart w) (hx : w.vectors v = some x)
    (hy : w.vectors u = some y) (hpos : pos < y.mSize) (hfits : x.AppendFits T)
    (hbad : ¬(x.FindsSlot w.storage ∧ (v = u → x.mCap ≠ 1 ∧ x.mSize < x.mCap))) :
    (x.pushBackRef T left w.storage (y.index pos)).1.faulted = true
      ∧ (x.emplaceBackRef T w.storage (y.index pos)).1.faulted = true := by
  obtain ⟨n, l, _, ho⟩ := h.holds v x hx
  by_cases hslot : x.FindsSlot w.storage
  · obtain ⟨hvu, hgrows⟩ : v = u ∧ ¬(x.mCap ≠ 1 ∧ x.mSize < x.mCap) := by
      simpa [hslot] using hbad
    have hxy := vec_eq hx hy hvu
    rw [← hxy] at hpos ⊢
    exact grown_ref left h.sane ho (ho.size ▸ hpos) hfits (by omega)
  · cases hread : (y.index pos).read (x.reserve T w.storage).1 with
    | none =>
        rw [pushBackRef_eq, emplaceBackRef_eq, hread]
        exact ⟨rfl, rfl⟩
    | some z =>
        have hlost := append_lost (z := z) h.sane ho hfits hslot
        rw [pushBackRef_read left hread, emplaceBackRef_read hread]
        exact ⟨assign_faulted hlost .., hlost⟩

/-! ## A buffer with two owners -/

/-- A call that makes `d` a copy of `e`. -/
def Copies (c : Call V E) (d e : V) : Prop := c = .copyCtor d e ∨ c = .copyAssign d e

theorem destroyN_gone (ha : s.buffers a = none) : ∀ k, (destroyN s a k).buffers a = none
  | 0 => ha
  | k + 1 => by
      have hgone := destroyN_gone ha k
      show ((destroyN s a k).destroy a k).buffers a = none
      unfold destroy slot
      rw [hgone]
      exact hgone

/-- **The destructor frees its buffer**, and faults if it is not there. -/
theorem dtor_gone (hptr : x.pArr ≠ 0) (hx : s.buffers x.pArr = none) :
    (x.dtor s).faulted = true := by
  have hgone := destroyN_gone hx x.mSize
  unfold Vec.dtor free
  rw [if_neg hptr, hgone]
  rfl

variable [DecidableEq V]

/-! ## Calls, case by case -/

inductive Called (T : ElementType E) (left : E → E) (w : World V E) :
    Call V E → World V E → Prop where
  | ctor (v : V) (hv : w.vectors v = none) :
      Called T left w (.ctor v)
        (w.set (Vec.ctor T w.storage).1 v (some (Vec.ctor T w.storage).2) (some []))
  | ctorSize (v : V) (size : Nat) (hv : w.vectors v = none) :
      Called T left w (.ctorSize v size)
        (w.set (Vec.ctorSize T w.storage size).1 v (some (Vec.ctorSize T w.storage size).2)
          (some (List.replicate size T.default)))
  | copyCtor (v other : V) (y : Vec) (hv : w.vectors v = none) (hy : w.vectors other = some y) :
      Called T left w (.copyCtor v other) (w.set w.storage v (some y.copy) (w.lists other))
  | copyAssign (v other : V) (x y : Vec) (hx : w.vectors v = some x)
      (hy : w.vectors other = some y) :
      Called T left w (.copyAssign v other) (w.set w.storage v (some y.copy) (w.lists other))
  | run (v : V) (c : Act E) (x : Vec) (hx : w.vectors v = some x) (hrange : c.InRange x) :
      Called T left w (.run v c)
        (w.set (c.run T w.storage x).1 v (some (c.run T w.storage x).2)
          ((w.lists v).map c.onList))
  | pushBackRef (v other : V) (pos : Nat) (x y : Vec) (hx : w.vectors v = some x)
      (hy : w.vectors other = some y) (hpos : pos < y.mSize) :
      Called T left w (.pushBackRef v other pos)
        (w.set (x.pushBackRef T left w.storage (y.index pos)).1 v
          (some (x.pushBackRef T left w.storage (y.index pos)).2) (w.appended v other pos))
  | emplaceBackRef (v other : V) (pos : Nat) (x y : Vec) (hx : w.vectors v = some x)
      (hy : w.vectors other = some y) (hpos : pos < y.mSize) :
      Called T left w (.emplaceBackRef v other pos)
        (w.set (x.emplaceBackRef T w.storage (y.index pos)).1 v
          (some (x.emplaceBackRef T w.storage (y.index pos)).2) (w.appended v other pos))
  | dtor (v : V) (x : Vec) (hx : w.vectors v = some x) :
      Called T left w (.dtor v) (w.set (x.dtor w.storage) v none none)

theorem call_cases {c : Call V E} (h : w.call T left c = some w') : Called T left w c w' := by
  cases c with
  | ctor v =>
      rw [World.call] at h
      split at h
      · rename_i hv
        rw [← Option.some.inj h]
        exact .ctor v hv
      · exact absurd h (by simp)
  | ctorSize v size =>
      rw [World.call] at h
      split at h
      · rename_i hv
        rw [← Option.some.inj h]
        exact .ctorSize v size hv
      · exact absurd h (by simp)
  | copyCtor v other =>
      rw [World.call] at h
      split at h
      · rename_i y hv hy
        rw [← Option.some.inj h]
        exact .copyCtor v other y hv hy
      · exact absurd h (by simp)
  | copyAssign v other =>
      rw [World.call] at h
      split at h
      · rename_i x y hx hy
        rw [← Option.some.inj h]
        exact .copyAssign v other x y hx hy
      · exact absurd h (by simp)
  | run v c =>
      rw [World.call] at h
      split at h
      · rename_i x hx
        obtain ⟨hrange, rfl⟩ := Transition.of_guard h
        exact .run v c x hx hrange
      · exact absurd h (by simp)
  | pushBackRef v other pos =>
      rw [World.call] at h
      split at h
      · rename_i x y hx hy
        obtain ⟨hpos, rfl⟩ := Transition.of_guard h
        exact .pushBackRef v other pos x y hx hy hpos
      · exact absurd h (by simp)
  | emplaceBackRef v other pos =>
      rw [World.call] at h
      split at h
      · rename_i x y hx hy
        obtain ⟨hpos, rfl⟩ := Transition.of_guard h
        exact .emplaceBackRef v other pos x y hx hy hpos
      · exact absurd h (by simp)
  | dtor v =>
      rw [World.call] at h
      split at h
      · rename_i x hx
        rw [← Option.some.inj h]
        exact .dtor v x hx
      · exact absurd h (by simp)

/-! ## Uncopied buffers -/

/-- An append of an element of `other` to `v` finds a slot, and it makes no room if the element
is one of its own. -/
def FindsElement (T : ElementType E) (w : World V E) (v other : V) : Prop :=
  ∀ x ∈ w.vectors v, x.AppendFits T ∧ x.FindsSlot w.storage
    ∧ (v = other → x.mCap ≠ 1 ∧ x.mSize < x.mCap)

instance (w : World V E) (v other : V) : Decidable (FindsElement T w v other) :=
  inferInstanceAs (Decidable (∀ x ∈ w.vectors v, _))

/-- No buffer is copied to another vector or lost by an assignment, every append finds a
slot, and its element if it is given one, which a move has to leave as it was for `push_back`,
and byte sizes fit. -/
def Uncopied (T : ElementType E) (left : E → E) (w : World V E) : Call V E → Prop
  | .ctor _ => True
  | .ctorSize _ size => SizeFits T size
  | .copyCtor _ other => ∀ y ∈ w.vectors other, y.pArr = 0
  | .copyAssign v other =>
    v = other ∨ (∀ x ∈ w.vectors v, x.pArr = 0) ∧ ∀ y ∈ w.vectors other, y.pArr = 0
  | .run v c => ∀ x ∈ w.vectors v, c.Fits T x ∧ (c.appends = true → x.FindsSlot w.storage)
  | .pushBackRef v other pos => FindsElement T w v other
    ∧ ∀ y ∈ w.vectors other, ∀ z ∈ (y.index pos).read w.storage, left z = z
  | .emplaceBackRef v other _ => FindsElement T w v other
  | .dtor _ => True

instance [DecidableEq E] (w : World V E) : (c : Call V E) → Decidable (Uncopied T left w c)
  | .ctor _ => inferInstanceAs (Decidable True)
  | .ctorSize _ size => inferInstanceAs (Decidable (SizeFits T size))
  | .copyCtor _ other => inferInstanceAs (Decidable (∀ y ∈ w.vectors other, y.pArr = 0))
  | .copyAssign v other => inferInstanceAs (Decidable (v = other
      ∨ (∀ x ∈ w.vectors v, x.pArr = 0) ∧ ∀ y ∈ w.vectors other, y.pArr = 0))
  | .run v c => inferInstanceAs (Decidable (∀ x ∈ w.vectors v,
      c.Fits T x ∧ (c.appends = true → x.FindsSlot w.storage)))
  | .pushBackRef v other pos => inferInstanceAs (Decidable (FindsElement T w v other
      ∧ ∀ y ∈ w.vectors other, ∀ z ∈ (y.index pos).read w.storage, left z = z))
  | .emplaceBackRef v other _ => inferInstanceAs (Decidable (FindsElement T w v other))
  | .dtor _ => inferInstanceAs (Decidable True)

/-- **A vector is replaced.** The buffers of the others have to be left alone, and every
buffer that is still there has to have an owner. -/
theorem apart_set (h : Apart w) (hs : Sane s') {x' : Option Vec} {l' : Option (List E)}
    (hown : ∀ z, x' = some z → ∃ n l, l' = some l ∧ Holds s' z n l)
    (hothers : ∀ u y, u ≠ v → w.vectors u = some y → y.pArr ≠ 0 →
      s'.buffers y.pArr = w.storage.buffers y.pArr ∧ ∀ z, x' = some z → z.pArr ≠ y.pArr)
    (howned : ∀ a, s'.buffers a ≠ none → (∃ z, x' = some z ∧ z.pArr = a)
      ∨ (w.storage.buffers a ≠ none ∧ ∀ z, w.vectors v = some z → z.pArr ≠ a)) :
    Apart (w.set s' v x' l') := by
  have hself : (w.set s' v x' l').vectors v = x' := by
    show Function.update w.vectors v x' v = x'
    rw [Function.update_self]
  have hne : ∀ u, u ≠ v → (w.set s' v x' l').vectors u = w.vectors u := by
    intro u hu
    show Function.update w.vectors v x' u = w.vectors u
    rw [Function.update_of_ne hu]
  refine ⟨hs, fun u y hy => ?_, fun u₁ u₂ y₁ y₂ h₁ h₂ hnull hptr => ?_, fun a ha => ?_⟩
  · by_cases hu : u = v
    · rw [hu, hself] at hy
      obtain ⟨n, l, hl, ho⟩ := hown y hy
      refine ⟨n, l, ?_, ho⟩
      show Function.update w.lists v l' u = some l
      rw [hu, Function.update_self, hl]
    · rw [hne u hu] at hy
      obtain ⟨n, l, hl, ho⟩ := h.holds u y hy
      refine ⟨n, l, ?_, Holds.frame h.sane ho fun hptr => (hothers u y hu hy hptr).1⟩
      show Function.update w.lists v l' u = some l
      rw [Function.update_of_ne hu, hl]
  · by_cases hu₁ : u₁ = v
    · by_cases hu₂ : u₂ = v
      · rw [hu₁, hu₂]
      · rw [hu₁, hself] at h₁
        rw [hne u₂ hu₂] at h₂
        exact absurd hptr ((hothers u₂ y₂ hu₂ h₂ (hptr ▸ hnull)).2 y₁ h₁)
    · rw [hne u₁ hu₁] at h₁
      by_cases hu₂ : u₂ = v
      · rw [hu₂, hself] at h₂
        exact absurd hptr.symm ((hothers u₁ y₁ hu₁ h₁ hnull).2 y₂ h₂)
      · rw [hne u₂ hu₂] at h₂
        exact h.once u₁ u₂ y₁ y₂ h₁ h₂ hnull hptr
  · rcases howned a ha with ⟨z, hz, hza⟩ | ⟨hwas, hother⟩
    · exact ⟨v, z, hself.trans hz, hza⟩
    · -- the owner of a buffer that was there before is not the one replaced
      obtain ⟨u, y, hy, hya⟩ := h.owned a hwas
      have hu : u ≠ v := by
        intro hu
        rw [hu] at hy
        exact hother y hy hya
      exact ⟨u, y, (hne u hu).trans hy, hya⟩

theorem apart_begin {p : Storage E × Vec} (h : Apart w) (hv : w.vectors v = none)
    (hb : Begins w.storage l p) : Apart (w.set p.1 v (some p.2) (some l)) := by
  refine apart_set h hb.sane ?_ (fun u y _ hy hnull => ?_) fun a ha => ?_
  · rintro z ⟨⟩
    exact ⟨_, l, rfl, hb.owns.holds⟩
  · obtain ⟨n, l', _, ho⟩ := h.holds u y hy
    have hptr : p.2.pArr ≠ y.pArr := fun hp => ho.buffer_ne hnull (hp ▸ hb.new)
    refine ⟨hb.others _ (Ne.symm hptr), ?_⟩
    rintro z ⟨⟩
    exact hptr
  · by_cases hap : a = p.2.pArr
    · exact Or.inl ⟨p.2, rfl, hap.symm⟩
    · refine Or.inr ⟨hb.others a hap ▸ ha, fun z hz => ?_⟩
      rw [hv] at hz
      exact absurd hz (by simp)

/-- **An act on a vector is its own affair.** -/
theorem apart_gives {p : Storage E × Vec} {l' : List E} (h : Apart w) (hx : w.vectors v = some x)
    (hy : Gives w.storage x n l' p) : Apart (w.set p.1 v (some p.2) (some l')) := by
  refine apart_set h hy.sane ?_ (fun u y hu hyu hnull => ?_) fun a ha => ?_
  · rintro z ⟨⟩
    exact ⟨n, l', rfl, hy.holds⟩
  · have hold : y.pArr ≠ x.pArr := fun hp => hu (h.once u v y x hyu hx hnull hp)
    obtain ⟨n, l', _, ho'⟩ := h.holds u y hyu
    obtain ⟨hkept, hnew⟩ := hy.other (ho'.buffer_ne hnull) hold
    refine ⟨hkept, ?_⟩
    rintro z ⟨⟩
    exact hnew
  · by_cases hap : a = p.2.pArr
    · exact Or.inl ⟨_, rfl, hap.symm⟩
    · have hax : a ≠ x.pArr := by
        rcases hy.change.moved with heq | ⟨_, hgone⟩
        · rw [← heq]
          exact hap
        · exact fun hax => ha (hax ▸ hgone)
      refine Or.inr ⟨hy.change.others a hax hap ▸ ha, fun z hz => ?_⟩
      rw [hx] at hz
      cases hz
      exact hax.symm

theorem act_finds {c : Act E} (hs : Sane s) (h : Holds s x n l) (hrange : c.InRange x)
    (hfits : c.Fits T x) (hslot : c.appends = true → x.FindsSlot s) :
    ∃ m, Gives s x m (c.onList l) (c.run T s x) := by
  cases c with
  | work op =>
      cases op with
      | pushBack z => exact append_finds hs h (hfits rfl) (hslot rfl)
      | emplaceBack z => exact append_finds hs h (hfits rfl) (hslot rfl)
      | popBack => exact ⟨n, popBack_holds hs h⟩
      | write pos z => exact ⟨n, write_holds hs h hrange⟩
  | shrinkToFit => exact shrink_holds hs h hfits
  | resize newCap => exact ⟨n, hs, h.congr rfl rfl, Change.of_frame (Frame.refl _ s)⟩

theorem apart_run {c : Act E} (h : Apart w) (hx : w.vectors v = some x) (hrange : c.InRange x)
    (hfits : c.Fits T x) (hslot : c.appends = true → x.FindsSlot w.storage) :
    Apart (w.set (c.run T w.storage x).1 v (some (c.run T w.storage x).2)
      ((w.lists v).map c.onList)) := by
  obtain ⟨n, l, hl, ho⟩ := h.holds v x hx
  obtain ⟨m, hgives⟩ := act_finds h.sane ho hrange hfits hslot
  rw [hl]
  exact apart_gives h hx hgives

theorem append_ptr (hone : x.mCap ≠ 1) (hlt : x.mSize < x.mCap) :
    x.reserve T s = (s, x) ∧ (x.append T s z).2.pArr = x.pArr := by
  have hreserve : x.reserve T s = (s, x) :=
    (reserve_else hone).trans (if_neg (Nat.not_le.mpr hlt))
  rw [append_eq, hreserve]
  exact ⟨rfl, rfl⟩

/-- **An element that an append finds** stays where it is: it is one of another vector, or of
one that makes no room. -/
theorem element_stays (h : Apart w) (hx : w.vectors v = some x) (hy : w.vectors u = some y)
    (hz : (y.index pos).read w.storage = some z) (hfinds : FindsElement T w v u) :
    (y.index pos).read (x.reserve T w.storage).1 = some z
      ∧ (y.index pos).read (x.append T w.storage z).1 = some z := by
  obtain ⟨hfits, hslot, hroom⟩ := hfinds x hx
  obtain ⟨n, l, _, ho⟩ := h.holds v x hx
  obtain ⟨m, hgives⟩ := append_finds (z := z) h.sane ho hfits hslot
  by_cases hvu : v = u
  · have hxy := vec_eq hx hy hvu
    rw [← hxy] at hz ⊢
    obtain ⟨hreserve, hptr⟩ := append_ptr (T := T) (s := w.storage) (z := z) (hroom hvu).1
      (hroom hvu).2
    have hread := hgives.holds.read hgives.sane pos
    unfold Vec.index at hread hz ⊢
    rw [hptr] at hread
    rw [hreserve, hread]
    refine ⟨hz, ?_⟩
    have hl : l[pos]? = some z := (ho.read h.sane pos).symm.trans hz
    rw [List.getElem?_append_left (List.getElem?_eq_some_iff.mp hl).1, hl]
  · obtain ⟨k, l', _, ho'⟩ := h.holds u y hy
    rw [ho'.read h.sane] at hz
    have hnull : y.pArr ≠ 0 := by
      intro hptr
      rw [(ho'.null_empty h.sane hptr).2] at hz
      exact absurd hz (by simp)
    have hne : y.pArr ≠ x.pArr := fun hp => hvu (h.once u v y x hy hx hnull hp).symm
    have hstays : ∀ {p : Storage E × Vec} {m : Nat} {l₁ : List E}, Gives w.storage x m l₁ p →
        (y.index pos).read p.1 = some z := by
      intro p m l₁ hp
      have hframe : Holds p.1 y k l' :=
        Holds.frame h.sane ho' fun hptr => (hp.other (ho'.buffer_ne hptr) hne).1
      exact (hframe.read hp.sane pos).trans hz
    obtain ⟨m', _, hreserve⟩ := reserve_finds h.sane ho hfits hslot
    exact ⟨hstays hreserve, hstays hgives⟩

/-- **An append of an element is an append of its value.** -/
theorem apart_element (h : Apart w) (hx : w.vectors v = some x) (hy : w.vectors u = some y)
    (hz : (y.index pos).read w.storage = some z) (hfinds : FindsElement T w v u) :
    Apart (w.set (x.append T w.storage z).1 v (some (x.append T w.storage z).2)
      (w.appended v u pos)) := by
  obtain ⟨hfits, hslot, _⟩ := hfinds x hx
  obtain ⟨n, l, hl, ho⟩ := h.holds v x hx
  obtain ⟨_, k, hk, ho'⟩ := h.holds u y hy
  obtain ⟨m, hgives⟩ := append_finds (z := z) h.sane ho hfits hslot
  rw [appended_eq hl hk ((ho'.read h.sane pos).symm.trans hz)]
  exact apart_gives h hx hgives

theorem apart_dtor (h : Apart w) (hx : w.vectors v = some x) :
    Apart (w.set (x.dtor w.storage) v none none) := by
  obtain ⟨n, l, _, ho⟩ := h.holds v x hx
  obtain ⟨hs, hgone, hothers⟩ := dtor_holds h.sane ho
  refine apart_set h hs (fun z hz => absurd hz (by simp)) (fun u y hu hy hnull => ?_)
    fun a ha => ?_
  · have hold : y.pArr ≠ x.pArr := fun hp => hu (h.once u v y x hy hx hnull hp)
    exact ⟨hothers _ hold, fun z hz => absurd hz (by simp)⟩
  · have hax : a ≠ x.pArr := fun hax => ha (hax ▸ hgone)
    refine Or.inr ⟨hothers a hax ▸ ha, fun z hz => ?_⟩
    rw [hx] at hz
    cases hz
    exact hax.symm

/-- A copy of a vector without a buffer, for none or for another without. -/
theorem apart_copy (h : Apart w) (hy : w.vectors u = some y) (hnull : y.pArr = 0)
    (hv : ∀ x ∈ w.vectors v, x.pArr = 0) :
    Apart (w.set w.storage v (some y.copy) (w.lists u)) := by
  obtain ⟨n, l, hl, ho⟩ := h.holds u y hy
  refine apart_set h h.sane ?_ (fun u' y' _ _ hptr => ⟨rfl, ?_⟩) fun a ha => Or.inr ⟨ha, ?_⟩
  · rintro z ⟨⟩
    exact ⟨n, l, hl, ho⟩
  · rintro z ⟨⟩ hp
    exact hptr (hp.symm.trans hnull)
  · intro z hz ha'
    rw [← ha', hv z hz] at ha
    exact ha h.sane.placed.null

theorem set_self (hx : w.vectors v = some x) :
    w.set w.storage v (some x.copy) (w.lists v) = w := by
  have hcopy : some x.copy = w.vectors v := hx.symm
  unfold World.set
  rw [hcopy, Function.update_eq_self, Function.update_eq_self]

/-- **What a vector with a buffer of its own does is its own affair.** -/
theorem apart_call {c : Call V E} (h : Apart w) (hc : Uncopied T left w c)
    (hcall : w.call T left c = some w') : Apart w' := by
  cases call_cases hcall with
  | ctor v hv => exact apart_begin h hv (ctor_spec h.sane)
  | ctorSize v size hv => exact apart_begin h hv (ctorSize_spec h.sane hc)
  | copyCtor v other y hv hy =>
      refine apart_copy h hy (hc y hy) fun x hx => ?_
      rw [hv] at hx
      exact absurd hx (by simp)
  | copyAssign v other x y hx hy =>
      rcases hc with hvo | ⟨hv, hother⟩
      · rw [hvo, set_self hy]
        exact h
      · exact apart_copy h hy (hother y hy) hv
  | run v c x hx hrange => exact apart_run h hx hrange (hc x hx).1 (hc x hx).2
  | pushBackRef v other pos x y hx hy hpos =>
      obtain ⟨hfinds, hleft⟩ := hc
      obtain ⟨_, z, _, _, hz⟩ := h.element hy hpos
      obtain ⟨hread, hafter⟩ := element_stays h hx hy hz hfinds
      rw [pushBackRef_read left hread, hleft y hy z hz, write_same hafter]
      exact apart_element h hx hy hz hfinds
  | emplaceBackRef v other pos x y hx hy hpos =>
      obtain ⟨_, z, _, _, hz⟩ := h.element hy hpos
      rw [emplaceBackRef_read (element_stays h hx hy hz hc).1]
      exact apart_element h hx hy hz hc
  | dtor v x hx => exact apart_dtor h hx

/-! ## What the other calls do -/

/-- After a copy the two vectors are one and the same. -/
theorem copies_same {c : Call V E} (hc : Copies c d e) (hde : d ≠ e)
    (hcall : w.call T left c = some w') :
    ∃ y, w.vectors e = some y ∧ w'.storage = w.storage ∧ w'.vectors d = some y
      ∧ w'.vectors e = some y := by
  have hset : ∀ y l, w.vectors e = some y →
      (w.set w.storage d (some y) l).vectors d = some y
      ∧ (w.set w.storage d (some y) l).vectors e = some y := by
    intro y l hy
    show Function.update w.vectors d (some y) d = _ ∧ Function.update w.vectors d (some y) e = _
    rw [Function.update_self, Function.update_of_ne hde.symm]
    exact ⟨rfl, hy⟩
  rcases hc with rfl | rfl
  · cases call_cases hcall with
    | copyCtor _ _ y _ hy => exact ⟨y, hy, rfl, hset y _ hy⟩
  · cases call_cases hcall with
    | copyAssign _ _ _ y _ hy => exact ⟨y, hy, rfl, hset y _ hy⟩

theorem dtor_call (hcall : w.call T left (.dtor v) = some w') (hx : w.vectors v = some x) :
    w' = w.set (x.dtor w.storage) v none none := by
  cases call_cases hcall with
  | dtor _ y hy =>
      rw [Option.some.inj (hx.symm.trans hy)]

/-- **The second destructor finds the buffer freed.** -/
theorem twice_dtor {w₁ w₂ : World V E} (h : Apart w) (hy : w.vectors u = some y)
    (hptr : y.pArr ≠ 0) (hs : w'.storage = w.storage) (hd : w'.vectors d = some y)
    (he : w'.vectors e = some y) (hde : d ≠ e) (h₁ : w'.call T left (.dtor d) = some w₁)
    (h₂ : w₁.call T left (.dtor e) = some w₂) : w₂.storage.faulted = true := by
  obtain ⟨n, l, _, ho⟩ := h.holds u y hy
  obtain ⟨_, hgone, _⟩ := dtor_holds h.sane ho
  rw [dtor_call h₁ hd, hs] at h₂
  have he' : (w'.set (y.dtor w.storage) d none none).vectors e = some y := by
    show Function.update w'.vectors d none e = some y
    rw [Function.update_of_ne hde.symm, he]
  rw [dtor_call h₂ he']
  exact dtor_gone hptr hgone

/-- A copy of a vector that has a buffer, to another: whichever of the two is destroyed
first, the destructor of the other frees the buffer again. -/
def CopiesFault (T : ElementType E) (left : E → E) (w : World V E) : Prop :=
  ∀ c d e, d ≠ e → (Copies c d e ∨ Copies c e d) → ∀ w' w₁ w₂ y, w.call T left c = some w' →
    w'.vectors d = some y → y.pArr ≠ 0 → w'.call T left (.dtor d) = some w₁ →
    w₁.call T left (.dtor e) = some w₂ → w₂.storage.faulted = true

/-- An assignment from another vector to one that has a buffer: the buffer is there, and no
vector has it. -/
def AssignsLose (T : ElementType E) (left : E → E) (w : World V E) : Prop :=
  ∀ d e x w', d ≠ e → w.vectors d = some x → x.pArr ≠ 0 →
    w.call T left (.copyAssign d e) = some w' → w'.storage.buffers x.pArr ≠ none
      ∧ ∀ v y, w'.vectors v = some y → y.pArr ≠ x.pArr

/-- An append that finds no slot faults. -/
def AppendsFault (T : ElementType E) (left : E → E) (w : World V E) : Prop :=
  ∀ v op x w', w.vectors v = some x → op.appends = true → x.AppendFits T →
    ¬x.FindsSlot w.storage → w.call T left (.run v (.work op)) = some w' → w'.storage.faulted = true

/-- A call that appends the element at `pos` of `u` to `v`. -/
def Takes (c : Call V E) (v u : V) (pos : Nat) : Prop :=
  c = .pushBackRef v u pos ∨ c = .emplaceBackRef v u pos

/-- After an append of an element that is not as it should be, the vectors are no values: it
faults, or it changes the element that it was given. -/
def RefsBreak (T : ElementType E) (left : E → E) (w : World V E) : Prop :=
  ∀ c v u pos x w', Takes c v u pos → w.vectors v = some x → x.AppendFits T →
    ¬Uncopied T left w c → w.call T left c = some w' → ¬Values w'

theorem Apart.copiesFault (h : Apart w) : CopiesFault T left w := by
  intro c d e hde hc w' w₁ w₂ y hcall hy hptr h₁ h₂
  rcases hc with hc | hc
  · obtain ⟨z, hz, hs, hd, he⟩ := copies_same hc hde hcall
    rw [← Option.some.inj (hd.symm.trans hy)] at hptr
    exact twice_dtor h hz hptr hs hd he hde h₁ h₂
  · obtain ⟨z, hz, hs, he, hd⟩ := copies_same hc hde.symm hcall
    rw [← Option.some.inj (hd.symm.trans hy)] at hptr
    exact twice_dtor h hz hptr hs hd he hde h₁ h₂

theorem Apart.assignsLose (h : Apart w) : AssignsLose T left w := by
  intro d e x w' hde hx hptr hcall
  obtain ⟨n, l, _, ho⟩ := h.holds d x hx
  cases call_cases hcall with
  | copyAssign _ _ _ y _ hy =>
      refine ⟨ho.buffer_ne hptr, fun v z hz hzx => ?_⟩
      have hz' : Function.update w.vectors d (some y.copy) v = some z := hz
      -- whoever has the buffer now had it before
      by_cases hv : v = d
      · rw [hv, Function.update_self] at hz'
        cases hz'
        exact hde (h.once e d y x hy hx (hzx ▸ hptr) hzx).symm
      · rw [Function.update_of_ne hv] at hz'
        exact hv (h.once v d z x hz' hx (hzx ▸ hptr) hzx)

theorem Apart.appendsFault (h : Apart w) : AppendsFault T left w := by
  intro v op x w' hx happends hfits hslot hcall
  obtain ⟨n, l, _, ho⟩ := h.holds v x hx
  cases call_cases hcall with
  | run _ _ y hy hrange =>
      rw [Option.some.inj (hy.symm.trans hx)]
      cases op with
      | pushBack z => exact append_lost h.sane ho hfits hslot
      | emplaceBack z => exact append_lost h.sane ho hfits hslot
      | popBack => exact absurd happends (by simp [Op.appends])
      | write pos z => exact absurd happends (by simp [Op.appends])

/-- **`push_back` changes an element that a move changes.** -/
theorem moved_shows (h : Apart w) (hx : w.vectors v = some x) (hy : w.vectors u = some y)
    (hpos : pos < y.mSize) (hz : (y.index pos).read w.storage = some z) (hleft : left z ≠ z)
    (hfinds : FindsElement T w v u) {x' : Vec} (hx' : x' = (x.append T w.storage z).2)
    (hs : s' = (y.index pos).write (x.append T w.storage z).1 (left z)) :
    ¬Values (w.set s' v (some x') (w.appended v u pos)) := by
  intro hvalues
  obtain ⟨k, z', hk, hkz, hz'⟩ := h.element hy hpos
  rw [hz] at hz'
  rw [← Option.some.inj hz'] at hkz
  have hread : (y.index pos).read s' = some (left z) :=
    hs ▸ read_write (element_stays h hx hy hz hfinds).2 (left z)
  have hlen := (List.getElem?_eq_some_iff.mp hkz).1
  by_cases hvu : v = u
  · have hxy := vec_eq hx hy hvu
    obtain ⟨_, _, hroom⟩ := hfinds x hx
    have hptr := (append_ptr (T := T) (s := w.storage) (z := z) (hroom hvu).1 (hroom hvu).2).2
    have hlist : w.appended v u pos = some (k ++ [z]) := appended_eq (hvu ▸ hk) hk hkz
    have hshown := hvalues.elements v x' (k ++ [z]) pos (Function.update_self ..)
      ((Function.update_self ..).trans hlist) (by rw [List.length_append]; omega)
    rw [List.getElem?_append_left hlen, hkz] at hshown
    unfold Vec.index at hread hshown
    rw [hx', hptr, hxy] at hshown
    exact hleft (Option.some.inj (hread.symm.trans hshown))
  · have hshown := hvalues.elements u y k pos
      ((Function.update_of_ne (Ne.symm hvu) ..).trans hy)
      ((Function.update_of_ne (Ne.symm hvu) ..).trans hk) hlen
    rw [hkz] at hshown
    exact hleft (Option.some.inj (hread.symm.trans hshown))

theorem Apart.refsBreak (h : Apart w) : RefsBreak T left w := by
  intro c v u pos x w' hc hx hfits hbad hcall hvalues
  have hfinds : x.FindsSlot w.storage ∧ (v = u → x.mCap ≠ 1 ∧ x.mSize < x.mCap) →
      FindsElement T w v u := by
    intro hfinds x' hx'
    rw [← Option.some.inj (hx.symm.trans hx')]
    exact ⟨hfits, hfinds⟩
  by_cases hgood : x.FindsSlot w.storage ∧ (v = u → x.mCap ≠ 1 ∧ x.mSize < x.mCap)
  · rcases hc with rfl | rfl
    · cases call_cases hcall with
      | pushBackRef _ _ _ x' y hx' hy hpos =>
          cases hx.symm.trans hx'
          obtain ⟨_, z, _, _, hz⟩ := h.element hy hpos
          -- what is wrong can only be what the move leaves
          have hleft : left z ≠ z := by
            refine fun hleft => hbad ⟨hfinds hgood, fun y' hy' z' hz' => ?_⟩
            rw [← Option.some.inj (hy.symm.trans hy'), hz] at hz'
            rw [← Option.some.inj hz', hleft]
          have heq := pushBackRef_read left (element_stays h hx hy hz (hfinds hgood)).1
          exact moved_shows h hx hy hpos hz hleft (hfinds hgood) (by rw [heq]) (by rw [heq]) hvalues
    · exact hbad (hfinds hgood)
  · rcases hc with rfl | rfl
    · cases call_cases hcall with
      | pushBackRef _ _ _ x' y hx' hy hpos =>
          cases hx.symm.trans hx'
          have hfault := (ref_faults left h hx hy hpos hfits hgood).1
          exact absurd (hvalues.unfaulted.symm.trans hfault) Bool.false_ne_true
    · cases call_cases hcall with
      | emplaceBackRef _ _ _ x' y hx' hy hpos =>
          cases hx.symm.trans hx'
          have hfault := (ref_faults id h hx hy hpos hfits hgood).2
          exact absurd (hvalues.unfaulted.symm.trans hfault) Bool.false_ne_true

/-- The worlds that programs without copies of buffers reach. -/
abbrev Reached (T : ElementType E) (left : E → E) (w : World V E) : Prop :=
  Transition.Reach
    (Transition.When (Uncopied T left) (Transition.Of fun w c => w.call T left c)) {} w

theorem apart_reached (h : Reached T left w) : Apart w :=
  h.invariant apart_init fun _ _ _ _ hi hs => apart_call hi hs.1 hs.2

/--
**Vectors are values as long as no buffer is copied.**

A vector whose buffer is copied to another is not, nor is one that loses its buffer to an
assignment, nor one that appends without a slot, or appends an element that it frees first
or that it moves from.
-/
theorem values_of_uncopied (T : ElementType E) (left : E → E) (w : World V E)
    (h : Reached T left w) :
    Values w ∧ CopiesFault T left w ∧ AssignsLose T left w ∧ AppendsFault T left w
      ∧ RefsBreak T left w :=
  have hi := apart_reached h
  ⟨hi.values, hi.copiesFault, hi.assignsLose, hi.appendsFault, hi.refsBreak⟩

/-- Two vectors of their own, that change their capacities too and take elements of each other.
A move leaves zero. Then one is copied to the other, or `push_back` is given a one. -/
theorem values_of_uncopied_two :
    let T : ElementType Int := ⟨4, by decide, by decide, 0, id⟩
    let left : Int → Int := fun _ => 0
    let run : List (Call Bool Int) :=
      [.ctor true, .ctorSize false 2, .run true (.work (.pushBack 1)), .run true .shrinkToFit,
        .emplaceBackRef true false 0, .run false (.resize 2), .run false (.work (.write 1 7)),
        .pushBackRef true false 0, .copyAssign false false]
    ∃ w w' w₁ w₂ w₃ : World Bool Int,
      Transition.exec (Transition.guarded (Uncopied T left) fun w c => w.call T left c) {} run
          = some w
        ∧ w.call T left (.copyAssign false true) = some w'
        ∧ w'.call T left (.dtor false) = some w₁
        ∧ w₁.call T left (.dtor true) = some w₂
        ∧ w.call T left (.pushBackRef false true 0) = some w₃
        ∧ Values w ∧ w₂.storage.faulted = true ∧ ¬Values w₃ := by
  intro T left run
  let w := (Transition.exec (Transition.guarded (Uncopied T left) fun w c => w.call T left c) {}
    run).get (by decide)
  let w' := (w.call T left (.copyAssign false true)).get (by decide)
  let w₁ := (w'.call T left (.dtor false)).get (by decide)
  let w₂ := (w₁.call T left (.dtor true)).get (by decide)
  let w₃ := (w.call T left (.pushBackRef false true 0)).get (by decide)
  have hw : Reached T left w := Transition.exec_reach_when _ (Option.some_get _).symm
  obtain ⟨hvalues, hcopies, _, _, hrefs⟩ := values_of_uncopied T left w hw
  have hfault := hcopies (.copyAssign false true) false true (by decide) (Or.inl (Or.inr rfl))
    w' w₁ w₂ ((w'.vectors false).get (by decide)) (Option.some_get _).symm (Option.some_get _).symm
    (by decide) (Option.some_get _).symm (Option.some_get _).symm
  obtain ⟨x, hx⟩ : ∃ x, w.vectors false = some x := Option.isSome_iff_exists.mp (by decide)
  have hfits : ∀ x ∈ w.vectors false, x.AppendFits T := by decide
  have hmoved := hrefs (.pushBackRef false true 0) false true 0 x w₃ (Or.inl rfl) hx (hfits x hx)
    (by decide) (Option.some_get _).symm
  exact ⟨w, w', w₁, w₂, w₃, (Option.some_get _).symm, (Option.some_get _).symm,
    (Option.some_get _).symm, (Option.some_get _).symm, (Option.some_get _).symm, hvalues, hfault,
    hmoved⟩

/-- **A copy shares the elements**, and the two destructors free one buffer. -/
theorem copied_vector_shares :
    let T : ElementType Int := ⟨4, by decide, by decide, 0, id⟩
    let left : Int → Int := id
    ∃ w w' : World Bool Int, Transition.Reach (Transition.Of fun w c => w.call T left c) {} w
      ∧ w.lists true = some [1]
      ∧ (w.vectors true).bind (fun x => (x.index 0).read w.storage) = some 5
      ∧ Transition.Reach (Transition.Of fun w c => w.call T left c) w w'
      ∧ (∀ v, w'.vectors v = none) ∧ w'.storage.faulted = true
      ∧ ¬Values w ∧ ¬Values w' := by
  intro T left
  let w := (Transition.exec (fun w c => w.call T left c) ({} : World Bool Int)
    [.ctor true, .run true (.work (.pushBack 1)), .copyCtor false true,
      .run false (.work (.write 0 5))]).get (by decide)
  let w' := (Transition.exec (fun w c => w.call T left c) w [.dtor true, .dtor false]).get
    (by decide)
  have hlist : w.lists true = some [1] := by decide
  have hread : (w.vectors true).bind (fun x => (x.index 0).read w.storage) = some 5 := by decide
  have hfault : w'.storage.faulted = true := by decide
  refine ⟨w, w', Transition.exec_reach _ (Option.some_get _).symm, hlist, hread,
    Transition.exec_reach _ (Option.some_get _).symm, by decide, hfault, fun hv => ?_,
    fun hv => ?_⟩
  · obtain ⟨x, hx, hx5⟩ := Option.bind_eq_some_iff.mp hread
    have hx1 := hv.elements true x [1] 0 hx hlist (by decide)
    rw [hx5] at hx1
    exact absurd hx1 (by decide)
  · exact absurd (hfault.symm.trans hv.unfaulted) (by decide)

end QuickStructs.Vector
