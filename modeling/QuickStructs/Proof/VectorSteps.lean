import QuickStructs.Structs.Vector

/-!
# What the operations of a vector do

A vector owns its buffer: the buffer has as many slots as the capacity says, and the
values in it are those of a list as long as the size says. Each operation leaves the
vector owning a buffer, with the list that the operation makes of the first one, and
leaves every other buffer alone. The buffer is the same as before, or a new one, and then
the old one is gone.

The loops are told by prefixes: after `k` rounds the first `k` slots are as the loop
makes them, and the others as they were.
-/

namespace QuickStructs.Vector

open Lib Storage

variable {E : Type} {T : ElementType E}
variable {s s' t : Storage E} {v : Vec} {l : List E} {a b c i k size newCap : Nat} {x : E}
variable {f g : Nat → Option E}

/-! ## Loops over slots -/

/-- `g` below `k`, and `f` from there. -/
def upTo (k : Nat) (g f : Nat → Option E) (i : Nat) : Option E := if i < k then g i else f i

theorem upTo_zero (g f : Nat → Option E) : upTo 0 g f = f := by
  funext i
  exact if_neg (Nat.not_lt_zero i)

theorem upTo_self (k : Nat) (g f : Nat → Option E) : upTo k g f k = f k :=
  if_neg (Nat.lt_irrefl k)

theorem upTo_succ (k : Nat) (g f : Nat → Option E) :
    Function.update (upTo k g f) k (g k) = upTo (k + 1) g f := by
  funext i
  unfold upTo
  by_cases hi : i = k
  · rw [hi, Function.update_self, if_pos (Nat.lt_succ_self k)]
  · rw [Function.update_of_ne hi]
    by_cases hlt : i < k
    · rw [if_pos hlt, if_pos (by omega)]
    · rw [if_neg hlt, if_neg (by omega)]

theorem upTo_of_le (g f : Nat → Option E) (hi : k ≤ i) : upTo k g f i = f i :=
  if_neg (Nat.not_lt.mpr hi)

/-- A loop over all there is leaves nothing of it. -/
theorem upTo_none (hf : ∀ i, k ≤ i → f i = none) : upTo k (fun _ => none) f = fun _ => none := by
  funext i
  unfold upTo
  split
  · rfl
  · rename_i hi
    exact hf i (Nat.not_lt.mp hi)

/-- A copy of all there is. -/
theorem upTo_all (hf : ∀ i, k ≤ i → f i = none) : upTo k f (fun _ => none) = f := by
  funext i
  unfold upTo
  split
  · rfl
  · rename_i hi
    exact (hf i (Nat.not_lt.mp hi)).symm

theorem destroyN_spec (h : Sane s) (hf : Shows s a size f) : ∀ k, (∀ i < k, (f i).isSome) →
    Sane (destroyN s a k) ∧ Shows (destroyN s a k) a size (upTo k (fun _ => none) f)
      ∧ Frame a s (destroyN s a k)
  | 0, _ => by
      rw [upTo_zero]
      exact ⟨h, hf, Frame.refl a s⟩
  | k + 1, hlive => by
      obtain ⟨hs, hshows, hframe⟩ := destroyN_spec h hf k fun i hi => hlive i (by omega)
      obtain ⟨x, hx⟩ := Option.isSome_iff_exists.mp (hlive k (Nat.lt_succ_self k))
      obtain ⟨hs', hshows', hframe'⟩ := destroy_spec hs hshows ((upTo_self k _ f).trans hx)
      rw [upTo_succ k (fun _ => none) f] at hshows'
      exact ⟨hs', hshows', hframe.trans hframe'⟩

theorem constructN_spec (h : Sane s) (hf : Shows s a size fun _ => none) : ∀ k, k ≤ size →
    Sane (constructN T s a k)
      ∧ Shows (constructN T s a k) a size (upTo k (fun _ => some T.default) fun _ => none)
      ∧ Frame a s (constructN T s a k)
  | 0, _ => by
      rw [upTo_zero]
      exact ⟨h, hf, Frame.refl a s⟩
  | k + 1, hk => by
      obtain ⟨hs, hshows, hframe⟩ := constructN_spec h hf k (by omega)
      obtain ⟨hs', hshows', hframe'⟩ := construct_spec hs hshows hk (upTo_self k _ _) T.default
      rw [upTo_succ k (fun _ => some T.default) _] at hshows'
      exact ⟨hs', hshows', hframe.trans hframe'⟩

/-- The elements are constructed in the new buffer, and what the moves leave of them stays
in the old one. -/
theorem moveN_spec (h : Sane s) (hab : a ≠ b) (hf : Shows s a size f)
    (hb : Shows s b newCap fun _ => none) : ∀ k, k ≤ newCap → (∀ i < k, (f i).isSome) →
    Sane (moveN T s a b k)
      ∧ Shows (moveN T s a b k) a size (upTo k (fun i => (f i).map T.moved) f)
      ∧ Shows (moveN T s a b k) b newCap (upTo k f fun _ => none)
      ∧ (∀ c, c ≠ a → c ≠ b → (moveN T s a b k).buffers c = s.buffers c)
      ∧ (moveN T s a b k).next = s.next
  | 0, _, _ => by
      rw [upTo_zero, upTo_zero]
      exact ⟨h, hf, hb, fun _ _ _ => rfl, rfl⟩
  | k + 1, hk, hlive => by
      obtain ⟨hs, hold, hnew, hothers, hnext⟩ := moveN_spec h hab hf hb k (by omega)
        fun i hi => hlive i (by omega)
      obtain ⟨x, hx⟩ := Option.isSome_iff_exists.mp (hlive k (Nat.lt_succ_self k))
      obtain ⟨o, ho, hval⟩ := hold.slot ((upTo_self k _ f).trans hx)
      -- what is left of the elements so far does not touch the next one
      have heq : moveN T s a b (k + 1)
          = ((moveN T s a b k).construct b k o.val).assign a k (T.moved o.val) := by
        simp only [moveN, ho]
      rw [heq, hval]
      obtain ⟨hs₁, hnew₁, hframe₁⟩ := construct_spec hs hnew hk (upTo_self k _ _) x
      obtain ⟨hs₂, hold₂, hframe₂⟩ := assign_spec hs₁ (hold.frame hframe₁ hab)
        ((upTo_self k _ f).trans hx) (T.moved x)
      have hnew₂ := hnew₁.frame hframe₂ hab.symm
      rw [← hx, upTo_succ k f _] at hnew₂
      have hmoved : some (T.moved x) = (f k).map T.moved := by rw [hx]; rfl
      rw [hmoved, upTo_succ k (fun i => (f i).map T.moved) f] at hold₂
      refine ⟨hs₂, hold₂, hnew₂, fun c hca hcb => ?_, ?_⟩
      · rw [hframe₂.others c hca, hframe₁.others c hcb, hothers c hca hcb]
      · rw [hframe₂.next, hframe₁.next, hnext]

/-! ## Owning a buffer -/

/-- The vector has a buffer of its own, with the elements of a list in it. -/
structure Owns (s : Storage E) (v : Vec) (l : List E) : Prop where
  shows : Shows s v.pArr v.mCap fun i => l[i]?
  size : v.mSize = l.length
  room : l.length ≤ v.mCap
  pos : 0 < v.mCap

/-- From a vector with its buffer at `a` to one with its buffer at `b`: the other buffers are
as they were, and a buffer that is exchanged for a new one is gone. -/
structure Change (s s' : Storage E) (a b : Nat) : Prop where
  others : ∀ c, c ≠ a → c ≠ b → s'.buffers c = s.buffers c
  moved : b = a ∨ s.buffers b = none ∧ s'.buffers a = none

theorem Change.of_frame (h : Frame a s s') : Change s s' a a :=
  ⟨fun c hc _ => h.others c hc, Or.inl rfl⟩

theorem Change.trans (h : Change s t a b) (h' : Change t s' b c) : Change s s' a c := by
  have hfirst : b ≠ a → s.buffers b = none ∧ t.buffers a = none := h.moved.resolve_left
  have hsecond : c ≠ b → t.buffers c = none ∧ s'.buffers b = none := h'.moved.resolve_left
  refine ⟨fun d hda hdc => ?_, ?_⟩
  · by_cases hdb : d = b
    · -- a buffer in between was not there before, and is gone after
      subst hdb
      rw [(hfirst hda).1, (hsecond (Ne.symm hdc)).2]
    · rw [h'.others d hdb hdc, h.others d hda hdb]
  · by_cases hca : c = a
    · exact Or.inl hca
    refine Or.inr ⟨?_, ?_⟩
    · by_cases hcb : c = b
      · subst hcb
        exact (hfirst hca).1
      · rw [← h.others c hca hcb]
        exact (hsecond hcb).1
    · by_cases hab : a = b
      · subst hab
        exact (hsecond hca).2
      · rw [h'.others a hab (Ne.symm hca)]
        exact (hfirst (Ne.symm hab)).2

/-- The buffer is exchanged for another, and there is no third. -/
theorem Change.only (h : Change s s' a b) (honly : ∀ c, c ≠ a → s.buffers c = none) :
    ∀ c, c ≠ b → s'.buffers c = none := by
  intro c hc
  rcases h.moved with heq | ⟨_, hgone⟩
  · exact (h.others c (heq ▸ hc) hc).trans (honly c (heq ▸ hc))
  · by_cases hca : c = a
    · rw [hca]
      exact hgone
    · exact (h.others c hca hc).trans (honly c hca)

/-- What an operation on a vector comes to. -/
structure Yields (s : Storage E) (v : Vec) (l : List E) (p : Storage E × Vec) : Prop where
  sane : Sane p.1
  owns : Owns p.1 p.2 l
  change : Change s p.1 v.pArr p.2.pArr

theorem Yields.refl (h : Sane s) (ho : Owns s v l) : Yields s v l (s, v) :=
  ⟨h, ho, Change.of_frame (Frame.refl _ s)⟩

theorem Owns.live (ho : Owns s v l) : ∀ i < v.mSize, (l[i]?).isSome := by
  intro i hi
  rw [ho.size] at hi
  rw [List.getElem?_eq_getElem hi]
  rfl

theorem Owns.past (ho : Owns s v l) : ∀ i, v.mSize ≤ i → l[i]? = none := fun _ hi =>
  List.getElem?_eq_none (ho.size ▸ hi)

/-- What a client reads. -/
theorem Owns.read {s : Storage E} {v : Vec} {l : List E} (ho : Owns s v l) (pos : Nat) :
    (v.index pos).read s = l[pos]? := by
  obtain ⟨buf, hbuf, _, hslots⟩ := ho.shows
  show (s.slot v.pArr pos).map Object.val = l[pos]?
  rw [slot_eq hbuf]
  exact hslots pos

/-! ## The operations -/

theorem allocate_eq (hpos : 0 < newCap) (hfits : T.size * newCap < 2 ^ 64) :
    allocate T s newCap = (s.alloc newCap, s.next) := by
  unfold allocate operatorNew
  rw [if_neg (by omega), Nat.mod_eq_of_lt hfits, Nat.mul_div_cancel_left _ T.pos]

/-- The byte size of a growth fits, and so does the capacity. -/
theorem growth_eq (hfits : T.size * (v.mCap * 3) < 2 ^ 64) :
    v.mCap * 3 % 2 ^ 64 = v.mCap * 3 := by
  refine Nat.mod_eq_of_lt (Nat.lt_of_le_of_lt ?_ hfits)
  exact Nat.le_mul_of_pos_left _ T.pos

theorem growCapacity_eq (hpos : 0 < newCap) (hfits : T.size * newCap < 2 ^ 64) :
    v.growCapacity T s newCap
      = ((destroyN (moveN T (s.alloc newCap) v.pArr s.next v.mSize) v.pArr v.mSize).free v.pArr,
        { v with pArr := s.next, mCap := newCap }) := by
  unfold Vec.growCapacity
  rw [allocate_eq hpos hfits]

/-- **A vector that grows has the same elements in a new buffer.** -/
theorem growCapacity_spec (h : Sane s) (ho : Owns s v l) (hpos : 0 < newCap)
    (hroom : l.length ≤ newCap) (hfits : T.size * newCap < 2 ^ 64) :
    Yields s v l (v.growCapacity T s newCap) := by
  obtain ⟨buf, hbuf, _⟩ := id ho.shows
  have hne : v.pArr ≠ s.next := Nat.ne_of_lt (h.placed.lt_next hbuf)
  have hold := ho.shows.alloc h.placed newCap
  -- move the elements over, destroy what is left of them, and free the buffer
  obtain ⟨hs₁, hold₁, hnew₁, hothers₁, hnext₁⟩ := moveN_spec (T := T) (sane_alloc h newCap) hne hold
    (shows_alloc s newCap) v.mSize (by rw [ho.size]; exact hroom) ho.live
  obtain ⟨hs₂, hold₂, hframe₂⟩ := destroyN_spec hs₁ hold₁ v.mSize fun i hi => by
    rw [upTo, if_pos hi, Option.isSome_map]
    exact ho.live i hi
  have hnew₂ := hnew₁.frame hframe₂ hne.symm
  rw [upTo_none fun i hi => (upTo_of_le _ _ hi).trans (ho.past i hi)] at hold₂
  rw [upTo_all ho.past] at hnew₂
  obtain ⟨buf₂, hbuf₂, _⟩ := id hold₂
  have hframe₃ := frame_free hs₂.placed hbuf₂
  rw [growCapacity_eq hpos hfits]
  refine ⟨sane_free hs₂ hold₂, ⟨hnew₂.frame hframe₃ hne.symm, ho.size, hroom, hpos⟩,
    ⟨fun c hca hcb => ?_, Or.inr ⟨h.placed.beyond _ (Nat.le_refl _), free_self hs₂.placed hbuf₂⟩⟩⟩
  rw [hframe₃.others c hca, hframe₂.others c hca, hothers₁ c hca hcb, alloc_of_ne hcb]

/-- The second test finds room: the vector grows once, or has room already. -/
theorem reserve_cases (hroom : v.mSize ≤ v.mCap) (hfits : v.GrowthFits T) :
    (v.reserve T s = (s, v) ∧ v.mSize < v.mCap)
    ∨ (v.reserve T s = v.growCapacity T s (v.mCap * 3) ∧ T.size * (v.mCap * 3) < 2 ^ 64) := by
  unfold Vec.reserve
  by_cases hone : v.mCap = 1
  · have hfit := hfits (Or.inl hone)
    refine Or.inr ⟨?_, hfit⟩
    -- three slots for at most one element: the second test fails
    rw [if_pos hone, growth_eq hfit, growCapacity_eq (by omega) hfit]
    show (if v.mCap * 3 ≤ v.mSize then _ else _) = _
    rw [if_neg (by omega)]
  · rw [if_neg hone]
    show (if v.mCap ≤ v.mSize then _ else _) = _ ∧ _ ∨ (if v.mCap ≤ v.mSize then _ else _) = _ ∧ _
    by_cases hfull : v.mCap ≤ v.mSize
    · have hfit := hfits (Or.inr hfull)
      refine Or.inr ⟨?_, hfit⟩
      rw [if_pos hfull, growth_eq hfit]
    · exact Or.inl ⟨if_neg hfull, Nat.lt_of_not_le hfull⟩

theorem reserve_spec (h : Sane s) (ho : Owns s v l) (hfits : v.GrowthFits T) :
    Yields s v l (v.reserve T s) ∧ l.length < (v.reserve T s).2.mCap := by
  have hroom := ho.room
  have hpos := ho.pos
  rcases reserve_cases (s := s) (ho.size ▸ hroom) hfits with ⟨heq, hlt⟩ | ⟨heq, hfit⟩
  · rw [heq]
    exact ⟨Yields.refl h ho, ho.size ▸ hlt⟩
  · rw [heq]
    refine ⟨growCapacity_spec h ho (by omega) (by omega) hfit, ?_⟩
    rw [growCapacity_eq (by omega) hfit]
    show l.length < v.mCap * 3
    omega

theorem append_eq (v : Vec) (s : Storage E) (x : E) :
    v.append T s x
      = ((v.reserve T s).1.construct (v.reserve T s).2.pArr (v.reserve T s).2.mSize x,
        { (v.reserve T s).2 with mSize := (v.reserve T s).2.mSize + 1 }) := rfl

/-- **An element behind the last one**, where there is room for it. -/
theorem place_spec (h : Sane s) (ho : Owns s v l) (hlt : l.length < v.mCap) :
    Yields s v (l ++ [x]) (s.construct v.pArr v.mSize x, { v with mSize := v.mSize + 1 }) := by
  have hnext : l[l.length]? = none := List.getElem?_eq_none (Nat.le_refl _)
  obtain ⟨hs₁, hshows₁, hframe₁⟩ := construct_spec h ho.shows hlt hnext x
  have happend : Function.update (fun i => l[i]?) l.length (some x) = fun i => (l ++ [x])[i]? := by
    funext i
    rcases Nat.lt_trichotomy i l.length with hi | hi | hi
    · rw [Function.update_of_ne (by omega), List.getElem?_append_left hi]
    · rw [hi, Function.update_self, List.getElem?_concat_length]
    · rw [Function.update_of_ne (by omega), List.getElem?_eq_none (by omega),
        List.getElem?_eq_none (by rw [List.length_append]; exact hi)]
  rw [happend] at hshows₁
  rw [ho.size]
  refine ⟨hs₁, ⟨hshows₁, ?_, ?_, ho.pos⟩, Change.of_frame hframe₁⟩
  · rw [List.length_append]
    rfl
  · rw [List.length_append]
    exact hlt

theorem append_spec (h : Sane s) (ho : Owns s v l) (hfits : v.GrowthFits T) :
    Yields s v (l ++ [x]) (v.append T s x) := by
  obtain ⟨⟨hs, ho', hchange⟩, hlt⟩ := reserve_spec h ho hfits
  have hplace := place_spec (x := x) hs ho' hlt
  rw [append_eq]
  exact ⟨hplace.sane, hplace.owns, hchange.trans hplace.change⟩

theorem popBack_spec (h : Sane s) (ho : Owns s v l) : Yields s v l.dropLast (v.popBack s) := by
  have hsize := ho.size
  have hroom := ho.room
  have hlength : l.dropLast.length = l.length - 1 := List.length_dropLast
  unfold Vec.popBack
  split
  · rename_i hzero
    rw [List.eq_nil_of_length_eq_zero (hsize.symm.trans hzero)] at ho ⊢
    exact Yields.refl h ho
  · have hlt : l.length - 1 < l.length := by omega
    have hlast : l[l.length - 1]? = some l[l.length - 1] := List.getElem?_eq_getElem hlt
    obtain ⟨hs₁, hshows₁, hframe₁⟩ := destroy_spec h ho.shows hlast
    have hdrop : Function.update (fun i => l[i]?) (l.length - 1) none
        = fun i => l.dropLast[i]? := by
      funext i
      rw [List.getElem?_dropLast]
      rcases Nat.lt_trichotomy i (l.length - 1) with hi | hi | hi
      · rw [Function.update_of_ne (by omega), if_pos hi]
      · rw [hi, Function.update_self, if_neg (Nat.lt_irrefl _)]
      · rw [Function.update_of_ne (by omega), if_neg (by omega), List.getElem?_eq_none (by omega)]
    rw [hdrop] at hshows₁
    rw [hsize]
    refine ⟨hs₁, ⟨hshows₁, ?_, ?_, ho.pos⟩, Change.of_frame hframe₁⟩
    · show l.length - 1 = _
      omega
    · show l.dropLast.length ≤ v.mCap
      omega

theorem write_spec (h : Sane s) (ho : Owns s v l) {pos : Nat} (hpos : pos < v.mSize) :
    Yields s v (l.set pos x) ((v.index pos).write s x, v) := by
  rw [ho.size] at hpos
  obtain ⟨hs₁, hshows₁, hframe₁⟩ := assign_spec h ho.shows (List.getElem?_eq_getElem hpos) x
  have hset : Function.update (fun i => l[i]?) pos (some x) = fun i => (l.set pos x)[i]? := by
    funext i
    rw [List.getElem?_set]
    by_cases hi : pos = i
    · rw [if_pos hi, if_pos hpos, ← hi, Function.update_self]
    · rw [if_neg hi, Function.update_of_ne (Ne.symm hi)]
  rw [hset] at hshows₁
  refine ⟨hs₁, ⟨hshows₁, ?_, ?_, ho.pos⟩, Change.of_frame hframe₁⟩
  · rw [List.length_set]
    exact ho.size
  · rw [List.length_set]
    exact ho.room

/-- **An operation on a vector is the operation on its list.** -/
theorem run_spec (h : Sane s) (ho : Owns s v l) {op : Op E} (hrange : op.InRange v)
    (hfits : op.Fits T v) : Yields s v (op.onList l) (op.run T s v) := by
  cases op with
  | pushBack x => exact append_spec h ho hfits
  | emplaceBack x => exact append_spec h ho hfits
  | popBack => exact popBack_spec h ho
  | write pos x => exact write_spec h ho hrange

/-! ## Construction and destruction -/

/-- A vector that begins: its buffer is new, and the others are as they were. -/
structure Begins (s : Storage E) (l : List E) (p : Storage E × Vec) : Prop where
  sane : Sane p.1
  owns : Owns p.1 p.2 l
  new : s.buffers p.2.pArr = none
  others : ∀ c, c ≠ p.2.pArr → p.1.buffers c = s.buffers c

theorem ctor_spec (h : Sane s) : Begins s [] (Vec.ctor T s) := by
  have hone : T.size / T.size = 1 := Nat.div_self T.pos
  unfold Vec.ctor operatorNew
  rw [hone]
  exact ⟨sane_alloc h 1, ⟨shows_alloc s 1, rfl, Nat.zero_le _, Nat.one_pos⟩,
    h.placed.beyond _ (Nat.le_refl _), fun c hc => alloc_of_ne hc⟩

theorem ctorSize_spec (h : Sane s) (hfits : SizeFits T size) :
    Begins s (List.replicate size T.default) (Vec.ctorSize T s size) := by
  have hpos : 0 < max 1 size := by omega
  obtain ⟨hs₁, hshows₁, hframe₁⟩ := constructN_spec (T := T) (sane_alloc h (max 1 size))
    (shows_alloc s (max 1 size)) size (by omega)
  have hreplicate : upTo size (fun _ => some T.default) (fun _ => none)
      = fun i => (List.replicate size T.default)[i]? := by
    funext i
    rw [List.getElem?_replicate]
    rfl
  rw [hreplicate] at hshows₁
  unfold Vec.ctorSize
  simp only [allocate_eq hpos hfits]
  refine ⟨hs₁, ⟨hshows₁, ?_, ?_, hpos⟩, h.placed.beyond _ (Nat.le_refl _), fun c hc => ?_⟩
  · rw [List.length_replicate]
  · rw [List.length_replicate]
    show size ≤ max 1 size
    omega
  · rw [hframe₁.others c hc]
    exact alloc_of_ne hc

theorem dtor_spec (h : Sane s) (ho : Owns s v l) :
    Sane (v.dtor s) ∧ (v.dtor s).buffers v.pArr = none ∧ Frame v.pArr s (v.dtor s) := by
  obtain ⟨hs₁, hshows₁, hframe₁⟩ := destroyN_spec h ho.shows v.mSize ho.live
  rw [upTo_none ho.past] at hshows₁
  obtain ⟨buf₁, hbuf₁, _⟩ := id hshows₁
  exact ⟨sane_free hs₁ hshows₁, free_self hs₁.placed hbuf₁,
    hframe₁.trans (frame_free hs₁.placed hbuf₁)⟩

end QuickStructs.Vector
