import QuickStructs.Lib.Loop
import QuickStructs.Structs.VectorThrow
import QuickStructs.Proof.VectorCapacity

/-!
# What an exception leaves of a vector

A growth that throws has made nothing but copies in a buffer of its own, and its handler undoes
that: the vector has its buffer and its elements as before. When the new element throws, the
growth before it has been completed, and the elements are the same in the new buffer.

So however a call ends, the vector holds the same list in some buffer, up to the element that a
call that returns appends.
-/

namespace QuickStructs.Vector

open Lib Storage Transition

variable {E : Type} {T : ElementType E}
variable {s : Storage E} {v : Vec} {l : List E} {a b i k n newCap : Nat} {x : E}
variable {f : Nat → Option E} {r r' : Life E} {o : Outcome E} {size : Option Nat}

/-! ## The loop and the growth -/

/-- The loop makes its rounds, or those before the one that throws. -/
theorem tryMoveN_eq (s : Storage E) (a b k i : Nat) : tryMoveN T s a b k i
    = if i ≤ k then (moveN T s a b i, .ok (k - i)) else (moveN T s a b k, .error k) := by
  refine Loop.rounds_eq (tryMoveN T s a b k) (moveN T s a b) .ok .error k rfl (fun i j h => ?_)
    (fun i h => ?_) (fun i j t h => ?_) i
  · simp only [tryMoveN, h, moveN]
    cases (moveN T s a b i).slot a i with
    | none => rfl
    | some o => rfl
  · simp only [tryMoveN, h]
  · simp only [tryMoveN, h]

theorem tryAllocate_cases (s : Storage E) (newCap k : Nat) :
    tryAllocate T s newCap k = none
    ∨ ∃ k', tryAllocate T s newCap k
      = some ((allocate T s newCap).1, (allocate T s newCap).2, k') := by
  unfold allocate
  cases k with
  | zero =>
      by_cases hzero : newCap = 0
      · rw [if_pos hzero]
        exact Or.inr ⟨0, if_pos hzero⟩
      · exact Or.inl (if_neg hzero)
  | succ k =>
      by_cases hzero : newCap = 0
      · rw [if_pos hzero]
        exact Or.inr ⟨k + 1, if_pos hzero⟩
      · rw [if_neg hzero]
        exact Or.inr ⟨k, if_neg hzero⟩

/-- What the handler leaves after `j` copies. -/
def undo (T : ElementType E) (s : Storage E) (v : Vec) (newCap j : Nat) : Storage E :=
  (destroyN (moveN T (allocate T s newCap).1 v.pArr (allocate T s newCap).2 j)
    (allocate T s newCap).2 j).free (allocate T s newCap).2

/-- A growth throws at once, or in a copy, or returns. -/
theorem tryGrow_path (v : Vec) (s : Storage E) (newCap k : Nat) :
    v.tryGrow T s newCap k = ⟨s, v, none⟩
    ∨ (∃ j, j < v.mSize ∧ v.tryGrow T s newCap k = ⟨undo T s v newCap j, v, none⟩)
    ∨ ∃ k', v.tryGrow T s newCap k
      = ⟨(v.growCapacity T s newCap).1, (v.growCapacity T s newCap).2, some k'⟩ := by
  unfold Vec.tryGrow
  rcases tryAllocate_cases (T := T) s newCap k with hnone | ⟨k', hsome⟩
  · rw [hnone]
    exact Or.inl rfl
  · simp only [hsome, tryMoveN_eq]
    by_cases hle : v.mSize ≤ k'
    · rw [if_pos hle]
      exact Or.inr (Or.inr ⟨k' - v.mSize, rfl⟩)
    · rw [if_neg hle]
      exact Or.inr (Or.inl ⟨k', Nat.lt_of_not_le hle, rfl⟩)

/-! ## The handler -/

theorem upTo_same (hcopied : T.moved = id) (k : Nat) (f : Nat → Option E) :
    upTo k (fun i => (f i).map T.moved) f = f := by
  funext i
  unfold upTo
  rw [hcopied, Option.map_id_fun]
  exact ite_self _

/-- **The handler undoes the copies**, where the new buffer had room for them. -/
theorem undo_gives (hcopied : T.moved = id) (hs : Sane s) (h : Holds s v n l) {j : Nat}
    (hj : j < l.length) (hle : j ≤ newCap) (hfits : T.size * newCap < 2 ^ 64) :
    Gives s v n l (undo T s v newCap j, v) := by
  unfold undo
  by_cases hzero : newCap = 0
  · -- no copies, and null is freed
    have hjzero : j = 0 := by omega
    subst hzero
    subst hjzero
    exact Gives.refl hs h
  · cases h with
    | null _ _ => exact absurd hj (Nat.not_lt_zero _)
    | buffer _ _ ho =>
        have hold : Shows s v.pArr n fun i => l[i]? := ho.shows
        obtain ⟨buf, hbuf, _⟩ := id hold
        have hne : v.pArr ≠ s.next := Nat.ne_of_lt (hs.placed.lt_next hbuf)
        have hlive : ∀ i < j, (l[i]?).isSome := fun i hi => by
          rw [List.getElem?_eq_getElem (by omega)]
          rfl
        rw [allocate_eq (Nat.pos_of_ne_zero hzero) hfits]
        obtain ⟨hs₁, hold₁, hnew₁, hothers₁, _⟩ := moveN_spec (T := T) (sane_alloc hs newCap) hne
          (hold.alloc hs.placed newCap) (shows_alloc s newCap) j hle hlive
        rw [upTo_same hcopied] at hold₁
        obtain ⟨hs₂, hnew₂, hframe₂⟩ := destroyN_spec hs₁ hnew₁ j fun i hi => by
          rw [upTo, if_pos hi]
          exact hlive i hi
        rw [upTo_none fun i hi => upTo_of_le _ _ hi] at hnew₂
        obtain ⟨buf₂, hbuf₂, _⟩ := id hnew₂
        have hframe₃ := frame_free hs₂.placed hbuf₂
        have hkept := (hold₁.frame hframe₂ hne).frame hframe₃ hne
        refine ⟨sane_free hs₂ hnew₂, .buffer n l ⟨hkept, ho.size, ho.room, ho.pos⟩,
          fun c hc _ => ?_, Or.inl rfl⟩
        -- the new buffer was not there before, and is not there after
        by_cases hcn : c = s.next
        · rw [hcn]
          exact (free_self hs₂.placed hbuf₂).trans (hs.placed.beyond _ (Nat.le_refl _)).symm
        · rw [hframe₃.others c hcn, hframe₂.others c hcn, hothers₁ c hc hcn, alloc_of_ne hcn]

theorem undo_faulted (hs : Sane s) (h : Holds s v n l) {j : Nat} (hj : j < l.length)
    (hgt : newCap < j) (hfits : T.size * newCap < 2 ^ 64) :
    (undo T s v newCap j).faulted = true := by
  refine free_faulted (destroyN_faulted (moveN_faulted ?_ hgt) ..) ..
  exact moveN_short hs h (by omega) hfits

/-! ## Calls that return -/

theorem tryGrow_returns {k' : Nat} (h : (v.tryGrow T s newCap k).fuse = some k') :
    ((v.tryGrow T s newCap k).storage, (v.tryGrow T s newCap k).vec)
      = v.growCapacity T s newCap := by
  rcases tryGrow_path (T := T) v s newCap k with heq | ⟨_, _, heq⟩ | ⟨_, heq⟩
  · rw [heq] at h
    exact absurd h (by simp)
  · rw [heq] at h
    exact absurd h (by simp)
  · rw [heq]

theorem tryReserve_returns {k' : Nat} (h : (v.tryReserve T s k).fuse = some k') :
    ((v.tryReserve T s k).storage, (v.tryReserve T s k).vec) = v.reserve T s := by
  have hsecond : ∀ (s : Storage E) (v : Vec) (k : Nat), (if v.mCap ≤ v.mSize
      then v.tryGrow T s (v.mCap * 3 % 2 ^ 64) k else ⟨s, v, some k⟩).fuse = some k' →
      ((if v.mCap ≤ v.mSize then v.tryGrow T s (v.mCap * 3 % 2 ^ 64) k else ⟨s, v, some k⟩).storage,
        (if v.mCap ≤ v.mSize then v.tryGrow T s (v.mCap * 3 % 2 ^ 64) k else ⟨s, v, some k⟩).vec)
      = if v.mCap ≤ v.mSize then v.growCapacity T s (v.mCap * 3 % 2 ^ 64) else (s, v) := by
    intro s v k hreturn
    by_cases hfull : v.mCap ≤ v.mSize
    · rw [if_pos hfull] at hreturn ⊢
      rw [if_pos hfull]
      exact tryGrow_returns hreturn
    · rw [if_neg hfull, if_neg hfull]
  unfold Vec.tryReserve Outcome.andThen at h ⊢
  unfold Vec.reserve
  by_cases hone : v.mCap = 1
  · rw [if_pos hone] at h ⊢
    rw [if_pos hone]
    cases hfuse : (v.tryGrow T s (v.mCap * 3 % 2 ^ 64) k).fuse with
    | none =>
        rw [hfuse] at h
        exact absurd (hfuse.symm.trans h) (by simp)
    | some k₁ =>
        rw [hfuse] at h
        have hfirst := tryGrow_returns hfuse
        rw [← hfirst]
        exact hsecond _ _ _ h
  · rw [if_neg hone] at h ⊢
    rw [if_neg hone]
    exact hsecond _ _ _ h

theorem tryAppend_returns {k' : Nat} (h : (v.tryAppend T s x k).fuse = some k') :
    ((v.tryAppend T s x k).storage, (v.tryAppend T s x k).vec) = v.append T s x := by
  unfold Vec.tryAppend Outcome.andThen at h ⊢
  cases hfuse : (v.tryReserve T s k).fuse with
  | none =>
      rw [hfuse] at h
      exact absurd (hfuse.symm.trans h) (by simp)
  | some k₁ =>
      rw [hfuse] at h
      cases k₁ with
      | zero => exact absurd h (by simp)
      | succ k₁ =>
          rw [append_eq, ← tryReserve_returns hfuse]

/-- **A call that returns does what it does without exceptions.** -/
theorem tryRun_returns {c : Act E} {k' : Nat} (h : (c.tryRun T s v k).fuse = some k') :
    ((c.tryRun T s v k).storage, (c.tryRun T s v k).vec) = c.run T s v := by
  cases c with
  | work op =>
      cases op with
      | pushBack x => exact tryAppend_returns h
      | emplaceBack x => exact tryAppend_returns h
      | popBack => rfl
      | write pos x => rfl
  | shrinkToFit =>
      have h' : (v.tryShrinkToFit T s k).fuse = some k' := h
      show ((v.tryShrinkToFit T s k).storage, (v.tryShrinkToFit T s k).vec) = v.shrinkToFit T s
      unfold Vec.tryShrinkToFit at h' ⊢
      unfold Vec.shrinkToFit
      by_cases hlt : v.mSize < v.mCap
      · rw [if_pos hlt] at h' ⊢
        rw [if_pos hlt]
        exact tryGrow_returns h'
      · rw [if_neg hlt, if_neg hlt]
  | resize newCap => rfl

/-! ## Calls that throw -/

/-- The vector holds its list, and a capacity that was the number of slots is that again. -/
def Lands (s : Storage E) (v : Vec) (n : Nat) (l : List E) (o : Outcome E) : Prop :=
  ∃ m, Gives s v m l (o.storage, o.vec) ∧ (v.mCap = n → o.vec.mCap = m)

/-- A fault is the fault of a capacity that was not the number of slots. -/
def Ends (s : Storage E) (v : Vec) (n : Nat) (l : List E) (o : Outcome E) : Prop :=
  o.storage.faulted = true ∧ v.mCap ≠ n ∨ Lands s v n l o

theorem lands_refl (hs : Sane s) (h : Holds s v n l) (fuse : Option Nat) :
    Lands s v n l ⟨s, v, fuse⟩ := ⟨n, Gives.refl hs h, id⟩

theorem Ends.andThen {f : Storage E → Vec → Nat → Outcome E} (h : Ends s v n l o)
    (hfault : ∀ s v k, s.faulted = true → (f s v k).storage.faulted = true)
    (hnext : ∀ m k, o.fuse = some k → Gives s v m l (o.storage, o.vec) →
      Ends o.storage o.vec m l (f o.storage o.vec k)) : Ends s v n l (o.andThen f) := by
  unfold Outcome.andThen
  cases hfuse : o.fuse with
  | none => exact h
  | some k =>
      rcases h with ⟨hfaulted, hne⟩ | ⟨m, hgives, hexact⟩
      · exact Or.inl ⟨hfault _ _ _ hfaulted, hne⟩
      · rcases hnext m k hfuse hgives with ⟨hfaulted, hne⟩ | ⟨m', hgives', hexact'⟩
        · exact Or.inl ⟨hfaulted, fun hcap => hne (hexact hcap)⟩
        · exact Or.inr ⟨m', hgives.trans hgives', fun hcap => hexact' (hexact hcap)⟩

theorem tryGrow_ends (hcopied : T.moved = id) (hs : Sane s) (h : Holds s v n l)
    (hfits : T.size * newCap < 2 ^ 64) (hshort : newCap < l.length → v.mCap ≠ n) (k : Nat) :
    Ends s v n l (v.tryGrow T s newCap k) := by
  rcases tryGrow_path (T := T) v s newCap k with heq | ⟨j, hj, heq⟩ | ⟨k', heq⟩
  · rw [heq]
    exact Or.inr (lands_refl hs h none)
  · rw [heq]
    rw [h.size] at hj
    rcases Nat.lt_or_ge newCap j with hgt | hle
    · exact Or.inl ⟨undo_faulted hs h hj hgt hfits, hshort (by omega)⟩
    · exact Or.inr ⟨n, undo_gives hcopied hs h hj hle hfits, id⟩
  · rw [heq]
    rcases Nat.lt_or_ge newCap l.length with hlt | hle
    · exact Or.inl ⟨growCapacity_short hs h hlt hfits, hshort hlt⟩
    · exact Or.inr ⟨newCap, growCapacity_holds hs h hle hfits, fun _ => rfl⟩

theorem tryGrow_faulted (h : s.faulted = true) (v : Vec) (newCap k : Nat) :
    (v.tryGrow T s newCap k).storage.faulted = true := by
  rcases tryGrow_path (T := T) v s newCap k with heq | ⟨j, _, heq⟩ | ⟨k', heq⟩
  · rw [heq]
    exact h
  · rw [heq]
    refine free_faulted (destroyN_faulted (moveN_faulted (k := 0) ?_ (Nat.zero_le _)) ..) ..
    exact allocate_faulted h newCap
  · rw [heq]
    exact growCapacity_faulted h v newCap

/-- A test of an append, in a vector whose growth fits. -/
theorem test_ends {p : Prop} [Decidable p] (hcopied : T.moved = id) (hs : Sane s)
    (h : Holds s v n l) (hfits : p → T.size * (v.mCap * 3) < 2 ^ 64) (k : Nat) :
    Ends s v n l (if p then v.tryGrow T s (v.mCap * 3 % 2 ^ 64) k else ⟨s, v, some k⟩) := by
  have hroom := h.room
  split
  · rename_i hp
    rw [growth_eq (hfits hp)]
    exact tryGrow_ends hcopied hs h (hfits hp) (fun hlt => by omega) k
  · exact Or.inr (lands_refl hs h _)

theorem tryReserve_ends (hcopied : T.moved = id) (hs : Sane s) (h : Holds s v n l)
    (hfits : v.AppendFits T) (k : Nat) : Ends s v n l (v.tryReserve T s k) := by
  refine (test_ends hcopied hs h (fun hone => hfits.1 (Or.inl hone)) k).andThen
    (fun s v k hfaulted => ?_) fun m k₁ hfuse hgives => ?_
  · split
    · exact tryGrow_faulted hfaulted ..
    · exact hfaulted
  · refine test_ends hcopied hgives.sane hgives.holds (fun hfull => ?_) k₁
    by_cases hone : v.mCap = 1
    · -- it has grown to three slots, and grows to nine
      have hfit := hfits.1 (Or.inl hone)
      rw [if_pos hone] at hfuse hfull ⊢
      have hvec := congrArg Prod.snd (tryGrow_returns hfuse)
      simp only at hvec
      rw [hvec] at hfull ⊢
      have hcap : (v.growCapacity T s (v.mCap * 3 % 2 ^ 64)).2.mCap = 3 := by
        rw [growth_eq hfit, hone]
        rfl
      rw [hcap] at hfull ⊢
      exact hfits.2 hone (Or.inr hfull)
    · rw [if_neg hone] at hfull ⊢
      exact hfits.1 (Or.inr hfull)

theorem tryAppend_ends (hcopied : T.moved = id) (hs : Sane s) (h : Holds s v n l)
    (hfits : v.AppendFits T) (hthrown : (v.tryAppend T s x k).fuse = none) :
    Ends s v n l (v.tryAppend T s x k) := by
  have hreserve := tryReserve_ends hcopied hs h hfits k
  unfold Vec.tryAppend Outcome.andThen at hthrown ⊢
  cases hfuse : (v.tryReserve T s k).fuse with
  | none => exact hreserve
  | some k₁ =>
      rw [hfuse] at hthrown
      cases k₁ with
      | zero => exact hreserve
      | succ k₁ => exact absurd hthrown (by simp)

/-- **A call that throws leaves the vector its list.** -/
theorem tryRun_ends {c : Act E} (hcopied : T.moved = id) (hs : Sane s) (h : Holds s v n l)
    (hfits : c.Fits T v) (hthrown : (c.tryRun T s v k).fuse = none) :
    Ends s v n l (c.tryRun T s v k) := by
  cases c with
  | work op =>
      cases op with
      | pushBack x => exact tryAppend_ends hcopied hs h (hfits rfl) hthrown
      | emplaceBack x => exact tryAppend_ends hcopied hs h (hfits rfl) hthrown
      | popBack => exact absurd hthrown (by simp [Act.tryRun])
      | write pos x => exact absurd hthrown (by simp [Act.tryRun])
  | shrinkToFit =>
      show Ends s v n l (v.tryShrinkToFit T s k)
      unfold Vec.tryShrinkToFit
      split
      · rename_i hlt
        have hsize := h.size
        exact tryGrow_ends hcopied hs h (hfits hlt) (fun hshort => by omega) k
      · exact Or.inr (lands_refl hs h _)
  | resize newCap => exact absurd hthrown (by simp [Act.tryRun])

/-! ## Lives with exceptions -/

/-- A call keeps what is true in every life. -/
theorem kept_call {e : Act E × Nat} (hcopied : T.moved = id) (h : Kept r)
    (hdefined : CallDefined T r e) (hcall : calls T r e = some r') : Kept r' := by
  obtain ⟨⟨hrange, hfits⟩, rfl⟩ := Transition.of_guard hcall
  have hunfaulted : (e.1.tryRun T r.storage r.vec e.2).storage.faulted = false := hdefined
  cases hfuse : (e.1.tryRun T r.storage r.vec e.2).fuse with
  | some k =>
      -- the call returned, and did what it does without exceptions
      have hreturn := tryRun_returns hfuse
      have hstorage := congrArg Prod.fst hreturn
      have hvec := congrArg Prod.snd hreturn
      simp only at hstorage hvec
      have hdoes : does T r e.1 = some
          { storage := (e.1.run T r.storage r.vec).1, vec := (e.1.run T r.storage r.vec).2
            list := e.1.onList r.list, resized := r.resized || e.1.resizes } :=
        if_pos ⟨hrange, hfits⟩
      rw [hstorage] at hunfaulted
      rw [← hstorage, ← hvec] at hdoes
      exact kept_step h hunfaulted hdoes
  | none =>
      rcases tryRun_ends hcopied h.sane h.holds hfits hfuse with ⟨hfault, _⟩ | ⟨m, hgives, hexact⟩
      · exact absurd (hunfaulted.symm.trans hfault) Bool.false_ne_true
      · have hslots := hgives.holds.slots hgives.sane
        refine ⟨hgives.sane, ?_, hgives.change.only h.only, fun hr => ?_⟩
        · have hholds := hgives.holds
          rw [← hslots] at hholds
          exact hholds
        · exact (hexact (h.exact (Bool.or_eq_false_iff.mp hr).1)).trans hslots.symm

theorem survived_kept (hcopied : T.moved = id) (hsize : ∀ n ∈ size, SizeFits T n)
    (h : Survived T size r) : Kept r :=
  h.invariant (kept_start hsize) fun _ _ _ _ hr hstep => kept_call hcopied hr hstep.1 hstep.2

/-! ## The guarantee -/

/-- What is left when a call on the vector of `r` has ended with an exception. -/
structure Guarantee (r : Life E) (o : Outcome E) : Prop where
  size : o.vec.mSize = r.vec.mSize
  elements : ∀ pos, (o.vec.index pos).read o.storage = (r.vec.index pos).read r.storage
  /-- Exactly the slots below the size are live. -/
  live : ∀ pos, (o.storage.slot o.vec.pArr pos).isSome ↔ pos < o.vec.mSize
  /-- The buffer has as many slots as the capacity says, unless a `resize` has changed that. -/
  slots : r.resized = false → o.vec.slots o.storage = o.vec.mCap
  /-- Every other buffer there ever was has been freed once, and the vector's has not. -/
  freed : ∀ a, 0 < a → a < o.storage.next →
    o.storage.freed.count a = if a = o.vec.pArr then 0 else 1
  /-- Every object there ever was is an element, or was destroyed once. -/
  destroyed : ∀ id, id < o.storage.nextId →
    (∃ pos obj, o.storage.slot o.vec.pArr pos = some obj ∧ obj.id = id)
      ∧ o.storage.destroyed.count id = 0
    ∨ (∀ pos obj, o.storage.slot o.vec.pArr pos = some obj → obj.id ≠ id)
      ∧ o.storage.destroyed.count id = 1

theorem Holds.live (hs : Sane s) (h : Holds s v n l) (pos : Nat) :
    (s.slot v.pArr pos).isSome ↔ pos < v.mSize := by
  have hread : (s.slot v.pArr pos).map Object.val = l[pos]? := h.read hs pos
  rw [← Option.isSome_map (f := Object.val), hread, h.size]
  exact iff_of_eq (isSome_getElem? l pos)

theorem freed_count (hs : Sane s) (honly : ∀ a, a ≠ v.pArr → s.buffers a = none)
    (h : Holds s v n l) (hpos : 0 < a) (hlt : a < s.next) :
    s.freed.count a = if a = v.pArr then 0 else 1 := by
  split
  · rename_i heq
    subst heq
    cases h with
    | null hptr _ => exact absurd hptr (by omega)
    | buffer _ _ ho =>
        obtain ⟨buf, hbuf, _⟩ := ho.shows
        exact hs.not_freed hbuf
  · rename_i hne
    exact hs.freed_once hpos hlt (honly a hne)

theorem destroyed_count (hs : Sane s) (honly : ∀ a, a ≠ v.pArr → s.buffers a = none) {id : Nat}
    (hlt : id < s.nextId) :
    (∃ pos obj, s.slot v.pArr pos = some obj ∧ obj.id = id) ∧ s.destroyed.count id = 0
    ∨ (∀ pos obj, s.slot v.pArr pos = some obj → obj.id ≠ id) ∧ s.destroyed.count id = 1 := by
  by_cases hlive : ∃ pos obj, s.slot v.pArr pos = some obj ∧ obj.id = id
  · obtain ⟨pos, obj, hslot, rfl⟩ := hlive
    exact Or.inl ⟨⟨pos, obj, hslot, rfl⟩, hs.not_destroyed hslot⟩
  · refine Or.inr ⟨fun pos obj hslot hid => hlive ⟨pos, obj, hslot, hid⟩, ?_⟩
    refine hs.destroyed_once hlt fun a pos obj hslot hid => ?_
    obtain ⟨buf, hbuf, _⟩ := buffer_of_slot hslot
    by_cases ha : a = v.pArr
    · subst ha
      exact hlive ⟨pos, obj, hslot, hid⟩
    · exact absurd (hbuf.symm.trans (honly a ha)) (by simp)

end QuickStructs.Vector
