import QuickStructs.Proof.VectorCapacity

/-!
# Appending an element of the vector itself

The argument of `push_back(v[i])` and `emplace_back(v[i])` is a reference into the buffer, and
it is read after the vector has made room. A vector that grows has freed that buffer by then.

A vector that has room reads it in time. `push_back` moves from it, though it is an lvalue: the
element that was named is left as a move leaves it.
-/

namespace QuickStructs.Vector

open Lib Storage Transition

variable {E : Type} {T : ElementType E}
variable {s : Storage E} {v : Vec} {l : List E} {a i n newCap : Nat} {x : E} {r : Life E}

/-! ## The old buffer -/

/-- A growth frees the buffer, and what was freed before is not there again. -/
theorem growCapacity_gone (hs : Sane s) (h : Holds s v n l) (hpos : 0 < newCap)
    (hgives : Gives s v newCap l (v.growCapacity T s newCap)) (ha : a < s.next)
    (hgone : a = v.pArr ∨ s.buffers a = none) :
    (v.growCapacity T s newCap).1.buffers a = none ∧ a < (v.growCapacity T s newCap).1.next := by
  have hnew : (v.growCapacity T s newCap).2.pArr = s.next := by
    show (allocate T s newCap).2 = s.next
    unfold allocate
    rw [if_neg (by omega)]
    rfl
  have hold := h.lt_next hs
  have hchange := hgives.change
  rw [hnew] at hchange
  have hfreed := (hchange.moved.resolve_left (by omega)).2
  refine ⟨?_, ?_⟩
  · by_cases hav : a = v.pArr
    · rw [hav]
      exact hfreed
    · exact (hchange.others a hav (by omega)).trans (hgone.resolve_left hav)
  · -- the new buffer is there, so its address is below the next one
    have hlt : s.next < (v.growCapacity T s newCap).1.next := by
      obtain ⟨buf, hbuf⟩ := hgives.holds.there hpos
      rw [hnew] at hbuf
      exact hgives.sane.placed.lt_next hbuf
    omega

/-- **After an append that made room, the old buffer is gone.** -/
theorem reserve_gone (hs : Sane s) (h : Holds s v n l) (hl : 0 < l.length) (hfits : v.AppendFits T)
    (hgrows : v.mCap = 1 ∨ v.mCap ≤ v.mSize) :
    (v.reserve T s).1.faulted = true ∨ (v.reserve T s).1.buffers v.pArr = none := by
  have hold := h.lt_next hs
  rcases reserve_path v s hfits with ⟨hone, hlt, _⟩ | ⟨_, m, hfit, heq | ⟨m', hfit', heq⟩⟩
  · exact absurd hgrows (by omega)
  · rw [heq]
    refine (growCapacity_cases hs h hfit).imp_right fun ⟨hle, hgives⟩ => ?_
    exact (growCapacity_gone hs h (by omega) hgives hold (Or.inl rfl)).1
  · rw [heq]
    rcases growCapacity_cases hs h hfit with hfault | ⟨hle, hfirst⟩
    · exact Or.inl (growCapacity_faulted hfault ..)
    · have hgone := growCapacity_gone hs h (by omega) hfirst hold (Or.inl rfl)
      refine (growCapacity_cases hfirst.sane hfirst.holds hfit').imp_right fun ⟨hle', hgives⟩ => ?_
      exact (growCapacity_gone hfirst.sane hfirst.holds (by omega) hgives hgone.2
        (Or.inr hgone.1)).1

/-! ## The two appends -/

/-- What an append of the element at `i` to the vector should come to. -/
structure AppendsOwn (s : Storage E) (v : Vec) (i : Nat) (p : Storage E × Vec) : Prop where
  unfaulted : p.1.faulted = false
  size : p.2.mSize = v.mSize + 1
  last : (p.2.index v.mSize).read p.1 = (v.index i).read s
  others : ∀ j, j < v.mSize → (p.2.index j).read p.1 = (v.index j).read s

/-- There is room in the buffer, and the append does not make any. -/
def Roomy (s : Storage E) (v : Vec) : Prop := v.mCap ≠ 1 ∧ v.mSize < v.mCap ∧ v.mSize < v.slots s

theorem pushBackRef_eq (left : E → E) (v : Vec) (s : Storage E) (element : Ref) :
    v.pushBackRef T left s element = match element.read (v.reserve T s).1 with
      | some x => (element.write
          ((v.reserve T s).1.construct (v.reserve T s).2.pArr (v.reserve T s).2.mSize x) (left x),
        { (v.reserve T s).2 with mSize := (v.reserve T s).2.mSize + 1 })
      | none => ((v.reserve T s).1.fault, (v.reserve T s).2) := rfl

theorem emplaceBackRef_eq (v : Vec) (s : Storage E) (element : Ref) :
    v.emplaceBackRef T s element = match element.read (v.reserve T s).1 with
      | some x =>
        ((v.reserve T s).1.construct (v.reserve T s).2.pArr (v.reserve T s).2.mSize x,
        { (v.reserve T s).2 with mSize := (v.reserve T s).2.mSize + 1 })
      | none => ((v.reserve T s).1.fault, (v.reserve T s).2) := rfl

/-- **An append of an element that is still there** when room has been made appends its value. -/
theorem emplaceBackRef_read {element : Ref} (h : element.read (v.reserve T s).1 = some x) :
    v.emplaceBackRef T s element = v.append T s x := by
  rw [emplaceBackRef_eq, h]
  rfl

/-- `push_back` then leaves of the element what a move does. -/
theorem pushBackRef_read (left : E → E) {element : Ref}
    (h : element.read (v.reserve T s).1 = some x) :
    v.pushBackRef T left s element
      = (element.write (v.append T s x).1 (left x), (v.append T s x).2) := by
  rw [pushBackRef_eq, h]
  rfl

theorem write_same {r : Ref} (h : r.read s = some x) : r.write s x = s := by
  obtain ⟨o, ho, rfl⟩ := Option.map_eq_some_iff.mp h
  exact assign_same ho

theorem read_write {r : Ref} (h : r.read s = some x) (y : E) : r.read (r.write s y) = some y := by
  obtain ⟨o, ho, _⟩ := Option.map_eq_some_iff.mp h
  show ((s.assign r.arr r.pos y).slot r.arr r.pos).map Object.val = some y
  rw [slot_assign ho]
  rfl

/-- A vector that makes room loses the element it was given. -/
theorem grown_ref (left : E → E) (hs : Sane s) (h : Holds s v n l) (hi : i < l.length)
    (hfits : v.AppendFits T) (hgrows : v.mCap = 1 ∨ v.mCap ≤ v.mSize) :
    (v.pushBackRef T left s (v.index i)).1.faulted = true
      ∧ (v.emplaceBackRef T s (v.index i)).1.faulted = true := by
  rw [pushBackRef_eq, emplaceBackRef_eq]
  rcases reserve_gone hs h (by omega) hfits hgrows with hfault | hgone
  · cases (v.index i).read (v.reserve T s).1 with
    | none => exact ⟨rfl, rfl⟩
    | some x =>
        have hconstruct := construct_faulted hfault (v.reserve T s).2.pArr (v.reserve T s).2.mSize x
        exact ⟨assign_faulted hconstruct .., hconstruct⟩
  · have hread : (v.index i).read (v.reserve T s).1 = none := by
      show ((v.reserve T s).1.slot v.pArr i).map Object.val = none
      unfold Storage.slot
      rw [hgone]
      rfl
    rw [hread]
    exact ⟨rfl, rfl⟩

/-- A vector that makes no room reads the element as it is. -/
theorem kept_ref (left : E → E) (hs : Sane s) (h : Holds s v n l) (hi : l[i]? = some x)
    (hone : v.mCap ≠ 1) (hlt : v.mSize < v.mCap) :
    v.emplaceBackRef T s (v.index i)
        = (s.construct v.pArr v.mSize x, { v with mSize := v.mSize + 1 })
      ∧ v.pushBackRef T left s (v.index i)
        = ((v.index i).write (s.construct v.pArr v.mSize x) (left x),
          { v with mSize := v.mSize + 1 }) := by
  have hreserve : v.reserve T s = (s, v) := by
    unfold Vec.reserve
    rw [if_neg hone]
    exact if_neg (Nat.not_le.mpr hlt)
  rw [pushBackRef_eq, emplaceBackRef_eq, hreserve, h.read hs, hi]
  exact ⟨rfl, rfl⟩

/-- What was appended, and what was there, in terms of the list. -/
theorem appendsOwn_iff {p : Storage E × Vec} {m : Nat} {l' : List E} (hs : Sane s)
    (h : Holds s v n l) (hgives : Gives s v m l' p) (hsize : l'.length = l.length + 1) :
    AppendsOwn s v i p ↔ l'[l.length]? = l[i]? ∧ ∀ j, j < l.length → l'[j]? = l[j]? := by
  have hread : ∀ j, (p.2.index j).read p.1 = l'[j]? := hgives.holds.read hgives.sane
  constructor
  · intro hown
    refine ⟨?_, fun j hj => ?_⟩
    · rw [← hread, ← h.size, hown.last, h.read hs]
    · rw [← hread, hown.others j (h.size ▸ hj), h.read hs]
  · rintro ⟨hlast, hothers⟩
    refine ⟨hgives.sane.unfaulted, ?_, ?_, fun j hj => ?_⟩
    · rw [hgives.holds.size, hsize, h.size]
    · rw [hread, h.size, hlast, h.read hs]
    · rw [hread, hothers j (h.size ▸ hj), h.read hs]

/-- **`emplace_back(v[i])` appends a copy exactly when the vector has room already.** -/
theorem emplace_own_iff (hs : Sane s) (h : Holds s v n l) (hi : i < l.length)
    (hfits : v.AppendFits T) :
    AppendsOwn s v i (v.emplaceBackRef T s (v.index i)) ↔ Roomy s v := by
  have hslots := h.slots hs
  have hsize := h.size
  by_cases hgrows : v.mCap = 1 ∨ v.mCap ≤ v.mSize
  · have hfault := (grown_ref id hs h hi hfits hgrows).2
    refine iff_of_false (fun hown => ?_) fun ⟨hone, hlt, _⟩ => by omega
    exact absurd (hown.unfaulted.symm.trans hfault) Bool.false_ne_true
  · have hx := List.getElem?_eq_getElem hi
    rw [(kept_ref id hs h hx (by omega) (by omega)).1]
    rcases Nat.lt_or_ge l.length n with hlt | hge
    · have hgives := place_holds (x := l[i]) hs h hlt
      refine iff_of_true ?_ ⟨by omega, by omega, by omega⟩
      refine (appendsOwn_iff hs h hgives List.length_append).mpr ⟨?_, fun j hj => ?_⟩
      · rw [List.getElem?_concat_length, hx]
      · exact List.getElem?_append_left hj
    · refine iff_of_false (fun hown => ?_) fun ⟨_, _, hroom⟩ => by omega
      exact absurd (hown.unfaulted.symm.trans (place_full hs h hge)) Bool.false_ne_true

/-- **`push_back(v[i])` does so when, besides, a move leaves the element as it was.** -/
theorem push_own_iff (left : E → E) (hs : Sane s) (h : Holds s v n l) (hi : i < l.length)
    (hfits : v.AppendFits T) :
    AppendsOwn s v i (v.pushBackRef T left s (v.index i)) ↔ Roomy s v ∧ left l[i] = l[i] := by
  have hslots := h.slots hs
  have hsize := h.size
  by_cases hgrows : v.mCap = 1 ∨ v.mCap ≤ v.mSize
  · have hfault := (grown_ref left hs h hi hfits hgrows).1
    refine iff_of_false (fun hown => ?_) fun ⟨⟨hone, hlt, _⟩, _⟩ => by omega
    exact absurd (hown.unfaulted.symm.trans hfault) Bool.false_ne_true
  · have hx := List.getElem?_eq_getElem hi
    rw [(kept_ref left hs h hx (by omega) (by omega)).2]
    rcases Nat.lt_or_ge l.length n with hlt | hge
    · have hplace := place_holds (x := l[i]) hs h hlt
      have hwrite := write_holds (x := left l[i]) hplace.sane hplace.holds
        (show i < v.mSize + 1 by omega)
      have hgives := hplace.trans hwrite
      have hlength : ((l ++ [l[i]]).set i (left l[i])).length = l.length + 1 := by
        rw [List.length_set, List.length_append]
        rfl
      have hroomy : Roomy s v := ⟨by omega, by omega, by omega⟩
      refine (appendsOwn_iff hs h hgives hlength).trans ?_
      have hset : ∀ j, ((l ++ [l[i]]).set i (left l[i]))[j]?
          = if i = j then some (left l[i]) else (l ++ [l[i]])[j]? := by
        intro j
        rw [List.getElem?_set]
        split
        · rename_i hij
          rw [if_pos]
          rw [List.length_append]
          omega
        · rfl
      constructor
      · rintro ⟨_, hothers⟩
        have hmoved := hothers i hi
        rw [hset, if_pos rfl, hx] at hmoved
        exact ⟨hroomy, Option.some.inj hmoved⟩
      · rintro ⟨_, hleft⟩
        refine ⟨?_, fun j hj => ?_⟩
        · rw [hset, if_neg (by omega), List.getElem?_concat_length, hx]
        · rw [hset]
          split
          · rename_i hij
            subst hij
            rw [hleft, hx]
          · exact List.getElem?_append_left hj
    · have hfault := assign_faulted (place_full (x := l[i]) hs h hge) v.pArr i (left l[i])
      refine iff_of_false (fun hown => ?_) fun ⟨⟨_, _, hroom⟩, _⟩ => by omega
      exact absurd (hown.unfaulted.symm.trans hfault) Bool.false_ne_true

/-- **Appending an element of the vector itself.** Both appends read the element when the vector
has made room, so both are right exactly when it has room already; and `push_back` leaves the
element as a move does. -/
theorem own_append_iff (T : ElementType E) (left : E → E) (size : Option Nat)
    (hsize : ∀ n ∈ size, SizeFits T n) (r : Life E) (h : Lived T size r)
    (hfits : r.vec.AppendFits T) (i : Nat) (hi : i < r.vec.mSize) :
    (AppendsOwn r.storage r.vec i (r.vec.pushBackRef T left r.storage (r.vec.index i))
      ↔ Roomy r.storage r.vec ∧ ∀ x ∈ (r.vec.index i).read r.storage, left x = x)
    ∧ (AppendsOwn r.storage r.vec i (r.vec.emplaceBackRef T r.storage (r.vec.index i))
      ↔ Roomy r.storage r.vec) := by
  have hkept := lived_kept hsize h
  have hi' : i < r.list.length := hkept.holds.size ▸ hi
  refine ⟨(push_own_iff left hkept.sane hkept.holds hi' hfits).trans (and_congr_right fun _ => ?_),
    emplace_own_iff hkept.sane hkept.holds hi' hfits⟩
  rw [hkept.holds.read hkept.sane, List.getElem?_eq_getElem hi']
  exact ⟨fun hleft x hx => Option.some.inj hx ▸ hleft, fun hall => hall _ rfl⟩

/-- A type of eight bytes, of which a move leaves nothing. -/
def handles : ElementType Nat := ⟨8, by decide, by decide, 0, fun _ => 0⟩

/-- `Vector(2)`, `push_back(9)`, and then the first element again, for which there is room. -/
theorem own_append_iff_roomy :
    let r := (exec (does words) { toRun := start words (some 2) } [.work (.pushBack 9)]).get
      (by decide)
    (AppendsOwn r.storage r.vec 0 (r.vec.pushBackRef words id r.storage (r.vec.index 0))
      ↔ Roomy r.storage r.vec ∧ ∀ x ∈ (r.vec.index 0).read r.storage, id x = x)
    ∧ (AppendsOwn r.storage r.vec 0 (r.vec.emplaceBackRef words r.storage (r.vec.index 0))
      ↔ Roomy r.storage r.vec) :=
  own_append_iff words id (some 2) (by decide) _
    (exec_reach_when [.work (.pushBack 9)]
      (Option.some_get _).symm) (by decide) 0 (by decide)

/-- `Vector(1)`: both appends of its element read it after its buffer was freed. And with the
room for it, `push_back` of the last element empties it, where a move leaves nothing. -/
theorem own_append_dangles :
    (∃ r : Life Nat, Lived words (some 1) r ∧ r.vec.AppendFits words ∧ 0 < r.vec.mSize
      ∧ ¬ AppendsOwn r.storage r.vec 0 (r.vec.pushBackRef words id r.storage (r.vec.index 0))
      ∧ ¬ AppendsOwn r.storage r.vec 0 (r.vec.emplaceBackRef words r.storage (r.vec.index 0)))
    ∧ ∃ r : Life Nat, Lived handles (some 2) r ∧ Roomy r.storage r.vec ∧ 2 < r.vec.mSize
      ∧ (r.vec.index 2).read r.storage = some 9
      ∧ let p := r.vec.pushBackRef handles handles.moved r.storage (r.vec.index 2)
        p.1.faulted = false ∧ (p.2.index 2).read p.1 = some 0 := by
  refine ⟨⟨{ toRun := start words (some 1) }, Reach.init, by decide, by decide,
    fun hown => absurd hown.unfaulted (by decide), fun hown => absurd hown.unfaulted (by decide)⟩,
    (exec (does handles) { toRun := start handles (some 2) } [.work (.pushBack 9)]).get (by decide),
    exec_reach_when [.work (.pushBack 9)]
      (Option.some_get _).symm, ?_, by decide, by decide, by decide⟩
  exact ⟨by decide, by decide, by decide⟩

end QuickStructs.Vector
