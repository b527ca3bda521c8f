import QuickStructs.Proof.VectorHolds

/-!
# A vector whose capacity was changed

`shrink_to_fit` and `resize` both set the capacity that every later append goes by. What they
leave is sound as long as no append finds a capacity of zero: three times zero slots is no room
for the element. A vector comes to that by `shrink_to_fit` when it is empty, or by `resize(0)`.

So what comes after is told by the acts alone: `Clean` goes over them with the size, and with
whether the capacity is zero.
-/

namespace QuickStructs.Vector

open Lib Storage Transition

variable {E : Type} {T : ElementType E}
variable {s : Storage E} {v : Vec} {l : List E} {n : Nat} {r r' r'' : Life E}

/-! ## A fault stays -/

theorem append_faulted (h : s.faulted = true) (v : Vec) (x : E) :
    (v.append T s x).1.faulted = true := by
  have hsecond : ∀ p : Storage E × Vec, p.1.faulted = true → (if p.2.mCap ≤ p.2.mSize
      then p.2.growCapacity T p.1 (p.2.mCap * 3 % 2 ^ 64) else p).1.faulted = true := by
    intro p hp
    split
    · exact growCapacity_faulted hp ..
    · exact hp
  have hreserve : (v.reserve T s).1.faulted = true := by
    refine hsecond (if v.mCap = 1 then v.growCapacity T s (v.mCap * 3 % 2 ^ 64) else (s, v)) ?_
    split
    · exact growCapacity_faulted h ..
    · exact h
  exact construct_faulted hreserve ..

theorem act_faulted (h : s.faulted = true) (c : Act E) (v : Vec) :
    (c.run T s v).1.faulted = true := by
  cases c with
  | work op =>
      cases op with
      | pushBack x => exact append_faulted h v x
      | emplaceBack x => exact append_faulted h v x
      | popBack =>
          show (v.popBack s).1.faulted = true
          unfold Vec.popBack
          split
          · exact h
          · exact destroy_faulted h ..
      | write pos x => exact assign_faulted h ..
  | shrinkToFit =>
      show (v.shrinkToFit T s).1.faulted = true
      unfold Vec.shrinkToFit
      split
      · exact growCapacity_faulted h ..
      · exact h
  | resize newCap => exact h

theorem exec_faulted (acts : List (Act E)) (h : r.storage.faulted = true)
    (hrun : exec (does T) r acts = some r') : r'.storage.faulted = true := by
  induction acts generalizing r with
  | nil =>
      cases hrun
      exact h
  | cons c acts ih =>
      obtain ⟨r₁, hdoes, hrest⟩ := Option.bind_eq_some_iff.mp hrun
      obtain ⟨_, _, hstorage, _⟩ := does_cases hdoes
      refine ih ?_ hrest
      rw [hstorage]
      exact act_faulted h c r.vec

/-! ## What the acts make of a list -/

/-- The list that the acts make of one. -/
def onLists (acts : List (Act E)) (l : List E) : List E := acts.foldl (fun l c => c.onList l) l

/-- The size after an act. -/
def Act.sizeAfter (size : Nat) : Act E → Nat
  | .work (.pushBack _) => size + 1
  | .work (.emplaceBack _) => size + 1
  | .work .popBack => size - 1
  | _ => size

/-- Whether the capacity is zero after an act that leaves it a trusted one. -/
def Act.hollowAfter (size : Nat) (hollow : Bool) : Act E → Bool
  | .shrinkToFit => size == 0
  | _ => hollow

/-- No append finds a capacity of zero. -/
def Clean (size : Nat) (hollow : Bool) : List (Act E) → Bool
  | [] => true
  | c :: acts =>
    !(c.appends && hollow) && Clean (c.sizeAfter size) (c.hollowAfter size hollow) acts

theorem length_onList (c : Act E) (l : List E) : (c.onList l).length = c.sizeAfter l.length := by
  cases c with
  | work op =>
      cases op with
      | pushBack x => exact List.length_append
      | emplaceBack x => exact List.length_append
      | popBack => exact List.length_dropLast
      | write pos x => exact List.length_set
  | shrinkToFit => rfl
  | resize newCap => rfl

/-- The acts that only work on the elements neither shrink nor grow the capacity to zero. -/
theorem clean_work (size : Nat) (hollow : Bool) (ops : List (Op E)) :
    Clean size hollow (ops.map .work) = true ↔ hollow = false ∨ ∀ op ∈ ops, op.appends = false := by
  induction ops generalizing size with
  | nil => exact iff_of_true rfl (Or.inr fun _ hop => absurd hop List.not_mem_nil)
  | cons op ops ih =>
      have hclean : Clean size hollow ((op :: ops).map Act.work)
          = (!(op.appends && hollow)
            && Clean ((Act.work op).sizeAfter size) hollow (ops.map .work)) :=
        rfl
      rw [hclean, Bool.and_eq_true, ih, List.forall_mem_cons]
      cases hollow with
      | false => exact iff_of_true ⟨by simp, Or.inl rfl⟩ (Or.inl rfl)
      | true => simp

/-! ## Runs of a trusted vector -/

/-- A vector whose capacity can be trusted. -/
structure Sound (r : Life E) (l : List E) : Prop where
  sane : Sane r.storage
  trusted : ∃ n, Trusted r.storage r.vec n l

theorem Kept.sound (h : Kept r) (hr : r.resized = false) : Sound r r.list :=
  ⟨h.sane, _, h.trusted hr⟩

theorem sizeAfter_appends {c : Act E} (h : c.appends = true) (size : Nat) (hollow : Bool) :
    c.sizeAfter size = size + 1 ∧ c.hollowAfter size hollow = hollow := by
  cases c with
  | work op =>
      cases op with
      | pushBack x => exact ⟨rfl, rfl⟩
      | emplaceBack x => exact ⟨rfl, rfl⟩
      | popBack => exact absurd h (by simp [Act.appends, Op.appends])
      | write pos x => exact absurd h (by simp [Act.appends, Op.appends])
  | shrinkToFit => exact absurd h (by simp [Act.appends])
  | resize newCap => exact absurd h (by simp [Act.appends])

/-- Whether the capacity is zero is known from before. -/
theorem hollow_step {c : Act E} (hroom : v.mSize ≤ v.mCap) (hkeeps : c.resizes = false)
    (happends : c.appends = true → 0 < v.mCap)
    (hafter : (c.run T s v).2.mSize ≤ (c.run T s v).2.mCap)
    (hsize : (c.run T s v).2.mSize = c.sizeAfter v.mSize) :
    decide ((c.run T s v).2.mCap = 0) = c.hollowAfter v.mSize (decide (v.mCap = 0)) := by
  by_cases happend : c.appends = true
  · -- there is an element, so there is capacity
    have hpos := happends happend
    obtain ⟨hsucc, hsame⟩ := sizeAfter_appends happend v.mSize (decide (v.mCap = 0))
    rw [hsame]
    exact decide_eq_decide.mpr (by omega)
  · cases c with
    | work op =>
        cases op with
        | pushBack x => exact absurd rfl happend
        | emplaceBack x => exact absurd rfl happend
        | popBack =>
            show decide ((v.popBack s).2.mCap = 0) = decide (v.mCap = 0)
            rw [popBack_cap]
        | write pos x => rfl
    | shrinkToFit =>
        show decide ((v.shrinkToFit T s).2.mCap = 0) = (v.mSize == 0)
        have hcap : (v.shrinkToFit T s).2.mCap = v.mSize := by
          unfold Vec.shrinkToFit
          split
          · rfl
          · show v.mCap = v.mSize
            omega
        rw [hcap]
        rfl
    | resize newCap => exact absurd hkeeps (by simp [Act.resizes])

/-- **One act of a sound vector**: it faults where an append finds no capacity, and leaves the
vector sound otherwise. -/
theorem sound_step {c : Act E} (h : Sound r l) (hkeeps : c.resizes = false)
    (hdoes : does T r c = some r') :
    if c.appends = true ∧ r.vec.mCap = 0 then r'.storage.faulted = true
    else Sound r' (c.onList l) ∧ r'.vec.mSize = c.sizeAfter r.vec.mSize
      ∧ decide (r'.vec.mCap = 0) = c.hollowAfter r.vec.mSize (decide (r.vec.mCap = 0)) := by
  obtain ⟨hs, n, htrust⟩ := h
  obtain ⟨hrange, hfits, hstorage, hvec, _⟩ := does_cases hdoes
  split
  · rename_i hc
    rw [hstorage]
    exact act_hollow hs htrust hc.2 hc.1
  · rename_i hc
    have happends : c.appends = true → 0 < r.vec.mCap := fun ha =>
      Nat.pos_of_ne_zero fun hzero => hc ⟨ha, hzero⟩
    obtain ⟨m, hgives, hroom, hcap, _⟩ := act_trusted hs htrust hrange hfits hkeeps happends
    have hsize : (c.run T r.storage r.vec).2.mSize = c.sizeAfter r.vec.mSize := by
      rw [hgives.holds.size, htrust.holds.size, length_onList]
    have hhollow := hollow_step htrust.room hkeeps happends hroom hsize
    rw [← hvec] at hroom hcap hsize hhollow
    refine ⟨⟨hstorage ▸ hgives.sane, m, ⟨?_, hroom, hcap⟩⟩, hsize, hhollow⟩
    rw [hstorage, hvec]
    exact hgives.holds

/-- **A run of a sound vector** keeps it so and is defined, exactly when it is clean. -/
theorem sound_run (acts : List (Act E)) (h : Sound r l) (hkeep : ∀ c ∈ acts, c.resizes = false)
    (hrun : exec (does T) r acts = some r') :
    if Clean r.vec.mSize (decide (r.vec.mCap = 0)) acts = true then Sound r' (onLists acts l)
    else r'.storage.faulted = true := by
  induction acts generalizing r l with
  | nil =>
      cases hrun
      exact h
  | cons c acts ih =>
      obtain ⟨hkeeps, hrest⟩ := List.forall_mem_cons.mp hkeep
      obtain ⟨r₁, hdoes, hrun₁⟩ := Option.bind_eq_some_iff.mp hrun
      have hstep := sound_step h hkeeps hdoes
      show if (!(c.appends && decide (r.vec.mCap = 0)) && Clean (c.sizeAfter r.vec.mSize)
        (c.hollowAfter r.vec.mSize (decide (r.vec.mCap = 0))) acts) = true then _ else _
      by_cases hc : c.appends = true ∧ r.vec.mCap = 0
      · rw [if_pos hc] at hstep
        rw [hc.1, decide_eq_true hc.2]
        exact exec_faulted acts hstep hrun₁
      · rw [if_neg hc] at hstep
        obtain ⟨hsound, hsize, hhollow⟩ := hstep
        have hfirst : (!(c.appends && decide (r.vec.mCap = 0))) = true := by
          rw [Bool.not_eq_true', Bool.eq_false_iff, Ne, Bool.and_eq_true, decide_eq_true_iff]
          exact hc
        rw [hfirst, Bool.true_and, ← hsize, ← hhollow]
        exact ih hsound hrest hrun₁

/-! ## What a client sees -/

/-- The vector shows a list: its size, and each element through `operator[]`. -/
structure Elements (r : Life E) (l : List E) : Prop where
  size : r.vec.mSize = l.length
  read : ∀ pos, pos < l.length → (r.vec.index pos).read r.storage = l[pos]?

theorem Sound.elements (h : Sound r l) : Elements r l := by
  obtain ⟨hs, n, htrust⟩ := h
  exact ⟨htrust.holds.size, fun pos _ => htrust.holds.read hs pos⟩

theorem Sound.slots (h : Sound r l) : r.vec.mSize ≤ r.vec.slots r.storage := by
  obtain ⟨hs, n, htrust⟩ := h
  rw [htrust.holds.slots hs]
  exact Nat.le_trans htrust.room htrust.cap

/-- A vector shows one list. -/
theorem Elements.unique {l' : List E} (h : Elements r l) (h' : Elements r l') : l = l' := by
  refine List.ext_getElem? fun pos => ?_
  rcases Nat.lt_or_ge pos l.length with hlt | hge
  · rw [← h.read pos hlt]
    refine h'.read pos ?_
    rw [← h'.size, h.size]
    exact hlt
  · have hge' : l'.length ≤ pos := by
      rw [← h'.size, h.size]
      exact hge
    rw [List.getElem?_eq_none hge, List.getElem?_eq_none hge']

/-! ## `resize` -/

/-- The size is not beyond the capacity, and the capacity not beyond the slots of the buffer. -/
def Capacious (r : Life E) : Prop :=
  r.vec.mSize ≤ r.vec.mCap ∧ r.vec.mCap ≤ r.vec.slots r.storage

/-- A type of four bytes, that a move leaves as it is. -/
def words : ElementType Nat := ⟨4, by decide, by decide, 0, id⟩

theorem resizes_work (ops : List (Op E)) : ∀ c ∈ ops.map Act.work, c.resizes = false := by
  intro c hc
  obtain ⟨op, _, rfl⟩ := List.mem_map.mp hc
  rfl

/-- The vectors `a` and `b` are the same to a client. -/
structure Alike (a b : Life E) : Prop where
  size : a.vec.mSize = b.vec.mSize
  read : ∀ pos, pos < a.vec.mSize → ∃ x, (a.vec.index pos).read a.storage = some x
    ∧ (b.vec.index pos).read b.storage = some x

theorem Elements.alike {a b : Life E} (ha : Elements a l) (hb : Elements b l) : Alike a b := by
  refine ⟨ha.size.trans hb.size.symm, fun pos hpos => ?_⟩
  rw [ha.size] at hpos
  refine ⟨l[pos], ?_, ?_⟩
  · rw [ha.read pos hpos, List.getElem?_eq_getElem hpos]
  · rw [hb.read pos hpos, List.getElem?_eq_getElem hpos]

end QuickStructs.Vector
