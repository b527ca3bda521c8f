import QuickStructs.Proof.VectorRefine

/-!
# What growth costs

Each object that is ever constructed has a number, so the next number tells how many there were:
one for each append, and one for each element that was moved when the vector grew. To grow from `c`
slots to `3 * c` moves at most `c` elements, and so not more than half of what the capacity gains.
So the capacity pays for all the moves, and it is never more than three times what was appended.
-/

namespace QuickStructs.Vector

open Lib Storage

variable {E : Type} {T : ElementType E}
variable {s : Storage E} {v : Vec} {r r' : Run E} {a b i n p c : Nat} {x : E} {op : Op E}

/-! ## How many objects an operation constructs -/

theorem nextId_construct (s : Storage E) (a i : Nat) (x : E) :
    (s.construct a i x).nextId ≤ s.nextId + 1 := by
  unfold construct
  split
  · split
    · exact Nat.le_refl _
    · exact Nat.le_succ _
  · exact Nat.le_succ _

theorem nextId_destroy (s : Storage E) (a i : Nat) : (s.destroy a i).nextId = s.nextId := by
  unfold destroy
  split <;> rfl

theorem nextId_assign (s : Storage E) (a i : Nat) (x : E) :
    (s.assign a i x).nextId = s.nextId := by
  unfold assign
  split <;> rfl

theorem nextId_free (s : Storage E) (a : Nat) : (s.free a).nextId = s.nextId := by
  unfold free
  split
  · rfl
  · split <;> rfl

theorem nextId_destroyN (s : Storage E) (a k : Nat) : (destroyN s a k).nextId = s.nextId := by
  induction k with
  | zero => rfl
  | succ k ih =>
      rw [destroyN, nextId_destroy]
      exact ih

theorem nextId_constructN (s : Storage E) (a k : Nat) :
    (constructN T s a k).nextId ≤ s.nextId + k := by
  induction k with
  | zero => exact Nat.le_refl _
  | succ k ih =>
      have hone := nextId_construct (constructN T s a k) a k T.default
      rw [constructN]
      omega

/-- A round of the loop constructs an element. -/
theorem nextId_moveN (s : Storage E) (a b k : Nat) :
    (moveN T s a b k).nextId ≤ s.nextId + k := by
  induction k with
  | zero => exact Nat.le_refl _
  | succ k ih =>
      rw [moveN]
      split
      · rename_i o _
        have hone := nextId_construct (moveN T s a b k) b k o.val
        rw [nextId_assign]
        omega
      · show (moveN T s a b k).nextId ≤ _
        omega

theorem nextId_allocate (s : Storage E) (k : Nat) : (allocate T s k).1.nextId = s.nextId := by
  unfold allocate
  split <;> rfl

theorem nextId_growCapacity (v : Vec) (s : Storage E) (newCap : Nat) :
    (v.growCapacity T s newCap).1.nextId ≤ s.nextId + v.mSize := by
  have hmoved := nextId_moveN (T := T)
    (allocate T s newCap).1 v.pArr (allocate T s newCap).2 v.mSize
  rw [nextId_allocate] at hmoved
  unfold Vec.growCapacity
  rw [nextId_free, nextId_destroyN]
  exact hmoved

/-- **What it takes to make room**: nothing, or a move of all elements to three times the slots,
and this only if the vector is full, or has its first slot. -/
theorem reserve_cost (hroom : v.mSize ≤ v.mCap) (hfits : v.GrowthFits T) (s : Storage E) :
    (v.reserve T s).2.mSize = v.mSize
      ∧ (((v.reserve T s).1.nextId = s.nextId ∧ (v.reserve T s).2.mCap = v.mCap)
        ∨ ((v.reserve T s).1.nextId ≤ s.nextId + v.mSize
          ∧ (v.reserve T s).2.mCap = 3 * v.mCap ∧ (v.mCap = 1 ∨ v.mCap ≤ v.mSize))) := by
  by_cases hgrows : v.mCap = 1 ∨ v.mCap ≤ v.mSize
  · rcases reserve_cases (s := s) hroom hfits with ⟨heq, _⟩ | ⟨heq, _⟩
    · rw [heq]
      exact ⟨rfl, .inl ⟨rfl, rfl⟩⟩
    · rw [heq]
      refine ⟨rfl, .inr ⟨nextId_growCapacity v s _, ?_, hgrows⟩⟩
      show v.mCap * 3 = 3 * v.mCap
      omega
  · have hstays : v.reserve T s = (s, v) := by
      unfold Vec.reserve
      rw [if_neg fun hone => hgrows (.inl hone)]
      exact if_neg fun hfull => hgrows (.inr hfull)
    rw [hstays]
    exact ⟨rfl, .inl ⟨rfl, rfl⟩⟩

/-! ## The account -/

/-- After `p` appends to a vector that began with `n` elements in `c` slots. -/
structure Account (c n p : Nat) (r : Run E) : Prop where
  alone : Alone r
  size : r.vec.mSize ≤ n + p
  paid : 2 * r.storage.nextId + c ≤ 2 * (n + p) + r.vec.mCap
  cap : r.vec.mCap = c ∨ 0 < p ∧ r.vec.mCap ≤ 3 * max 1 (n + p - 1)

theorem account_append (h : Account c n p r) (hfits : r.vec.GrowthFits T)
    (halone : Alone { storage := (r.vec.append T r.storage x).1
                      vec := (r.vec.append T r.storage x).2
                      list := r.list ++ [x] }) :
    Account c n (p + 1) { storage := (r.vec.append T r.storage x).1
                          vec := (r.vec.append T r.storage x).2
                          list := r.list ++ [x] } := by
  have hroom : r.vec.mSize ≤ r.vec.mCap := by
    have hsize := h.alone.owns.size
    have hle := h.alone.owns.room
    omega
  obtain ⟨hsize, hcost⟩ := reserve_cost hroom hfits r.storage
  have hpaid := h.paid
  have hbound := h.size
  rw [append_eq] at halone ⊢
  generalize r.vec.reserve T r.storage = q at hsize hcost halone ⊢
  obtain ⟨s', v'⟩ := q
  have hone := nextId_construct s' v'.pArr v'.mSize x
  dsimp only at hsize hcost
  refine ⟨halone, ?_, ?_, ?_⟩
  · show v'.mSize + 1 ≤ n + (p + 1)
    omega
  · show 2 * (s'.construct v'.pArr v'.mSize x).nextId + c ≤ 2 * (n + (p + 1)) + v'.mCap
    rcases hcost with ⟨hsame, hcap⟩ | ⟨hmoved, hcap, _⟩
    · omega
    · -- twice the moves are at most what the capacity gains
      omega
  · show v'.mCap = c ∨ 0 < p + 1 ∧ v'.mCap ≤ 3 * max 1 (n + (p + 1) - 1)
    rcases hcost with ⟨_, hcap⟩ | ⟨_, hcap, hfull⟩
    · rcases h.cap with hc | ⟨_, hle⟩
      · exact .inl (hcap.trans hc)
      · exact .inr ⟨Nat.succ_pos p, by omega⟩
    · exact .inr ⟨Nat.succ_pos p, by omega⟩

theorem account_step (h : Account c n p r) (hs : step T r op = some r') :
    Account c n (p + if op.appends then 1 else 0) r' := by
  have halone := alone_step h.alone hs
  obtain ⟨⟨_, hfits⟩, rfl⟩ := Transition.of_guard hs
  have hpaid := h.paid
  have hsize := h.size
  cases op with
  | pushBack x => exact account_append h hfits halone
  | emplaceBack x => exact account_append h hfits halone
  | popBack =>
      have hsame : (r.vec.popBack r.storage).1.nextId = r.storage.nextId
          ∧ (r.vec.popBack r.storage).2.mCap = r.vec.mCap
          ∧ (r.vec.popBack r.storage).2.mSize ≤ r.vec.mSize := by
        unfold Vec.popBack
        split
        · exact ⟨rfl, rfl, Nat.le_refl _⟩
        · exact ⟨nextId_destroy .., rfl, Nat.sub_le _ 1⟩
      obtain ⟨hid, hcap, hle⟩ := hsame
      refine ⟨halone, ?_, ?_, ?_⟩
      · show (r.vec.popBack r.storage).2.mSize ≤ n + p
        omega
      · show 2 * (r.vec.popBack r.storage).1.nextId + c
          ≤ 2 * (n + p) + (r.vec.popBack r.storage).2.mCap
        omega
      · show (r.vec.popBack r.storage).2.mCap = c
          ∨ 0 < p ∧ (r.vec.popBack r.storage).2.mCap ≤ 3 * max 1 (n + p - 1)
        rw [hcap]
        exact h.cap
  | write pos x =>
      refine ⟨halone, hsize, ?_, h.cap⟩
      show 2 * (r.storage.assign r.vec.pArr pos x).nextId + c ≤ 2 * (n + p) + r.vec.mCap
      rw [nextId_assign]
      exact hpaid

theorem account_run (ops : List (Op E)) (h : Account c n p r)
    (hrun : Transition.exec (step T) r ops = some r') :
    Account c n (p + ops.countP Op.appends) r' := by
  induction ops generalizing r p with
  | nil =>
      rw [Transition.exec, Option.some.injEq] at hrun
      subst hrun
      exact h
  | cons op ops ih =>
      rw [Transition.exec, Option.bind_eq_some_iff] at hrun
      obtain ⟨r₁, hs, hrest⟩ := hrun
      have hfinal := ih (account_step h hs) hrest
      rw [List.countP_cons, Nat.add_comm (ops.countP Op.appends), ← Nat.add_assoc]
      exact hfinal

theorem account_start (size : Option Nat) (hsize : ∀ n ∈ size, SizeFits T n) :
    Account (max 1 (size.getD 0)) (size.getD 0) 0 (start T size) := by
  cases size with
  | none => exact ⟨alone_start hsize, Nat.le_refl _, Nat.le_refl _, .inl rfl⟩
  | some n =>
      have hbuilt := nextId_constructN (T := T)
        (allocate T {} (max 1 n)).1 (allocate T {} (max 1 n)).2 n
      rw [nextId_allocate] at hbuilt
      refine ⟨alone_start hsize, Nat.le_refl _, ?_, .inl rfl⟩
      show 2 * (constructN T (allocate T {} (max 1 n)).1 (allocate T {} (max 1 n)).2 n).nextId
        + max 1 n ≤ 2 * (n + 0) + max 1 n
      have hzero : ({} : Storage E).nextId = 0 := rfl
      omega

/--
**Appends cost a constant, in the mean.**

A vector that began with `n` elements, or none, is appended to, cut and written to in any way. With
`p` appends there were never more than `5 / 2 * (n + p)` objects constructed, those in buffers that
it has outgrown included; and the buffer has its first size, or at most three slots for each element
that there was or was appended.
-/
theorem append_amortized (T : ElementType E) (size : Option Nat)
    (hsize : ∀ n ∈ size, SizeFits T n) (ops : List (Op E)) (r : Run E)
    (hrun : Transition.exec (step T) (start T size) ops = some r) :
    2 * r.storage.nextId ≤ 5 * (size.getD 0 + ops.countP Op.appends)
      ∧ (r.vec.mCap = max 1 (size.getD 0)
        ∨ r.vec.mCap ≤ 3 * (size.getD 0 + ops.countP Op.appends)) := by
  obtain ⟨_, _, hpaid, hcap⟩ := account_run ops (account_start size hsize) hrun
  rw [Nat.zero_add] at hpaid hcap
  rcases hcap with hc | ⟨hp, hle⟩
  · exact ⟨by omega, .inl hc⟩
  · exact ⟨by omega, .inr (by omega)⟩

/-- Ten appends to a vector of nothing, which grows three times. -/
theorem append_amortized_ten :
    let T : ElementType Nat := ⟨4, by decide, by decide, 0, fun _ => 0⟩
    let r := (Transition.exec (step T) (start T none) (List.replicate 10 (.pushBack 7))).get
      (by decide)
    r.storage.nextId = 22 ∧ 2 * r.storage.nextId ≤ 5 * 10 :=
  ⟨by decide, (append_amortized _ none (by decide) (List.replicate 10 (.pushBack 7)) _
    (Option.some_get _).symm).1⟩

end QuickStructs.Vector
