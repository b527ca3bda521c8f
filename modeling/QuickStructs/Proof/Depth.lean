import QuickStructs.Proof.Split

/-!
# What an order does to the depth of the book

The depth of the book at a price, on one side, is what an order of the other side with that limit
could trade. The best orders are used up first, so an order that trades `e` moves the whole curve
down by `e`, whatever its own limit is; and what it does not trade adds to the curve on its own
side, from its limit on.
-/

namespace QuickStructs.Orderbook

open Lib

/-- Does an order of this side with the limit `p` match `x`? -/
def reaches (isBuy : Bool) (p : Price) (x : Order) : Bool :=
  if isBuy then decide (x.level ≤ p) else decide (p ≤ x.level)

def depthOf (isBuy : Bool) (p : Price) (l : Orders) : Int :=
  ((l.filter (reaches isBuy p)).map fun x => x.qty.toInt).sum

/-- What an order of this side with the limit `p` could trade. -/
def Book.depth (b : Book) (isBuy : Bool) (p : Price) : Int := depthOf isBuy p (b.side (!isBuy))

/-- What was traded. -/
def executed (ts : Trades) : Int := (ts.map fun t => t.size.toInt).sum

variable {o best x : Order} {rest l l' : Orders} {q : Quantity} {s : Bool} {p : Price}

theorem isMatch_eq (o x : Order) : isMatch o x = reaches o.isBuy o.level x := by
  unfold isMatch canMatch reaches
  cases o.isBuy <;> rfl

@[simp] theorem depthOf_nil (s : Bool) (p : Price) : depthOf s p [] = 0 := rfl

theorem depthOf_cons (s : Bool) (p : Price) (x : Order) (l : Orders) :
    depthOf s p (x :: l) = (if reaches s p x then x.qty.toInt else 0) + depthOf s p l := by
  unfold depthOf
  rw [List.filter_cons]
  split
  · rw [List.map_cons, List.sum_cons]
  · rw [Int.zero_add]

theorem depthOf_perm (h : l.Perm l') : depthOf s p l = depthOf s p l' :=
  ((h.filter _).map _).sum_eq

theorem depthOf_nonneg {l : Orders} (h : ∀ x ∈ l, 0 < x.qty) : 0 ≤ depthOf s p l := by
  induction l with
  | nil => exact Int.le_refl _
  | cons x l ih =>
      have hx := pos_toInt.mp (h x List.mem_cons_self)
      have hl : 0 ≤ depthOf s p l := ih fun y hy => h y (List.mem_cons_of_mem _ hy)
      rw [depthOf_cons]
      split <;> omega

theorem depthOf_none {l : Orders} (h : ∀ x ∈ l, reaches s p x = false) : depthOf s p l = 0 := by
  induction l with
  | nil => rfl
  | cons x l ih =>
      rw [depthOf_cons, h x List.mem_cons_self, if_neg (by decide),
        ih fun y hy => h y (List.mem_cons_of_mem _ hy)]
      rfl

theorem executed_cons (t : Trade) (ts : Trades) : executed (t :: ts) = t.size.toInt + executed ts :=
  rfl

/-- From the best order on: who is reached stands in front of who is not. -/
def BestFirst (s : Bool) (l : Orders) : Prop :=
  l.Pairwise fun a b => ∀ p, reaches s p b = true → reaches s p a = true

/-- Behind an order that is not reached nobody is. -/
theorem BestFirst.depthOf_missed (h : BestFirst s (best :: rest)) (hm : reaches s p best = false) :
    depthOf s p (best :: rest) = 0 := by
  refine depthOf_none fun x hx => ?_
  rcases List.mem_cons.mp hx with rfl | hx
  · exact hm
  · refine Bool.eq_false_iff.mpr fun hr => ?_
    rw [(List.pairwise_cons.mp h).1 x hx p hr] at hm
    exact Bool.noConfusion hm

/-- What a match does to the depth of the orders that it is tried against. -/
structure Shifts (o : Order) (l : Orders) (q : Quantity) (m : Matching) : Prop where
  traded : executed m.trades = min q.toInt (depthOf o.isBuy o.level l)
  left : m.remaining.toInt = q.toInt - executed m.trades
  curve : ∀ p, depthOf o.isBuy p m.opposite = max 0 (depthOf o.isBuy p l - executed m.trades)

/-- Nothing is traded, and nothing could be. -/
theorem shifts_idle (hpos : ∀ x ∈ l, 0 < x.qty) (h : min q.toInt (depthOf o.isBuy o.level l) = 0) :
    Shifts o l q { opposite := l, remaining := q, trades := [] } where
  traded := h.symm
  left := (Int.sub_zero _).symm
  curve := by
    intro p
    have h0 : 0 ≤ depthOf o.isBuy p l := depthOf_nonneg hpos
    show depthOf o.isBuy p l = max 0 (depthOf o.isBuy p l - 0)
    omega

/-- The best order is used up. -/
theorem shifts_used (hsorted : BestFirst o.isBuy (best :: rest)) (hm : isMatch o best = true)
    (hpos : ∀ x ∈ best :: rest, 0 < x.qty) (hle : best.qty.toInt ≤ q.toInt)
    (ih : Shifts o rest (q - best.qty) (fill o rest (q - best.qty))) :
    Shifts o (best :: rest) q (fill o (best :: rest) q) := by
  have hbest := pos_toInt.mp (hpos best List.mem_cons_self)
  have hposrest : ∀ x ∈ rest, 0 < x.qty := fun x hx => hpos x (List.mem_cons_of_mem _ hx)
  have hsub := sub_toInt (by omega) hle
  have htraded := ih.traded
  have hleft := ih.left
  have hown : depthOf o.isBuy o.level (best :: rest)
      = best.qty.toInt + depthOf o.isBuy o.level rest := by
    rw [depthOf_cons, if_pos (by rw [← isMatch_eq]; exact hm)]
  have h0 : 0 ≤ depthOf o.isBuy o.level rest := depthOf_nonneg hposrest
  rw [fill_used hm (hpos best List.mem_cons_self) hle]
  constructor
  · dsimp only
    rw [executed_cons, mkTrade_size, hown]
    omega
  · dsimp only
    rw [executed_cons, mkTrade_size]
    omega
  · intro p
    have hcurve := ih.curve p
    dsimp only
    rw [executed_cons, mkTrade_size, hcurve]
    by_cases hp : reaches o.isBuy p best = true
    · rw [depthOf_cons, if_pos hp]
      omega
    · -- then the limit reaches nobody, neither before nor after
      have hmissed := hsorted.depthOf_missed (Bool.eq_false_iff.mpr hp)
      have hcons := depthOf_cons o.isBuy p best rest
      rw [if_neg hp] at hcons
      omega

/-- The best order is more than enough. -/
theorem shifts_cut (hsorted : BestFirst o.isBuy (best :: rest)) (hm : isMatch o best = true)
    (hpos : ∀ x ∈ best :: rest, 0 < x.qty) (hq : 0 < q.toInt) (hlt : q.toInt < best.qty.toInt) :
    Shifts o (best :: rest) q (fill o (best :: rest) q) := by
  have hposrest : ∀ x ∈ rest, 0 < x.qty := fun x hx => hpos x (List.mem_cons_of_mem _ hx)
  have hsub := sub_toInt (by omega) (by omega : q.toInt ≤ best.qty.toInt)
  have hown : depthOf o.isBuy o.level (best :: rest)
      = best.qty.toInt + depthOf o.isBuy o.level rest := by
    rw [depthOf_cons, if_pos (by rw [← isMatch_eq]; exact hm)]
  have h0 : 0 ≤ depthOf o.isBuy o.level rest := depthOf_nonneg hposrest
  rw [fill_cut hm (pos_toInt.mpr hq) hlt]
  constructor
  · show q.toInt + 0 = _
    rw [hown]
    omega
  · show (0 : Int) = q.toInt - (q.toInt + 0)
    omega
  · intro p
    have h0 : 0 ≤ depthOf o.isBuy p rest := depthOf_nonneg hposrest
    show depthOf o.isBuy p (best.setQty (best.qty - q) :: rest) = max 0 (_ - (q.toInt + 0))
    rw [depthOf_cons, setQty_qty]
    show (if reaches o.isBuy p best then _ else _) + _ = _
    by_cases hp : reaches o.isBuy p best = true
    · rw [depthOf_cons, if_pos hp, if_pos hp]
      omega
    · have hmissed := hsorted.depthOf_missed (Bool.eq_false_iff.mpr hp)
      have hcons := depthOf_cons o.isBuy p best rest
      rw [if_neg hp] at hcons
      rw [if_neg hp]
      omega

/-- **Matching moves the depth curve.** -/
theorem fill_shifts (o : Order) : ∀ (l : Orders) (q : Quantity), BestFirst o.isBuy l →
    (∀ x ∈ l, 0 < x.qty) → 0 ≤ q.toInt → Shifts o l q (fill o l q) := by
  intro l
  induction l with
  | nil =>
      intro q _ hpos hq
      refine shifts_idle hpos ?_
      rw [depthOf_nil]
      omega
  | cons best rest ih =>
      intro q hsorted hpos hq
      have h0 : 0 ≤ depthOf o.isBuy o.level (best :: rest) := depthOf_nonneg hpos
      have hbest := pos_toInt.mp (hpos best List.mem_cons_self)
      cases hm : isMatch o best with
      | false =>
          have hmiss : reaches o.isBuy o.level best = false := by
            rw [← isMatch_eq]
            exact hm
          rw [fill_miss hm]
          refine shifts_idle hpos ?_
          rw [hsorted.depthOf_missed hmiss]
          omega
      | true =>
          by_cases hle : best.qty.toInt ≤ q.toInt
          · have hsub := sub_toInt (by omega) hle
            exact shifts_used hsorted hm hpos hle (ih (q - best.qty)
              (List.pairwise_cons.mp hsorted).2 (fun x hx => hpos x (List.mem_cons_of_mem _ hx))
              (by omega))
          · by_cases hzero : q.toInt = 0
            · rw [fill_idle o _ (by rw [pos_toInt]; omega)]
              exact shifts_idle hpos (by omega)
            · exact shifts_cut hsorted hm hpos (by omega) (by omega)

/-! ## Over a call -/

theorem reaches_behind {number : Id → Nat} {a b : Order} (h : Behind number (!s) a b)
    (ha : reaches s p a = true) : reaches s p b = true := by
  let o : Order := { id := 0, level := p, isBuy := s, qty := 0 }
  have hmatch : isMatch o b = true := isMatch_behind (o := o) h ((isMatch_eq o a).trans ha)
  exact (isMatch_eq o b).symm.trans hmatch

theorem BookInv.bestFirst {number : Id → Nat} {b : Book} (h : BookInv number b) (s : Bool) :
    BestFirst s (b.side (!s)).reverse := by
  refine List.pairwise_reverse.mpr ((h.order (!s)).imp fun {x y} hxy p hx => ?_)
  exact reaches_behind hxy hx

theorem depthOf_insertSorted {number : Id → Nat} (h : l.Pairwise (Behind number o.isBuy)) :
    depthOf s p (insertSorted o l) = depthOf s p l + if reaches s p o then o.qty.toInt else 0 := by
  rw [depthOf_perm (insertSorted_perm h), depthOf_cons, Int.add_comm]

/--
**An order shifts the depth of the book.**

After any calls on the empty book, an order that is accepted trades its quantity or all that its
limit reaches, whichever is less. What it trades comes off the whole curve that it trades against,
at every limit; what it does not trade adds to the other curve, for the limits that reach it.
-/
theorem depth_shift (cs : List Call) (o : Order) (h : (after Book.empty cs).accepts o) :
    let b := after Book.empty cs
    let b' := (b.addOrder o).1
    let e := executed (b.addOrder o).2
    e = min o.qty.toInt (b.depth o.isBuy o.level)
      ∧ (∀ p, b'.depth o.isBuy p = max 0 (b.depth o.isBuy p - e))
      ∧ ∀ p, b'.depth (!o.isBuy) p
          = b.depth (!o.isBuy) p + if reaches (!o.isBuy) p o then o.qty.toInt - e else 0 := by
  dsimp only
  have hinv := bookInv_run cs
  obtain ⟨hfree, hq⟩ := h
  obtain ⟨htrades, hacross, hown⟩ := addOrder_spec hfree
  have hshift := fill_shifts o (((after Book.empty cs).side (!o.isBuy)).reverse) o.qty
    (hinv.bestFirst o.isBuy) (fun x hx => hinv.pos _ x (List.mem_reverse.mp hx))
    (Int.le_of_lt (pos_toInt.mp hq))
  rw [htrades]
  refine ⟨?_, fun p => ?_, fun p => ?_⟩
  · rw [Book.depth, ← depthOf_perm (List.reverse_perm _)]
    exact hshift.traded
  · rw [Book.depth, hacross, depthOf_perm (List.reverse_perm _), Book.depth,
      ← depthOf_perm (List.reverse_perm ((after Book.empty cs).side (!o.isBuy)))]
    exact hshift.curve p
  · have hleft : ((after Book.empty cs).filled o).remaining.toInt
        = o.qty.toInt - executed ((after Book.empty cs).filled o).trades := hshift.left
    rw [Book.depth, Book.depth, Bool.not_not, hown]
    split
    · have hput := depthOf_insertSorted (s := !o.isBuy) (p := p)
        (o := o.setQty ((after Book.empty cs).filled o).remaining) (hinv.order o.isBuy)
      rw [hput, setQty_qty, hleft]
      rfl
    · rename_i hr
      have hzero : 0 ≤ ((after Book.empty cs).filled o).remaining.toInt :=
        fill_nonneg (fun x hx => hinv.pos _ x (List.mem_reverse.mp hx))
          (Int.le_of_lt (pos_toInt.mp hq))
      rw [pos_toInt] at hr
      have hnone : o.qty.toInt - executed ((after Book.empty cs).filled o).trades = 0 := by omega
      rw [hnone, ite_self, Int.add_zero]

/-- A buy for more than there is at its limit. -/
theorem depth_shift_three :
    let cs : List Call := [.addOrder ⟨1, 10, false, 5⟩, .addOrder ⟨2, 9, false, 2⟩]
    let b := after Book.empty cs
    let o : Order := ⟨3, 9, true, 4⟩
    executed (b.addOrder o).2 = 2 ∧ b.depth true 10 = 7
      ∧ (b.addOrder o).1.depth true 10 = max 0 (b.depth true 10 - executed (b.addOrder o).2)
      ∧ (b.addOrder o).1.depth false 8 = 2 :=
  ⟨by decide, by decide, (depth_shift _ _ (by decide)).2.1 10, by decide⟩

end QuickStructs.Orderbook
