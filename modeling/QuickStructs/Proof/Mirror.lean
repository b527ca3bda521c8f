import QuickStructs.Proof.BookInv

/-!
# The two sides of the book are mirror images

The source writes the buy side and the sell side apart: two comparators, two branches in the
matching test, two searches in a cancel. Exchange the sides and turn the prices round, and a run
goes through the mirror images of its books. Only the price of a trade has no mirror image: it is
the seller's on both sides.
-/

namespace QuickStructs.Orderbook

open Lib

variable {flip : Price → Price} {b : Book} {o best : Order} {l : Orders}

/-- Prices turned round. -/
def Reverses (flip : Price → Price) : Prop := ∀ p q, flip q ≤ flip p ↔ p ≤ q

theorem Reverses.lt (h : Reverses flip) (p q : Price) : flip q < flip p ↔ p < q := by
  rw [← Int64.not_le, ← Int64.not_le, h]

def Order.mirror (flip : Price → Price) (o : Order) : Order :=
  { o with level := flip o.level, isBuy := !o.isBuy }

def Book.mirror (flip : Price → Price) (b : Book) : Book :=
  { bids := b.asks.map (Order.mirror flip), asks := b.bids.map (Order.mirror flip) }

def Call.mirror (flip : Price → Price) : Call → Call
  | .addOrder o => .addOrder (o.mirror flip)
  | .cancelOrder id => .cancelOrder id

/-- A trade but for its price. -/
def Trade.unpriced (t : Trade) : Trade := { t with level := 0 }

def Trade.mirror (t : Trade) : Trade where
  orderIdA := t.orderIdB
  orderIdB := t.orderIdA
  aggressorOrderId := t.aggressorOrderId
  aggressorIsBuy := !t.aggressorIsBuy
  level := 0
  size := t.size

@[simp] theorem mirror_side (flip : Price → Price) (b : Book) (s : Bool) :
    (b.mirror flip).side s = (b.side (!s)).map (Order.mirror flip) := by
  cases s <;> rfl

theorem mirror_rests (flip : Price → Price) (b : Book) (i : Id) :
    (b.mirror flip).rests i = b.rests i := by
  unfold Book.rests Book.mirror
  rw [List.any_map, List.any_map, Bool.or_comm]
  rfl

theorem mirror_setQty (flip : Price → Price) (o : Order) (q : Quantity) :
    (o.mirror flip).setQty q = (o.setQty q).mirror flip := rfl

/-! ## Matching -/

theorem mirror_isMatch (hf : Reverses flip) (o best : Order) :
    isMatch (o.mirror flip) (best.mirror flip) = isMatch o best := by
  unfold isMatch canMatch Order.mirror
  cases o.isBuy with
  | true => exact decide_eq_decide.mpr (hf _ _)
  | false => exact decide_eq_decide.mpr (hf _ _)

theorem mirror_mkTrade (flip : Price → Price) (o best : Order) (size : Quantity) :
    (mkTrade (o.mirror flip) (best.mirror flip) size).unpriced = (mkTrade o best size).mirror := by
  unfold mkTrade Order.mirror Trade.unpriced Trade.mirror
  cases o.isBuy <;> rfl

/-- The match in the mirror: the same quantities, and the same trades but for their prices. -/
theorem mirror_fill (hf : Reverses flip) (o : Order) (l : Orders) (q : Quantity) :
    (fill (o.mirror flip) (l.map (Order.mirror flip)) q).opposite
        = (fill o l q).opposite.map (Order.mirror flip)
      ∧ (fill (o.mirror flip) (l.map (Order.mirror flip)) q).remaining = (fill o l q).remaining
      ∧ (fill (o.mirror flip) (l.map (Order.mirror flip)) q).trades.map Trade.unpriced
          = (fill o l q).trades.map Trade.mirror := by
  fun_induction fill o l q with
  | case1 q => exact ⟨rfl, rfl, rfl⟩
  | case2 best rest q hc size hz m ih =>
      obtain ⟨hopposite, hremaining, htrades⟩ := ih
      rw [List.map_cons, fill, if_pos ⟨hc.1, by rw [mirror_isMatch hf]; exact hc.2⟩]
      have hz' : (best.mirror flip).qty - min (best.mirror flip).qty q = 0 := hz
      dsimp only
      rw [if_pos hz']
      refine ⟨hopposite, hremaining, ?_⟩
      rw [List.map_cons, List.map_cons, mirror_mkTrade]
      exact congrArg _ htrades
  | case3 best rest q hc size hz =>
      rw [List.map_cons, fill, if_pos ⟨hc.1, by rw [mirror_isMatch hf]; exact hc.2⟩]
      have hz' : ¬(best.mirror flip).qty - min (best.mirror flip).qty q = 0 := hz
      dsimp only
      rw [if_neg hz']
      refine ⟨rfl, rfl, ?_⟩
      rw [List.map_cons, List.map_cons, mirror_mkTrade]
      rfl
  | case4 best rest q hc =>
      rw [List.map_cons, fill, if_neg (by rw [mirror_isMatch hf]; exact hc)]
      exact ⟨rfl, rfl, rfl⟩

/-! ## The calls -/

theorem mirror_comesBefore (hf : Reverses flip) (s : Bool) (p : Price) (x : Order) :
    comesBefore (!s) (flip p) (x.mirror flip) = comesBefore s p x := by
  unfold comesBefore Order.mirror
  cases s with
  | true => exact decide_eq_decide.mpr (hf.lt _ _)
  | false => exact decide_eq_decide.mpr (hf.lt _ _)

theorem mirror_insertSorted (hf : Reverses flip) (o : Order) (l : Orders) :
    insertSorted (o.mirror flip) (l.map (Order.mirror flip))
      = (insertSorted o l).map (Order.mirror flip) := by
  unfold insertSorted
  rw [Search.lowerBound_map, List.map_insertIdx]
  have hbefore : (fun x : Order =>
      comesBefore (o.mirror flip).isBuy (o.mirror flip).level (x.mirror flip))
        = comesBefore o.isBuy o.level := funext fun x => mirror_comesBefore hf _ _ x
  rw [hbefore]

theorem mirror_filled (hf : Reverses flip) (b : Book) (o : Order) :
    ((b.mirror flip).filled (o.mirror flip)).opposite
        = (b.filled o).opposite.map (Order.mirror flip)
      ∧ ((b.mirror flip).filled (o.mirror flip)).remaining = (b.filled o).remaining
      ∧ ((b.mirror flip).filled (o.mirror flip)).trades.map Trade.unpriced
          = (b.filled o).trades.map Trade.mirror := by
  have hside : ((b.mirror flip).side (!(o.mirror flip).isBuy)).reverse
      = (b.side (!o.isBuy)).reverse.map (Order.mirror flip) := by
    rw [mirror_side, ← List.map_reverse]
    show ((b.side (!!!o.isBuy)).reverse).map _ = _
    rw [Bool.not_not]
  unfold Book.filled
  rw [hside]
  exact mirror_fill hf o _ o.qty

theorem mirror_addOrder (hf : Reverses flip) (b : Book) (o : Order) :
    ((b.mirror flip).addOrder (o.mirror flip)).1 = (b.addOrder o).1.mirror flip
      ∧ ((b.mirror flip).addOrder (o.mirror flip)).2.map Trade.unpriced
          = (b.addOrder o).2.map Trade.mirror := by
  cases hr : b.rests o.id with
  | true =>
      rw [addOrder_dupe hr,
        addOrder_dupe (o := o.mirror flip) ((mirror_rests flip b o.id).trans hr)]
      exact ⟨rfl, rfl⟩
  | false =>
      obtain ⟨htrades, hacross, hown⟩ := addOrder_spec hr
      obtain ⟨htrades', hacross', hown'⟩ :=
        addOrder_spec (o := o.mirror flip) ((mirror_rests flip b o.id).trans hr)
      obtain ⟨hopposite, hremaining, hdeals⟩ := mirror_filled hf b o
      have hback : (!(o.mirror flip).isBuy) = o.isBuy := Bool.not_not _
      have hbeside : (b.mirror flip).side (o.mirror flip).isBuy
          = (b.side o.isBuy).map (Order.mirror flip) := by
        rw [mirror_side, hback]
      refine ⟨Book.ext_side (side_cases (!o.isBuy) ?_ ?_), ?_⟩
      · rw [mirror_side, Bool.not_not, hown]
        refine hown'.trans ?_
        rw [hremaining, hbeside, mirror_setQty, mirror_insertSorted hf]
        split <;> rfl
      · rw [hback] at hacross'
        rw [Bool.not_not, mirror_side, hacross, hacross', hopposite, List.map_reverse]
      · rw [htrades, htrades']
        exact hdeals

theorem mirror_ids (flip : Price → Price) (l : Orders) :
    (l.map (Order.mirror flip)).map Order.id = l.map Order.id := List.map_map

theorem mirror_distinct (h : Distinct b) : Distinct (b.mirror flip) where
  side := by
    intro s
    rw [mirror_side, mirror_ids]
    exact h.side (!s)
  apart := by
    intro x hx y hy
    obtain ⟨x', hx', rfl⟩ := List.mem_map.mp hx
    obtain ⟨y', hy', rfl⟩ := List.mem_map.mp hy
    exact (h.apart y' hy' x' hx').symm

/-- In the mirror the asks are searched first, which makes no difference as no id rests on both
sides. -/
theorem mirror_cancelOrder (h : Distinct b) (i : Id) :
    (b.mirror flip).cancelOrder i = (b.cancelOrder i).mirror flip := by
  refine Book.ext_side fun s => ?_
  rw [cancelOrder_side (mirror_distinct h), mirror_side, mirror_side, cancelOrder_side h,
    List.filter_map]
  rfl

theorem mirror_call (hf : Reverses flip) (h : Distinct b) (c : Call) :
    ((b.mirror flip).call (c.mirror flip)).1 = (b.call c).1.mirror flip
      ∧ ((b.mirror flip).call (c.mirror flip)).2.map Trade.unpriced
          = (b.call c).2.map Trade.mirror := by
  cases c with
  | addOrder o => exact mirror_addOrder hf b o
  | cancelOrder i => exact ⟨mirror_cancelOrder h i, rfl⟩

/--
**The sides are mirror images.**

For every way to turn the prices round and any calls on the empty book: with the sides exchanged
and the prices turned round in all calls, the book is the mirror image of what it was, and every
call returns the same trades, with buyer and seller exchanged, but for the price.
-/
theorem book_mirror (flip : Price → Price) (hf : Reverses flip) (cs : List Call) :
    after Book.empty (cs.map (Call.mirror flip)) = (after Book.empty cs).mirror flip
      ∧ (answers Book.empty (cs.map (Call.mirror flip))).map (List.map Trade.unpriced)
          = (answers Book.empty cs).map (List.map Trade.mirror) := by
  have hrun : (WorldInv (Machine.final World.call {} cs)
      ∧ after Book.empty (cs.map (Call.mirror flip))
          = (Machine.final World.call {} cs).book.mirror flip)
      ∧ (Machine.outputs World.call {} cs).map (List.map Trade.mirror)
          = (answers Book.empty (cs.map (Call.mirror flip))).map (List.map Trade.unpriced) := by
    refine Machine.translation (R := fun w b => WorldInv w ∧ b = w.book.mirror flip) ?_ cs {}
      Book.empty ⟨worldInv_init, rfl⟩
    rintro w _ c ⟨hw, rfl⟩
    obtain ⟨hbook, htrades⟩ := mirror_call hf hw.book.distinct c
    obtain ⟨hsame, hanswer⟩ := world_call w c
    exact ⟨⟨worldInv_call w c hw, by rw [hbook, hsame]⟩, by rw [htrades, hanswer]⟩
  rw [(world_run cs {}).1, (world_run cs {}).2] at hrun
  exact ⟨hrun.1.2, hrun.2.symm⟩

theorem complement_toInt (p : Price) : (~~~p).toInt = -p.toInt - 1 := by
  have h1 := Int64.toInt_lt p
  have h2 := Int64.le_toInt p
  rw [Int64.toInt_not, Int.bmod_eq_of_le] <;> omega

theorem complement_reverses : Reverses fun p => ~~~p := by
  intro p q
  rw [Int64.le_iff_toInt_le, Int64.le_iff_toInt_le, complement_toInt, complement_toInt]
  omega

/-- A buy that meets two sells, turned round by the complement of the prices. -/
theorem book_mirror_complement :
    let cs : List Call :=
      [.addOrder ⟨1, 10, false, 5⟩, .addOrder ⟨2, 9, false, 2⟩, .addOrder ⟨3, 12, true, 4⟩]
    (answers Book.empty cs).map (List.map Trade.level) = [[], [], [9, 10]]
      ∧ (answers Book.empty (cs.map (Call.mirror fun p => ~~~p))).map (List.map Trade.level)
          = [[], [], [~~~12, ~~~12]]
      ∧ after Book.empty (cs.map (Call.mirror fun p => ~~~p))
          = (after Book.empty cs).mirror fun p => ~~~p :=
  ⟨by decide, by decide, (book_mirror _ complement_reverses _).1⟩

end QuickStructs.Orderbook
