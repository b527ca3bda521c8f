import QuickStructs.Lib.Runs
import QuickStructs.Proof.Ledger

/-!
# An order in two parts

Two orders at one side and level take from the other side what one order of both quantities
takes. If the first part is used up before the book stops it, the second goes on where it was
left, inside a resting order or between two; if the book has stopped the first part, it stops
the second at once. So the induction is on the other side, best order first, and the cases are
how the first part ends.

What the trades say is compared as hits: the resting order, the price and the size. A resting
order that both parts take from is hit twice in a row.
-/

namespace QuickStructs.Orderbook

open Lib

/-- The resting order of a trade and its price, and the size. -/
def Trade.hit (t : Trade) : (Id × Price) × Int :=
  ((if t.aggressorIsBuy then t.orderIdB else t.orderIdA, t.level), t.size.toInt)

def hits (ts : Trades) : List ((Id × Price) × Int) := ts.map Trade.hit

/-- All that rests on a side at a level. -/
def Book.levelQty (b : Book) (isBuy : Bool) (level : Price) : Int :=
  (((b.side isBuy).filter fun x => x.level = level).map fun x => x.qty.toInt).sum

variable {o o' best : Order} {rest l : Orders} {q q₁ q₂ a b : Quantity}

theorem add_toInt (ha : 0 ≤ a.toInt) (hb : 0 ≤ b.toInt) (hmax : a.toInt + b.toInt ≤ 2147483647) :
    (a + b).toInt = a.toInt + b.toInt := by
  rw [Int32.toInt_add, Int.bmod_eq_of_le] <;> omega

theorem eq_of_toInt (h : a.toInt = b.toInt) : a = b := Int32.toInt_inj.mp h

/-! ## One round -/

theorem fill_miss (hm : isMatch o best = false) (q : Quantity) :
    fill o (best :: rest) q = { opposite := best :: rest, remaining := q, trades := [] } := by
  rw [fill, if_neg]
  intro h
  rw [hm] at h
  exact absurd h.2 (by decide)

/-- The best order is used up. -/
theorem fill_used (hm : isMatch o best = true) (hpos : 0 < best.qty)
    (hle : best.qty.toInt ≤ q.toInt) :
    fill o (best :: rest) q
      = { opposite := (fill o rest (q - best.qty)).opposite
          remaining := (fill o rest (q - best.qty)).remaining
          trades := mkTrade o best best.qty :: (fill o rest (q - best.qty)).trades } := by
  have hmin : min best.qty q = best.qty := by
    refine eq_of_toInt ?_
    rw [min_toInt]
    omega
  have hq : q > 0 := by
    rw [gt_iff_lt, pos_toInt] at *
    omega
  rw [fill, if_pos ⟨hq, hm⟩]
  dsimp only
  rw [hmin, if_pos (Int32.sub_self _)]

/-- The best order is more than enough. -/
theorem fill_cut (hm : isMatch o best = true) (hq : 0 < q) (hlt : q.toInt < best.qty.toInt) :
    fill o (best :: rest) q
      = { opposite := best.setQty (best.qty - q) :: rest, remaining := 0,
          trades := [mkTrade o best q] } := by
  have hmin : min best.qty q = q := by
    refine eq_of_toInt ?_
    rw [min_toInt]
    omega
  have hleft : best.qty - q ≠ 0 := by
    intro h
    have hsub := congrArg Int32.toInt h
    rw [pos_toInt] at hq
    rw [sub_toInt (by omega) (by omega), Int32.toInt_zero] at hsub
    omega
  rw [fill, if_pos ⟨hq, hm⟩]
  dsimp only
  rw [hmin, if_neg hleft, Int32.sub_self]

/-! ## Hits -/

theorem hits_append (ts us : Trades) : hits (ts ++ us) = hits ts ++ hits us := List.map_append ..

theorem mkTrade_hit (o best : Order) (size : Quantity) :
    (mkTrade o best size).hit
      = ((best.id, if o.isBuy then best.level else o.level), size.toInt) := by
  unfold Trade.hit mkTrade
  cases o.isBuy <;> rfl

/-- The orders that are hit are those in front, one after the other. -/
theorem fill_hits_ids (o : Order) (l : Orders) (q : Quantity) :
    ((hits (fill o l q).trades).map fun h => h.1.1).Sublist (l.map Order.id) := by
  fun_induction fill o l q with
  | case1 q => exact List.Sublist.refl _
  | case2 best rest q hc size hz m ih =>
      show (((mkTrade o best size).hit.1.1) :: (hits m.trades).map fun h => h.1.1).Sublist _
      rw [mkTrade_hit]
      exact ih.cons_cons best.id
  | case3 best rest q hc size hz =>
      show [(mkTrade o best size).hit.1.1].Sublist _
      rw [mkTrade_hit]
      exact (List.nil_sublist _).cons_cons best.id
  | case4 best rest q hc => exact List.nil_sublist _

/-- An order that is not across is not hit. -/
theorem hit_ne {i : Id} (hi : i ∉ l.map Order.id) (level : Price) :
    ∀ h ∈ hits (fill o l q).trades, (i, level) ≠ h.1 := by
  rintro h hh heq
  refine hi ((fill_hits_ids o l q).subset (List.mem_map.mpr ⟨h, hh, ?_⟩))
  rw [← heq]

/-- No order is hit twice in one call. -/
theorem merge_hits (o : Order) (hids : (l.map Order.id).Nodup) (q : Quantity) :
    Runs.merge (hits (fill o l q).trades) = hits (fill o l q).trades := by
  have hnodup : ((hits (fill o l q).trades).map fun h => h.1.1).Nodup :=
    (fill_hits_ids o l q).nodup hids
  refine Runs.merge_distinct (List.Nodup.of_map Prod.fst ?_)
  rw [List.map_map]
  exact hnodup

/-- Only the side and the level of the incoming order matter to what it hits. -/
theorem fill_alike (o o' : Order) (hside : o'.isBuy = o.isBuy) (hlevel : o'.level = o.level)
    (l : Orders) (q : Quantity) :
    (fill o' l q).opposite = (fill o l q).opposite
      ∧ (fill o' l q).remaining = (fill o l q).remaining
      ∧ hits (fill o' l q).trades = hits (fill o l q).trades := by
  have hmatch : ∀ best, isMatch o' best = isMatch o best := by
    intro best
    unfold isMatch canMatch
    rw [hside, hlevel]
  have hhit : ∀ best size, (mkTrade o' best size).hit = (mkTrade o best size).hit := by
    intro best size
    rw [mkTrade_hit, mkTrade_hit, hside, hlevel]
  fun_induction fill o l q with
  | case1 q => exact ⟨rfl, rfl, rfl⟩
  | case2 best rest q hc size hz m ih =>
      obtain ⟨hopp, hrem, hhits⟩ := ih
      rw [fill, if_pos ⟨hc.1, (hmatch best).trans hc.2⟩]
      dsimp only
      rw [if_pos hz]
      refine ⟨hopp, hrem, ?_⟩
      show (mkTrade o' best size).hit :: hits _ = (mkTrade o best size).hit :: hits _
      rw [hhit, hhits]
  | case3 best rest q hc size hz =>
      rw [fill, if_pos ⟨hc.1, (hmatch best).trans hc.2⟩]
      dsimp only
      rw [if_neg hz]
      exact ⟨rfl, rfl, congrArg (fun h => [h]) (hhit best size)⟩
  | case4 best rest q hc =>
      have hc' : ¬(q > 0 ∧ isMatch o' best = true) :=
        fun h => hc ⟨h.1, (hmatch best).symm.trans h.2⟩
      rw [fill, if_neg hc']
      exact ⟨rfl, rfl, rfl⟩

/-! ## Two parts -/

/-- The matches `m₁` and `m₂`, one after the other, do what `m` does. -/
structure Splits (m₁ m₂ m : Matching) : Prop where
  opposite : m₂.opposite = m.opposite
  remaining : m₁.remaining.toInt + m₂.remaining.toInt = m.remaining.toInt
  hits : Runs.merge (hits m₁.trades ++ hits m₂.trades) = hits m.trades

/-- The first part takes all of the best order. -/
theorem splits_used (hm : isMatch o best = true) (hpos : 0 < best.qty)
    (hids : best.id ∉ rest.map Order.id) (hle : best.qty.toInt ≤ q₁.toInt) (hq₂ : 0 < q₂.toInt)
    (hmax : q₁.toInt + q₂.toInt ≤ 2147483647)
    (ih : Splits (fill o rest (q₁ - best.qty))
      (fill o (fill o rest (q₁ - best.qty)).opposite q₂) (fill o rest (q₁ - best.qty + q₂))) :
    Splits (fill o (best :: rest) q₁) (fill o (fill o (best :: rest) q₁).opposite q₂)
      (fill o (best :: rest) (q₁ + q₂)) := by
  have hbest := pos_toInt.mp hpos
  have hsum : (q₁ + q₂).toInt = q₁.toInt + q₂.toInt := add_toInt (by omega) (by omega) hmax
  have hfirst : (q₁ - best.qty).toInt = q₁.toInt - best.qty.toInt := sub_toInt (by omega) hle
  have hleft : q₁ + q₂ - best.qty = q₁ - best.qty + q₂ := by
    have hboth : (q₁ - best.qty + q₂).toInt = (q₁ - best.qty).toInt + q₂.toInt :=
      add_toInt (by omega) (by omega) (by omega)
    refine eq_of_toInt ?_
    rw [sub_toInt (by omega) (by omega)]
    omega
  rw [fill_used hm hpos hle, fill_used (q := q₁ + q₂) hm hpos (by omega), hleft]
  refine ⟨ih.opposite, ih.remaining, ?_⟩
  show Runs.merge ((mkTrade o best best.qty).hit :: (hits _ ++ hits _)) = _ :: hits _
  rw [Runs.merge_cons, ih.hits]
  intro h hh
  rw [mkTrade_hit]
  rcases List.mem_append.mp hh with hh | hh
  · exact hit_ne hids _ h hh
  · exact hit_ne (fun hmem => hids (fill_ids.subset hmem)) _ h hh

/-- The first part ends inside the best order. -/
theorem splits_cut (hm : isMatch o best = true) (hnodup : ((best :: rest).map Order.id).Nodup)
    (hq₁ : 0 < q₁.toInt) (hq₂ : 0 < q₂.toInt) (hmax : q₁.toInt + q₂.toInt ≤ 2147483647)
    (hlt : q₁.toInt < best.qty.toInt) :
    Splits (fill o (best :: rest) q₁) (fill o (fill o (best :: rest) q₁).opposite q₂)
      (fill o (best :: rest) (q₁ + q₂)) := by
  have hids : best.id ∉ rest.map Order.id := (List.nodup_cons.mp hnodup).1
  have hsum : (q₁ + q₂).toInt = q₁.toInt + q₂.toInt := add_toInt (by omega) (by omega) hmax
  have hleft : (best.qty - q₁).toInt = best.qty.toInt - q₁.toInt :=
    sub_toInt (by omega) (by omega)
  -- what is left of the best order still matches
  have hm' : isMatch o (best.setQty (best.qty - q₁)) = true := hm
  rw [fill_cut hm (pos_toInt.mpr hq₁) hlt]
  dsimp only
  by_cases hall : (best.qty - q₁).toInt ≤ q₂.toInt
  · -- the second part takes the rest of it
    have hpos' : 0 < (best.setQty (best.qty - q₁)).qty := by
      rw [setQty_qty, pos_toInt]
      omega
    have hdiff : q₂ - (best.qty - q₁) = q₁ + q₂ - best.qty := by
      have hboth : (q₁ + q₂ - best.qty).toInt = (q₁ + q₂).toInt - best.qty.toInt :=
        sub_toInt (by omega) (by omega)
      refine eq_of_toInt ?_
      rw [sub_toInt (by omega) hall]
      omega
    rw [fill_used hm' hpos' hall, setQty_qty, hdiff,
      fill_used (q := q₁ + q₂) hm (pos_toInt.mpr (by omega)) (by omega)]
    refine ⟨rfl, Int.zero_add _, ?_⟩
    show Runs.merge ((mkTrade o best q₁).hit :: (mkTrade o _ _).hit :: hits _) = _ :: hits _
    rw [mkTrade_hit, mkTrade_hit, mkTrade_hit]
    refine (Runs.merge_twice (hit_ne hids _)).trans ?_
    rw [hleft, merge_hits o (List.nodup_cons.mp hnodup).2, add_sub_cancel]
  · -- it ends inside it too
    have hdiff : best.qty - q₁ - q₂ = best.qty - (q₁ + q₂) := by
      have hboth : (best.qty - (q₁ + q₂)).toInt = best.qty.toInt - (q₁ + q₂).toInt :=
        sub_toInt (by omega) (by omega)
      refine eq_of_toInt ?_
      rw [sub_toInt (by omega) (by omega)]
      omega
    have hlt' : q₂.toInt < (best.setQty (best.qty - q₁)).qty.toInt := by
      rw [setQty_qty]
      omega
    rw [fill_cut hm' (pos_toInt.mpr hq₂) hlt', fill_cut hm (pos_toInt.mpr (by omega)) (by omega),
      setQty_qty, hdiff]
    refine ⟨rfl, rfl, ?_⟩
    show Runs.merge [(mkTrade o best q₁).hit, (mkTrade o _ q₂).hit]
      = [(mkTrade o best (q₁ + q₂)).hit]
    rw [mkTrade_hit, mkTrade_hit, mkTrade_hit, hsum]
    exact Runs.merge_twice (fun _ h => absurd h List.not_mem_nil)

/-- **Two parts are matched as one**, against orders with different ids. -/
theorem fill_split (o : Order) (l : Orders) (q₁ q₂ : Quantity) (hpos : ∀ x ∈ l, 0 < x.qty)
    (hids : (l.map Order.id).Nodup) (hq₁ : 0 ≤ q₁.toInt) (hq₂ : 0 < q₂.toInt)
    (hmax : q₁.toInt + q₂.toInt ≤ 2147483647) :
    Splits (fill o l q₁) (fill o (fill o l q₁).opposite q₂) (fill o l (q₁ + q₂)) := by
  have hsum : (q₁ + q₂).toInt = q₁.toInt + q₂.toInt := add_toInt hq₁ (by omega) hmax
  induction l generalizing q₁ with
  | nil => exact ⟨rfl, hsum.symm, rfl⟩
  | cons best rest ih =>
      have hbest := hpos best List.mem_cons_self
      have hrest := (List.nodup_cons.mp hids)
      by_cases hzero : q₁.toInt = 0
      · -- nothing is left of the first part
        have hq₁0 : q₁ = 0 := eq_of_toInt hzero
        subst hq₁0
        rw [fill_idle o _ (by decide), Int32.zero_add]
        exact ⟨rfl, Int.zero_add _, merge_hits o hids q₂⟩
      cases hm : isMatch o best with
      | false =>
          rw [fill_miss hm, fill_miss hm, fill_miss hm]
          exact ⟨rfl, hsum.symm, rfl⟩
      | true =>
          by_cases hle : best.qty.toInt ≤ q₁.toInt
          · have hb := pos_toInt.mp hbest
            have hleft : (q₁ - best.qty).toInt = q₁.toInt - best.qty.toInt :=
              sub_toInt (by omega) hle
            refine splits_used hm hbest hrest.1 hle hq₂ hmax
              (ih (q₁ - best.qty) (fun x hx => hpos x (List.mem_cons_of_mem _ hx)) hrest.2 ?_ ?_ ?_)
            · omega
            · omega
            · rw [add_toInt (by omega) (by omega) (by omega)]
          · exact splits_cut hm hids (by omega) hq₂ hmax (by omega)

/-! ## Two calls -/

variable {number : Id → Nat} {book : Book}

/-- What an order leaves on its own side at its level. -/
theorem addOrder_levelQty (h : BookInv number book) (hfree : book.rests o.id = false)
    (hq : 0 ≤ o.qty.toInt) :
    (book.addOrder o).1.levelQty o.isBuy o.level
      = book.levelQty o.isBuy o.level + (book.filled o).remaining.toInt := by
  unfold Book.levelQty
  rw [(addOrder_spec hfree).2.2]
  have hnonneg : 0 ≤ (book.filled o).remaining.toInt := fill_nonneg (h.pos_across o) hq
  split
  · have hperm := insertSorted_perm (o := o.setQty (book.filled o).remaining) (h.order o.isBuy)
    rw [((hperm.filter _).map _).sum_eq, List.filter_cons_of_pos (by simp), List.map_cons,
      List.sum_cons, Int.add_comm]
    rfl
  · rename_i hr
    rw [pos_toInt] at hr
    omega

/-- An order that is matched after another one of its side and level. -/
theorem filled_after (hi : book.rests o.id = false) (hside : o'.isBuy = o.isBuy) :
    (book.addOrder o).1.filled o' = fill o' (book.filled o).opposite o'.qty := by
  unfold Book.filled
  rw [hside, (addOrder_spec hi).2.1, List.reverse_reverse]
  rfl

/-- An id that does not rest before a call of another one does not rest after it. -/
theorem not_rests_after (h : BookInv number book) (hi : book.rests o.id = false) {j : Id}
    (hj : book.rests j = false) (hij : o.id ≠ j) : (book.addOrder o).1.rests j = false := by
  rw [not_rests_iff] at hj ⊢
  intro s x hx hxj
  rcases addOrder_mem_id h hi s x hx with hid | ⟨y, hy, hid⟩
  · exact hij (hid.symm.trans hxj)
  · exact hj s y hy (hid.trans hxj)

/-- **The matches of the two calls split that of the one**, where the three orders differ in
nothing but their ids and quantities. -/
theorem filled_split (h : BookInv number book) (o₁ o₂ o : Order) (hi : book.rests o₁.id = false)
    (hside₁ : o₁.isBuy = o.isBuy) (hlevel₁ : o₁.level = o.level) (hside₂ : o₂.isBuy = o.isBuy)
    (hlevel₂ : o₂.level = o.level) (hq : o.qty = o₁.qty + o₂.qty) (hq₁ : 0 ≤ o₁.qty.toInt)
    (hq₂ : 0 < o₂.qty.toInt) (hmax : o₁.qty.toInt + o₂.qty.toInt ≤ 2147483647) :
    Splits (book.filled o₁) ((book.addOrder o₁).1.filled o₂) (book.filled o) := by
  have hids : ((book.side (!o.isBuy)).reverse.map Order.id).Nodup := by
    rw [List.map_reverse, List.nodup_reverse]
    exact h.distinct.side _
  have hsplit := fill_split o (book.side (!o.isBuy)).reverse o₁.qty o₂.qty (h.pos_across o) hids hq₁
    hq₂ hmax
  rw [filled_after hi (hside₂.trans hside₁.symm)]
  unfold Book.filled
  rw [hside₁, hq]
  obtain ⟨hopp₁, hrem₁, hhits₁⟩ :=
    fill_alike o o₁ hside₁ hlevel₁ (book.side (!o.isBuy)).reverse o₁.qty
  obtain ⟨hopp₂, hrem₂, hhits₂⟩ := fill_alike o o₂ hside₂ hlevel₂
    (fill o (book.side (!o.isBuy)).reverse o₁.qty).opposite o₂.qty
  rw [hopp₁]
  refine ⟨hopp₂.trans hsplit.opposite, ?_, ?_⟩
  · rw [hrem₁, hrem₂, hsplit.remaining]
  · rw [hhits₁, hhits₂, hsplit.hits]

/--
**To split an order does not change its execution.**

In every reachable book, two orders at one side and level leave the other side as one order of
both quantities leaves it; they hit the same resting orders in the same sequence, at the same
prices and for the same sizes, where hits of one order in a row count as one; and the same quantity
is left at the level on their own side.
-/
theorem split_order (cs : List Call) (isBuy : Bool) (level : Price) (i j : Id) (a b : Quantity)
    (hij : i ≠ j) (hi : (after Book.empty cs).rests i = false)
    (hj : (after Book.empty cs).rests j = false) (ha : 1 ≤ a.toInt) (hb : 1 ≤ b.toInt)
    (hmax : a.toInt + b.toInt ≤ 2147483647) :
    let book := after Book.empty cs
    let (first, t₁) := book.addOrder ⟨i, level, isBuy, a⟩
    let (second, t₂) := first.addOrder ⟨j, level, isBuy, b⟩
    let (whole, t) := book.addOrder ⟨i, level, isBuy, a + b⟩
    second.side (!isBuy) = whole.side (!isBuy)
      ∧ Runs.merge (hits (t₁ ++ t₂)) = hits t
      ∧ second.levelQty isBuy level - book.levelQty isBuy level
        = whole.levelQty isBuy level - book.levelQty isBuy level := by
  intro book
  let o₁ : Order := ⟨i, level, isBuy, a⟩
  let o₂ : Order := ⟨j, level, isBuy, b⟩
  let o : Order := ⟨i, level, isBuy, a + b⟩
  have hinv : BookInv (acceptedAs cs) book := bookInv_run cs
  have hi₁ : book.rests o₁.id = false := hi
  have hi' : book.rests o.id = false := hi
  have hinv₁ : BookInv (acceptedAs (cs ++ [.addOrder o₁])) (book.addOrder o₁).1 := by
    have hrun := bookInv_run (cs ++ [.addOrder o₁])
    rw [after_concat] at hrun
    exact hrun
  have hj₁ : (book.addOrder o₁).1.rests o₂.id = false := not_rests_after hinv hi₁ hj hij
  have hsum : (a + b).toInt = a.toInt + b.toInt := add_toInt (by omega) (by omega) hmax
  have hsplit : Splits (book.filled o₁) ((book.addOrder o₁).1.filled o₂) (book.filled o) :=
    filled_split hinv o₁ o₂ o hi₁ rfl rfl rfl rfl rfl (Int.le_of_lt ha) hb hmax
  obtain ⟨htrades₁, _, _⟩ := addOrder_spec hi₁
  obtain ⟨htrades₂, hacross₂, _⟩ := addOrder_spec hj₁
  obtain ⟨htrades, hacross, _⟩ := addOrder_spec hi'
  refine ⟨?_, ?_, ?_⟩
  · show ((book.addOrder o₁).1.addOrder o₂).1.side (!isBuy) = (book.addOrder o).1.side (!isBuy)
    rw [hacross₂, hacross, hsplit.opposite]
  · show Runs.merge (hits ((book.addOrder o₁).2 ++ ((book.addOrder o₁).1.addOrder o₂).2))
      = hits (book.addOrder o).2
    rw [htrades₁, htrades₂, htrades, hits_append, hsplit.hits]
  · have hq : 0 ≤ (a + b).toInt := by omega
    have hlevel₁ := addOrder_levelQty hinv hi₁ (Int.le_of_lt ha)
    have hlevel₂ := addOrder_levelQty hinv₁ hj₁ (Int.le_of_lt hb)
    have hlevel := addOrder_levelQty hinv hi' hq
    show ((book.addOrder o₁).1.addOrder o₂).1.levelQty isBuy level - _
      = (book.addOrder o).1.levelQty isBuy level - _
    rw [hlevel₂, hlevel₁, hlevel, ← hsplit.remaining, Int.add_assoc]

/-- A buy of 7 against sells of 5 and 4, in parts of 3 and 4: the first sell is hit by both. -/
theorem split_order_seven :
    let book := after Book.empty [.addOrder ⟨1, 10, false, 5⟩, .addOrder ⟨2, 11, false, 4⟩]
    let (first, t₁) := book.addOrder ⟨7, 12, true, 3⟩
    let (second, t₂) := first.addOrder ⟨8, 12, true, 4⟩
    let (whole, t) := book.addOrder ⟨7, 12, true, 3 + 4⟩
    second.side (!true) = whole.side (!true)
      ∧ Runs.merge (hits (t₁ ++ t₂)) = hits t
      ∧ second.levelQty true 12 - book.levelQty true 12
        = whole.levelQty true 12 - book.levelQty true 12 :=
  split_order [.addOrder ⟨1, 10, false, 5⟩, .addOrder ⟨2, 11, false, 4⟩] true 12 7 8 3 4 (by decide)
    rfl rfl (by decide) (by decide) (by decide)

end QuickStructs.Orderbook
