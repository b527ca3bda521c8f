import QuickStructs.Structs.Orderbook

/-!
# The matching loop, from the best order down

`matchLoop` works on the back of a vector with a bound on its passes. `fill` says
the same thing by recursion on the other side read best order first: an order that
matches is either used up, and the next one is tried, or it is reduced and ends the
loop. `matchLoop_eq_fill` connects the two, and every later fact about matching is
an induction on `fill`.
-/

namespace QuickStructs.Orderbook

open Lib

/-- Match `incoming`, with `q` left to trade, against orders given best first. -/
def fill (incoming : Order) : Orders → Quantity → Matching
  | [], q => { opposite := [], remaining := q, trades := [] }
  | best :: rest, q =>
    if q > 0 ∧ isMatch incoming best then
      let size := min best.qty q
      if best.qty - size = 0 then
        let m := fill incoming rest (q - size)
        { m with trades := mkTrade incoming best size :: m.trades }
      else
        { opposite := best.setQty (best.qty - size) :: rest, remaining := q - size,
          trades := [mkTrade incoming best size] }
    else { opposite := best :: rest, remaining := q, trades := [] }

/-! ## The quantities of one trade -/

theorem min_eq (a b : Quantity) : min a b = if a ≤ b then a else b := rfl

/-- An order that is not used up leaves nothing of the incoming one. -/
theorem remaining_zero {a q : Quantity} (h : a - min a q ≠ 0) : q - min a q = 0 := by
  rw [min_eq] at *
  split at h
  · exact absurd (Int32.sub_self a) h
  · rename_i hle
    rw [if_neg hle]
    exact Int32.sub_self q

theorem min_toInt (a q : Quantity) : (min a q).toInt = min a.toInt q.toInt := by
  rw [min_eq]
  split <;> rename_i h <;> rw [Int32.le_iff_toInt_le] at h <;> omega

/-- A non-negative difference of two positive quantities is exact. -/
theorem sub_toInt {a b : Quantity} (hb : 0 ≤ b.toInt) (hab : b.toInt ≤ a.toInt) :
    (a - b).toInt = a.toInt - b.toInt := by
  have h1 := Int32.toInt_lt a
  rw [Int32.toInt_sub, Int.bmod_eq_of_le] <;> omega

theorem pos_toInt {a : Quantity} : 0 < a ↔ 0 < a.toInt := Int32.lt_iff_toInt_lt

/-- What an order keeps after a partial fill is positive. -/
theorem left_pos {a q : Quantity} (ha : 0 < a) (hq : 0 < q) (h : a - min a q ≠ 0) :
    0 < a - min a q := by
  have hm := min_toInt a q
  rw [pos_toInt] at *
  have hs := sub_toInt (a := a) (b := min a q) (by omega) (by omega)
  have hne : (a - min a q).toInt ≠ 0 := fun he => h (Int32.toInt_inj.mp he)
  omega

/-! ## The loop is `fill` -/

/-- One pass, with the vector given as a reversed list. -/
theorem matchPass_reverse (incoming best : Order) (rest : Orders) (q : Quantity) (ts : Trades) :
    matchPass incoming { opposite := (best :: rest).reverse, remaining := q, trades := ts }
      = if q > 0 ∧ isMatch incoming best then
          some {
            opposite := if best.qty - min best.qty q = 0 then rest.reverse
              else (best.setQty (best.qty - min best.qty q) :: rest).reverse
            remaining := q - min best.qty q
            trades := ts ++ [mkTrade incoming best (min best.qty q)] }
        else none := by
  unfold matchPass
  dsimp only
  rw [List.reverse_cons, List.getLast?_concat, List.dropLast_concat]
  dsimp only
  by_cases hq : q > 0
  · by_cases hm : isMatch incoming best = true
    · have hc : q > 0 ∧ isMatch incoming best = true := ⟨hq, hm⟩
      rw [if_pos hq, if_pos hm, if_pos hc, List.reverse_cons]
      rfl
    · rw [if_pos hq, if_neg hm, if_neg (fun h => hm h.2)]
  · rw [if_neg hq, if_neg (fun h => hq h.1)]

theorem iterate_eq_fill (incoming : Order) : ∀ (best : Orders) (n : Nat) (q : Quantity)
    (ts : Trades), best.length < n →
    Loop.iterate (matchPass incoming) n { opposite := best.reverse, remaining := q, trades := ts }
      = { opposite := (fill incoming best q).opposite.reverse
          remaining := (fill incoming best q).remaining
          trades := ts ++ (fill incoming best q).trades }
  | [], n + 1, q, ts, _ => by simp [Loop.iterate, matchPass, fill]
  | best :: rest, n + 1, q, ts, hn => by
      rw [Loop.iterate, matchPass_reverse, fill]
      by_cases hc : q > 0 ∧ isMatch incoming best
      · rw [if_pos hc, if_pos hc]
        dsimp only
        by_cases hz : best.qty - min best.qty q = 0
        · -- used up: the next pass sees the rest of the vector
          rw [if_pos hz, if_pos hz,
            iterate_eq_fill incoming rest n _ _ (by simp only [List.length_cons] at hn; omega)]
          simp
        · -- reduced: the guard fails on the next pass
          rw [if_neg hz, if_neg hz, Loop.iterate_stable]
          rw [matchPass_reverse, if_neg]
          rw [remaining_zero hz]
          exact fun h => absurd h.1 (by decide)
      · rw [if_neg hc, if_neg hc]
        simp

/-- **The loop computes `fill`.** -/
theorem matchLoop_eq_fill (incoming : Order) (opposite : Orders) :
    matchLoop incoming opposite
      = { opposite := (fill incoming opposite.reverse incoming.qty).opposite.reverse
          remaining := (fill incoming opposite.reverse incoming.qty).remaining
          trades := (fill incoming opposite.reverse incoming.qty).trades } := by
  have h := iterate_eq_fill incoming opposite.reverse (opposite.length + 1) incoming.qty []
    (by rw [List.length_reverse]; omega)
  rw [List.reverse_reverse, List.nil_append] at h
  exact h

/-- The bound on the passes is never what ends the loop. -/
theorem matchLoop_exits (incoming : Order) (opposite : Orders) :
    matchPass incoming (matchLoop incoming opposite) = none := by
  refine Loop.iterate_exits
    (fun m => m.opposite.length + if m.remaining > 0 then 1 else 0) (I := fun _ => True)
    ?_ _ _ trivial ?_
  · intro m m' _ hp
    refine ⟨trivial, ?_⟩
    obtain ⟨opp, q, ts⟩ := m
    obtain ⟨best, rfl⟩ : ∃ best : Orders, opp = best.reverse := ⟨opp.reverse, by simp⟩
    cases best with
    | nil => simp [matchPass] at hp
    | cons best rest =>
        rw [matchPass_reverse] at hp
        split at hp
        · rename_i hc
          injection hp with hp
          subst hp
          dsimp only
          rw [if_pos hc.1]
          by_cases hz : best.qty - min best.qty q = 0
          · rw [if_pos hz]
            simp only [List.length_reverse, List.length_cons]
            split <;> omega
          · rw [if_neg hz, remaining_zero hz, if_neg (by decide)]
            simp
        · exact absurd hp (by simp)
  · dsimp only
    split <;> omega

/-! ## What matching leaves of the other side -/

@[simp] theorem setQty_id (o : Order) (q : Quantity) : (o.setQty q).id = o.id := rfl

@[simp] theorem setQty_level (o : Order) (q : Quantity) : (o.setQty q).level = o.level := rfl

@[simp] theorem setQty_isBuy (o : Order) (q : Quantity) : (o.setQty q).isBuy = o.isBuy := rfl

@[simp] theorem setQty_qty (o : Order) (q : Quantity) : (o.setQty q).qty = q := rfl

/-- The three ways a step of `fill` can go, as an induction principle for what it leaves. -/
theorem fill_opposite_cases {P : Orders → Orders → Prop} {incoming : Order}
    (hkeep : ∀ best, P best best)
    (hdrop : ∀ best rest left, P rest left → P (best :: rest) left)
    (hcut : ∀ best rest q, 0 < q → best.qty - min best.qty q ≠ 0 →
      P (best :: rest) (best.setQty (best.qty - min best.qty q) :: rest)) :
    ∀ (best : Orders) (q : Quantity), P best (fill incoming best q).opposite := by
  intro best q
  fun_induction fill incoming best q with
  | case1 q => exact hkeep []
  | case2 b rest q hc size hz m ih => exact hdrop b rest _ ih
  | case3 b rest q hc size hz => exact hcut b rest q hc.1 hz
  | case4 b rest q hc => exact hkeep _

/-- Every order left was there before, with the same id, price and side. -/
theorem fill_mem {incoming : Order} {best : Orders} {q : Quantity} {x : Order} :
    x ∈ (fill incoming best q).opposite →
      ∃ y ∈ best, x = y.setQty x.qty ∧ (0 < y.qty → 0 < x.qty) := by
  refine fill_opposite_cases
    (P := fun l l' => x ∈ l' → ∃ y ∈ l, x = y.setQty x.qty ∧ (0 < y.qty → 0 < x.qty))
    ?_ ?_ ?_ best q
  · exact fun l hx => ⟨x, hx, rfl, id⟩
  · intro b rest left ih hx
    obtain ⟨y, hy, h⟩ := ih hx
    exact ⟨y, List.mem_cons_of_mem _ hy, h⟩
  · intro b rest q hq hz hx
    rcases List.mem_cons.mp hx with hx | hx
    · subst hx
      exact ⟨b, List.mem_cons_self .., rfl, fun hb => left_pos hb hq hz⟩
    · exact ⟨x, List.mem_cons_of_mem _ hx, rfl, id⟩

/-- A relation that does not look at quantities survives matching. -/
theorem fill_pairwise {R : Order → Order → Prop} (hR : ∀ a b q, R a b → R (a.setQty q) b)
    {incoming : Order} {best : Orders} {q : Quantity} :
    best.Pairwise R → (fill incoming best q).opposite.Pairwise R := by
  refine fill_opposite_cases (P := fun l l' => l.Pairwise R → l'.Pairwise R) ?_ ?_ ?_ best q
  · exact fun _ h => h
  · exact fun b rest left ih h => ih (List.pairwise_cons.mp h).2
  · intro b rest q _ _ h
    obtain ⟨h1, h2⟩ := List.pairwise_cons.mp h
    exact List.pairwise_cons.mpr ⟨fun x hx => hR b x _ (h1 x hx), h2⟩

theorem fill_ids {incoming : Order} {best : Orders} {q : Quantity} :
    (fill incoming best q).opposite.map Order.id <:+ best.map Order.id := by
  refine fill_opposite_cases (P := fun l l' => l'.map Order.id <:+ l.map Order.id) ?_ ?_ ?_ best q
  · exact fun _ => List.suffix_refl _
  · exact fun b rest left ih => ih.trans (List.suffix_cons _ _)
  · exact fun b rest q _ _ => List.suffix_refl _

/-- **Why the book stays uncrossed.** Quantity is left over only when no order left matches. -/
theorem fill_stop {incoming : Order} {best : Orders} {q : Quantity}
    (hp : best.Pairwise (fun a b => isMatch incoming b → isMatch incoming a))
    (hr : 0 < (fill incoming best q).remaining) :
    ∀ x ∈ (fill incoming best q).opposite, isMatch incoming x = false := by
  fun_induction fill incoming best q with
  | case1 q =>
      intro x hx
      exact absurd hx (by simp)
  | case2 b rest q hc size hz m ih => exact ih (List.pairwise_cons.mp hp).2 hr
  | case3 b rest q hc size hz =>
      -- the order that is reduced takes all there was
      have hzero : q - size = 0 := remaining_zero hz
      dsimp only at hr
      rw [hzero] at hr
      exact absurd hr (by decide)
  | case4 b rest q hc =>
      have hbest : isMatch incoming b ≠ true := fun hm => hc ⟨hr, hm⟩
      have hbefore := (List.pairwise_cons.mp hp).1
      intro x hx
      rcases List.mem_cons.mp hx with hx | hx
      · rw [hx]
        exact Bool.eq_false_iff.mpr hbest
      · exact Bool.eq_false_iff.mpr fun hm => hbest (hbefore x hx hm)

end QuickStructs.Orderbook
