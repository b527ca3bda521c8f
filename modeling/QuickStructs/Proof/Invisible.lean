import QuickStructs.Proof.Ledger

/-!
# An order that never trades leaves no trace

Two runs are compared, one with an order that comes in, trades nothing and is
cancelled, and one without it. The books differ by that order alone, so the run
without it is in the state the other one would be in had it cancelled the order at
once. That cancelling commutes with every call that has nothing to do with the
order is the step; the rest is the simulation rule.
-/

namespace QuickStructs.Orderbook

open Lib

/-- Is the call about an order of this id? -/
def Call.uses (id : Id) : Call → Prop
  | .addOrder o => o.id = id
  | .cancelOrder i => i = id

instance (id : Id) (c : Call) : Decidable (c.uses id) :=
  match c with
  | .addOrder o => inferInstanceAs (Decidable (o.id = id))
  | .cancelOrder i => inferInstanceAs (Decidable (i = id))

/-! ## Without one order -/

theorem insertSorted_filter {number : Id → Nat} {o : Order} {l : Orders}
    (h : l.Pairwise (Behind number o.isBuy)) (p : Order → Bool) :
    (insertSorted o l).filter p = if p o then insertSorted o (l.filter p) else l.filter p :=
  Search.filter_insertIdx (behind_partitioned h) p o

/-- Matching stops at once when the best order cannot be traded. -/
theorem fill_stopped {o : Order} {q : Quantity} : ∀ {best : Orders},
    (∀ x ∈ best.head?, ¬(q > 0 ∧ isMatch o x = true)) →
    fill o best q = { opposite := best, remaining := q, trades := [] }
  | [], _ => rfl
  | x :: rest, h => by rw [fill, if_neg (h x rfl)]

/-- Matching that trades nothing did nothing. -/
theorem fill_no_trades {o : Order} {q : Quantity} : ∀ {best : Orders},
    (fill o best q).trades = [] →
    fill o best q = { opposite := best, remaining := q, trades := [] }
  | [], _ => rfl
  | x :: rest, h => by
      refine fill_stopped fun y hy hc => ?_
      rw [← Option.mem_some.mp hy] at hc
      rw [fill, if_pos hc] at h
      dsimp only at h
      split at h <;> exact absurd h (by simp)

/-- **Matching does not see an order it does not trade with.** -/
theorem fill_filter {o : Order} {i : Id} {best : Orders} {q : Quantity}
    (hp : best.Pairwise (fun x y => isMatch o y → isMatch o x))
    (hn : ∀ t ∈ (fill o best q).trades, ¬t.names i) :
    fill o (best.filter fun x => x.id != i) q
      = { opposite := (fill o best q).opposite.filter fun x => x.id != i
          remaining := (fill o best q).remaining
          trades := (fill o best q).trades } := by
  -- an order that is traded with is not the one left out
  have hkeep : ∀ {b : Order} {size : Quantity}, ¬(mkTrade o b size).names i →
      (b.id != i) = true := by
    intro b size ht
    rw [bne_iff_ne]
    exact fun hb => ht ((mkTrade_names ..).mpr (Or.inr hb))
  fun_induction fill o best q with
  | case1 q => rfl
  | case2 b rest q hc size hz m ih =>
      have hb := hkeep (hn _ (List.mem_cons_self ..))
      have hrest := ih (List.pairwise_cons.mp hp).2 fun t ht => hn t (List.mem_cons_of_mem _ ht)
      rw [List.filter_cons_of_pos (p := fun x : Order => x.id != i) hb, fill, if_pos hc]
      dsimp only
      rw [if_pos hz, hrest]
  | case3 b rest q hc size hz =>
      have hb := hkeep (hn _ (List.mem_cons_self ..))
      rw [List.filter_cons_of_pos (p := fun x : Order => x.id != i) hb, fill, if_pos hc]
      dsimp only
      have hcut : (b.setQty (b.qty - size) :: rest).filter (fun x => x.id != i)
          = b.setQty (b.qty - size) :: rest.filter fun x => x.id != i :=
        List.filter_cons_of_pos hb
      rw [if_neg hz, hcut]
  | case4 b rest q hc =>
      have hbefore := (List.pairwise_cons.mp hp).1
      refine fill_stopped fun y hy hcy => ?_
      -- whatever comes first without `i` matches only if `b` does
      have hmem := List.mem_of_mem_filter (List.mem_of_mem_head? hy)
      rcases List.mem_cons.mp hmem with hyb | hyr
      · exact hc (hyb ▸ hcy)
      · exact hc ⟨hcy.1, hbefore y hyr hcy.2⟩

/-- Another id rests with or without the order `i`. -/
theorem cancelOrder_rests {number : Id → Nat} {b : Book} {i j : Id} (h : BookInv number b)
    (hij : j ≠ i) : (b.cancelOrder i).rests j = b.rests j := by
  rw [Bool.eq_iff_iff, rests_iff, rests_iff]
  constructor
  · rintro ⟨s, x, hx, hj⟩
    rw [cancelOrder_side h.distinct] at hx
    exact ⟨s, x, (List.mem_filter.mp hx).1, hj⟩
  · rintro ⟨s, x, hx, hj⟩
    refine ⟨s, x, ?_, hj⟩
    rw [cancelOrder_side h.distinct]
    exact List.mem_filter.mpr ⟨hx, by rw [bne_iff_ne, hj]; exact hij⟩

/-- **Cancelling an order commutes with every call that has nothing to do with it.** -/
theorem cancelOrder_comm {number : Id → Nat} {b : Book} {i : Id} {c : Call} (h : BookInv number b)
    (hc : ¬c.uses i) (hn : ∀ t ∈ (b.call c).2, ¬t.names i) :
    (b.cancelOrder i).call c = ((b.call c).1.cancelOrder i, (b.call c).2) := by
  have hi := bookInv_cancelOrder h i
  cases c with
  | cancelOrder j =>
      refine Prod.ext (Book.ext_side fun s => ?_) rfl
      have hj := bookInv_cancelOrder h j
      show ((b.cancelOrder i).cancelOrder j).side s = ((b.cancelOrder j).cancelOrder i).side s
      rw [cancelOrder_side hi.distinct, cancelOrder_side hj.distinct, cancelOrder_side h.distinct,
        cancelOrder_side h.distinct, List.filter_filter, List.filter_filter]
      exact List.filter_congr fun x _ => Bool.and_comm _ _
  | addOrder o =>
      have ho : o.id ≠ i := hc
      have hrests := cancelOrder_rests h ho
      rw [show (b.cancelOrder i).call (.addOrder o) = (b.cancelOrder i).addOrder o from rfl,
        show b.call (.addOrder o) = b.addOrder o from rfl] at *
      cases hd : b.rests o.id with
      | true => rw [addOrder_dupe hd, addOrder_dupe (hrests.trans hd)]
      | false =>
          obtain ⟨ht, hacross, hown⟩ := addOrder_spec hd
          obtain ⟨ht', hacross', hown'⟩ := addOrder_spec (hrests.trans hd)
          -- both books match the same orders
          have hfill : (b.cancelOrder i).filled o
              = { opposite := (b.filled o).opposite.filter fun x => x.id != i
                  remaining := (b.filled o).remaining
                  trades := (b.filled o).trades } := by
            rw [Book.filled, cancelOrder_side h.distinct, ← List.filter_reverse]
            rw [ht] at hn
            exact fill_filter (h.match_first o) hn
          rw [hfill] at ht' hacross' hown'
          dsimp only at ht' hacross' hown'
          have hout : Distinct (b.addOrder o).1 := addOrder_distinct h hd
          refine Prod.ext (Book.ext_side (side_cases o.isBuy ?_ ?_)) (ht'.trans ht.symm)
          · rw [hown', cancelOrder_side hout, hown, cancelOrder_side h.distinct]
            by_cases hr : 0 < (b.filled o).remaining
            · have hins := insertSorted_filter (o := o.setQty (b.filled o).remaining)
                (h.order o.isBuy) fun x => x.id != i
              rw [if_pos (by simpa using ho)] at hins
              rw [if_pos hr, if_pos hr, hins]
            · rw [if_neg hr, if_neg hr]
          · rw [hacross', cancelOrder_side hout, hacross, List.filter_reverse]

/-- Cancelling an order that came in and traded nothing brings the old book back. -/
theorem addOrder_cancelOrder {number : Id → Nat} {b : Book} {o : Order} (h : BookInv number b)
    (ha : b.accepts o) (hnone : (b.addOrder o).2 = []) :
    (b.addOrder o).1.cancelOrder o.id = b := by
  obtain ⟨ht, hacross, hown⟩ := addOrder_spec ha.1
  have hfree : ∀ s, (b.side s).filter (fun x => x.id != o.id) = b.side s := fun s =>
    List.filter_eq_self.mpr fun x hx => by
      rw [bne_iff_ne]
      exact not_rests_iff.mp ha.1 s x hx
  have hfill : b.filled o
      = { opposite := (b.side (!o.isBuy)).reverse, remaining := o.qty, trades := [] } :=
    fill_no_trades (ht.symm.trans hnone)
  rw [hfill] at hacross hown
  dsimp only at hacross hown
  refine Book.ext_side (side_cases o.isBuy ?_ ?_)
  · have hins := insertSorted_filter (o := o.setQty o.qty) (h.order o.isBuy) fun x => x.id != o.id
    rw [if_neg (by simp)] at hins
    rw [cancelOrder_side (addOrder_distinct h ha.1), hown, if_pos ha.2, hins, hfree]
  · rw [cancelOrder_side (addOrder_distinct h ha.1), hacross, List.reverse_reverse, hfree]

/-! ## Over a run -/

theorem call_mem_answers {b : Book} {cs cs₁ cs₂ : List Call} {c : Call} (h : cs = cs₁ ++ c :: cs₂) :
    ((after b cs₁).call c).2 ∈ answers b cs := by
  rw [h, answers_append, answers_cons]
  exact List.mem_append_right _ (List.mem_cons_self ..)

/-- **Cancelling an order now or later is the same** to calls that have nothing to do with it. -/
theorem cancelOrder_run {i : Id} (pre mid : List Call) (huse : ∀ c ∈ mid, ¬c.uses i)
    (hquiet : ∀ ts ∈ answers (after Book.empty pre) mid, ∀ t ∈ ts, ¬t.names i) :
    after ((after Book.empty pre).cancelOrder i) mid
        = (after (after Book.empty pre) mid).cancelOrder i
      ∧ answers ((after Book.empty pre).cancelOrder i) mid
        = answers (after Book.empty pre) mid := by
  have hrun := Machine.simulation (f := Book.call) (g := Book.call)
    (R := fun b b' => b' = b.cancelOrder i ∧ ∃ pre, b = after Book.empty pre)
    (C := fun c b => ¬c.uses i ∧ ∀ t ∈ (b.call c).2, ¬t.names i)
    (fun b b' c hb hc => ?_) mid (after Book.empty pre) _ ⟨rfl, pre, rfl⟩ (fun cs₁ c cs₂ he => ?_)
  · exact ⟨hrun.1.1, hrun.2.symm⟩
  · obtain ⟨rfl, pre, rfl⟩ := hb
    rw [cancelOrder_comm (bookInv_run pre) hc.1 hc.2]
    exact ⟨⟨rfl, pre ++ [c], (after_concat ..).symm⟩, rfl⟩
  · refine ⟨huse c ?_, hquiet _ (call_mem_answers he)⟩
    rw [he]
    exact List.mem_append_right _ (List.mem_cons_self ..)

theorem eraseIdx_two {α : Type} (xs ys zs : List α) (x y : α) :
    ((xs ++ x :: (ys ++ y :: zs)).eraseIdx (xs.length + 1 + ys.length)).eraseIdx xs.length
      = xs ++ (ys ++ zs) := by
  have hplace : xs.length + 1 + ys.length - xs.length = ys.length + 1 := by omega
  rw [List.eraseIdx_append_of_length_le (by omega), hplace, List.eraseIdx_cons_succ,
    List.eraseIdx_append_of_length_le (Nat.le_refl _), Nat.sub_self,
    List.eraseIdx_append_of_length_le (Nat.le_refl _), Nat.sub_self]
  rfl

/--
**Invisible orders do not influence the market.**

From any reachable book, an order that is accepted, returns no trades and is later
cancelled, with no trade of it and no other call about its id in between, can be
left out of the run together with its cancel: every other call answers the same, and
the run ends in the same book.
-/
theorem invisible_order (hist before mid later : List Call) (o : Order)
    (hacc : (after Book.empty (hist ++ before)).accepts o)
    (hnone : ((after Book.empty (hist ++ before)).addOrder o).2 = [])
    (huse : ∀ c ∈ mid, ¬c.uses o.id)
    (hquiet : ∀ ts ∈ answers (after Book.empty (hist ++ before ++ [.addOrder o])) mid, ∀ t ∈ ts,
      ¬t.names o.id) :
    let b := after Book.empty hist
    let cs := before ++ .addOrder o :: (mid ++ .cancelOrder o.id :: later)
    let ds := before ++ (mid ++ later)
    answers b ds = ((answers b cs).eraseIdx (before.length + 1 + mid.length)).eraseIdx before.length
      ∧ after b ds = after b cs := by
  have hback : (after Book.empty (hist ++ before ++ [.addOrder o])).cancelOrder o.id
      = after Book.empty (hist ++ before) := by
    rw [after_concat]
    exact addOrder_cancelOrder (bookInv_run _) hacc hnone
  obtain ⟨hafter, hans⟩ := cancelOrder_run _ mid huse hquiet
  rw [hback] at hafter hans
  rw [after_concat, after_append] at hans hafter
  dsimp only
  constructor
  · -- the two calls stand behind `before` and behind `mid`
    have herase := eraseIdx_two (answers (after Book.empty hist) before)
      (answers (after (after Book.empty hist) before) mid)
      (answers (after (after (after Book.empty hist) before) mid) later)
      ((after (after Book.empty hist) before).call (.addOrder o)).2 []
    rw [Machine.outputs_length, Machine.outputs_length] at herase
    rw [answers_append, answers_append, answers_append, answers_cons, answers_append, answers_cons,
      ← hans]
    rw [hafter] at herase ⊢
    exact herase.symm
  · rw [after_append, after_append, after_append, after_cons, after_append, after_cons, hafter]
    rfl

/-- An ask queued behind another one of its price, and cancelled before it is reached. -/
theorem invisible_order_queued :
    let before : List Call := [.addOrder ⟨1, 10, false, 5⟩]
    let mid : List Call := [.addOrder ⟨3, 10, true, 4⟩]
    let later : List Call := [.addOrder ⟨4, 12, true, 3⟩]
    let cs := before ++ .addOrder ⟨2, 10, false, 3⟩ :: (mid ++ .cancelOrder 2 :: later)
    let ds := before ++ (mid ++ later)
    answers Book.empty ds = ((answers Book.empty cs).eraseIdx 3).eraseIdx 1
      ∧ after Book.empty ds = after Book.empty cs :=
  invisible_order [] _ [.addOrder ⟨3, 10, true, 4⟩] _ ⟨2, 10, false, 3⟩
    (by decide) (by decide) (by decide) (by decide)

end QuickStructs.Orderbook
