import QuickStructs.Proof.Ledger

/-!
# Trade sizes and the range of `int`

The two subtractions of a pass are exact as long as every resting quantity is
positive. `AddOrder` and `CancelOrder` keep it so. `insert_order` is public too and
stores what it is given: with a quantity that is not positive the next order to reach
it trades a size that is not one, and the subtraction from `remaining` can overflow.
-/

namespace QuickStructs.Orderbook

open Lib

/-- A call of any public function that changes the book. -/
inductive PubCall where
  | insertOrder (o : Order)
  | addOrder (o : Order)
  | cancelOrder (id : Id)
  deriving DecidableEq, Repr

def Book.pubCall (b : Book) : PubCall → Book × Trades
  | .insertOrder o => (b.insertOrder o, [])
  | .addOrder o => b.addOrder o
  | .cancelOrder id => (b.cancelOrder id, [])

/-- The book after a list of public calls. -/
abbrev pubAfter (b : Book) (cs : List PubCall) : Book := Machine.final Book.pubCall b cs

/-- An `insert_order` that stores an order stores a positive quantity. -/
def PubCall.StoresPositive (c : PubCall) (b : Book) : Prop :=
  ∀ o, c = .insertOrder o → b.isDupe o = false → 0 < o.qty

/-- The result of an `int` operation that does not overflow. -/
def FitsInt (x : Int) : Prop := -2 ^ 31 ≤ x ∧ x < 2 ^ 31

/-- Neither `best.get_qty() - trade_size` nor `remaining -= trade_size` overflows in
the pass that starts in `m`. -/
def PassFits (incoming : Order) (m : Matching) : Prop :=
  ∀ best ∈ m.opposite.getLast?, m.remaining > 0 → isMatch incoming best = true →
    FitsInt (best.qty.toInt - (min best.qty m.remaining).toInt)
      ∧ FitsInt (m.remaining.toInt - (min best.qty m.remaining).toInt)

/-- The sizes an `AddOrder` returns, and its arithmetic. -/
structure SizesInRange (b : Book) (o : Order) : Prop where
  size : ∀ t ∈ (b.addOrder o).2, 1 ≤ t.size.toInt ∧ t.size.toInt ≤ o.qty.toInt
  fits : b.isDupe o = false → ∀ m, Loop.Visits (matchPass o)
    { opposite := b.opposite o, remaining := o.qty, trades := [] } m → PassFits o m

def totalSize (ts : Trades) : Int := (ts.map fun t => t.size.toInt).sum

/-! ## Positive quantities stay positive -/

def AllPositive (b : Book) : Prop := ∀ s, ∀ x ∈ b.side s, 0 < x.qty

theorem mem_insertSorted {o x : Order} {l : Orders} (h : x ∈ insertSorted o l) : x = o ∨ x ∈ l :=
  List.eq_or_mem_of_mem_insertIdx h

theorem allPositive_insertOrder {b : Book} {o : Order} (h : AllPositive b)
    (ho : b.isDupe o = false → 0 < o.qty) : AllPositive (b.insertOrder o) := by
  intro s x hx
  cases hd : b.rests o.id with
  | true =>
      rw [insertOrder_dupe hd] at hx
      exact h s x hx
  | false =>
      rw [insertOrder_side hd] at hx
      split at hx
      · rcases mem_insertSorted hx with hx | hx
        · rw [hx]
          exact ho hd
        · exact h s x hx
      · exact h s x hx

theorem allPositive_addOrder {b : Book} (h : AllPositive b) (o : Order) :
    AllPositive (b.addOrder o).1 := by
  cases hd : b.rests o.id with
  | true =>
      rw [addOrder_dupe hd]
      exact h
  | false =>
      obtain ⟨_, hacross, hown⟩ := addOrder_spec hd
      refine side_cases o.isBuy (fun x hx => ?_) (fun x hx => ?_)
      · rw [hown] at hx
        split at hx
        · rename_i hr
          rcases mem_insertSorted hx with hx | hx
          · rw [hx]
            exact hr
          · exact h _ x hx
        · exact h _ x hx
      · rw [hacross, List.mem_reverse] at hx
        obtain ⟨y, hy, _, hpos⟩ := fill_mem hx
        exact hpos (h _ y (List.mem_reverse.mp hy))

theorem allPositive_cancelOrder {b : Book} (h : AllPositive b) (i : Id) :
    AllPositive (b.cancelOrder i) := by
  intro s x hx
  refine h s x ?_
  unfold Book.cancelOrder at hx
  split at hx <;> cases s
  · exact hx
  · exact List.mem_of_mem_eraseP hx
  · exact List.mem_of_mem_eraseP hx
  · exact hx

/-- **Every public call keeps the quantities positive**, if `insert_order` is given positive
ones. -/
theorem allPositive_pubCall {b : Book} {c : PubCall} (h : AllPositive b) (hc : c.StoresPositive b) :
    AllPositive (b.pubCall c).1 := by
  cases c with
  | insertOrder o => exact allPositive_insertOrder h (hc o rfl)
  | addOrder o => exact allPositive_addOrder h o
  | cancelOrder i => exact allPositive_cancelOrder h i

theorem allPositive_run {run : List PubCall}
    (hrun : ∀ cs₁ c cs₂, run = cs₁ ++ c :: cs₂ → c.StoresPositive (pubAfter Book.empty cs₁)) :
    AllPositive (pubAfter Book.empty run) :=
  Machine.final_invariant (C := PubCall.StoresPositive)
    (fun _ _ h hc => allPositive_pubCall h hc) run Book.empty
    (fun s x hx => absurd hx (by simp)) hrun

/-! ## What positive quantities give -/

/-- A trade takes at least 1, and at most what is left of the incoming order. -/
theorem fill_sizes {o : Order} {best : Orders} {q : Quantity} (hpos : ∀ x ∈ best, 0 < x.qty) :
    ∀ t ∈ (fill o best q).trades, 1 ≤ t.size.toInt ∧ t.size.toInt ≤ q.toInt := by
  have hhead : ∀ {b : Order} {q : Quantity}, 0 < b.qty → 0 < q →
      1 ≤ (min b.qty q).toInt ∧ (min b.qty q).toInt ≤ q.toInt := by
    intro b q hb hq
    have hm := min_toInt b.qty q
    rw [pos_toInt] at hb hq
    omega
  fun_induction fill o best q with
  | case1 q =>
      intro t ht
      exact absurd ht (by simp)
  | case2 b rest q hc size hz m ih =>
      have hb : 0 < b.qty := hpos b (List.mem_cons_self ..)
      have hleft : (q - size).toInt = q.toInt - size.toInt := (trade_exact hb hc.1).2
      have hsize : 1 ≤ size.toInt ∧ size.toInt ≤ q.toInt := hhead hb hc.1
      intro t ht
      rcases List.mem_cons.mp ht with ht | ht
      · rw [ht]
        exact hsize
      · -- the later trades take from what this one leaves
        have hrest := ih (fun x hx => hpos x (List.mem_cons_of_mem _ hx)) t ht
        omega
  | case3 b rest q hc size hz =>
      intro t ht
      rw [List.mem_singleton.mp ht]
      exact hhead (hpos b (List.mem_cons_self ..)) hc.1
  | case4 b rest q hc =>
      intro t ht
      exact absurd ht (by simp)

theorem totalSize_fill {o : Order} {best : Orders} {q : Quantity} :
    totalSize (fill o best q).trades = tradedSize o.id (fill o best q).trades := by
  unfold totalSize tradedSize
  refine congrArg List.sum (List.map_congr_left fun t ht => ?_)
  obtain ⟨x, _, hx⟩ := fill_trade ht
  rw [if_pos]
  rw [hx]
  exact (mkTrade_names ..).mpr (Or.inl rfl)

/-- A pass over positive quantities overflows nowhere. -/
theorem passFits_of_pos {o : Order} {m : Matching} (h : ∀ x ∈ m.opposite, 0 < x.qty) :
    PassFits o m := by
  intro best hbest hq _
  have hb : 0 < best.qty := h best (List.mem_of_mem_getLast? hbest)
  have hm := min_toInt best.qty m.remaining
  have h1 := Int32.toInt_lt best.qty
  have h2 := Int32.toInt_lt m.remaining
  rw [gt_iff_lt, pos_toInt] at hq
  rw [pos_toInt] at hb
  unfold FitsInt
  omega

theorem matchPass_pos {o : Order} {m m' : Matching} (h : ∀ x ∈ m.opposite, 0 < x.qty)
    (hp : matchPass o m = some m') : ∀ x ∈ m'.opposite, 0 < x.qty := by
  obtain ⟨opp, q, ts⟩ := m
  obtain ⟨best, rfl⟩ : ∃ best : Orders, opp = best.reverse := ⟨opp.reverse, by simp⟩
  cases best with
  | nil => exact absurd hp (by simp [matchPass])
  | cons b rest =>
      rw [matchPass_reverse] at hp
      split at hp
      · rename_i hc
        injection hp with hp
        subst hp
        dsimp only at h ⊢
        have hb : 0 < b.qty := h b (List.mem_reverse.mpr (List.mem_cons_self ..))
        intro x hx
        split at hx
        · exact h x (List.mem_reverse.mpr (List.mem_cons_of_mem _ (List.mem_reverse.mp hx)))
        · rename_i hz
          rcases List.mem_cons.mp (List.mem_reverse.mp hx) with hx | hx
          · rw [hx]
            exact left_pos hb hc.1 hz
          · exact h x (List.mem_reverse.mpr (List.mem_cons_of_mem _ hx))
      · exact absurd hp (by simp)

theorem sizesInRange_of_pos {b : Book} (h : AllPositive b) (o : Order) : SizesInRange b o where
  size := by
    intro t ht
    cases hd : b.rests o.id with
    | true =>
        rw [addOrder_dupe hd] at ht
        exact absurd ht (by simp)
    | false =>
        rw [(addOrder_spec hd).1] at ht
        exact fill_sizes (fun x hx => h _ x (List.mem_reverse.mp hx)) t ht
  fits := by
    intro _ m hm
    refine passFits_of_pos (hm.invariant (I := fun m => ∀ x ∈ m.opposite, 0 < x.qty) ?_ ?_)
    · intro x hx
      dsimp only at hx
      rw [opposite_eq] at hx
      exact h _ x hx
    · exact fun _ _ hi hp => matchPass_pos hi hp

/-- The sizes of a call sum to at most its quantity, unless that is negative. -/
theorem totalSize_le_iff {b : Book} (h : AllPositive b) (o : Order) :
    totalSize (b.addOrder o).2 ≤ o.qty.toInt ↔ 0 ≤ o.qty.toInt := by
  cases hd : b.rests o.id with
  | true => rw [addOrder_dupe hd]; exact Iff.rfl
  | false =>
      have hpos : ∀ x ∈ (b.side (!o.isBuy)).reverse, 0 < x.qty :=
        fun x hx => h _ x (List.mem_reverse.mp hx)
      have hsum := fill_aggressor (o := o) (q := o.qty) hpos
      rw [(addOrder_spec hd).1, Book.filled, totalSize_fill]
      constructor
      · intro hle
        by_cases hq : 0 < o.qty
        · exact Int.le_of_lt (pos_toInt.mp hq)
        · rw [fill_idle o _ hq] at hle
          exact hle
      · intro hq
        have hleft := fill_nonneg (o := o) hpos hq
        omega

/--
**Sizes and arithmetic stay in range** after any public calls in which `insert_order`
stores positive quantities only: then every further order trades sizes between 1 and
its quantity, no subtraction overflows, and the sizes sum to at most its quantity as
soon as that is not negative (an order of negative quantity trades nothing).
-/
theorem trades_in_range (run : List PubCall)
    (hrun : ∀ cs₁ c cs₂, run = cs₁ ++ c :: cs₂ → c.StoresPositive (pubAfter Book.empty cs₁))
    (o : Order) :
    SizesInRange (pubAfter Book.empty run) o
      ∧ (totalSize ((pubAfter Book.empty run).addOrder o).2 ≤ o.qty.toInt ↔ 0 ≤ o.qty.toInt) :=
  ⟨sizesInRange_of_pos (allPositive_run hrun) o, totalSize_le_iff (allPositive_run hrun) o⟩

/-- An ask for 5 stored without matching, and a bid that takes 3 of it. -/
theorem trades_in_range_stored :
    let b := pubAfter Book.empty [.insertOrder ⟨1, 10, false, 5⟩]
    SizesInRange b ⟨2, 10, true, 3⟩ ∧ totalSize (b.addOrder ⟨2, 10, true, 3⟩).2 ≤ 3 := by
  have hrun : ∀ (cs₁ : List PubCall) (c : PubCall) (cs₂ : List PubCall),
      [.insertOrder ⟨1, 10, false, 5⟩] = cs₁ ++ c :: cs₂ →
        c.StoresPositive (pubAfter Book.empty cs₁) := by
    intro cs₁ c cs₂ he o hc _
    rcases List.cons_eq_append_iff.mp he with ⟨rfl, he⟩ | ⟨cs, _, he⟩
    · obtain ⟨rfl, _⟩ := List.cons.inj he
      injection hc with hc
      rw [← hc]
      decide
    · exact absurd he (by simp)
  have h := trades_in_range _ hrun ⟨2, 10, true, 3⟩
  exact ⟨h.1, h.2.mpr (by decide)⟩

/-- **`insert_order` lets a quantity through that `AddOrder` never stores.** The bid that
meets it trades a size of -2^31, and what it has left does not fit an `int`. -/
theorem insert_order_overflow :
    let b := pubAfter Book.empty [.insertOrder ⟨1, 10, false, -2147483648⟩]
    let o : Order := ⟨2, 10, true, 1⟩
    ¬SizesInRange b o
      ∧ (b.addOrder o).2.map (fun t => t.size.toInt) = [-2147483648]
      ∧ ¬PassFits o { opposite := b.opposite o, remaining := o.qty, trades := [] } := by
  refine ⟨fun h => ?_, by decide, fun h => ?_⟩
  · have hsize := h.size ⟨2, 1, 2, true, 10, -2147483648⟩ (by decide)
    exact absurd hsize.1 (by decide)
  · have hfits := (h ⟨1, 10, false, -2147483648⟩ (by decide) (by decide) (by decide)).2
    unfold FitsInt at hfits
    exact absurd hfits (by decide)

end QuickStructs.Orderbook
