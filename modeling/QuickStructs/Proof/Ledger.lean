import QuickStructs.Proof.BookInv
import Mathlib.Algebra.BigOperators.Group.List.Basic
import Mathlib.Algebra.Ring.Int.Defs

/-!
# Where every unit of an order goes

An accepted order is filled partly while it comes in, as the aggressor, and partly
later, while it rests. The account of one id is the sum of the trades that name it
and the quantity it holds in the book. One pass of matching moves a trade's size out
of the quantity of the resting order and out of that of the incoming one, so the
account of an id does not change from its acceptance until it leaves the book, and
it does not exist at any other time.
-/

namespace QuickStructs.Orderbook

open Lib

def Trade.names (t : Trade) (id : Id) : Prop := t.orderIdA = id ∨ t.orderIdB = id

instance (t : Trade) (id : Id) : Decidable (t.names id) := inferInstanceAs (Decidable (_ ∨ _))

/-- The sum of the sizes of the trades that name an id. -/
def tradedSize (id : Id) (ts : Trades) : Int :=
  (ts.map fun t => if t.names id then t.size.toInt else 0).sum

/-- The quantity an id rests with, 0 when it does not rest. -/
def Book.restQty (b : Book) (id : Id) : Int :=
  match (b.bids ++ b.asks).find? (fun o => o.id == id) with
  | some o => o.qty.toInt
  | none => 0

/-- The calls from the acceptance of an order, which left the book `b`, until it is
filled, or until the call that cancels it. -/
def lifetime (id : Id) : Book → List Call → List Call
  | _, [] => []
  | b, c :: cs =>
    if b.rests id = true ∧ c ≠ .cancelOrder id then c :: lifetime id (b.call c).1 cs else []

/-- Some call of the list is an `AddOrder` of this id that is not ignored. -/
def AcceptedIn (id : Id) (b : Book) (cs : List Call) : Prop :=
  ∃ cs₁ o cs₂, cs = cs₁ ++ .addOrder o :: cs₂ ∧ o.id = id ∧ (after b cs₁).accepts o

/-! ## The account of an id -/

/-- What the orders of a list hold under an id. -/
def sumQty (id : Id) (l : Orders) : Int := (l.map fun o => if o.id = id then o.qty.toInt else 0).sum

@[simp] theorem sumQty_nil (id : Id) : sumQty id [] = 0 := rfl

@[simp] theorem sumQty_cons (id : Id) (o : Order) (l : Orders) :
    sumQty id (o :: l) = (if o.id = id then o.qty.toInt else 0) + sumQty id l := by
  rw [sumQty, List.map_cons, List.sum_cons]
  rfl

theorem sumQty_perm {id : Id} {l l' : Orders} (h : l.Perm l') : sumQty id l = sumQty id l' :=
  (h.map _).sum_eq

@[simp] theorem sumQty_reverse (id : Id) (l : Orders) : sumQty id l.reverse = sumQty id l :=
  sumQty_perm (List.reverse_perm l)

theorem sumQty_append (id : Id) (l l' : Orders) :
    sumQty id (l ++ l') = sumQty id l + sumQty id l' := by
  rw [sumQty, List.map_append, List.sum_append]
  rfl

/-- A list without the id holds nothing under it. -/
theorem sumQty_free {id : Id} : ∀ {l : Orders}, (∀ x ∈ l, x.id ≠ id) → sumQty id l = 0
  | [], _ => rfl
  | o :: l, h => by
      have ho : o.id ≠ id := h o (List.mem_cons_self ..)
      have hl := sumQty_free fun x hx => h x (List.mem_cons_of_mem _ hx)
      rw [sumQty_cons, if_neg ho, hl]
      rfl

theorem sumQty_filter {id i : Id} (hi : i ≠ id) : ∀ l : Orders,
    sumQty id (l.filter fun o => o.id != i) = sumQty id l
  | [] => rfl
  | o :: l => by
      have ih := sumQty_filter hi l
      rw [List.filter_cons]
      by_cases ho : o.id = i
      · rw [if_neg (by simpa using ho), ih, sumQty_cons, if_neg (fun h => hi (ho.symm.trans h))]
        omega
      · rw [if_pos (by simpa using ho), sumQty_cons, sumQty_cons, ih]

theorem sumQty_find {id : Id} : ∀ {l : Orders}, (l.map Order.id).Nodup →
    (match l.find? (fun o => o.id == id) with
      | some o => o.qty.toInt
      | none => 0) = sumQty id l
  | [], _ => rfl
  | o :: l, h => by
      rw [List.map_cons, List.nodup_cons] at h
      rw [sumQty_cons]
      by_cases ho : o.id = id
      · have hl : sumQty id l = 0 := sumQty_free fun x hx hxi =>
          h.1 (List.mem_map.mpr ⟨x, hx, hxi.trans ho.symm⟩)
        rw [List.find?_cons_of_pos (by simpa using ho), if_pos ho, hl]
        dsimp only
        omega
      · rw [List.find?_cons_of_neg (by simpa using ho), sumQty_find h.2, if_neg ho]
        omega

/-- What a book holds under an id. -/
def Book.held (b : Book) (id : Id) : Int := sumQty id b.bids + sumQty id b.asks

theorem held_side (b : Book) (id : Id) (s : Bool) :
    b.held id = sumQty id (b.side s) + sumQty id (b.side (!s)) := by
  cases s with
  | true => rfl
  | false => exact Int.add_comm _ _

theorem restQty_eq {number : Id → Nat} {b : Book} (h : BookInv number b) (id : Id) :
    b.restQty id = b.held id := by
  have hnodup : ((b.bids ++ b.asks).map Order.id).Nodup := by
    rw [List.map_append, List.nodup_append]
    refine ⟨h.distinct.side true, h.distinct.side false, fun i hi j hj => ?_⟩
    obtain ⟨x, hx, rfl⟩ := List.mem_map.mp hi
    obtain ⟨y, hy, rfl⟩ := List.mem_map.mp hj
    exact h.distinct.apart x hx y hy
  unfold Book.restQty Book.held
  rw [sumQty_find hnodup, sumQty_append]

@[simp] theorem tradedSize_nil (id : Id) : tradedSize id [] = 0 := rfl

@[simp] theorem tradedSize_cons (id : Id) (t : Trade) (ts : Trades) :
    tradedSize id (t :: ts) = (if t.names id then t.size.toInt else 0) + tradedSize id ts := by
  rw [tradedSize, List.map_cons, List.sum_cons]
  rfl

@[simp] theorem tradedSize_append (id : Id) (ts ts' : Trades) :
    tradedSize id (ts ++ ts') = tradedSize id ts + tradedSize id ts' := by
  rw [tradedSize, List.map_append, List.sum_append]
  rfl

/-! ## Matching moves quantity into trades -/

theorem mkTrade_names (o x : Order) (size : Quantity) (id : Id) :
    (mkTrade o x size).names id ↔ o.id = id ∨ x.id = id := by
  unfold Trade.names mkTrade
  cases o.isBuy with
  | true => exact Iff.rfl
  | false => exact Or.comm

theorem mkTrade_size (o x : Order) (size : Quantity) : (mkTrade o x size).size = size := rfl

/-- Every trade of a call is between the incoming order and one of the orders across. -/
theorem fill_trade {o : Order} {best : Orders} {q : Quantity} {t : Trade}
    (ht : t ∈ (fill o best q).trades) : ∃ x ∈ best, t = mkTrade o x t.size := by
  fun_induction fill o best q with
  | case1 q => exact absurd ht (by simp)
  | case2 b rest q hc size hz m ih =>
      rcases List.mem_cons.mp ht with ht | ht
      · exact ⟨b, List.mem_cons_self .., by rw [ht]; rfl⟩
      · obtain ⟨x, hx, hxt⟩ := ih ht
        exact ⟨x, List.mem_cons_of_mem _ hx, hxt⟩
  | case3 b rest q hc size hz =>
      rw [List.mem_singleton] at ht
      exact ⟨b, List.mem_cons_self .., by rw [ht]; rfl⟩
  | case4 b rest q hc => exact absurd ht (by simp)

/-- The two quantities a trade lowers, both exactly by its size. -/
theorem trade_exact {a q : Quantity} (ha : 0 < a) (hq : 0 < q) :
    (a - min a q).toInt = a.toInt - (min a q).toInt
      ∧ (q - min a q).toInt = q.toInt - (min a q).toInt := by
  have hm := min_toInt a q
  rw [pos_toInt] at ha hq
  exact ⟨sub_toInt (by omega) (by omega), sub_toInt (by omega) (by omega)⟩

/-- **What a resting order loses is what the trades that name it gain.** -/
theorem fill_passive {o : Order} {id : Id} (hid : o.id ≠ id) {best : Orders} {q : Quantity}
    (hpos : ∀ x ∈ best, 0 < x.qty) :
    tradedSize id (fill o best q).trades + sumQty id (fill o best q).opposite = sumQty id best := by
  have hnames : ∀ b size, (mkTrade o b size).names id ↔ b.id = id := by
    intro b size
    rw [mkTrade_names]
    exact ⟨fun h => h.resolve_left hid, Or.inr⟩
  fun_induction fill o best q with
  | case1 q => rfl
  | case2 b rest q hc size hz m ih =>
      have hleft : (b.qty - size).toInt = b.qty.toInt - size.toInt :=
        (trade_exact (hpos b (List.mem_cons_self ..)) hc.1).1
      have hrest : tradedSize id m.trades + sumQty id m.opposite = sumQty id rest :=
        ih fun x hx => hpos x (List.mem_cons_of_mem _ hx)
      -- used up: its whole quantity is the size of the trade
      have hsize : size.toInt = b.qty.toInt := by
        rw [hz, show (0 : Quantity).toInt = 0 from rfl] at hleft
        omega
      dsimp only
      rw [tradedSize_cons, mkTrade_size, sumQty_cons, if_congr (hnames b size) hsize rfl]
      omega
  | case3 b rest q hc size hz =>
      have hleft : (b.qty - size).toInt = b.qty.toInt - size.toInt :=
        (trade_exact (hpos b (List.mem_cons_self ..)) hc.1).1
      dsimp only
      rw [tradedSize_cons, mkTrade_size, tradedSize_nil, sumQty_cons, sumQty_cons, setQty_id,
        setQty_qty, hleft]
      by_cases hbid : b.id = id
      · rw [if_pos ((hnames b size).mpr hbid), if_pos hbid, if_pos hbid]
        omega
      · rw [if_neg (fun h => hbid ((hnames b size).mp h)), if_neg hbid, if_neg hbid]
        omega
  | case4 b rest q hc => exact Int.zero_add _

/-- **What an incoming order loses is what its trades gain.** -/
theorem fill_aggressor {o : Order} {best : Orders} {q : Quantity} (hpos : ∀ x ∈ best, 0 < x.qty) :
    tradedSize o.id (fill o best q).trades + (fill o best q).remaining.toInt = q.toInt := by
  have hnames : ∀ b size, (mkTrade o b size).names o.id :=
    fun b size => (mkTrade_names o b size o.id).mpr (Or.inl rfl)
  fun_induction fill o best q with
  | case1 q => exact Int.zero_add _
  | case2 b rest q hc size hz m ih =>
      have hleft : (q - size).toInt = q.toInt - size.toInt :=
        (trade_exact (hpos b (List.mem_cons_self ..)) hc.1).2
      have hrest : tradedSize o.id m.trades + m.remaining.toInt = (q - size).toInt :=
        ih fun x hx => hpos x (List.mem_cons_of_mem _ hx)
      dsimp only
      rw [tradedSize_cons, mkTrade_size, if_pos (hnames b size)]
      omega
  | case3 b rest q hc size hz =>
      have hleft : (q - size).toInt = q.toInt - size.toInt :=
        (trade_exact (hpos b (List.mem_cons_self ..)) hc.1).2
      dsimp only
      rw [tradedSize_cons, mkTrade_size, if_pos (hnames b size), tradedSize_nil]
      omega
  | case4 b rest q hc => exact Int.zero_add _

/-- The incoming quantity is never overdrawn. -/
theorem fill_nonneg {o : Order} {best : Orders} {q : Quantity} (hpos : ∀ x ∈ best, 0 < x.qty)
    (hq : 0 ≤ q.toInt) : 0 ≤ (fill o best q).remaining.toInt := by
  fun_induction fill o best q with
  | case1 q => exact hq
  | case2 b rest q hc size hz m ih =>
      have hleft := (trade_exact (hpos b (List.mem_cons_self ..)) hc.1).2
      have hm := min_toInt b.qty q
      have hnonneg : 0 ≤ (q - min b.qty q).toInt := by omega
      exact ih (fun x hx => hpos x (List.mem_cons_of_mem _ hx)) hnonneg
  | case3 b rest q hc size hz =>
      have hleft := (trade_exact (hpos b (List.mem_cons_self ..)) hc.1).2
      have hm := min_toInt b.qty q
      show 0 ≤ (q - min b.qty q).toInt
      omega
  | case4 b rest q hc => exact hq

/-! ## Call by call -/

theorem BookInv.pos_across {number : Id → Nat} {b : Book} (h : BookInv number b) (o : Order) :
    ∀ x ∈ (b.side (!o.isBuy)).reverse, 0 < x.qty :=
  fun x hx => h.pos _ x (List.mem_reverse.mp hx)

/-- What an accepted order leaves on its own side, under any id. -/
theorem addOrder_held {number : Id → Nat} {b : Book} {o : Order} (h : BookInv number b)
    (hfree : b.rests o.id = false) (id : Id) :
    (b.addOrder o).1.held id = sumQty id (b.filled o).opposite + sumQty id (b.side o.isBuy)
      + if o.id = id ∧ 0 < (b.filled o).remaining then (b.filled o).remaining.toInt else 0 := by
  obtain ⟨_, hacross, hown⟩ := addOrder_spec hfree
  rw [held_side _ id o.isBuy, hacross, hown, sumQty_reverse]
  by_cases hr : 0 < (b.filled o).remaining
  · have hperm := insertSorted_perm (o := o.setQty (b.filled o).remaining) (h.order o.isBuy)
    rw [if_pos hr, sumQty_perm hperm, sumQty_cons, setQty_id, setQty_qty]
    by_cases hid : o.id = id
    · rw [if_pos hid, if_pos ⟨hid, hr⟩]
      omega
    · rw [if_neg hid, if_neg fun hc => hid hc.1]
      omega
  · rw [if_neg hr, if_neg fun hc => hr hc.2]
    omega

/-- An order that comes in under another id keeps the account of this one. -/
theorem addOrder_other {number : Id → Nat} {b : Book} {o : Order} {id : Id} (h : BookInv number b)
    (hid : o.id ≠ id) :
    tradedSize id (b.addOrder o).2 + (b.addOrder o).1.held id = b.held id := by
  by_cases ha : b.accepts o
  · have hfill := fill_passive (q := o.qty) hid (h.pos_across o)
    rw [sumQty_reverse] at hfill
    rw [addOrder_held h ha.1, (addOrder_spec ha.1).1, if_neg fun hc => hid hc.1,
      held_side b id o.isBuy, Book.filled]
    omega
  · rw [addOrder_idle ha]
    exact Int.zero_add _

/-- An accepted order opens its account with the quantity submitted. -/
theorem addOrder_own {number : Id → Nat} {b : Book} {o : Order} (h : BookInv number b)
    (ha : b.accepts o) :
    tradedSize o.id (b.addOrder o).2 + (b.addOrder o).1.held o.id = o.qty.toInt := by
  have hfill := fill_aggressor (o := o) (q := o.qty) (h.pos_across o)
  have hfree := not_rests_iff.mp ha.1
  have hacross : sumQty o.id (b.filled o).opposite = 0 := by
    refine sumQty_free fun x hx => ?_
    obtain ⟨y, hy, hxy, _⟩ := fill_mem hx
    rw [hxy]
    exact hfree _ y (List.mem_reverse.mp hy)
  have hnonneg := fill_nonneg (o := o) (h.pos_across o) (Int.le_of_lt (pos_toInt.mp ha.2))
  rw [addOrder_held h ha.1, (addOrder_spec ha.1).1, hacross, sumQty_free (hfree o.isBuy)]
  unfold Book.filled at *
  by_cases hr : 0 < (fill o (b.side (!o.isBuy)).reverse o.qty).remaining
  · rw [if_pos ⟨rfl, hr⟩]
    omega
  · rw [if_neg fun hc => hr hc.2]
    rw [pos_toInt] at hr
    omega

/-- Cancelling another id keeps the account of this one. -/
theorem cancelOrder_other {number : Id → Nat} {b : Book} {i id : Id} (h : BookInv number b)
    (hi : i ≠ id) : (b.cancelOrder i).held id = b.held id := by
  rw [held_side _ id true, held_side _ id true, cancelOrder_side h.distinct,
    cancelOrder_side h.distinct, sumQty_filter hi, sumQty_filter hi]

/-- **A call in the lifetime of a resting id keeps its account.** -/
theorem call_held {number : Id → Nat} {b : Book} {id : Id} {c : Call} (h : BookInv number b)
    (hr : b.rests id = true) (hc : c ≠ .cancelOrder id) :
    tradedSize id (b.call c).2 + (b.call c).1.held id = b.held id := by
  cases c with
  | cancelOrder i =>
      have hi : i ≠ id := fun he => hc (by rw [he])
      show tradedSize id [] + (b.cancelOrder i).held id = b.held id
      rw [cancelOrder_other h hi]
      exact Int.zero_add _
  | addOrder o =>
      show tradedSize id (b.addOrder o).2 + (b.addOrder o).1.held id = b.held id
      by_cases ho : o.id = id
      · -- the id again, while it rests: a duplicate
        rw [addOrder_dupe (by rw [ho]; exact hr)]
        exact Int.zero_add _
      · exact addOrder_other h ho

/-- A call that does not accept an id that is not resting neither trades nor stores it. -/
theorem call_quiet {number : Id → Nat} {b : Book} {id : Id} {c : Call} (h : BookInv number b)
    (hr : b.rests id = false) (hc : ∀ o, c = .addOrder o → o.id = id → ¬b.accepts o) :
    (∀ t ∈ (b.call c).2, ¬t.names id) ∧ (b.call c).1.rests id = false := by
  cases c with
  | cancelOrder i =>
      refine ⟨fun t ht => absurd ht (by simp [Book.call]), not_rests_iff.mpr fun s x hx => ?_⟩
      rw [show (b.call (.cancelOrder i)).1 = b.cancelOrder i from rfl,
        cancelOrder_side h.distinct] at hx
      exact not_rests_iff.mp hr s x (List.mem_filter.mp hx).1
  | addOrder o =>
      rw [show b.call (.addOrder o) = b.addOrder o from rfl]
      by_cases ha : b.accepts o
      · have ho : o.id ≠ id := fun he => hc o rfl he ha
        refine ⟨fun t ht hn => ?_, not_rests_iff.mpr fun s x hx => ?_⟩
        · rw [(addOrder_spec ha.1).1] at ht
          obtain ⟨x, hx, hxt⟩ := fill_trade ht
          rw [hxt, mkTrade_names] at hn
          exact not_rests_iff.mp hr _ x (List.mem_reverse.mp hx) (hn.resolve_left ho)
        · rcases addOrder_mem_id h ha.1 s x hx with hx | ⟨y, hy, hyx⟩
          · rw [hx]; exact ho
          · rw [← hyx]; exact not_rests_iff.mp hr s y hy
      · rw [addOrder_idle ha]
        exact ⟨fun t ht => absurd ht (by simp), hr⟩

/-! ## Over a run -/

/-- **The account is kept for the whole lifetime.** -/
theorem lifetime_held (id : Id) : ∀ (post pre : List Call),
    let b := after Book.empty pre
    let life := lifetime id b post
    tradedSize id (answers b life).flatten + (after b life).held id = b.held id
  | [], pre => Int.zero_add _
  | c :: post, pre => by
      dsimp only
      rw [lifetime]
      split
      · rename_i hc
        have hcall := call_held (bookInv_run pre) hc.1 hc.2
        have ih := lifetime_held id post (pre ++ [c])
        dsimp only at ih
        rw [after_concat] at ih
        rw [answers_cons, List.flatten_cons, tradedSize_append, after_cons]
        omega
      · exact Int.zero_add _

/-- **No call but an acceptance brings an id back.** -/
theorem quiet_run (id : Id) : ∀ (cs pre : List Call), (after Book.empty pre).rests id = false →
    ¬AcceptedIn id (after Book.empty pre) cs →
    ∀ ts ∈ answers (after Book.empty pre) cs, ∀ t ∈ ts, ¬t.names id
  | [], _, _, _, ts, hts => absurd hts (by simp)
  | c :: cs, pre, hr, hno, ts, hts => by
      obtain ⟨hnames, hrests⟩ := call_quiet (bookInv_run pre) hr fun o hc hi ha =>
        hno ⟨[], o, cs, congrArg (· :: cs) hc, hi, ha⟩
      rw [answers_cons] at hts
      rcases List.mem_cons.mp hts with hts | hts
      · rw [hts]; exact hnames
      · rw [← after_concat] at hts hrests
        refine quiet_run id cs (pre ++ [c]) hrests (fun hacc => ?_) ts hts
        obtain ⟨cs₁, o, cs₂, he, hi, ha⟩ := hacc
        rw [after_concat] at ha
        exact hno ⟨c :: cs₁, o, cs₂, congrArg (c :: ·) he, hi, ha⟩

/-- A lifetime ends when the id has left the book, at its cancel, or at the end of the run. -/
theorem lifetime_ends (id : Id) : ∀ (b : Book) (post : List Call),
    ∃ tail, post = lifetime id b post ++ tail
      ∧ (tail = [] ∨ (after b (lifetime id b post)).rests id = false
        ∨ ∃ tail', tail = .cancelOrder id :: tail')
  | _, [] => ⟨[], rfl, Or.inl rfl⟩
  | b, c :: post => by
      rw [lifetime]
      split
      · obtain ⟨tail, he, hend⟩ := lifetime_ends id (b.call c).1 post
        exact ⟨tail, congrArg (c :: ·) he, hend⟩
      · rename_i hc
        refine ⟨c :: post, rfl, Or.inr ?_⟩
        by_cases hr : b.rests id = true
        · have hcancel : c = .cancelOrder id := Decidable.not_not.mp fun he => hc ⟨hr, he⟩
          exact Or.inr ⟨post, by rw [hcancel]⟩
        · exact Or.inl (Bool.eq_false_iff.mpr hr)

/-- Past its lifetime nothing names the id until it is accepted again. -/
theorem quiet_after {id : Id} {pre quiet later : List Call} {b : Book}
    (hb : b = after Book.empty pre)
    (hend : b.rests id = false ∨ ∃ tail, quiet ++ later = .cancelOrder id :: tail)
    (hno : ¬AcceptedIn id b quiet) : ∀ ts ∈ answers b quiet, ∀ t ∈ ts, ¬t.names id := by
  subst hb
  rcases hend with hr | ⟨tail, htail⟩
  · exact quiet_run id quiet pre hr hno
  · cases quiet with
    | nil => exact fun ts hts => absurd hts (by simp)
    | cons c quiet =>
        -- the cancel answers nothing, and the id does not rest after it
        rw [List.cons_append, List.cons.injEq] at htail
        obtain ⟨rfl, _⟩ := htail
        have hgone : (after Book.empty (pre ++ [.cancelOrder id])).rests id = false := by
          rw [after_concat]
          refine not_rests_iff.mpr fun s x hx => ?_
          rw [show ((after Book.empty pre).call (.cancelOrder id)).1
              = (after Book.empty pre).cancelOrder id from rfl,
            cancelOrder_side (bookInv_run pre).distinct] at hx
          simpa using (List.mem_filter.mp hx).2
        intro ts hts
        rw [answers_cons, ← after_concat] at hts
        rcases List.mem_cons.mp hts with hts | hts
        · rw [hts]
          exact fun t ht => absurd ht (by simp [Book.call])
        · refine quiet_run id quiet _ hgone (fun hacc => ?_) ts hts
          obtain ⟨cs₁, o, cs₂, he, hi, ha⟩ := hacc
          rw [after_concat] at ha
          exact hno ⟨.cancelOrder id :: cs₁, o, cs₂, congrArg (_ :: ·) he, hi, ha⟩

/--
**No overfill, no lost quantity, no phantom trade.**

An order accepted after any calls on the empty book trades, over its lifetime, its
whole quantity but for what it still rests with (or rested with when it was
cancelled). After its lifetime, and before the first acceptance of an id, no trade
names the id.
-/
theorem quantity_ledger (pre : List Call) :
    (∀ o post, (after Book.empty pre).accepts o →
      let (b, trades) := (after Book.empty pre).addOrder o
      let life := lifetime o.id b post
      tradedSize o.id trades + tradedSize o.id (answers b life).flatten
          + (after b life).restQty o.id = o.qty.toInt
        ∧ ∃ tail, post = life ++ tail ∧ ∀ quiet later, tail = quiet ++ later →
          ¬AcceptedIn o.id (after b life) quiet →
            ∀ ts ∈ answers (after b life) quiet, ∀ t ∈ ts, ¬t.names o.id)
      ∧ ∀ id, ¬AcceptedIn id Book.empty pre →
          ∀ ts ∈ answers Book.empty pre, ∀ t ∈ ts, ¬t.names id := by
  refine ⟨fun o post ha => ?_, fun id hno => quiet_run id pre [] ?_ hno⟩
  · dsimp only
    have hb : ((after Book.empty pre).addOrder o).1 = after Book.empty (pre ++ [.addOrder o]) :=
      (after_concat _ pre (.addOrder o)).symm
    rw [hb]
    refine ⟨?_, ?_⟩
    · have hopen := addOrder_own (bookInv_run pre) ha
      have hlife := lifetime_held o.id post (pre ++ [.addOrder o])
      dsimp only at hlife
      rw [hb] at hopen
      rw [← after_append] at hlife ⊢
      rw [restQty_eq (bookInv_run _)]
      omega
    · obtain ⟨tail, he, hend⟩ := lifetime_ends o.id (after Book.empty (pre ++ [.addOrder o])) post
      refine ⟨tail, he, fun quiet later htail hno => ?_⟩
      subst htail
      rcases hend with hnil | hend
      · rw [(List.append_eq_nil_iff.mp hnil).1]
        exact fun ts hts => absurd hts (by simp)
      · exact quiet_after (after_append ..).symm hend hno
  · exact not_rests_iff.mpr fun s x hx => absurd hx (by simp [after])

/-- An ask for 5 that trades 3 and is cancelled with 2 left. -/
theorem quantity_ledger_cancelled :
    let (b, trades) := Book.empty.addOrder ⟨1, 10, false, 5⟩
    let life :=
      lifetime 1 b [.addOrder ⟨2, 10, true, 3⟩, .cancelOrder 1, .addOrder ⟨3, 10, true, 3⟩]
    tradedSize 1 trades + tradedSize 1 (answers b life).flatten + (after b life).restQty 1 = 5 :=
  ((quantity_ledger []).1 ⟨1, 10, false, 5⟩ _ (by decide)).1

end QuickStructs.Orderbook
