import QuickStructs.Proof.Fill

/-!
# What each call does to each side

The source writes every operation twice, once for bids and once for asks. Here a
side is named by the `is_buy` of its orders, and each operation gets one statement
for both: matching works on the side across from the incoming order, storing on its
own, and cancelling removes the id wherever it is.
-/

namespace QuickStructs.Orderbook

open Lib

/-- The vector that holds the buys, or the sells. -/
def Book.side (b : Book) (isBuy : Bool) : Orders := if isBuy then b.bids else b.asks

/-- Is an order with this id in the book? -/
def Book.rests (b : Book) (id : Id) : Bool :=
  b.bids.any (fun o => o.id == id) || b.asks.any (fun o => o.id == id)

@[simp] theorem side_true (b : Book) : b.side true = b.bids := rfl

@[simp] theorem side_false (b : Book) : b.side false = b.asks := rfl

@[simp] theorem side_empty (s : Bool) : Book.empty.side s = [] := by cases s <;> rfl

theorem Book.ext_side {b b' : Book} (h : ∀ s, b.side s = b'.side s) : b = b' := by
  have h1 := h true
  have h2 := h false
  obtain ⟨bids, asks⟩ := b
  obtain ⟨bids', asks'⟩ := b'
  rw [show bids = bids' from h1, show asks = asks' from h2]

/-- A side is the incoming order's own or the one across. -/
theorem side_cases {P : Bool → Prop} (t : Bool) (hown : P t) (hacross : P (!t)) (s : Bool) :
    P s := by
  cases t <;> cases s <;> assumption

theorem isDupe_eq (b : Book) (o : Order) : b.isDupe o = b.rests o.id := rfl

theorem rests_iff {b : Book} {i : Id} : b.rests i = true ↔ ∃ s, ∃ x ∈ b.side s, x.id = i := by
  simp only [Book.rests, Bool.or_eq_true, List.any_eq_true, beq_iff_eq]
  constructor
  · rintro (⟨x, hx, h⟩ | ⟨x, hx, h⟩)
    · exact ⟨true, x, hx, h⟩
    · exact ⟨false, x, hx, h⟩
  · rintro ⟨s, x, hx, h⟩
    cases s with
    | true => exact Or.inl ⟨x, hx, h⟩
    | false => exact Or.inr ⟨x, hx, h⟩

theorem not_rests_iff {b : Book} {i : Id} :
    b.rests i = false ↔ ∀ s, ∀ x ∈ b.side s, x.id ≠ i := by
  rw [← Bool.not_eq_true, rests_iff]
  constructor
  · exact fun h s x hx he => h ⟨s, x, hx, he⟩
  · exact fun h ⟨s, x, hx, he⟩ => h s x hx he

/-! ## Storing -/

theorem insertOrder_side {b : Book} {o : Order} (h : b.rests o.id = false) (s : Bool) :
    (b.insertOrder o).side s = if s = o.isBuy then insertSorted o (b.side s) else b.side s := by
  unfold Book.insertOrder
  rw [isDupe_eq, h]
  cases hb : o.isBuy <;> cases s <;> simp

theorem insertOrder_dupe {b : Book} {o : Order} (h : b.rests o.id = true) :
    b.insertOrder o = b := by
  unfold Book.insertOrder
  rw [isDupe_eq, if_pos h]

/-! ## Matching -/

theorem opposite_eq (b : Book) (o : Order) : b.opposite o = b.side (!o.isBuy) := by
  unfold Book.opposite
  cases o.isBuy <;> rfl

theorem setOpposite_side (b : Book) (o : Order) (l : Orders) (s : Bool) :
    (b.setOpposite o l).side s = if s = o.isBuy then b.side s else l := by
  unfold Book.setOpposite
  cases o.isBuy <;> cases s <;> rfl

theorem addOrder_dupe {b : Book} {o : Order} (h : b.rests o.id = true) :
    b.addOrder o = (b, []) := by
  unfold Book.addOrder
  rw [isDupe_eq, if_pos h]

/-- The match of an incoming order against the other side of a book. -/
def Book.filled (b : Book) (o : Order) : Matching := fill o (b.side (!o.isBuy)).reverse o.qty

/-- **What `AddOrder` does** with an id that is not resting. -/
theorem addOrder_spec {b : Book} {o : Order} (h : b.rests o.id = false) :
    (b.addOrder o).2 = (b.filled o).trades
      ∧ (b.addOrder o).1.side (!o.isBuy) = (b.filled o).opposite.reverse
      ∧ (b.addOrder o).1.side o.isBuy
          = if 0 < (b.filled o).remaining then
              insertSorted (o.setQty (b.filled o).remaining) (b.side o.isBuy)
            else b.side o.isBuy := by
  have hl : matchLoop o (b.opposite o)
      = { opposite := (b.filled o).opposite.reverse, remaining := (b.filled o).remaining,
          trades := (b.filled o).trades } := by
    rw [matchLoop_eq_fill, opposite_eq]; rfl
  unfold Book.addOrder
  rw [isDupe_eq, h, hl]
  dsimp only
  rw [if_neg (by simp)]
  by_cases hr : 0 < (b.filled o).remaining
  · rw [if_pos hr, if_pos hr]
    -- the second duplicate check, on the book after matching, passes too
    have hfree : (b.setOpposite o (b.filled o).opposite.reverse).rests
        (o.setQty (b.filled o).remaining).id = false := by
      rw [not_rests_iff] at h ⊢
      intro s x hx
      rw [setOpposite_side] at hx
      split at hx
      · exact h s x hx
      · rw [List.mem_reverse] at hx
        obtain ⟨y, hy, he, _⟩ := fill_mem hx
        rw [List.mem_reverse] at hy
        rw [he]
        exact h _ y hy
    refine ⟨rfl, ?_, ?_⟩
    · rw [insertOrder_side hfree, setOpposite_side, if_neg (by simp), if_neg (by simp)]
    · rw [insertOrder_side hfree, setOpposite_side, if_pos (by simp), if_pos rfl]
  · rw [if_neg hr, if_neg hr]
    refine ⟨rfl, ?_, ?_⟩
    · rw [setOpposite_side, if_neg (by simp)]
    · rw [setOpposite_side, if_pos rfl]

/-! ## Cancelling -/

theorem eraseP_eq_filter {i : Id} : ∀ {l : Orders}, (l.map Order.id).Nodup →
    l.eraseP (fun o => o.id == i) = l.filter (fun o => o.id != i)
  | [], _ => rfl
  | o :: l, h => by
      rw [List.map_cons, List.nodup_cons] at h
      by_cases ho : o.id = i
      · subst ho
        rw [List.eraseP_cons_of_pos (by simp), List.filter_cons_of_neg (by simp)]
        refine (List.filter_eq_self.mpr fun x hx => ?_).symm
        rw [bne_iff_ne]
        exact fun he => h.1 (List.mem_map.mpr ⟨x, hx, he⟩)
      · rw [List.eraseP_cons_of_neg (by simpa using ho),
          List.filter_cons_of_pos (by simpa using ho),
          eraseP_eq_filter h.2]

/-- A book in which no id rests twice. -/
structure Distinct (b : Book) : Prop where
  /-- Not twice on one side. -/
  side : ∀ s, ((b.side s).map Order.id).Nodup
  /-- Not once on each side. -/
  apart : ∀ x ∈ b.bids, ∀ y ∈ b.asks, x.id ≠ y.id

theorem Distinct.apart_side {b : Book} (h : Distinct b) {s : Bool} {x y : Order}
    (hx : x ∈ b.side s) (hy : y ∈ b.side (!s)) : x.id ≠ y.id := by
  cases s with
  | true => exact h.apart x hx y hy
  | false => exact (h.apart y hy x hx).symm

/-- **What `CancelOrder` does**: the order with the id leaves, wherever it rests. -/
theorem cancelOrder_side {b : Book} (h : Distinct b) (i : Id) (s : Bool) :
    (b.cancelOrder i).side s = (b.side s).filter (fun o => o.id != i) := by
  have hkeep : ∀ l : Orders, (∀ x ∈ l, x.id ≠ i) → l.filter (fun o => o.id != i) = l :=
    fun l hl => List.filter_eq_self.mpr fun x hx => by rw [bne_iff_ne]; exact hl x hx
  unfold Book.cancelOrder
  split
  · -- found among the bids, so not among the asks
    rename_i hb
    obtain ⟨x, hx, hi⟩ := List.any_eq_true.mp hb
    rw [beq_iff_eq] at hi
    cases s with
    | true => exact eraseP_eq_filter (h.side true)
    | false => exact (hkeep b.asks fun y hy he => h.apart x hx y hy (hi.trans he.symm)).symm
  · rename_i hb
    cases s with
    | true =>
        refine (hkeep b.bids fun x hx he => hb ?_).symm
        exact List.any_eq_true.mpr ⟨x, hx, by rw [beq_iff_eq]; exact he⟩
    | false => exact eraseP_eq_filter (h.side false)

end QuickStructs.Orderbook
