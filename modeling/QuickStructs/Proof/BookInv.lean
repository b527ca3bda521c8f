import QuickStructs.Proof.Sides
import Mathlib.Data.List.Nodup

/-!
# The order book invariant

Price-time priority lives nowhere in the code but in the position of an order in
its vector. To say what a position means, a run carries the number each order got
when it was accepted; `Behind` orders two orders of one side by price and then by
that number, and the invariant is that each vector is ordered by it from front to
back. Sortedness is what makes the binary search find the right place, and the
number of a new order is the highest yet, so the place in front of its own price
is the right one.
-/

namespace QuickStructs.Orderbook

open Lib

/-- `b` trades before `a`: it has the better price, or the same price and the lower number. -/
def Behind (number : Id → Nat) (s : Bool) (a b : Order) : Prop :=
  comesBefore s b.level a = true ∨ a.level = b.level ∧ number b.id < number a.id

theorem comesBefore_trans {s : Bool} {p : Price} {a b : Order}
    (h1 : comesBefore s a.level b = true) (h2 : comesBefore s p a = true) :
    comesBefore s p b = true := by
  unfold comesBefore at *
  cases s <;> grind

/-- Of two different prices one is better. -/
theorem comesBefore_total {s : Bool} {a b : Order} (h : comesBefore s b.level a = false) :
    comesBefore s a.level b = true ∨ a.level = b.level := by
  unfold comesBefore at *
  cases s <;> grind

theorem comesBefore_congr {s : Bool} {p : Price} {a b : Order} (h : a.level = b.level) :
    comesBefore s p a = comesBefore s p b := by
  unfold comesBefore
  rw [h]

/-- If a bid matches, or an ask, then so does every order that trades before it. -/
theorem isMatch_behind {number : Id → Nat} {o a b : Order} (h : Behind number (!o.isBuy) a b)
    (ha : isMatch o a = true) : isMatch o b = true := by
  unfold Behind comesBefore at h
  unfold isMatch canMatch at *
  cases hb : o.isBuy <;> rw [hb] at h ha <;> simp at h ha ⊢ <;> grind

theorem behind_partitioned {number : Id → Nat} {s : Bool} {p : Price} {l : Orders}
    (h : l.Pairwise (Behind number s)) : Search.Partitioned (comesBefore s p) l := by
  refine h.imp fun {a b} hab hb => ?_
  rcases hab with hab | ⟨he, _⟩
  · exact comesBefore_trans hab hb
  · rw [comesBefore_congr he]; exact hb

/-! ## Inserting in order -/

theorem insertSorted_eq {number : Id → Nat} {o : Order} {l : Orders}
    (h : l.Pairwise (Behind number o.isBuy)) :
    insertSorted o l = l.filter (comesBefore o.isBuy o.level)
      ++ o :: l.filter (fun x => !comesBefore o.isBuy o.level x) :=
  Search.insertIdx_lowerBound (behind_partitioned h) o

theorem insertSorted_perm {number : Id → Nat} {o : Order} {l : Orders}
    (h : l.Pairwise (Behind number o.isBuy)) : (insertSorted o l).Perm (o :: l) := by
  rw [insertSorted_eq h]
  exact List.perm_middle.trans ((List.filter_append_perm _ l).cons o)

/-- **The place found is the right one** for an order accepted after all those stored. -/
theorem insertSorted_pairwise {number : Id → Nat} {o : Order} {l : Orders}
    (h : l.Pairwise (Behind number o.isBuy)) (hnew : ∀ x ∈ l, number x.id < number o.id) :
    (insertSorted o l).Pairwise (Behind number o.isBuy) := by
  rw [insertSorted_eq h, List.pairwise_append, List.pairwise_cons]
  have hright : ∀ y ∈ l.filter (fun x => !comesBefore o.isBuy o.level x),
      y ∈ l ∧ (comesBefore o.isBuy y.level o = true ∨ y.level = o.level) := by
    intro y hy
    obtain ⟨hyl, hyc⟩ := List.mem_filter.mp hy
    rw [Bool.not_eq_true'] at hyc
    exact ⟨hyl, comesBefore_total hyc⟩
  refine ⟨h.sublist List.filter_sublist, ⟨fun y hy => ?_, h.sublist List.filter_sublist⟩, ?_⟩
  · -- at its own price or a better one, an earlier order trades first
    obtain ⟨hyl, hyc | hyc⟩ := hright y hy
    · exact Or.inl hyc
    · exact Or.inr ⟨hyc.symm, hnew y hyl⟩
  · intro x hx y hy
    have hxo : comesBefore o.isBuy o.level x = true := (List.mem_filter.mp hx).2
    rcases List.mem_cons.mp hy with hy | hy
    · subst hy
      exact Or.inl hxo
    · obtain ⟨_, hyc | hyc⟩ := hright y hy
      · exact Or.inl (comesBefore_trans hxo hyc)
      · exact Or.inl (hyc ▸ hxo)

/-! ## The invariant -/

/-- The book invariant, for the numbers the resting orders were accepted under. -/
structure BookInv (number : Id → Nat) (b : Book) : Prop where
  /-- Buys rest among the bids and sells among the asks. -/
  isBuy : ∀ s, ∀ o ∈ b.side s, o.isBuy = s
  /-- From front to back, each order trades before those in front of it. -/
  order : ∀ s, (b.side s).Pairwise (Behind number s)
  /-- No id rests twice. -/
  distinct : Distinct b
  /-- What rests can trade. -/
  pos : ∀ s, ∀ o ∈ b.side s, 0 < o.qty
  /-- No bid matches an ask. -/
  uncrossed : ∀ x ∈ b.bids, ∀ y ∈ b.asks, canMatch x y = false

theorem bookInv_empty (number : Id → Nat) : BookInv number Book.empty where
  isBuy := by intro s o ho; rw [side_empty] at ho; exact absurd ho (by simp)
  order := by intro s; rw [side_empty]; exact List.Pairwise.nil
  distinct := ⟨by intro s; rw [side_empty]; exact List.nodup_nil, by intro x hx; cases hx⟩
  pos := by intro s o ho; rw [side_empty] at ho; exact absurd ho (by simp)
  uncrossed := by intro x hx; cases hx

/-- Only the numbers of resting orders matter. -/
theorem BookInv.congr {number number' : Id → Nat} {b : Book} (h : BookInv number b)
    (hn : ∀ s, ∀ x ∈ b.side s, number' x.id = number x.id) : BookInv number' b where
  isBuy := h.isBuy
  order := by
    intro s
    refine (h.order s).imp_of_mem fun {a c} ha hc hac => ?_
    rcases hac with hac | ⟨he, hlt⟩
    · exact Or.inl hac
    · exact Or.inr ⟨he, by rw [hn s a ha, hn s c hc]; exact hlt⟩
  distinct := h.distinct
  pos := h.pos
  uncrossed := h.uncrossed

theorem BookInv.uncrossed_side {number : Id → Nat} {b : Book} (h : BookInv number b) {s : Bool}
    {x y : Order} (hx : x ∈ b.side s) (hy : y ∈ b.side (!s)) : isMatch x y = false := by
  have hs := h.isBuy s x hx
  unfold isMatch
  cases s with
  | true => rw [if_pos hs]; exact h.uncrossed x hx y hy
  | false => rw [if_neg (by rw [hs]; decide)]; exact h.uncrossed y hy x hx

/-- Cancelling preserves the invariant. -/
theorem bookInv_cancelOrder {number : Id → Nat} {b : Book} (h : BookInv number b) (i : Id) :
    BookInv number (b.cancelOrder i) := by
  have hside := cancelOrder_side h.distinct i
  have hmem : ∀ s, ∀ o ∈ (b.cancelOrder i).side s, o ∈ b.side s := by
    intro s o ho
    rw [hside] at ho
    exact (List.mem_filter.mp ho).1
  refine ⟨fun s o ho => h.isBuy s o (hmem s o ho), fun s => ?_, ⟨fun s => ?_, ?_⟩,
    fun s o ho => h.pos s o (hmem s o ho), ?_⟩
  · rw [hside]
    exact (h.order s).sublist List.filter_sublist
  · rw [hside]
    exact (h.distinct.side s).sublist (List.filter_sublist.map _)
  · exact fun x hx y hy => h.distinct.apart x (hmem true x hx) y (hmem false y hy)
  · exact fun x hx y hy => h.uncrossed x (hmem true x hx) y (hmem false y hy)

/-- The orders across from a new one, best first, are matched in a run from the front. -/
theorem BookInv.match_first {number : Id → Nat} {b : Book} (h : BookInv number b) (o : Order) :
    (b.side (!o.isBuy)).reverse.Pairwise (fun x y => isMatch o y → isMatch o x) := by
  rw [List.pairwise_reverse]
  exact (h.order _).imp fun {x y} hxy => isMatch_behind hxy

/-- An order across from a new one was there before, with the same id, price and side. -/
theorem addOrder_across {b : Book} {o x : Order} (hfree : b.rests o.id = false)
    (hx : x ∈ (b.addOrder o).1.side (!o.isBuy)) :
    ∃ y ∈ b.side (!o.isBuy), x = y.setQty x.qty ∧ (0 < y.qty → 0 < x.qty) := by
  rw [(addOrder_spec hfree).2.1, List.mem_reverse] at hx
  obtain ⟨y, hy, hxy⟩ := fill_mem hx
  exact ⟨y, List.mem_reverse.mp hy, hxy⟩

/-- On its own side only the rest of the new order is new. -/
theorem addOrder_beside {number : Id → Nat} {b : Book} {o x : Order} (h : BookInv number b)
    (hfree : b.rests o.id = false) (hx : x ∈ (b.addOrder o).1.side o.isBuy) :
    x ∈ b.side o.isBuy
      ∨ 0 < (b.filled o).remaining ∧ x = o.setQty (b.filled o).remaining := by
  rw [(addOrder_spec hfree).2.2] at hx
  split at hx
  · rename_i hr
    have hperm := insertSorted_perm (o := o.setQty (b.filled o).remaining) (h.order o.isBuy)
    rw [hperm.mem_iff, List.mem_cons] at hx
    exact hx.symm.imp id fun he => ⟨hr, he⟩
  · exact Or.inl hx

/-- **What is left of a new order matches nothing that is left across from it.** -/
theorem addOrder_stop {number : Id → Nat} {b : Book} {o y : Order} (h : BookInv number b)
    (hfree : b.rests o.id = false) (hr : 0 < (b.filled o).remaining)
    (hy : y ∈ (b.addOrder o).1.side (!o.isBuy)) : isMatch o y = false := by
  rw [(addOrder_spec hfree).2.1, List.mem_reverse] at hy
  exact fill_stop (h.match_first o) hr y hy

/-- What rests beside a new order and what rests across from it differ in id and do not match. -/
theorem addOrder_apart {number : Id → Nat} {b : Book} {o x y : Order} (h : BookInv number b)
    (hfree : b.rests o.id = false) (hx : x ∈ (b.addOrder o).1.side o.isBuy)
    (hy : y ∈ (b.addOrder o).1.side (!o.isBuy)) : x.id ≠ y.id ∧ isMatch x y = false := by
  obtain ⟨z, hz, hzy, _⟩ := addOrder_across hfree hy
  have hyid : y.id = z.id := by rw [hzy]; rfl
  rcases addOrder_beside h hfree hx with hx | ⟨hr, hx⟩
  · have hm : isMatch x y = isMatch x z := by rw [hzy]; rfl
    exact ⟨by rw [hyid]; exact h.distinct.apart_side hx hz,
      by rw [hm]; exact h.uncrossed_side hx hz⟩
  · have hm : isMatch x y = isMatch o y := by rw [hx]; rfl
    refine ⟨?_, by rw [hm]; exact addOrder_stop h hfree hr hy⟩
    rw [hyid, hx]
    exact (not_rests_iff.mp hfree _ z hz).symm

theorem addOrder_isBuy {number : Id → Nat} {b : Book} {o : Order} (h : BookInv number b)
    (hfree : b.rests o.id = false) : ∀ s, ∀ x ∈ (b.addOrder o).1.side s, x.isBuy = s := by
  refine side_cases o.isBuy (fun x hx => ?_) (fun x hx => ?_)
  · rcases addOrder_beside h hfree hx with hx | ⟨_, hx⟩
    · exact h.isBuy _ x hx
    · rw [hx]; rfl
  · obtain ⟨y, hy, hxy, _⟩ := addOrder_across hfree hx
    rw [hxy]
    exact h.isBuy _ y hy

theorem addOrder_distinct {number : Id → Nat} {b : Book} {o : Order} (h : BookInv number b)
    (hfree : b.rests o.id = false) : Distinct (b.addOrder o).1 := by
  refine ⟨side_cases o.isBuy ?_ ?_, fun x hx y hy => ?_⟩
  · rw [(addOrder_spec hfree).2.2]
    split
    · have hperm := insertSorted_perm (o := o.setQty (b.filled o).remaining) (h.order o.isBuy)
      rw [(hperm.map Order.id).nodup_iff, List.map_cons, List.nodup_cons]
      refine ⟨fun hmem => ?_, h.distinct.side _⟩
      obtain ⟨y, hy, he⟩ := List.mem_map.mp hmem
      exact not_rests_iff.mp hfree _ y hy he
    · exact h.distinct.side _
  · rw [(addOrder_spec hfree).2.1, List.map_reverse, List.nodup_reverse]
    refine List.Nodup.sublist fill_ids.sublist ?_
    rw [List.map_reverse, List.nodup_reverse]
    exact h.distinct.side _
  · cases ho : o.isBuy with
    | true => exact (addOrder_apart h hfree (by rw [ho]; exact hx) (by rw [ho]; exact hy)).1
    | false => exact (addOrder_apart h hfree (by rw [ho]; exact hy) (by rw [ho]; exact hx)).1.symm

/-- **A new order, with the highest number, preserves the invariant.** -/
theorem bookInv_addOrder {number : Id → Nat} {b : Book} {o : Order} (h : BookInv number b)
    (hfree : b.rests o.id = false) (hnew : ∀ s, ∀ x ∈ b.side s, number x.id < number o.id) :
    BookInv number (b.addOrder o).1 where
  isBuy := addOrder_isBuy h hfree
  order := by
    refine side_cases o.isBuy ?_ ?_
    · rw [(addOrder_spec hfree).2.2]
      split
      · exact insertSorted_pairwise (o := o.setQty (b.filled o).remaining) (h.order o.isBuy)
          (hnew o.isBuy)
      · exact h.order _
    · rw [(addOrder_spec hfree).2.1, List.pairwise_reverse]
      refine fill_pairwise (R := fun x y => Behind number (!o.isBuy) y x) (fun _ _ _ hxy => hxy) ?_
      rw [List.pairwise_reverse]
      exact h.order _
  distinct := addOrder_distinct h hfree
  pos := by
    refine side_cases o.isBuy (fun x hx => ?_) (fun x hx => ?_)
    · rcases addOrder_beside h hfree hx with hx | ⟨hr, hx⟩
      · exact h.pos _ x hx
      · rw [hx]; exact hr
    · obtain ⟨y, hy, _, hpos⟩ := addOrder_across hfree hx
      exact hpos (h.pos _ y hy)
  uncrossed := by
    intro x hx y hy
    have hxs : x.isBuy = true := addOrder_isBuy h hfree true x hx
    have hys : y.isBuy = false := addOrder_isBuy h hfree false y hy
    cases ho : o.isBuy with
    | true =>
        have hm := (addOrder_apart h hfree (by rw [ho]; exact hx) (by rw [ho]; exact hy)).2
        unfold isMatch at hm
        rwa [if_pos hxs] at hm
    | false =>
        have hm := (addOrder_apart h hfree (by rw [ho]; exact hy) (by rw [ho]; exact hx)).2
        unfold isMatch at hm
        rwa [if_neg (by rw [hys]; decide)] at hm

/-! ## Over a run -/

/-- An order that `AddOrder` does not ignore. -/
def Book.accepts (b : Book) (o : Order) : Prop := b.rests o.id = false ∧ 0 < o.qty

instance (b : Book) (o : Order) : Decidable (b.accepts o) :=
  inferInstanceAs (Decidable (_ ∧ _))

theorem fill_idle (o : Order) (best : Orders) {q : Quantity} (hq : ¬0 < q) :
    fill o best q = { opposite := best, remaining := q, trades := [] } := by
  cases best with
  | nil => rfl
  | cons b rest => rw [fill, if_neg (fun h => hq h.1)]

/-- An order that is not accepted changes nothing and trades nothing. -/
theorem addOrder_idle {b : Book} {o : Order} (h : ¬b.accepts o) : b.addOrder o = (b, []) := by
  cases hd : b.rests o.id with
  | true => exact addOrder_dupe hd
  | false =>
      have hq : ¬0 < o.qty := fun hq => h ⟨hd, hq⟩
      obtain ⟨h1, h2, h3⟩ := addOrder_spec hd
      unfold Book.filled at h1 h2 h3
      rw [fill_idle o _ hq] at h1 h2 h3
      dsimp only at h1 h2 h3
      rw [if_neg hq] at h3
      rw [List.reverse_reverse] at h2
      exact Prod.ext (Book.ext_side (side_cases o.isBuy h3 h2)) h1

theorem addOrder_mem_id {number : Id → Nat} {b : Book} {o : Order} (h : BookInv number b)
    (hfree : b.rests o.id = false) :
    ∀ s, ∀ x ∈ (b.addOrder o).1.side s, x.id = o.id ∨ ∃ y ∈ b.side s, y.id = x.id := by
  refine side_cases o.isBuy (fun x hx => ?_) (fun x hx => ?_)
  · rcases addOrder_beside h hfree hx with hx | ⟨_, hx⟩
    · exact Or.inr ⟨x, hx, rfl⟩
    · exact Or.inl (by rw [hx]; rfl)
  · obtain ⟨y, hy, hxy, _⟩ := addOrder_across hfree hx
    exact Or.inr ⟨y, hy, by rw [hxy]; rfl⟩

/-- A book, and the number under which each id was last accepted. -/
structure World where
  book : Book := Book.empty
  number : Id → Nat := fun _ => 0
  accepted : Nat := 0

/-- A call on the book; an accepted order takes the next number. -/
def World.call (w : World) : Call → World × Trades
  | .addOrder o =>
    let (book, trades) := w.book.addOrder o
    if w.book.accepts o then
      ({ book, number := fun i => if i = o.id then w.accepted else w.number i,
         accepted := w.accepted + 1 }, trades)
    else ({ w with book }, trades)
  | .cancelOrder i => ({ w with book := w.book.cancelOrder i }, [])

/-- The numbers are only watched: the book and the answers are the code's own. -/
theorem world_call (w : World) (c : Call) :
    (w.call c).1.book = (w.book.call c).1 ∧ (w.call c).2 = (w.book.call c).2 := by
  cases c with
  | addOrder o =>
      rw [World.call, Book.call]
      dsimp only
      split <;> exact ⟨rfl, rfl⟩
  | cancelOrder i => exact ⟨rfl, rfl⟩

theorem world_run (cs : List Call) (w : World) :
    (Machine.final World.call w cs).book = after w.book cs
      ∧ Machine.outputs World.call w cs = answers w.book cs := by
  refine Machine.simulation (R := fun w b => w.book = b) (C := fun _ _ => True) ?_ cs w w.book rfl
    (fun _ _ _ _ => trivial)
  intro w b c h _
  subst h
  exact world_call w c

/-- The invariant of a run. -/
structure WorldInv (w : World) : Prop where
  /-- The book is ordered by the numbers. -/
  book : BookInv w.number w.book
  /-- The next number is higher than all in use. -/
  fresh : ∀ s, ∀ x ∈ w.book.side s, w.number x.id < w.accepted

theorem worldInv_init : WorldInv {} where
  book := bookInv_empty _
  fresh := by intro s x hx; rw [side_empty] at hx; exact absurd hx (by simp)

/-- **Every call preserves the invariant.** -/
theorem worldInv_call (w : World) (c : Call) (h : WorldInv w) : WorldInv (w.call c).1 := by
  cases c with
  | cancelOrder i =>
      refine ⟨bookInv_cancelOrder h.book i, fun s x hx => ?_⟩
      rw [show (w.call (.cancelOrder i)).1.book = w.book.cancelOrder i from rfl,
        cancelOrder_side h.book.distinct] at hx
      exact h.fresh s x (List.mem_filter.mp hx).1
  | addOrder o =>
      rw [World.call]
      dsimp only
      by_cases ha : w.book.accepts o
      · rw [if_pos ha]
        -- the numbers in use stay, since the id of the new order is not among them
        have hsame : ∀ s, ∀ x ∈ w.book.side s,
            (if x.id = o.id then w.accepted else w.number x.id) = w.number x.id :=
          fun s x hx => if_neg (not_rests_iff.mp ha.1 s x hx)
        have hb : BookInv (fun i => if i = o.id then w.accepted else w.number i) w.book :=
          h.book.congr hsame
        refine ⟨bookInv_addOrder hb ha.1 fun s x hx => ?_, fun s x hx => ?_⟩
        · dsimp only
          rw [hsame s x hx, if_pos rfl]
          exact h.fresh s x hx
        · dsimp only at hx ⊢
          rcases addOrder_mem_id hb ha.1 s x hx with he | ⟨y, hy, he⟩
          · rw [if_pos he]; omega
          · have := h.fresh s y hy
            rw [← he, hsame s y hy]; omega
      · rw [if_neg ha, addOrder_idle ha]
        exact h

theorem worldInv_run (cs : List Call) : WorldInv (Machine.final World.call {} cs) :=
  Machine.final_invariant (C := fun _ _ => True) (fun w c h _ => worldInv_call w c h) cs {}
    worldInv_init (fun _ _ _ _ => trivial)

/-- The number under which an id was last accepted in a run from the empty book. -/
def acceptedAs (cs : List Call) : Id → Nat := (Machine.final World.call {} cs).number

theorem bookInv_run (cs : List Call) : BookInv (acceptedAs cs) (after Book.empty cs) := by
  rw [← (world_run cs {}).1]
  exact (worldInv_run cs).book

/--
**The order book invariant**, as it reads off the two vectors.

After any calls on the empty book: each vector holds its own side, sorted by price,
with the earlier of two orders of one price nearer the back; no id rests twice; every
quantity is positive; and every bid is strictly below every ask.
-/
theorem orderbook_invariant (cs : List Call) :
    let b := after Book.empty cs
    ((∀ o ∈ b.bids, o.isBuy = true) ∧ b.bids.Pairwise (fun x y => x.level ≤ y.level))
      ∧ ((∀ o ∈ b.asks, o.isBuy = false) ∧ b.asks.Pairwise (fun x y => x.level ≥ y.level))
      ∧ (b.bids.Pairwise (fun x y => x.level = y.level → acceptedAs cs y.id < acceptedAs cs x.id)
        ∧ b.asks.Pairwise (fun x y => x.level = y.level → acceptedAs cs y.id < acceptedAs cs x.id))
      ∧ ((b.bids ++ b.asks).map Order.id).Nodup
      ∧ (∀ o ∈ b.bids ++ b.asks, 0 < o.qty)
      ∧ ∀ x ∈ b.bids, ∀ y ∈ b.asks, x.level < y.level := by
  have h := bookInv_run cs
  have hprice : ∀ s x y, Behind (acceptedAs cs) s x y →
      (if s then x.level ≤ y.level else x.level ≥ y.level) := by
    intro s x y hxy
    unfold Behind comesBefore at hxy
    cases s <;> simp at hxy ⊢ <;> grind
  have htime : ∀ s x y, Behind (acceptedAs cs) s x y → x.level = y.level →
      acceptedAs cs y.id < acceptedAs cs x.id := by
    intro s x y hxy he
    unfold Behind comesBefore at hxy
    cases s <;> simp at hxy <;> grind
  refine ⟨⟨h.isBuy true, (h.order true).imp (hprice true _ _)⟩,
    ⟨h.isBuy false, (h.order false).imp (hprice false _ _)⟩,
    ⟨(h.order true).imp (htime true _ _), (h.order false).imp (htime false _ _)⟩, ?_, ?_, ?_⟩
  · rw [List.map_append, List.nodup_append]
    refine ⟨h.distinct.side true, h.distinct.side false, fun i hi j hj => ?_⟩
    obtain ⟨x, hx, rfl⟩ := List.mem_map.mp hi
    obtain ⟨y, hy, rfl⟩ := List.mem_map.mp hj
    exact h.distinct.apart x hx y hy
  · intro o ho
    rcases List.mem_append.mp ho with ho | ho
    · exact h.pos true o ho
    · exact h.pos false o ho
  · intro x hx y hy
    have hm := h.uncrossed x hx y hy
    unfold canMatch at hm
    rw [decide_eq_false_iff_not] at hm
    exact Int64.not_le.mp hm

end QuickStructs.Orderbook
