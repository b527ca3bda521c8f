import QuickStructs.Proof.Invisible

/-!
# Orders that do not trade may come in any order

The book keeps no times, but the places of the orders of one side and price tell which of them
came first. That is all it keeps of the order in which they came: orders that do not trade may
change places with orders of other prices and of the other side, and the book ends up the same.
-/

namespace QuickStructs.Orderbook

open Lib

variable {number : Id → Nat} {b : Book} {o x : Order} {l : Orders}

/-- Orders that come in one after the other and trade nothing. -/
def Quiet (b : Book) (os : List Order) : Prop := ∀ ts ∈ answers b (os.map .addOrder), ts = []

instance (b : Book) (os : List Order) : Decidable (Quiet b os) :=
  inferInstanceAs (Decidable (∀ ts ∈ answers b (os.map .addOrder), ts = []))

theorem quiet_cons {os : List Order} :
    Quiet b (o :: os) ↔ (b.addOrder o).2 = [] ∧ Quiet (b.addOrder o).1 os := by
  unfold Quiet
  rw [List.map_cons, answers_cons, List.forall_mem_cons]
  rfl

/-! ## One order -/

/-- **An order that does not trade is stored**, and that is all. -/
theorem quiet_add (ha : b.accepts o) (hnone : (b.addOrder o).2 = []) (s : Bool) :
    (b.addOrder o).1.side s = if s = o.isBuy then insertSorted o (b.side s) else b.side s := by
  obtain ⟨ht, hacross, hown⟩ := addOrder_spec ha.1
  have hfill : b.filled o
      = { opposite := (b.side (!o.isBuy)).reverse, remaining := o.qty, trades := [] } :=
    fill_no_trades (ht.symm.trans hnone)
  rw [hfill] at hacross hown
  revert s
  refine side_cases o.isBuy ?_ ?_
  · rw [if_pos rfl, hown, if_pos ha.2]
    rfl
  · rw [if_neg (by simp), hacross, List.reverse_reverse]

/-- **An order trades exactly if it matches an order across from it.** -/
theorem quiet_iff (h : BookInv number b) (ha : b.accepts o) :
    (b.addOrder o).2 = [] ↔ ∀ x ∈ b.side (!o.isBuy), isMatch o x = false := by
  obtain ⟨ht, hacross, _⟩ := addOrder_spec ha.1
  constructor
  · intro hnone x hx
    have hfill : b.filled o
        = { opposite := (b.side (!o.isBuy)).reverse, remaining := o.qty, trades := [] } :=
      fill_no_trades (ht.symm.trans hnone)
    have hleft : 0 < (b.filled o).remaining := by
      rw [hfill]
      exact ha.2
    refine addOrder_stop h ha.1 hleft ?_
    rw [hacross, hfill, List.reverse_reverse]
    exact hx
  · intro hmiss
    rw [ht]
    have hstop : b.filled o
        = { opposite := (b.side (!o.isBuy)).reverse, remaining := o.qty, trades := [] } := by
      refine fill_stopped fun y hy hc => ?_
      have hmem := List.mem_reverse.mp (List.mem_of_mem_head? hy)
      rw [hmiss y hmem] at hc
      exact absurd hc.2 (by decide)
    rw [hstop]

theorem mem_quiet_add (h : BookInv number b) (ha : b.accepts o) (hnone : (b.addOrder o).2 = [])
    {s : Bool} : x ∈ (b.addOrder o).1.side s ↔ x ∈ b.side s ∨ s = o.isBuy ∧ x = o := by
  rw [quiet_add ha hnone]
  by_cases hs : s = o.isBuy
  · subst hs
    rw [if_pos rfl, (insertSorted_perm (h.order o.isBuy)).mem_iff, List.mem_cons]
    constructor
    · exact fun hx => hx.elim (fun he => .inr ⟨rfl, he⟩) .inl
    · exact fun hx => hx.elim .inr fun he => .inl he.2
  · rw [if_neg hs]
    exact ⟨.inl, fun hx => hx.resolve_right fun he => hs he.1⟩

/-- Another order is accepted before and after. -/
theorem accepts_quiet_add (h : BookInv number b) (ha : b.accepts o)
    (hnone : (b.addOrder o).2 = []) {o' : Order} (ha' : b.accepts o') (hne : o'.id ≠ o.id) :
    (b.addOrder o).1.accepts o' := by
  refine ⟨not_rests_iff.mpr fun s x hx => ?_, ha'.2⟩
  rcases (mem_quiet_add h ha hnone).mp hx with hx | ⟨_, rfl⟩
  · exact not_rests_iff.mp ha'.1 s x hx
  · exact hne.symm

/-- Those of one side and price. -/
def atLevel (s : Bool) (p : Price) (os : List Order) : List Order :=
  os.filter fun o => o.isBuy = s ∧ o.level = p

/-- At its own price the new order is the first from the front, and all other prices stay. -/
theorem quiet_add_level (h : BookInv number b) (ha : b.accepts o) (hnone : (b.addOrder o).2 = [])
    (s : Bool) (p : Price) :
    ((b.addOrder o).1.side s).filter (fun x => x.level = p)
      = (if o.isBuy = s ∧ o.level = p then [o] else [])
        ++ (b.side s).filter fun x => x.level = p := by
  rw [quiet_add ha hnone]
  by_cases hs : s = o.isBuy
  · subst hs
    rw [if_pos rfl, insertSorted_filter (h.order o.isBuy)]
    by_cases hp : o.level = p
    · have hfront : ∀ x ∈ (b.side o.isBuy).filter (fun x => x.level = p),
          comesBefore o.isBuy o.level x = false := by
        intro x hx
        have hlevel : x.level = o.level :=
          (of_decide_eq_true (List.mem_filter.mp hx).2).trans hp.symm
        unfold comesBefore
        rw [hlevel]
        cases o.isBuy <;> simp
      rw [if_pos (by simpa using hp), if_pos ⟨rfl, hp⟩,
        insertSorted_eq ((h.order o.isBuy).sublist List.filter_sublist)]
      rw [List.filter_eq_nil_iff.mpr fun x hx => by rw [hfront x hx]; decide,
        List.filter_eq_self.mpr fun x hx => by rw [hfront x hx]; rfl]
      rfl
    · rw [if_neg (by simpa using hp), if_neg fun hc => hp hc.2]
      rfl
  · rw [if_neg hs, if_neg fun hc => hs hc.1.symm]
    rfl

/-! ## One after the other -/

/-- What is accepted first is accepted one after the other. -/
theorem accepts_rest {hist : List Call} {os : List Order}
    (hacc : ∀ y ∈ o :: os, (after Book.empty hist).accepts y)
    (hids : ((o :: os).map Order.id).Nodup)
    (hnone : ((after Book.empty hist).addOrder o).2 = []) :
    ∀ y ∈ os, (after Book.empty (hist ++ [.addOrder o])).accepts y := by
  intro y hy
  rw [List.map_cons, List.nodup_cons] at hids
  rw [after_concat]
  refine accepts_quiet_add (bookInv_run hist) (hacc o List.mem_cons_self) hnone
    (hacc y (List.mem_cons_of_mem _ hy)) fun he => hids.1 ?_
  exact List.mem_map.mpr ⟨y, hy, he⟩

/-- What is at a price afterwards: the new orders, the last one first, before those that were
there. -/
theorem quiet_levels : ∀ (os : List Order) (hist : List Call),
    (∀ y ∈ os, (after Book.empty hist).accepts y) → (os.map Order.id).Nodup →
    Quiet (after Book.empty hist) os → ∀ s p,
    ((after Book.empty (hist ++ os.map .addOrder)).side s).filter (fun x => x.level = p)
      = (atLevel s p os).reverse
        ++ ((after Book.empty hist).side s).filter fun x => x.level = p := by
  intro os
  induction os with
  | nil =>
      intro hist _ _ _ s p
      rw [List.map_nil, List.append_nil]
      rfl
  | cons o os ih =>
      intro hist hacc hids hquiet s p
      obtain ⟨hnone, hrest⟩ := quiet_cons.mp hquiet
      have hbook : after Book.empty (hist ++ [.addOrder o])
          = ((after Book.empty hist).addOrder o).1 := after_concat ..
      rw [← hbook] at hrest
      have hlater := ih (hist ++ [.addOrder o]) (accepts_rest hacc hids hnone)
        (List.nodup_cons.mp hids).2 hrest s p
      rw [List.append_assoc] at hlater
      rw [List.map_cons]
      refine hlater.trans ?_
      rw [hbook, quiet_add_level (bookInv_run hist) (hacc o List.mem_cons_self) hnone,
        ← List.append_assoc]
      refine congrArg (· ++ _) ?_
      unfold atLevel
      rw [List.filter_cons]
      by_cases hc : o.isBuy = s ∧ o.level = p
      · rw [if_pos hc, if_pos (decide_eq_true hc), List.reverse_cons]
      · rw [if_neg hc, if_neg (by simpa using hc), List.append_nil]

/-- Everything is in the book afterwards. -/
theorem mem_quiet_run {os : List Order} {hist : List Call}
    (hacc : ∀ y ∈ os, (after Book.empty hist).accepts y) (hids : (os.map Order.id).Nodup)
    (hquiet : Quiet (after Book.empty hist) os) {s : Bool} :
    x ∈ (after Book.empty (hist ++ os.map .addOrder)).side s ↔
      (x ∈ os ∧ x.isBuy = s) ∨ x ∈ (after Book.empty hist).side s := by
  have hlevel : ∀ l : Orders, x ∈ l ↔ x ∈ l.filter fun y => y.level = x.level := fun l => by
    rw [List.mem_filter]
    simp
  rw [hlevel, quiet_levels os hist hacc hids hquiet, List.mem_append, List.mem_reverse,
    ← hlevel, atLevel, List.mem_filter]
  simp

/-- Orders that match nothing in the book and not each other do not trade. -/
theorem quiet_of_unmatched : ∀ (os : List Order) (hist : List Call),
    (∀ y ∈ os, (after Book.empty hist).accepts y) → (os.map Order.id).Nodup →
    (∀ o ∈ os, ∀ x ∈ (after Book.empty hist).side (!o.isBuy), isMatch o x = false) →
    (∀ o ∈ os, ∀ x ∈ os, x.isBuy = (!o.isBuy) → isMatch o x = false) →
    Quiet (after Book.empty hist) os := by
  intro os
  induction os with
  | nil =>
      intro _ _ _ _ _ ts hts
      exact absurd hts (by simp)
  | cons o os ih =>
      intro hist hacc hids hmiss heach
      have hnone := (quiet_iff (bookInv_run hist) (hacc o List.mem_cons_self)).mpr
        (hmiss o List.mem_cons_self)
      refine quiet_cons.mpr ⟨hnone, ?_⟩
      have hbook : after Book.empty (hist ++ [.addOrder o])
          = ((after Book.empty hist).addOrder o).1 := after_concat ..
      rw [← hbook]
      refine ih (hist ++ [.addOrder o]) (accepts_rest hacc hids hnone)
        (List.nodup_cons.mp hids).2 (fun y hy x hx => ?_)
        fun y hy x hx => heach y (List.mem_cons_of_mem _ hy) x (List.mem_cons_of_mem _ hx)
      rw [hbook, mem_quiet_add (bookInv_run hist) (hacc o List.mem_cons_self) hnone] at hx
      rcases hx with hx | ⟨hs, rfl⟩
      · exact hmiss y (List.mem_cons_of_mem _ hy) x hx
      · exact heach y (List.mem_cons_of_mem _ hy) x List.mem_cons_self hs.symm

/-! ## In another order -/

/-- Lists with the same orders of each side and price have the same orders. -/
theorem perm_of_atLevel {os os' : List Order} (h : ∀ s p, atLevel s p os = atLevel s p os') :
    os.Perm os' := by
  refine List.perm_iff_count.mpr fun o => ?_
  have hcount : ∀ l : List Order, l.count o = (atLevel o.isBuy o.level l).count o := fun l =>
    (List.count_filter (by simp)).symm
  calc os.count o = (atLevel o.isBuy o.level os).count o := hcount os
    _ = (atLevel o.isBuy o.level os').count o := by rw [h]
    _ = os'.count o := (hcount os').symm

/-- The key by which a side is sorted. -/
theorem side_sorted (h : BookInv number b) (s : Bool) :
    (b.side s).Pairwise fun x y => if s then x.level ≤ y.level else y.level ≤ x.level := by
  refine (h.order s).imp fun {x y} hxy => ?_
  unfold Behind comesBefore at hxy
  cases s <;> simp at hxy ⊢ <;> grind

/--
**Orders that do not trade may come in any order.**

From any reachable book, take orders that are accepted and do not trade, and the same orders in
another order, in which those of one side and price follow each other as before. Then they do not
trade either, and the book is the same in the end.
-/
theorem book_rearranged (hist : List Call) (os os' : List Order)
    (hsame : ∀ s p, atLevel s p os = atLevel s p os')
    (hacc : ∀ o ∈ os, (after Book.empty hist).accepts o) (hids : (os.map Order.id).Nodup)
    (hquiet : Quiet (after Book.empty hist) os) :
    Quiet (after Book.empty hist) os'
      ∧ after Book.empty (hist ++ os'.map .addOrder)
        = after Book.empty (hist ++ os.map .addOrder) := by
  have hperm := perm_of_atLevel hsame
  have hacc' : ∀ o ∈ os', (after Book.empty hist).accepts o := fun o ho =>
    hacc o (hperm.mem_iff.mpr ho)
  have hids' : (os'.map Order.id).Nodup := (hperm.map _).nodup_iff.mp hids
  have hinv := bookInv_run (hist ++ os.map .addOrder)
  -- in the book with all of them no two orders match
  have hin : ∀ o ∈ os', o ∈ (after Book.empty (hist ++ os.map .addOrder)).side o.isBuy :=
    fun o ho => (mem_quiet_run hacc hids hquiet).mpr (.inl ⟨hperm.mem_iff.mpr ho, rfl⟩)
  have hquiet' : Quiet (after Book.empty hist) os' := by
    refine quiet_of_unmatched os' hist hacc' hids' (fun o ho x hx => ?_) fun o ho x hx hs => ?_
    · exact hinv.uncrossed_side (hin o ho) ((mem_quiet_run hacc hids hquiet).mpr (.inr hx))
    · exact hinv.uncrossed_side (hin o ho) (hs ▸ hin x hx)
  refine ⟨hquiet', Book.ext_side fun s => ?_⟩
  refine Search.eq_of_keys Order.level
    (r := fun p q => if s then p ≤ q else q ≤ p) (fun p q hpq hqp => ?_)
    (side_sorted (bookInv_run _) s) (side_sorted hinv s) fun p => ?_
  · cases s with
    | true => exact Int64.le_antisymm hpq hqp
    | false => exact Int64.le_antisymm hqp hpq
  · rw [quiet_levels os hist hacc hids hquiet, quiet_levels os' hist hacc' hids' hquiet', hsame]

/-- Two bids and an ask change places; the two bids are of one price and keep theirs. -/
theorem book_rearranged_three :
    let os : List Order := [⟨1, 10, true, 5⟩, ⟨2, 12, false, 2⟩, ⟨3, 10, true, 4⟩]
    let os' : List Order := [⟨2, 12, false, 2⟩, ⟨1, 10, true, 5⟩, ⟨3, 10, true, 4⟩]
    after Book.empty ([] ++ os'.map .addOrder) = after Book.empty ([] ++ os.map .addOrder) := by
  refine (book_rearranged [] _ _ (fun s p => ?_) (by decide) (by decide) (by decide)).2
  cases s with
  | true => rfl
  | false => rfl

end QuickStructs.Orderbook
