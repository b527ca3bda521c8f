import QuickStructs.Proof.BookInv
import QuickStructs.Spec.PriceTime

/-!
# The order book keeps price-time priority

Forgetting the places of the orders and keeping their numbers turns a state of the
code into a state of the reference engine. Under the book invariant the last order
of a vector is the one the engine picks, so each call of the code is the one thing
the engine can do, and the two return the same trades in every run.
-/

namespace QuickStructs.Orderbook

open Lib PriceTime

/-- A resting order as the engine sees it. -/
def stamp (number : Id → Nat) (o : Order) : Resting := { order := o, number := number o.id }

@[simp] theorem stamp_order (number : Id → Nat) (o : Order) : (stamp number o).order = o := rfl

/-- **The engine state a world stands for**: its orders, without their places. -/
def World.engine (w : World) : Engine where
  resting := ((w.book.bids ++ w.book.asks).map (stamp w.number) : List Resting)
  accepted := w.accepted

/-! ## The best order is at the back -/

theorem crosses_iff {o r : Order} : Crosses o r ↔ r.isBuy = !o.isBuy ∧ isMatch o r = true := by
  unfold Crosses isMatch canMatch
  cases o.isBuy <;> simp

theorem beats_iff {number : Id → Nat} {o a b : Order} :
    Beats o (stamp number b) (stamp number a) ↔ Behind number (!o.isBuy) a b := by
  unfold Beats Behind comesBefore stamp
  cases o.isBuy <;> simp [eq_comm]

theorem behind_irrefl {number : Id → Nat} {s : Bool} {a : Order} : ¬Behind number s a a := by
  unfold Behind comesBefore
  cases s <;> simp

theorem behind_asymm {number : Id → Nat} {s : Bool} {a b : Order} (h : Behind number s a b) :
    ¬Behind number s b a := by
  unfold Behind comesBefore at *
  cases s <;> simp at h ⊢ <;> grind

theorem trade_eq (o r : Order) (size : Quantity) :
    (if o.isBuy then tradeOf o r o size else tradeOf r o o size) = mkTrade o r size := by
  unfold mkTrade tradeOf
  cases o.isBuy <;> rfl

/-- The orders across from `o`, best first: of its other side, each ahead of the next. -/
structure Queue (number : Id → Nat) (o : Order) (best : Orders) : Prop where
  across : ∀ x ∈ best, x.isBuy = !o.isBuy
  order : best.Pairwise (fun x y => Behind number (!o.isBuy) y x)

/-- A queue beside orders that do not cross, as the engine holds them. -/
def pool (number : Id → Nat) (best : Orders) (others : Multiset Resting) : Multiset Resting :=
  (best.map (stamp number) : List Resting) + others

theorem mem_pool {number : Id → Nat} {best : Orders} {others : Multiset Resting} {r : Resting} :
    r ∈ pool number best others ↔ (∃ x ∈ best, stamp number x = r) ∨ r ∈ others := by
  rw [pool, Multiset.mem_add, Multiset.mem_coe, List.mem_map]

variable {number : Id → Nat} {o : Order} {others : Multiset Resting}

theorem Queue.tail {best : Order} {rest : Orders} (h : Queue number o (best :: rest)) :
    Queue number o rest :=
  ⟨fun x hx => h.across x (List.mem_cons_of_mem _ hx), (List.pairwise_cons.mp h.order).2⟩

/-- The head of the queue is the one order the engine may pick. -/
theorem isBest_iff (hother : ∀ r ∈ others, ¬Crosses o r.order) {best : Order} {rest : Orders}
    (h : Queue number o (best :: rest)) (hm : isMatch o best = true) {r : Resting} :
    IsBest o (pool number (best :: rest) others) r ↔ r = stamp number best := by
  have hcross : Crosses o best := crosses_iff.mpr ⟨h.across best (List.mem_cons_self ..), hm⟩
  have hmem : stamp number best ∈ pool number (best :: rest) others :=
    mem_pool.mpr (Or.inl ⟨best, List.mem_cons_self .., rfl⟩)
  have hbehind := (List.pairwise_cons.mp h.order).1
  constructor
  · rintro ⟨hr, hrc, hmin⟩
    rcases mem_pool.mp hr with ⟨x, hx, rfl⟩ | hr
    · rcases List.mem_cons.mp hx with hx | hx
      · rw [hx]
      · exact absurd (beats_iff.mpr (hbehind x hx)) (hmin _ hmem hcross)
    · exact absurd hrc (hother r hr)
  · intro hr
    subst hr
    refine ⟨hmem, hcross, fun r' hr' hc hb => ?_⟩
    rcases mem_pool.mp hr' with ⟨x, hx, rfl⟩ | hr'
    · rcases List.mem_cons.mp hx with hx | hx
      · exact behind_irrefl (beats_iff.mp (hx ▸ hb))
      · exact behind_asymm (hbehind x hx) (beats_iff.mp hb)
    · exact hother r' hr' hc

/-- When the head of the queue does not match, nothing crosses. -/
theorem not_crosses (hother : ∀ r ∈ others, ¬Crosses o r.order) {best : Orders}
    (h : Queue number o best) (hm : ∀ x ∈ best.head?, isMatch o x = false) :
    ∀ r ∈ pool number best others, ¬Crosses o r.order := by
  intro r hr hc
  rcases mem_pool.mp hr with ⟨x, hx, rfl⟩ | hr
  · have hxm := (crosses_iff.mp hc).2
    cases best with
    | nil => cases hx
    | cons y rest =>
        have hy : isMatch o y = false := hm y rfl
        rcases List.mem_cons.mp hx with hx | hx
        · subst hx
          exact absurd (hxm.symm.trans hy) (by decide)
        · have := isMatch_behind ((List.pairwise_cons.mp h.order).1 x hx) hxm
          rw [hy] at this
          exact absurd this (by decide)
  · exact hother r hr hc

/-- What is left of the pool when its head gives up `size`. -/
theorem take_head (best : Order) (rest : Orders) (size : Quantity) :
    take (pool number (best :: rest) others) (stamp number best) size
      = if best.qty - size = 0 then pool number rest others
        else pool number (best.setQty (best.qty - size) :: rest) others := by
  have herase : (pool number (best :: rest) others).erase (stamp number best)
      = pool number rest others := by
    rw [pool, List.map_cons, ← Multiset.cons_coe, Multiset.cons_add, Multiset.erase_cons_head]
    rfl
  unfold take
  rw [herase]
  show (if best.qty - size = 0 then _ else _) = _
  split
  · rfl
  · rw [pool, pool, List.map_cons, ← Multiset.cons_coe, Multiset.cons_add]
    rfl

/-- An engine with nothing to trade, or nobody to trade with, stops. -/
theorem fills_done {rs rs' : Multiset Resting} {q q' : Quantity} {ts : Trades}
    (hno : 0 < q → ∀ r ∈ rs, ¬Crosses o r.order) :
    Fills o rs q ts rs' q' ↔ ts = [] ∧ rs' = rs ∧ q' = q := by
  constructor
  · intro h
    cases h with
    | done _ => exact ⟨rfl, rfl, rfl⟩
    | trade hq hb _ => exact absurd hb.2.1 (hno hq _ hb.1)
  · rintro ⟨rfl, rfl, rfl⟩
    exact Fills.done hno

/-- An engine with one best order trades with it. -/
theorem fills_trade {rs rs' : Multiset Resting} {q q' : Quantity} {ts : Trades} {best : Resting}
    (hq : 0 < q) (hbest : ∀ r, IsBest o rs r ↔ r = best) :
    Fills o rs q ts rs' q' ↔ ∃ ts', ts = mkTrade o best.order (min best.order.qty q) :: ts'
      ∧ Fills o (take rs best (min best.order.qty q)) (q - min best.order.qty q) ts' rs' q' := by
  constructor
  · intro h
    cases h with
    | done hno =>
        have hb := (hbest best).mpr rfl
        exact absurd hb.2.1 (hno hq _ hb.1)
    | trade _ hb hrest =>
        rw [(hbest _).mp hb] at hrest ⊢
        exact ⟨_, by rw [trade_eq], hrest⟩
  · rintro ⟨ts', rfl, hrest⟩
    rw [← trade_eq]
    exact Fills.trade hq ((hbest best).mpr rfl) hrest

/-- **Matching refines the engine**: `fill` is the one way the engine can fill `o`. -/
theorem fills_iff (hother : ∀ r ∈ others, ¬Crosses o r.order) {best : Orders} {q q' : Quantity}
    {ts : Trades} {rs : Multiset Resting} (h : Queue number o best) :
    Fills o (pool number best others) q ts rs q' ↔
      ts = (fill o best q).trades ∧ rs = pool number (fill o best q).opposite others
        ∧ q' = (fill o best q).remaining := by
  fun_induction fill o best q generalizing ts with
  | case1 q => exact fills_done fun _ => not_crosses hother h (by simp)
  | case2 b rest q hc size hz m =>
      rename_i ih
      -- used up: go on with the rest of the queue
      rw [fills_trade hc.1 fun r => isBest_iff hother h hc.2, stamp_order, take_head, if_pos hz]
      constructor
      · rintro ⟨ts', rfl, hrest⟩
        obtain ⟨rfl, h2, h3⟩ := (ih h.tail).mp hrest
        exact ⟨rfl, h2, h3⟩
      · rintro ⟨rfl, h2, h3⟩
        exact ⟨_, rfl, (ih h.tail).mpr ⟨rfl, h2, h3⟩⟩
  | case3 b rest q hc size =>
      rename_i hz
      -- reduced: nothing of `o` is left to trade
      rw [fills_trade hc.1 fun r => isBest_iff hother h hc.2, stamp_order, take_head, if_neg hz]
      have hzero : q - size = 0 := remaining_zero hz
      have hno : ¬0 < q - size := by
        rw [hzero]
        decide
      constructor
      · rintro ⟨ts', rfl, hrest⟩
        obtain ⟨rfl, h2, h3⟩ := (fills_done fun hq => absurd hq hno).mp hrest
        exact ⟨rfl, h2, h3⟩
      · rintro ⟨rfl, rfl, rfl⟩
        exact ⟨_, rfl, (fills_done fun hq => absurd hq hno).mpr ⟨rfl, rfl, rfl⟩⟩
  | case4 b rest q hc =>
      refine fills_done fun hq => not_crosses hother h fun x hx => ?_
      rw [← Option.mem_some.mp hx]
      exact Bool.eq_false_iff.mpr fun hm => hc ⟨hq, hm⟩

/-! ## Call by call -/

/-- The engine's collection, split at an incoming order. -/
theorem engine_resting (w : World) (o : Order) :
    w.engine.resting = pool w.number (w.book.side (!o.isBuy)).reverse
      ((w.book.side o.isBuy).map (stamp w.number) : List Resting) := by
  have hrev : ∀ l : Orders, ((l.reverse.map (stamp w.number) : List Resting) : Multiset Resting)
      = (l.map (stamp w.number) : List Resting) := by
    intro l
    rw [List.map_reverse]
    exact Multiset.coe_eq_coe.mpr (List.reverse_perm _)
  unfold World.engine pool
  dsimp only
  rw [hrev, List.map_append, ← Multiset.coe_add]
  cases o.isBuy with
  | true => exact Multiset.add_comm _ _
  | false => rfl

theorem mem_engine {w : World} {r : Resting} :
    r ∈ w.engine.resting ↔ ∃ s, ∃ x ∈ w.book.side s, stamp w.number x = r := by
  unfold World.engine
  dsimp only
  rw [Multiset.mem_coe, List.mem_map]
  constructor
  · rintro ⟨x, hx, hr⟩
    rcases List.mem_append.mp hx with hx | hx
    · exact ⟨true, x, hx, hr⟩
    · exact ⟨false, x, hx, hr⟩
  · rintro ⟨s, x, hx, hr⟩
    cases s with
    | true => exact ⟨x, List.mem_append_left _ hx, hr⟩
    | false => exact ⟨x, List.mem_append_right _ hx, hr⟩

theorem rests_engine {w : World} {i : Id} :
    w.book.rests i = true ↔ ∃ r ∈ w.engine.resting, r.order.id = i := by
  rw [rests_iff]
  constructor
  · rintro ⟨s, x, hx, hi⟩
    exact ⟨_, mem_engine.mpr ⟨s, x, hx, rfl⟩, hi⟩
  · rintro ⟨r, hr, hi⟩
    obtain ⟨s, x, hx, rfl⟩ := mem_engine.mp hr
    exact ⟨s, x, hx, hi⟩

theorem engine_queue {w : World} (h : WorldInv w) (o : Order) :
    Queue w.number o (w.book.side (!o.isBuy)).reverse where
  across := fun x hx => h.book.isBuy _ x (List.mem_reverse.mp hx)
  order := by rw [List.pairwise_reverse]; exact h.book.order _

/-- A new number for one id changes the stamps of no other. -/
theorem map_stamp_congr {number : Id → Nat} {i : Id} {n : Nat} {l : Orders}
    (hl : ∀ x ∈ l, x.id ≠ i) :
    l.map (stamp fun j => if j = i then n else number j) = l.map (stamp number) := by
  refine List.map_congr_left fun x hx => ?_
  unfold stamp
  dsimp only
  rw [if_neg (hl x hx)]

theorem stamp_new (number : Id → Nat) (o : Order) (q : Quantity) (n : Nat) :
    stamp (fun j => if j = o.id then n else number j) (o.setQty q)
      = { order := o.setQty q, number := n } := by
  unfold stamp
  dsimp only
  rw [setQty_id, if_pos rfl]

/-- The engine state after an accepted order. -/
theorem engine_accept {w : World} (h : WorldInv w) {o : Order} (ha : w.book.accepts o) :
    (w.call (.addOrder o)).1.engine
      = { resting :=
            let rs := pool w.number (w.book.filled o).opposite
              ((w.book.side o.isBuy).map (stamp w.number) : List Resting)
            if 0 < (w.book.filled o).remaining then
              { order := o.setQty (w.book.filled o).remaining, number := w.accepted } ::ₘ rs
            else rs
          accepted := w.accepted + 1 } := by
  have hfree := not_rests_iff.mp ha.1
  obtain ⟨_, hopp, hown⟩ := addOrder_spec ha.1
  have hleft : ∀ x ∈ (w.book.filled o).opposite, x.id ≠ o.id := by
    intro x hx
    obtain ⟨y, hy, hxy, _⟩ := fill_mem hx
    rw [hxy]
    exact hfree _ y (List.mem_reverse.mp hy)
  have hcall : (w.call (.addOrder o)).1
      = { book := (w.book.addOrder o).1, accepted := w.accepted + 1,
          number := fun i => if i = o.id then w.accepted else w.number i } := by
    rw [World.call]
    dsimp only
    rw [if_pos ha]
  have hrest := engine_resting (w.call (.addOrder o)).1 o
  rw [hcall] at hrest ⊢
  dsimp only at hrest
  rw [hopp, hown, List.reverse_reverse, pool, map_stamp_congr hleft] at hrest
  refine congrArg (fun rs => Engine.mk rs (w.accepted + 1)) (hrest.trans ?_)
  split
  · -- the rest of the order gets the new number, wherever it is put
    have hperm := insertSorted_perm (o := o.setQty (w.book.filled o).remaining)
      (h.book.order o.isBuy)
    rw [Multiset.coe_eq_coe.mpr (hperm.map _), List.map_cons, map_stamp_congr (hfree o.isBuy),
      ← Multiset.cons_coe, Multiset.add_cons, stamp_new]
    rfl
  · rw [map_stamp_congr (hfree o.isBuy)]
    rfl

/-- **Each call of the code is the one thing the engine can do.** -/
theorem does_iff {w : World} (h : WorldInv w) (c : Call) {ts : Trades} {e : Engine} :
    Does w.engine c ts e ↔ ts = (w.call c).2 ∧ e = (w.call c).1.engine := by
  cases c with
  | cancelOrder i =>
      have hafter : (w.call (.cancelOrder i)).1.engine
          = { w.engine with resting := w.engine.resting.filter (fun r => r.order.id ≠ i) } := by
        have hb := cancelOrder_side h.book.distinct i true
        have hs := cancelOrder_side h.book.distinct i false
        rw [side_true, side_true] at hb
        rw [side_false, side_false] at hs
        unfold World.engine World.call
        dsimp only
        rw [hb, hs, ← List.filter_append, Multiset.filter_coe, List.filter_map]
        refine congrArg (fun l : Orders => Engine.mk (l.map (stamp w.number) : List Resting) _) ?_
        refine List.filter_congr fun x _ => ?_
        by_cases hi : x.id = i <;> simp [stamp, hi]
      rw [hafter]
      constructor
      · intro hd
        cases hd
        exact ⟨rfl, rfl⟩
      · rintro ⟨rfl, rfl⟩
        exact Does.cancel
  | addOrder o =>
      by_cases ha : w.book.accepts o
      · have hfills : ∀ {ts : Trades} {rs : Multiset Resting} {q : Quantity},
            Fills o w.engine.resting o.qty ts rs q ↔ ts = (w.book.filled o).trades
              ∧ rs = pool w.number (w.book.filled o).opposite
                ((w.book.side o.isBuy).map (stamp w.number) : List Resting)
              ∧ q = (w.book.filled o).remaining := by
          intro ts rs q
          rw [engine_resting w o]
          refine fills_iff (fun r hr hc => ?_) (engine_queue h o)
          obtain ⟨x, hx, rfl⟩ := List.mem_map.mp (Multiset.mem_coe.mp hr)
          have hb : x.isBuy = !o.isBuy := hc.1
          rw [h.book.isBuy _ x hx] at hb
          exact absurd hb (by simp)
        have htrades : (w.call (.addOrder o)).2 = (w.book.filled o).trades := by
          rw [(world_call w _).2]
          exact (addOrder_spec ha.1).1
        rw [htrades, engine_accept h ha]
        constructor
        · intro hd
          cases hd with
          | ignore hi =>
              rcases hi with hi | hi
              · rw [← rests_engine, ha.1] at hi
                exact absurd hi (by decide)
              · exact absurd ha.2 hi
          | accept _ _ hf =>
              obtain ⟨rfl, rfl, rfl⟩ := hfills.mp hf
              exact ⟨rfl, rfl⟩
        · rintro ⟨rfl, rfl⟩
          refine Does.accept (fun r hr hi => ?_) ha.2 (hfills.mpr ⟨rfl, rfl, rfl⟩)
          have := rests_engine.mpr ⟨r, hr, hi⟩
          rw [ha.1] at this
          exact absurd this (by decide)
      · have hcall : w.call (.addOrder o) = (w, []) := by
          rw [World.call]
          dsimp only
          rw [if_neg ha, addOrder_idle ha]
        have hno : (∃ r ∈ w.engine.resting, r.order.id = o.id) ∨ ¬0 < o.qty := by
          by_cases hq : 0 < o.qty
          · refine Or.inl (rests_engine.mp ?_)
            exact Bool.not_eq_false _ ▸ fun hf => ha ⟨hf, hq⟩
          · exact Or.inr hq
        rw [hcall]
        constructor
        · intro hd
          cases hd with
          | ignore _ => exact ⟨rfl, rfl⟩
          | accept hfree hq _ =>
              rcases hno with ⟨r, hr, hi⟩ | hno
              · exact absurd hi (hfree r hr)
              · exact absurd hq hno
        · rintro ⟨rfl, rfl⟩
          exact Does.ignore hno

/-- **Every run of the code is the one run of the engine.** -/
theorem runs_iff (cs : List Call) : ∀ {w : World}, WorldInv w → ∀ {tss : List Trades} {e : Engine},
    Runs w.engine cs tss e ↔
      tss = Machine.outputs World.call w cs ∧ e = (Machine.final World.call w cs).engine := by
  induction cs with
  | nil =>
      intro w _ tss e
      constructor
      · intro hr
        cases hr
        exact ⟨rfl, rfl⟩
      · rintro ⟨rfl, rfl⟩
        exact Runs.nil
  | cons c cs ih =>
      intro w h tss e
      rw [Machine.outputs_cons, Machine.final_cons]
      constructor
      · intro hr
        cases hr with
        | cons hd hr =>
            obtain ⟨rfl, rfl⟩ := (does_iff h c).mp hd
            obtain ⟨rfl, rfl⟩ := (ih (worldInv_call w c h)).mp hr
            exact ⟨rfl, rfl⟩
      · rintro ⟨rfl, rfl⟩
        exact Runs.cons ((does_iff h c).mpr ⟨rfl, rfl⟩)
          ((ih (worldInv_call w c h)).mpr ⟨rfl, rfl⟩)

/--
**Price-time priority.**

What the calls of a run from the empty book return is what the reference engine
returns for the same calls, trade by trade and field by field: the engine can run,
and it can return nothing else.
-/
theorem price_time_priority (cs : List Call) (tss : List Trades) :
    (∃ e, Runs Engine.empty cs tss e) ↔ tss = answers Book.empty cs := by
  have hr : ∀ e, Runs Engine.empty cs tss e ↔
      tss = answers Book.empty cs ∧ e = (Machine.final World.call {} cs).engine := by
    intro e
    rw [← (world_run cs {}).2]
    exact runs_iff cs worldInv_init
  constructor
  · exact fun ⟨e, he⟩ => ((hr e).mp he).1
  · exact fun ht => ⟨_, (hr _).mpr ⟨ht, rfl⟩⟩

end QuickStructs.Orderbook
