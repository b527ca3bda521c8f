import QuickStructs.Structs.Orderbook
import Mathlib.Data.Multiset.Filter

/-!
# What an order book is for: price-time priority

The reference engine keeps the resting orders in no order at all, each with the
number under which it was accepted. An incoming order trades with the best price
across from it and, at one price, with the lowest number; nothing here sorts,
searches or stores in a place. The engine is a relation, so that which order is
picked is a condition and not a choice of the implementation.
-/

namespace QuickStructs.PriceTime

open Orderbook

/-- A resting order and its acceptance number. -/
structure Resting where
  order : Order
  number : Nat
  deriving DecidableEq

/-- The engine: an unordered collection, and how many orders were accepted so far. -/
structure Engine where
  resting : Multiset Resting
  accepted : Nat

def Engine.empty : Engine := ⟨0, 0⟩

/-- The buy level is at or above the sell level, for orders of opposite sides. -/
def Crosses (o r : Order) : Prop :=
  r.isBuy = !o.isBuy ∧ if o.isBuy then r.level ≤ o.level else o.level ≤ r.level

/-- Trading with `o`, `r` comes before `r'`: a lower ask or a higher bid, or the same
price and an earlier acceptance. -/
def Beats (o : Order) (r r' : Resting) : Prop :=
  (if o.isBuy then r.order.level < r'.order.level else r'.order.level < r.order.level)
    ∨ r.order.level = r'.order.level ∧ r.number < r'.number

/-- `r` crosses `o` and nothing that crosses `o` comes before it. -/
def IsBest (o : Order) (rs : Multiset Resting) (r : Resting) : Prop :=
  r ∈ rs ∧ Crosses o r.order ∧ ∀ r' ∈ rs, Crosses o r'.order → ¬Beats o r' r

/-- A trade at the sell order's level, with the buyer first. -/
def tradeOf (buyer seller incoming : Order) (size : Quantity) : Trade where
  orderIdA := buyer.id
  orderIdB := seller.id
  aggressorOrderId := incoming.id
  aggressorIsBuy := incoming.isBuy
  level := seller.level
  size := size

/-- `r` gives up `size`, and leaves when nothing is left. -/
def take (rs : Multiset Resting) (r : Resting) (size : Quantity) : Multiset Resting :=
  if r.order.qty - size = 0 then rs.erase r
  else { r with order := r.order.setQty (r.order.qty - size) } ::ₘ rs.erase r

/-- `Fills o rs q ts rs' q'`: with `q` to trade against `rs`, `o` makes the trades `ts`
and leaves `rs'` and `q'`. -/
inductive Fills (o : Order) :
    Multiset Resting → Quantity → Trades → Multiset Resting → Quantity → Prop where
  | done {rs : Multiset Resting} {q : Quantity} :
      (0 < q → ∀ r ∈ rs, ¬Crosses o r.order) → Fills o rs q [] rs q
  | trade {rs rs' : Multiset Resting} {q q' : Quantity} {r : Resting} {ts : Trades} :
      0 < q → IsBest o rs r →
      Fills o (take rs r (min r.order.qty q)) (q - min r.order.qty q) ts rs' q' →
      Fills o rs q
        ((if o.isBuy then tradeOf o r.order o (min r.order.qty q)
          else tradeOf r.order o o (min r.order.qty q)) :: ts) rs' q'

/-- One call on the engine. -/
inductive Does : Engine → Call → Trades → Engine → Prop where
  | ignore {e : Engine} {o : Order} :
      (∃ r ∈ e.resting, r.order.id = o.id) ∨ ¬0 < o.qty → Does e (.addOrder o) [] e
  | accept {e : Engine} {o : Order} {ts : Trades} {rs : Multiset Resting} {q : Quantity} :
      (∀ r ∈ e.resting, r.order.id ≠ o.id) → 0 < o.qty → Fills o e.resting o.qty ts rs q →
      Does e (.addOrder o) ts
        { resting := if 0 < q then { order := o.setQty q, number := e.accepted } ::ₘ rs else rs
          accepted := e.accepted + 1 }
  | cancel {e : Engine} {i : Id} :
      Does e (.cancelOrder i) []
        { e with resting := e.resting.filter (fun r => r.order.id ≠ i) }

/-- A run of the engine, with what each call returned. -/
inductive Runs : Engine → List Call → List Trades → Engine → Prop where
  | nil {e : Engine} : Runs e [] [] e
  | cons {e e' e'' : Engine} {c : Call} {cs : List Call} {ts : Trades} {tss : List Trades} :
      Does e c ts e' → Runs e' cs tss e'' → Runs e (c :: cs) (ts :: tss) e''

end QuickStructs.PriceTime
