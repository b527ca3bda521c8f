import QuickStructs.Lib.Search
import QuickStructs.Lib.Machine

/-!
# The limit order book

`Orderbook` keeps two vectors of orders and no timestamps. `bids` is kept in
non-decreasing and `asks` in non-increasing order of price, so on both sides the
order that trades next is the last element, and a new order is inserted in front
of those at its own price. Vectors are lists written from front to back: `back()`
is `getLast?`, `pop_back` is `dropLast`.
-/

namespace QuickStructs.Orderbook

open Lib

abbrev Id := UInt64
abbrev Price := Int64
abbrev Quantity := Int32

structure Order where
  id : Id
  level : Price
  isBuy : Bool
  qty : Quantity
  deriving DecidableEq, Repr

def Order.setQty (o : Order) (newQty : Quantity) : Order := { o with qty := newQty }

structure Trade where
  orderIdA : Id
  orderIdB : Id
  aggressorOrderId : Id
  aggressorIsBuy : Bool
  level : Price
  size : Quantity
  deriving DecidableEq, Repr

abbrev Orders := List Order
abbrev Trades := List Trade

structure Book where
  bids : Orders := []
  asks : Orders := []
  deriving DecidableEq, Repr

/-- `Orderbook()`: both vectors empty. The reserved capacity has no effect on any result. -/
def Book.empty : Book := {}

def canMatch (buy sell : Order) : Bool := buy.level ≥ sell.level

def Book.isDupe (b : Book) (order : Order) : Bool :=
  b.bids.any (fun o => o.id == order.id) || b.asks.any (fun o => o.id == order.id)

/-- The comparator each side hands to `lower_bound`: `std::less` for bids, `std::greater` for
asks. -/
def comesBefore (isBuy : Bool) (level : Price) (o : Order) : Bool :=
  if isBuy then o.level < level else o.level > level

def insertSorted (order : Order) (orders : Orders) : Orders :=
  orders.insertIdx (Search.lowerBound (comesBefore order.isBuy order.level) orders) order

def Book.insertOrder (b : Book) (order : Order) : Book :=
  if b.isDupe order then b
  else if order.isBuy then { b with bids := insertSorted order b.bids }
  else { b with asks := insertSorted order b.asks }

/-! ## Matching an incoming order -/

/-- The variables of the matching loop. -/
structure Matching where
  opposite : Orders
  remaining : Quantity
  trades : Trades
  deriving DecidableEq, Repr

/-- Does `incoming` match `best`, an order of the other side? -/
def isMatch (incoming best : Order) : Bool :=
  if incoming.isBuy then canMatch incoming best else canMatch best incoming

/-- The price is always the sell side's, and the buyer is always `orderIdA`. -/
def mkTrade (incoming best : Order) (size : Quantity) : Trade where
  orderIdA := if incoming.isBuy then incoming.id else best.id
  orderIdB := if incoming.isBuy then best.id else incoming.id
  aggressorOrderId := incoming.id
  aggressorIsBuy := incoming.isBuy
  level := if incoming.isBuy then best.level else incoming.level
  size := size

/-- One pass of `while (!opposite_side.empty() and remaining > 0)`. -/
def matchPass (incoming : Order) (m : Matching) : Option Matching :=
  match m.opposite.getLast? with
  | none => none
  | some best =>
    if m.remaining > 0 then
      if isMatch incoming best then
        let tradeSize := min best.qty m.remaining
        let best' := best.setQty (best.qty - tradeSize)
        some {
          opposite :=
            if best'.qty = 0 then m.opposite.dropLast else m.opposite.dropLast ++ [best']
          remaining := m.remaining - tradeSize
          trades := m.trades ++ [mkTrade incoming best tradeSize] }
      else none
    else none

/-- The loop. Each pass removes an order or uses up the quantity, so
`opposite.length + 1` passes are enough (`matchLoop_exits`). -/
def matchLoop (incoming : Order) (opposite : Orders) : Matching :=
  Loop.iterate (matchPass incoming) (opposite.length + 1)
    { opposite := opposite, remaining := incoming.qty, trades := [] }

/-- `incoming.is_buy() ? asks_ : bids_`. -/
def Book.opposite (b : Book) (incoming : Order) : Orders :=
  if incoming.isBuy then b.asks else b.bids

def Book.setOpposite (b : Book) (incoming : Order) (orders : Orders) : Book :=
  if incoming.isBuy then { b with asks := orders } else { b with bids := orders }

def Book.addOrder (b : Book) (incoming : Order) : Book × Trades :=
  if b.isDupe incoming then (b, [])
  else
    let m := matchLoop incoming (b.opposite incoming)
    let b' := b.setOpposite incoming m.opposite
    if m.remaining > 0 then (b'.insertOrder (incoming.setQty m.remaining), m.trades)
    else (b', m.trades)

/-- `erase(find_if(..))` on the bids, and on the asks only when no bid has the id. -/
def Book.cancelOrder (b : Book) (orderId : Id) : Book :=
  if b.bids.any (fun o => o.id == orderId) then
    { b with bids := b.bids.eraseP (fun o => o.id == orderId) }
  else { b with asks := b.asks.eraseP (fun o => o.id == orderId) }

/-! ## Runs -/

/-- A call that trades or cancels. -/
inductive Call where
  | addOrder (o : Order)
  | cancelOrder (id : Id)
  deriving DecidableEq, Repr

/-- `CancelOrder` returns nothing, which is no trades. -/
def Book.call (b : Book) : Call → Book × Trades
  | .addOrder o => b.addOrder o
  | .cancelOrder id => (b.cancelOrder id, [])

/-- The book after a list of calls. -/
abbrev after (b : Book) (cs : List Call) : Book := Machine.final Book.call b cs

/-- What each call of the list returns. -/
abbrev answers (b : Book) (cs : List Call) : List Trades := Machine.outputs Book.call b cs

theorem after_cons (b : Book) (c : Call) (cs : List Call) :
    after b (c :: cs) = after (b.call c).1 cs := rfl

theorem answers_cons (b : Book) (c : Call) (cs : List Call) :
    answers b (c :: cs) = (b.call c).2 :: answers (b.call c).1 cs := rfl

theorem after_append (b : Book) (cs ds : List Call) : after b (cs ++ ds) = after (after b cs) ds :=
  Machine.final_append ..

theorem answers_append (b : Book) (cs ds : List Call) :
    answers b (cs ++ ds) = answers b cs ++ answers (after b cs) ds := Machine.outputs_append ..

theorem after_concat (b : Book) (cs : List Call) (c : Call) :
    after b (cs ++ [c]) = ((after b cs).call c).1 := after_append b cs [c]

end QuickStructs.Orderbook
