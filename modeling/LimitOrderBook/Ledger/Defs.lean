import LimitOrderBook.OrderBook.Defs
import LimitOrderBook.Lib.SortedKeys
import Mathlib.Tactic.Simps.Basic

/-!
# The ledger: a book without pointers

What a book is about, once its trees and its links have been read: each tree is
the sorted list of its keys, each level has a list of orders. The operations are
total functions – nothing can go wrong – and mirror those of
`LimitOrderBook.OrderBook` one by one; `LimitOrderBook.Refines` relates the two.

An order remembers the level it was put into (`LimitOrderBook.Ledger.parent`) even
when it is no longer in its queue, as the object in the source does.
-/

namespace LimitOrderBook

/-- The contents of a book. -/
structure Ledger where
  instrument : String
  marketPrice : ℚ
  order : ℕ → OrderData
  nextOrder : ℕ
  limit : ℕ → LimitData
  nextLimit : ℕ
  /-- The levels on a side, `true` for the bids, best price first. -/
  levels : Bool → List ℕ
  /-- The orders of a level, oldest first. -/
  queue : ℕ → List ℕ
  parent : ℕ → Option ℕ
  /-- The parked stop orders of a side. -/
  stops : Bool → List ℕ
  dates : List ℕ
  orders : AList fun _ : String => ℕ
  orderQueue : List ℕ
  tradeQueue : List Trade
  executions : List Execution

namespace Ledger

/-- The remaining quantity of an order. -/
def qty (L : Ledger) (o : ℕ) : ℚ := (L.order o).currentQty

def limitLess (L : Ledger) (isBuy : Bool) (a b : ℕ) : Bool :=
  limitComparator (!isBuy) (L.limit a) (L.limit b)

def stopLess (L : Ledger) (isBuy : Bool) (a b : ℕ) : Bool :=
  orderComparator isBuy (L.order a) (L.order b)

def dateLess (L : Ledger) (a b : ℕ) : Bool := dateOrderComparator true (L.order a) (L.order b)

theorem limitLess_strictWeak (L : Ledger) (isBuy : Bool) : StrictWeak (L.limitLess isBuy) :=
  limitComparator_strictWeak (!isBuy) L.limit

theorem stopLess_strictWeak (L : Ledger) (isBuy : Bool) : StrictWeak (L.stopLess isBuy) :=
  orderComparator_strictWeak isBuy L.order

theorem dateLess_strictWeak (L : Ledger) : StrictWeak L.dateLess :=
  dateOrderComparator_strictWeak true L.order

/-! ### Objects -/

@[simps]
def updateData (L : Ledger) (o : ℕ) (f : OrderData → OrderData) : Ledger :=
  { L with order := Function.update L.order o (f (L.order o)) }

@[simps]
def updateLimitData (L : Ledger) (l : ℕ) (f : LimitData → LimitData) : Ledger :=
  { L with limit := Function.update L.limit l (f (L.limit l)) }

@[simps]
def allocOrder (L : Ledger) (o : OrderData) : Ledger :=
  { L with order := Function.update L.order L.nextOrder o
           parent := Function.update L.parent L.nextOrder none
           nextOrder := L.nextOrder + 1 }

@[simps]
def allocLimit (L : Ledger) (price : ℚ) : Ledger :=
  { L with limit := Function.update L.limit L.nextLimit { price := price }
           queue := Function.update L.queue L.nextLimit []
           nextLimit := L.nextLimit + 1 }

@[simps]
def enqueueOrder (L : Ledger) (o : ℕ) : Ledger := { L with orderQueue := L.orderQueue ++ [o] }

/-! ### Queues -/

@[simps]
def setParent (L : Ledger) (o l : ℕ) : Ledger :=
  { L with parent := Function.update L.parent o (some l) }

@[simps]
def setQueues (L : Ledger) (q : ℕ → List ℕ) : Ledger := { L with queue := q }

/-- Put an order into a level, whose queue becomes `q`. -/
@[simps]
def place (L : Ledger) (o l : ℕ) (q : List ℕ) : Ledger :=
  { L with parent := Function.update L.parent o (some l)
           queue := Function.update L.queue l q
           limit := Function.update L.limit l ((L.limit l).increaseVolume (L.qty o)) }

/-- A new level on a side. -/
@[simps]
def openLevel (L : Ledger) (limit : ℕ) (isBuy : Bool) : Ledger :=
  { L with levels := Function.update L.levels isBuy
            (insertKey (L.limitLess isBuy) limit (L.levels isBuy)) }

/-- Put an order into the level with the price of `limit`, which becomes a level
of the side if there is none. -/
def addLimitOrder (L : Ledger) (o limit : ℕ) (isBuy : Bool) : Ledger :=
  match findKey (L.limitLess isBuy) limit (L.levels isBuy) with
  | some l => L.place o l (L.queue l ++ [o])
  | none => (L.openLevel limit isBuy).place o limit [o]

@[simps]
def insertEntry (L : Ledger) (o : ℕ) : Ledger :=
  { L with orders := L.orders.insert (L.order o).id o }

@[simps]
def eraseEntry (L : Ledger) (o : ℕ) : Ledger := { L with orders := L.orders.erase (L.order o).id }

/-- Take an order out of the queue of a level, and out of the index. -/
@[simps]
def displace (L : Ledger) (o l : ℕ) : Ledger :=
  { L with
    limit := Function.update L.limit l
      ((L.limit l).decreaseVolume (L.qty o)).decreaseNumberOfOrders
    queue := Function.update L.queue l ((L.queue l).erase o)
    orders := L.orders.erase (L.order o).id }

def removeLimitOrder (L : Ledger) (o : ℕ) : Ledger :=
  match L.parent o with
  | none => L
  | some l => L.displace o l

/-! ### Stop orders and dated orders -/

@[simps]
def addStopOrder (L : Ledger) (o : ℕ) (isBuy : Bool) : Ledger :=
  { L with stops := Function.update L.stops isBuy
            (insertKey (L.stopLess isBuy) o (L.stops isBuy)) }

@[simps]
def removeStopOrder (L : Ledger) (o : ℕ) : Ledger :=
  { L with
    stops := Function.update L.stops (L.order o).isBuy
      (eraseKey (L.stopLess (L.order o).isBuy) o (L.stops (L.order o).isBuy))
    orders := L.orders.erase (L.order o).id }

@[simps]
def insertDate (L : Ledger) (o : ℕ) : Ledger := { L with dates := insertKey L.dateLess o L.dates }

@[simps]
def eraseDate (L : Ledger) (o : ℕ) : Ledger := { L with dates := eraseKey L.dateLess o L.dates }

def addDateOrder (L : Ledger) (o : ℕ) : Ledger :=
  if (L.order o).isDated then L.insertDate o else L

/-! ### Matching -/

/-- What one call of `resolve_orders` moves between the two orders. -/
def exchange (L : Ledger) (currOrder order : ℕ) : Ledger :=
  if L.qty currOrder ≥ L.qty order then
    (L.updateData currOrder fun x =>
      { x with currentQty := L.qty currOrder - L.qty order }).updateData order .fill
  else if !(L.order order).hasParam .aon then
    (L.updateData order fun x =>
      { x with currentQty := L.qty order - L.qty currOrder }).updateData currOrder .fill
  else L

@[simps]
def logExecution (L : Ledger) (e : Execution) : Ledger :=
  { L with executions := L.executions ++ [e] }

/-- The history after one call of `resolve_orders`. -/
def recordExecution (L L' : Ledger) (currOrder order : ℕ) (price : ℚ) : Ledger :=
  let volume := L.qty order - L'.qty order
  if 0 < volume ∧ L.qty currOrder - L'.qty currOrder = volume then
    L'.logExecution ⟨order, currOrder, volume, price⟩
  else L'

def resolveOrders (L : Ledger) (currOrder order : ℕ) (crossPrice : ℚ) : Ledger :=
  recordExecution L (L.exchange currOrder order) currOrder order crossPrice

def removeFilled (L : Ledger) (o : ℕ) : Ledger :=
  if (L.order o).isFullfilled then L.removeLimitOrder o else L

/-- The body of the loop over the orders of a level. -/
def fillOrder (L : Ledger) (currOrder order : ℕ) (crossPrice : ℚ) : Ledger :=
  (L.resolveOrders currOrder order crossPrice).removeFilled currOrder

/-- The loop over the orders of a level. -/
def processOrders (order : ℕ) (crossPrice : ℚ) : Ledger → List ℕ → Ledger
  | L, [] => L
  | L, currOrder :: rest =>
    if 0 < L.qty order then
      processOrders order crossPrice (L.fillOrder currOrder order crossPrice) rest
    else L

def processLimitOrder (L : Ledger) (oppositeLimit order : ℕ) (crossPrice : ℚ) : Ledger :=
  processOrders order crossPrice L (L.queue oppositeLimit)

@[simps]
def setMarketPrice (L : Ledger) (price : ℚ) : Ledger := { L with marketPrice := price }

/-- A level that an all-or-nothing order passes over. -/
def skips (L : Ledger) (order oppositeLimit : ℕ) : Bool :=
  (L.order order).hasParam .aon && (L.limit oppositeLimit).activeVolume < L.qty order

/-- The loop over the levels of the opposite side. -/
def matchLimits (order : ℕ) : Ledger → List ℕ → Ledger × Bool
  | L, [] => (L, false)
  | L, oppositeLimit :: rest =>
    if L.skips order oppositeLimit then matchLimits order L rest
    else match OrderBook.calculateCrossPrice (L.order order) (L.limit oppositeLimit) with
      | none => (L, false)
      | some crossPrice =>
        let L := (L.processLimitOrder oppositeLimit order crossPrice).setMarketPrice crossPrice
        if L.qty order = 0 then (L, true) else matchLimits order L rest

/-! ### Requests -/

/-- A new order comes to rest at its own price. -/
def restOrder (L : Ledger) (o : ℕ) : Ledger :=
  let limit := L.nextLimit
  let L := (L.allocLimit (L.order o).price).addLimitOrder o limit (L.order o).isBuy
  (L.insertEntry o).addDateOrder o

/-- A stop order is parked. -/
def parkOrder (L : Ledger) (o : ℕ) : Ledger :=
  (L.addStopOrder o (L.order o).isBuy).addDateOrder o

/-- The orders that `add_order` parks. -/
def isParked (L : Ledger) (o : ℕ) : Bool :=
  (L.order o).hasParam .stop && (L.order o).isDormant L.marketPrice

/-- The end of `add_order`, after matching. -/
def settle (L : Ledger) (o : ℕ) (filled : Bool) : Ledger × OrderStatus :=
  if filled then (L, .matched)
  else if (L.order o).hasParam .fok then (L.updateData o .cancel, .notMatched)
  else (L.restOrder o, .accepted)

def addOrder (L : Ledger) (o : ℕ) : Ledger × OrderStatus :=
  let L := L.enqueueOrder o
  if L.isParked o then (L.parkOrder o, .accepted)
  else
    let r := matchLimits o (L.updateData o .activated) (L.levels (!(L.order o).isBuy))
    r.1.settle o r.2

def replaceOrder (L : Ledger) (orderbookEntry o : ℕ) : Ledger :=
  if (L.order orderbookEntry).hasParam .stop then
    (L.removeStopOrder o).addStopOrder o (L.order o).isBuy
  else match L.parent orderbookEntry with
    | none => L
    | some limit => (L.removeLimitOrder orderbookEntry).addLimitOrder o limit (L.order o).isBuy

def modifyOrder (L : Ledger) (o : ℕ) : Ledger × OrderStatus :=
  match L.orders.lookup (L.order o).id with
  | none => (L, .notFound)
  | some orderbookEntry =>
    if !(L.order orderbookEntry).cancelled && !(L.order orderbookEntry).isFullfilled then
      (((L.updateData orderbookEntry .cancel).replaceOrder orderbookEntry o).enqueueOrder o,
        .modified)
    else (L, .notFound)

def removeOrder (L : Ledger) (o : ℕ) : Ledger :=
  if (L.order o).hasParam .stop then L.removeStopOrder o else L.removeLimitOrder o

def cancelOrder (L : Ledger) (id : String) : Ledger × OrderStatus :=
  match L.orders.lookup id with
  | none => (L, .notFound)
  | some orderbookEntry =>
    (((L.updateData orderbookEntry .cancel).removeOrder orderbookEntry).enqueueOrder
      orderbookEntry, .cancelled)

/-- The first loop of `check_date_orders`; the orders that are due are a first part
of the list. -/
def cancelDue (now : ℤ) : Ledger → List ℕ → Ledger
  | L, [] => L
  | L, o :: rest =>
    if (L.order o).isDue now then cancelDue now (L.cancelOrder (L.order o).id).1 rest else L

/-- The second loop of `check_date_orders`. -/
def removeDates : Ledger → List ℕ → Ledger
  | L, [] => L
  | L, o :: removedOrders => removeDates (L.eraseDate o) removedOrders

/-- The dated orders that are due at a time. -/
def dueOrders (L : Ledger) (now : ℤ) : List ℕ :=
  L.dates.takeWhile fun o => (L.order o).isDue (now + 3600)

def checkDateOrders (L : Ledger) (now : ℤ) : Ledger :=
  (cancelDue (now + 3600) L L.dates).removeDates (L.dueOrders now)

/-! ### The constructor, and runs -/

def recoverOrder (L : Ledger) (o : ℕ) : Ledger :=
  if (L.order o).hasParam .stop then L.addStopOrder o (L.order o).isBuy
  else (L.allocLimit (L.order o).price).addLimitOrder o L.nextLimit (L.order o).isBuy

def recover : Ledger → List OrderData → Ledger
  | L, [] => L
  | L, o :: rest => recover ((L.allocOrder o).recoverOrder L.nextOrder) rest

/-- The ledger of a book without orders. -/
def empty (instrument : String) (marketPrice : ℚ) : Ledger where
  instrument := instrument
  marketPrice := marketPrice
  order := fun o => ((OrderBook.empty instrument marketPrice).order o).toOrderData
  nextOrder := 0
  limit := fun l => ((OrderBook.empty instrument marketPrice).limit l).toLimitData
  nextLimit := 0
  levels := fun _ => []
  queue := fun _ => []
  parent := fun _ => none
  stops := fun _ => []
  dates := []
  orders := ∅
  orderQueue := []
  tradeQueue := []
  executions := []

def step (L : Ledger) : OrderBook.Request → Ledger × Option OrderStatus
  | .add _ a =>
    let r := (L.allocOrder a.toData).addOrder L.nextOrder
    (r.1, some r.2)
  | .modify a =>
    let r := (L.allocOrder a.toData).modifyOrder L.nextOrder
    (r.1, some r.2)
  | .cancel id =>
    let r := L.cancelOrder id
    (r.1, some r.2)
  | .checkDate now => (L.checkDateOrders now, none)

/-- The requests of a list, one after the other. -/
def run : Ledger → List OrderBook.Request → Ledger × List (Option OrderStatus)
  | L, [] => (L, [])
  | L, r :: rs => ((run (L.step r).1 rs).1, (L.step r).2 :: (run (L.step r).1 rs).2)

end Ledger

end LimitOrderBook
