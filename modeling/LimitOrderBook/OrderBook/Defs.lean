import LimitOrderBook.DataStructures
import LimitOrderBook.Storage.RBTree
import Mathlib.Data.List.AList
import Mathlib.Tactic.Simps.Basic

/-!
# The class `OrderBook`

The functions of `orderbook/orderbook.cpp`, with the state passed explicitly.
Orders and levels are objects in two heaps, reached through their numbers; the
five trees are those of `LimitOrderBook.RBTree` with such numbers as keys and
comparators that look into the heaps, as the comparators of the source look
through their shared pointers.

Four things the source leaves to the language or to its surroundings:

* `Defer` is given a lambda and is not kept in a variable, so the object is
  destroyed, and its lambda runs, at the end of the statement that builds it: in
  `add_order` the order is enqueued at once, in `match_order` the clean-up runs
  before anything has been put into the two vectors it goes over;
* `cancel_order` and `modify_order` go on using a map entry that they have erased;
  it is read as the order it held;
* the two repositories are the lists of what was enqueued to them;
* `time(0)` is an argument.

The field `executions` is not in the source: it is the history of the calls of
`resolve_orders` that moved a quantity, which the statements about trades and
prices talk about. Nothing reads it.
-/

namespace LimitOrderBook

/-- A call of `resolve_orders` that lowered the remaining quantities of both
orders by `volume`. -/
structure Execution where
  incoming : ℕ
  resting : ℕ
  volume : ℚ
  price : ℚ
  deriving DecidableEq

/-- The book. Its trees are keyed by the numbers of levels and orders. -/
structure OrderBook where
  instrument : String
  marketPrice : ℚ
  order : ℕ → Order
  nextOrder : ℕ
  limit : ℕ → Limit
  nextLimit : ℕ
  askLimits : RBTree ℕ
  bidLimits : RBTree ℕ
  askStopOrders : RBTree ℕ
  bidStopOrders : RBTree ℕ
  dateOrders : RBTree ℕ
  orders : AList fun _ : String => ℕ
  orderQueue : List ℕ
  tradeQueue : List Trade
  executions : List Execution

namespace OrderBook

/-! ### The heaps -/

/-- Change the order with number `o`. -/
@[simps]
def updateOrder (s : OrderBook) (o : ℕ) (f : Order → Order) : OrderBook :=
  { s with order := Function.update s.order o (f (s.order o)) }

/-- Change the fields of an order other than its links. -/
def updateData (s : OrderBook) (o : ℕ) (f : OrderData → OrderData) : OrderBook :=
  s.updateOrder o fun x => { x with toOrderData := f x.toOrderData }

/-- Change the level with number `l`. -/
@[simps]
def updateLimit (s : OrderBook) (l : ℕ) (f : Limit → Limit) : OrderBook :=
  { s with limit := Function.update s.limit l (f (s.limit l)) }

/-- Change the fields of a level other than its links. -/
def updateLimitData (s : OrderBook) (l : ℕ) (f : LimitData → LimitData) : OrderBook :=
  s.updateLimit l fun x => { x with toLimitData := f x.toLimitData }

/-- A new order, with number `s.nextOrder`. -/
@[simps]
def allocOrder (s : OrderBook) (o : OrderData) : OrderBook :=
  { s with order := Function.update s.order s.nextOrder (Order.ofData o)
           nextOrder := s.nextOrder + 1 }

/-- A new level, with number `s.nextLimit`. -/
@[simps]
def allocLimit (s : OrderBook) (price : ℚ) : OrderBook :=
  { s with limit := Function.update s.limit s.nextLimit (Limit.new price)
           nextLimit := s.nextLimit + 1 }

def setParent (s : OrderBook) (o : ℕ) (l : ℕ) : OrderBook :=
  s.updateOrder o fun x => { x with parent := some l }

def setPrev (s : OrderBook) (o : ℕ) (p : Option ℕ) : OrderBook :=
  s.updateOrder o fun x => { x with prev := p }

def setNext (s : OrderBook) (o : ℕ) (p : Option ℕ) : OrderBook :=
  s.updateOrder o fun x => { x with next := p }

def setHead (s : OrderBook) (l : ℕ) (p : Option ℕ) : OrderBook :=
  s.updateLimit l fun x => { x with head := p }

def setTail (s : OrderBook) (l : ℕ) (p : Option ℕ) : OrderBook :=
  s.updateLimit l fun x => { x with tail := p }

/-! ### The trees -/

/-- `is_buy ? _bid_limits : _ask_limits`. -/
def limits (s : OrderBook) (isBuy : Bool) : RBTree ℕ :=
  if isBuy then s.bidLimits else s.askLimits

def setLimits (s : OrderBook) (isBuy : Bool) (t : RBTree ℕ) : OrderBook :=
  if isBuy then { s with bidLimits := t } else { s with askLimits := t }

/-- `is_buy ? _bid_stop_orders : _ask_stop_orders`. -/
def stopOrders (s : OrderBook) (isBuy : Bool) : RBTree ℕ :=
  if isBuy then s.bidStopOrders else s.askStopOrders

def setStopOrders (s : OrderBook) (isBuy : Bool) (t : RBTree ℕ) : OrderBook :=
  if isBuy then { s with bidStopOrders := t } else { s with askStopOrders := t }

/-- The comparator of a tree of levels: asks ascend, bids descend. -/
def limitLess (s : OrderBook) (isBuy : Bool) (a b : ℕ) : Bool :=
  limitComparator (!isBuy) (s.limit a).toLimitData (s.limit b).toLimitData

/-- The comparator of a tree of stop orders: bids ascend, asks descend. -/
def stopLess (s : OrderBook) (isBuy : Bool) (a b : ℕ) : Bool :=
  orderComparator isBuy (s.order a).toOrderData (s.order b).toOrderData

/-- The comparator of the tree of dated orders. -/
def dateLess (s : OrderBook) (a b : ℕ) : Bool :=
  dateOrderComparator true (s.order a).toOrderData (s.order b).toOrderData

/-! ### The repositories -/

/-- `_order_repository->enqueue(order)`. -/
@[simps]
def enqueueOrder (s : OrderBook) (o : ℕ) : OrderBook :=
  { s with orderQueue := s.orderQueue ++ [o] }

/-- `_trade_repository->enqueue(trade)`. -/
@[simps]
def enqueueTrade (s : OrderBook) (t : Trade) : OrderBook :=
  { s with tradeQueue := s.tradeQueue ++ [t] }

/-! ### Queues of levels -/

/-- Link an order behind the last one of a level. -/
def appendOrder (s : OrderBook) (o l : ℕ) : Except Fault OrderBook :=
  match (s.limit l).head with
  | none => .ok ((s.setHead l (some o)).setTail l (some o))
  | some _ => do
    let pom ← deref (s.limit l).tail
    .ok (((s.setNext pom (some o)).setPrev o (some pom)).setTail l (some o))

def addLimitOrder (s : OrderBook) (o limit : ℕ) (isBuy : Bool) : Except Fault OrderBook := do
  match ← (s.limits isBuy).find (s.limitLess isBuy) limit with
  | some orderbookLimit =>
    let s ← (s.setParent o orderbookLimit).appendOrder o orderbookLimit
    .ok (s.updateLimitData orderbookLimit fun l => l.increaseVolume (s.order o).currentQty)
  | none =>
    let t ← (s.limits isBuy).insert (s.limitLess isBuy) limit
    let s := ((s.setLimits isBuy t).setParent o limit).setHead limit (some o)
    let s := s.setTail limit (some o)
    .ok (s.updateLimitData limit fun l => l.increaseVolume (s.order o).currentQty)

/-- The part of `remove_limit_order` that links the two neighbours of an order to
each other. -/
def unlinkNeighbours (s : OrderBook) (o : ℕ) : OrderBook :=
  match (s.order o).next, (s.order o).prev with
  | some next, some prev => (s.setPrev next (some prev)).setNext prev (some next)
  | none, some prev => s.setNext prev none
  | some next, none => s.setPrev next none
  | none, none => s

/-- The part of `remove_limit_order` that moves the ends of the queue. -/
def unlinkEnds (s : OrderBook) (o l : ℕ) : OrderBook :=
  if (s.limit l).head = some o ∧ (s.limit l).tail = some o then (s.setHead l none).setTail l none
  else if (s.limit l).head = some o then s.setHead l (s.order o).next
  else if (s.limit l).tail = some o then s.setTail l (s.order o).prev
  else s

/-- `_orders.erase(order->get_id())`. -/
@[simps]
def eraseEntry (s : OrderBook) (o : ℕ) : OrderBook :=
  { s with orders := s.orders.erase (s.order o).id }

def removeLimitOrder (s : OrderBook) (o : ℕ) : Except Fault OrderBook := do
  let parentLimit ← deref (s.order o).parent
  let qty := (s.order o).currentQty
  let s := s.updateLimitData parentLimit fun l => (l.decreaseVolume qty).decreaseNumberOfOrders
  .ok (((s.unlinkNeighbours o).unlinkEnds o parentLimit).eraseEntry o)

/-! ### Stop orders and dated orders -/

def addStopOrder (s : OrderBook) (o : ℕ) (isBuy : Bool) : Except Fault OrderBook := do
  .ok (s.setStopOrders isBuy (← (s.stopOrders isBuy).insert (s.stopLess isBuy) o))

def removeStopOrder (s : OrderBook) (o : ℕ) : Except Fault OrderBook := do
  let isBuy := (s.order o).isBuy
  let (t, _) ← (s.stopOrders isBuy).remove (s.stopLess isBuy) o
  .ok ((s.setStopOrders isBuy t).eraseEntry o)

/-- The last step of `add_order` for an order that stays: a dated one is
registered. -/
def addDateOrder (s : OrderBook) (o : ℕ) : Except Fault OrderBook :=
  if (s.order o).isDated then do
    .ok { s with dateOrders := ← s.dateOrders.insert s.dateLess o }
  else .ok s

/-! ### Matching -/

/-- `calculate_cross_price`. -/
def calculateCrossPrice (o : OrderData) (oppositeLimit : LimitData) : Option ℚ :=
  if (o.isBuy && o.price < oppositeLimit.price) || (!o.isBuy && o.price > oppositeLimit.price) then
    none
  else match o.type with
    | .market => some oppositeLimit.price
    | .limit => some (if o.isBuy then o.price else oppositeLimit.price)

def handleTrade (s : OrderBook) (now : ℤ) (recievedOrder orderbookEntry : ℕ) (volume price : ℚ) :
    OrderBook :=
  let buyer := if (s.order recievedOrder).isBuy then recievedOrder else orderbookEntry
  let seller := if (s.order recievedOrder).isBuy then orderbookEntry else recievedOrder
  s.enqueueTrade
    { buyerId := (s.order buyer).userId
      sellerId := (s.order seller).userId
      buyerOrderId := (s.order buyer).id
      sellerOrderId := (s.order seller).id
      instrument := s.instrument
      volume := volume
      price := price
      timestamp := now }

/-- The three branches of `resolve_orders`. -/
def exchange (s : OrderBook) (currOrder order : ℕ) (currOrderQty orderQty : ℚ) :
    Except Fault OrderBook :=
  if currOrderQty ≥ orderQty then do
    let curr ← (s.order currOrder).decreaseQty orderQty
    .ok ((s.updateData currOrder fun _ => curr).updateData order .fill)
  else if !(s.order order).hasParam .aon then do
    let o ← (s.order order).decreaseQty currOrderQty
    .ok ((s.updateData order fun _ => o).updateData currOrder .fill)
  else .ok s

/-- Enter what a call of `resolve_orders` moved into the history; `s` is the book
before the call. -/
def recordExecution (s s' : OrderBook) (currOrder order : ℕ) (price : ℚ) : OrderBook :=
  let volume := (s.order order).currentQty - (s'.order order).currentQty
  if 0 < volume ∧ (s.order currOrder).currentQty - (s'.order currOrder).currentQty = volume then
    { s' with executions := s'.executions ++ [⟨order, currOrder, volume, price⟩] }
  else s'

/-- `resolve_orders`. The copy `order_qty` that the last test compares with
`before_trade` is not written in between. -/
def resolveOrders (s : OrderBook) (now : ℤ) (currOrder order : ℕ) (crossPrice : ℚ) :
    Except Fault OrderBook := do
  let currOrderQty := (s.order currOrder).currentQty
  let orderQty := (s.order order).currentQty
  let beforeTrade := orderQty
  let s' ← s.exchange currOrder order currOrderQty orderQty
  let s' := recordExecution s s' currOrder order crossPrice
  if orderQty ≠ beforeTrade then
    .ok (s'.handleTrade now order currOrder (beforeTrade - orderQty) crossPrice)
  else .ok s'

/-- The test after `resolve_orders` in the loop of `process_limit_order`. -/
def removeFilled (s : OrderBook) (o : ℕ) : Except Fault OrderBook :=
  if (s.order o).isFullfilled then s.removeLimitOrder o else .ok s

/-- The loop of `process_limit_order`; the next order is read after the current
one may have been removed. -/
def processOrders (now : ℤ) (order : ℕ) (crossPrice : ℚ) :
    ℕ → OrderBook → Option ℕ → Except Fault OrderBook
  | 0, _, _ => .error .outOfFuel
  | _ + 1, s, none => .ok s
  | n + 1, s, some currOrder =>
    if 0 < (s.order order).currentQty then do
      let s ← s.resolveOrders now currOrder order crossPrice
      let s ← s.removeFilled currOrder
      processOrders now order crossPrice n s (s.order currOrder).next
    else .ok s

/-- The fuel of the loops over queues: no queue has more orders than there are. -/
def fuel (s : OrderBook) : ℕ := s.nextOrder + 1

def processLimitOrder (s : OrderBook) (now : ℤ) (oppositeLimit order : ℕ) (crossPrice : ℚ) :
    Except Fault OrderBook :=
  processOrders now order crossPrice s.fuel s (s.limit oppositeLimit).head

/-- The loop of `match_order` over the levels of the opposite tree, which it does
not change. -/
def matchLimits (now : ℤ) (order : ℕ) : OrderBook → List ℕ → Except Fault (OrderBook × Bool)
  | s, [] => .ok (s, false)
  | s, oppositeLimit :: rest =>
    if (s.order order).hasParam .aon &&
        (s.limit oppositeLimit).activeVolume < (s.order order).currentQty then
      matchLimits now order s rest
    else match calculateCrossPrice (s.order order).toOrderData
        (s.limit oppositeLimit).toLimitData with
      | none => .ok (s, false)
      | some crossPrice => do
        let s ← s.processLimitOrder now oppositeLimit order crossPrice
        let s := { s with marketPrice := crossPrice }
        if (s.order order).currentQty = 0 then .ok (s, true) else matchLimits now order s rest

/-- The first loop of the clean-up in `match_order`. -/
def removeLimits (isBuy : Bool) : OrderBook → List ℕ → Except Fault OrderBook
  | s, [] => .ok s
  | s, l :: filledLimits => do
    let (t, _) ← (s.limits isBuy).remove (s.limitLess isBuy) l
    removeLimits isBuy (s.setLimits isBuy t) filledLimits

/-- The clean-up that `match_order` hands to `Defer`. -/
def cleanUp (s : OrderBook) (isBuy : Bool) (filledLimits changedOrders : List ℕ) :
    Except Fault OrderBook := do
  let s ← removeLimits isBuy s filledLimits
  .ok { s with orderQueue := s.orderQueue ++ changedOrders }

/-- `match_order`, against the levels on the side `isBuy`. The clean-up runs first,
over the two vectors as they are then; what is pushed to them later is not read. -/
def matchOrder (s : OrderBook) (now : ℤ) (order : ℕ) (isBuy : Bool) :
    Except Fault (OrderBook × Bool) := do
  let s ← s.cleanUp isBuy [] []
  let levels ← (s.limits isBuy).keys
  matchLimits now order s levels

/-! ### Requests -/

/-- The part of `add_order` for an order that was not filled and stays. -/
def restOrder (s : OrderBook) (o : ℕ) (isBuy : Bool) : Except Fault OrderBook := do
  let limit := s.nextLimit
  let s ← (s.allocLimit (s.order o).price).addLimitOrder o limit isBuy
  let s := { s with orders := s.orders.insert (s.order o).id o }
  s.addDateOrder o

/-- The end of `add_order`, after `match_order` has returned `filled`. -/
def settle (s : OrderBook) (o : ℕ) (isBuy filled : Bool) :
    Except Fault (OrderBook × OrderStatus) :=
  if filled then .ok (s, .matched)
  else if (s.order o).hasParam .fok then .ok (s.updateData o .cancel, .notMatched)
  else do
    .ok (← s.restOrder o isBuy, .accepted)

def addOrder (s : OrderBook) (now : ℤ) (o : ℕ) : Except Fault (OrderBook × OrderStatus) := do
  let s := s.enqueueOrder o
  let isBuy := (s.order o).isBuy
  if (s.order o).hasParam .stop && (s.order o).isDormant s.marketPrice then do
    let s ← s.addStopOrder o isBuy
    let s ← s.addDateOrder o
    .ok (s, .accepted)
  else do
    let (s, filled) ← (s.updateData o .activated).matchOrder now o (!isBuy)
    s.settle o isBuy filled

/-- The part of `modify_order` that takes the old order out and puts the new one
in. -/
def replaceOrder (s : OrderBook) (orderbookEntry o : ℕ) : Except Fault OrderBook :=
  if (s.order orderbookEntry).hasParam .stop then do
    let s ← s.removeStopOrder o
    s.addStopOrder o (s.order o).isBuy
  else do
    let s ← s.removeLimitOrder orderbookEntry
    let limit ← deref (s.order orderbookEntry).parent
    s.addLimitOrder o limit (s.order o).isBuy

def modifyOrder (s : OrderBook) (o : ℕ) : Except Fault (OrderBook × OrderStatus) :=
  match s.orders.lookup (s.order o).id with
  | none => .ok (s, .notFound)
  | some orderbookEntry =>
    if !(s.order orderbookEntry).cancelled && !(s.order orderbookEntry).isFullfilled then do
      let s ← (s.updateData orderbookEntry .cancel).replaceOrder orderbookEntry o
      .ok (s.enqueueOrder o, .modified)
    else .ok (s, .notFound)

/-- The part of `cancel_order` that takes the order out. -/
def removeOrder (s : OrderBook) (o : ℕ) : Except Fault OrderBook :=
  if (s.order o).hasParam .stop then s.removeStopOrder o else s.removeLimitOrder o

def cancelOrder (s : OrderBook) (id : String) : Except Fault (OrderBook × OrderStatus) :=
  match s.orders.lookup id with
  | none => .ok (s, .notFound)
  | some orderbookEntry => do
    let s ← (s.updateData orderbookEntry .cancel).removeOrder orderbookEntry
    .ok (s.enqueueOrder orderbookEntry, .cancelled)

/-- The first loop of `check_date_orders`: the book and the orders that were due. -/
def cancelDue (now : ℤ) : OrderBook → List ℕ → Except Fault (OrderBook × List ℕ)
  | s, [] => .ok (s, [])
  | s, o :: rest =>
    if (s.order o).isDue now then do
      let (s, _) ← s.cancelOrder (s.order o).id
      let (s, removedOrders) ← cancelDue now s rest
      .ok (s, o :: removedOrders)
    else .ok (s, [])

/-- The second loop of `check_date_orders`. -/
def removeDates : OrderBook → List ℕ → Except Fault OrderBook
  | s, [] => .ok s
  | s, o :: removedOrders => do
    let (t, _) ← s.dateOrders.remove s.dateLess o
    removeDates { s with dateOrders := t } removedOrders

def checkDateOrders (s : OrderBook) (now : ℤ) : Except Fault OrderBook := do
  let dates ← s.dateOrders.keys
  let (s, removedOrders) ← cancelDue (now + 3600) s dates
  removeDates s removedOrders

/-! ### The constructor -/

/-- A book without orders. -/
def empty (instrument : String) (marketPrice : ℚ) : OrderBook where
  instrument := instrument
  marketPrice := marketPrice
  order := fun _ => Order.ofData (OrderArgs.toData
    { id := "", instrument := "", userId := "", qty := 0, price := 0, side := .unkown,
      params := ⟨0⟩, type := .market, expireTime := 0, timestamp := 0 })
  nextOrder := 0
  limit := fun _ => Limit.new 0
  nextLimit := 0
  askLimits := .empty
  bidLimits := .empty
  askStopOrders := .empty
  bidStopOrders := .empty
  dateOrders := .empty
  orders := ∅
  orderQueue := []
  tradeQueue := []
  executions := []

/-- What the constructor does with one order of the repository. -/
def recoverOrder (s : OrderBook) (o : ℕ) : Except Fault OrderBook :=
  if (s.order o).hasParam .stop then s.addStopOrder o (s.order o).isBuy
  else
    let limit := s.nextLimit
    (s.allocLimit (s.order o).price).addLimitOrder o limit (s.order o).isBuy

/-- The loop of the constructor over `order_repository->get_all()`. -/
def recover : OrderBook → List OrderData → Except Fault OrderBook
  | s, [] => .ok s
  | s, o :: rest => do
    let s' ← (s.allocOrder o).recoverOrder s.nextOrder
    recover s' rest

/-- The constructor, over a repository that holds the given orders. -/
def new (instrument : String) (marketPrice : ℚ) (repository : List OrderData) :
    Except Fault OrderBook :=
  recover (empty instrument marketPrice) repository

/-! ### Queries -/

/-- The orders from one on, following `_next`. -/
def ordersFrom (s : OrderBook) : ℕ → Option ℕ → Except Fault (List ℕ)
  | 0, _ => .error .outOfFuel
  | _ + 1, none => .ok []
  | n + 1, some o => do
    .ok (o :: (← ordersFrom s n (s.order o).next))

/-- The orders in the queue of a level. -/
def ordersAt (s : OrderBook) (l : ℕ) : Except Fault (List ℕ) :=
  s.ordersFrom s.fuel (s.limit l).head

/-- The orders in the queues of a list of levels. -/
def ordersIn (s : OrderBook) : List ℕ → Except Fault (List ℕ)
  | [] => .ok []
  | l :: rest => do
    let os ← s.ordersAt l
    .ok (os ++ (← ordersIn s rest))

/-- The loops of `get_bids` and `get_asks`. -/
def getOrders (s : OrderBook) (isBuy : Bool) : Except Fault (List ℕ) := do
  s.ordersIn (← (s.limits isBuy).keys)

def getBids (s : OrderBook) : Except Fault (List ℕ) := s.getOrders true

def getAsks (s : OrderBook) : Except Fault (List ℕ) := s.getOrders false

def getBidStopOrders (s : OrderBook) : Except Fault (List ℕ) := s.bidStopOrders.keys

def getAskStopOrders (s : OrderBook) : Except Fault (List ℕ) := s.askStopOrders.keys

/-- `get_orders_with_experation`. -/
def getOrdersWithExperation (s : OrderBook) : Except Fault (List ℕ) := s.dateOrders.keys

def size (s : OrderBook) : ℕ := s.orders.keys.length

def getMarketPrice (s : OrderBook) : ℚ := s.marketPrice

/-- The price of a level that an end of a tree may have. -/
def priceOr (s : OrderBook) (default : ℚ) : Option ℕ → ℚ
  | none => default
  | some l => (s.limit l).price

def getSpread (s : OrderBook) : Except Fault Spread := do
  let bestBid ← s.bidLimits.lastKey
  let bestAsk ← s.askLimits.firstKey
  .ok ⟨s.priceOr (-1) bestBid, s.priceOr (-1) bestAsk, s.marketPrice⟩

/-- The loops of `get_snapshot_bids` and `get_snapshot_asks`. -/
def getSnapshotLimits (s : OrderBook) (isBuy : Bool) : Except Fault (List SnapshotLimit) := do
  let levels ← (s.limits isBuy).keys
  .ok (levels.map fun l => ⟨(s.limit l).price, (s.limit l).activeVolume⟩)

def getSnapshot (s : OrderBook) : Except Fault Snapshot := do
  .ok ⟨← s.getSnapshotLimits false, ← s.getSnapshotLimits true, ← s.getSpread⟩

/-! ### Runs -/

/-- A call from outside: a new order is built and added, a new order is built and
replaces the one with its id, an order is cancelled, dated orders are checked. -/
inductive Request where
  | add (now : ℤ) (order : OrderArgs)
  | modify (order : OrderArgs)
  | cancel (id : String)
  | checkDate (now : ℤ)
  deriving DecidableEq

/-- One call, and the status it returns, if any. -/
def step (s : OrderBook) : Request → Except Fault (OrderBook × Option OrderStatus)
  | .add now a => do
    let (s', status) ← (s.allocOrder a.toData).addOrder now s.nextOrder
    .ok (s', some status)
  | .modify a => do
    let (s', status) ← (s.allocOrder a.toData).modifyOrder s.nextOrder
    .ok (s', some status)
  | .cancel id => do
    let (s', status) ← s.cancelOrder id
    .ok (s', some status)
  | .checkDate now => do
    .ok (← s.checkDateOrders now, none)

end OrderBook

end LimitOrderBook
