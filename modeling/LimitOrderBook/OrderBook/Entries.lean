import LimitOrderBook.OrderBook.Vocabulary

/-!
# The entries that are read

`LimitOrderBook.OrderBook.cancelOrder` and `LimitOrderBook.OrderBook.modifyOrder` read
`orderbook_entry->second` as the order that the entry held when it was found. Here the same
two functions are embedded once more, with nothing assumed about the iterator: each time
the source reads `orderbook_entry->second`, the entry is looked up again
(`LimitOrderBook.OrderBook.readEntry`), and an entry that has been erased is a fault.

The two removal functions are handed a reference into the entry; they read it only before
they erase it, so they are those of `LimitOrderBook.OrderBook.Defs`.
-/

namespace LimitOrderBook

open OrderBook (Request)

namespace OrderBook

/-- `orderbook_entry->second`, for the entry that was found under a key. -/
def readEntry (s : OrderBook) (key : String) : Except Fault ℕ := deref (s.orders.lookup key)

/-- `cancel_order`. -/
def cancelOrderReading (s : OrderBook) (id : String) : Except Fault (OrderBook × OrderStatus) :=
  if (s.orders.lookup id).isSome then do
    let orderbookEntry ← s.readEntry id
    let s := s.updateData orderbookEntry .cancel
    let orderbookEntry ← s.readEntry id
    let s ← s.removeOrder orderbookEntry
    -- what is handed to the repository is read after the removal
    let orderbookEntry ← s.readEntry id
    .ok (s.enqueueOrder orderbookEntry, .cancelled)
  else .ok (s, .notFound)

/-- The part of `modify_order` that takes the old order out and puts the new one in. -/
def replaceOrderReading (s : OrderBook) (id : String) (o : ℕ) : Except Fault OrderBook := do
  let orderbookEntry ← s.readEntry id
  if (s.order orderbookEntry).hasParam .stop then do
    let s ← s.removeStopOrder o
    s.addStopOrder o (s.order o).isBuy
  else do
    let s ← s.removeLimitOrder orderbookEntry
    -- so is the level that the new order is put at
    let orderbookEntry ← s.readEntry id
    let limit ← deref (s.order orderbookEntry).parent
    s.addLimitOrder o limit (s.order o).isBuy

/-- `modify_order`. -/
def modifyOrderReading (s : OrderBook) (o : ℕ) : Except Fault (OrderBook × OrderStatus) :=
  let id := (s.order o).id
  if (s.orders.lookup id).isSome then do
    let orderbookEntry ← s.readEntry id
    if !(s.order orderbookEntry).cancelled && !(s.order orderbookEntry).isFullfilled then do
      let s ← (s.updateData orderbookEntry .cancel).replaceOrderReading id o
      .ok (s.enqueueOrder o, .modified)
    else .ok (s, .notFound)
  else .ok (s, .notFound)

/-- The first loop of `check_date_orders`. -/
def cancelDueReading (now : ℤ) : OrderBook → List ℕ → Except Fault (OrderBook × List ℕ)
  | s, [] => .ok (s, [])
  | s, o :: rest =>
    if (s.order o).isDue now then do
      let (s, _) ← s.cancelOrderReading (s.order o).id
      let (s, removedOrders) ← cancelDueReading now s rest
      .ok (s, o :: removedOrders)
    else .ok (s, [])

/-- `check_date_orders`. -/
def checkDateOrdersReading (s : OrderBook) (now : ℤ) : Except Fault OrderBook := do
  let dates ← s.dateOrders.keys
  let (s, removedOrders) ← cancelDueReading (now + 3600) s dates
  removeDates s removedOrders

/-- One call, with the entries that it reads. -/
def stepReading (s : OrderBook) : Request → Except Fault (OrderBook × Option OrderStatus)
  | .add now a => s.step (.add now a)
  | .modify a => do
    let (s', status) ← (s.allocOrder a.toData).modifyOrderReading s.nextOrder
    .ok (s', some status)
  | .cancel id => do
    let (s', status) ← s.cancelOrderReading id
    .ok (s', some status)
  | .checkDate now => do
    .ok (← s.checkDateOrdersReading now, none)

/-- **The request reads no entry that it has erased**: an order that is cancelled is not in
the index, and one that is modified is not live, or is a stop order. -/
def readsLive (s : OrderBook) : Request → Prop
  | .add _ _ => True
  | .modify a => ∀ e, s.orders.lookup a.id = some e → (s.order e).cancelled = true ∨
      (s.order e).isFullfilled = true ∨ (s.order e).hasParam .stop = true
  | .cancel id => s.orders.lookup id = none
  | .checkDate now => ∀ dates, s.dateOrders.keys = .ok dates →
      ∀ o ∈ dates.takeWhile (fun o => (s.order o).isDue (now + 3600)),
        s.orders.lookup (s.order o).id = none

end OrderBook

end LimitOrderBook
