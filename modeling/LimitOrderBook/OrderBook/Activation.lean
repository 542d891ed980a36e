import LimitOrderBook.OrderBook.Defs

/-!
# The activation of stop orders

The two functions of `orderbook/orderbook.cpp` that are to bring parked orders into the book
when the market price has moved. They are private, and nothing calls them.

Each goes through a stop tree with an iterator, from one end, and passes orders to
`add_order` until it comes to one that is not triggered; what it passed is removed from the
tree afterwards. The tree is the live one: `add_order` may insert into it, the reference to
the order is one into its node, and the iterator steps on in what has become of it.
-/

namespace LimitOrderBook

namespace OrderBook

/-- The loop over a stop tree from one of its nodes on: the book, and the vector
`orders_to_remove`. -/
def addTriggered (now : ℤ) (isBuy : Bool) (triggered : OrderData → Bool)
    (next : RBTree ℕ → ℕ → Except Fault ℕ) :
    ℕ → OrderBook → ℕ → Except Fault (OrderBook × List ℕ)
  | 0, _, _ => .error .outOfFuel
  | n + 1, s, p =>
    if p = RBTree.nil then .ok (s, [])
    else do
      let order ← (s.stopOrders isBuy).key p
      if triggered (s.order order).toOrderData then do
        let (s, _) ← s.addOrder now order
        -- `order` is a reference to the key of the node
        let order ← (s.stopOrders isBuy).key p
        let p ← next (s.stopOrders isBuy) p
        let (s, ordersToRemove) ← addTriggered now isBuy triggered next n s p
        .ok (s, order :: ordersToRemove)
      else .ok (s, [])

/-- The loop over `orders_to_remove`. The index is not looked at. -/
def removeStops (isBuy : Bool) : OrderBook → List ℕ → Except Fault OrderBook
  | s, [] => .ok s
  | s, o :: ordersToRemove => do
    let (t, _) ← (s.stopOrders isBuy).remove (s.stopLess isBuy) o
    removeStops isBuy (s.setStopOrders isBuy t) ordersToRemove

/-- `add_bid_stop_orders_below`, from `rbegin()` on. -/
def addBidStopOrdersBelow (s : OrderBook) (now : ℤ) (price : ℚ) : Except Fault OrderBook := do
  let (s, ordersToRemove) ← addTriggered now true (fun o => o.stopPrice ≤ price)
    RBTree.predecessor s.bidStopOrders.fuel s s.bidStopOrders.last
  removeStops true s ordersToRemove

/-- `add_ask_stop_orders_above`, from `begin()` on. -/
def addAskStopOrdersAbove (s : OrderBook) (now : ℤ) (price : ℚ) : Except Fault OrderBook := do
  let (s, ordersToRemove) ← addTriggered now false (fun o => price ≤ o.stopPrice)
    RBTree.successor s.askStopOrders.fuel s s.askStopOrders.first
  removeStops false s ordersToRemove

end OrderBook

end LimitOrderBook
