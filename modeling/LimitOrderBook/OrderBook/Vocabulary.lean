import LimitOrderBook.OrderBook.Defs

/-!
# The words of the statements

What the statements about runs of a book talk about, apart from the book itself:
requests of a kind, the two sides of an execution, and which orders an order can
trade with.
-/

namespace LimitOrderBook

open OrderBook (Request)

/-! ### Requests -/

/-- A request other than `modify_order`. -/
def OrderBook.Request.keepsOrders : Request → Bool
  | .modify _ => false
  | _ => true

/-- A request that adds an order of positive quantity, cancels or checks dates. -/
def OrderBook.Request.Sound : Request → Prop
  | .add _ a => 0 < a.qty
  | .modify _ => False
  | _ => True

theorem OrderBook.Request.Sound.keepsOrders {r : Request} (h : r.Sound) : r.keepsOrders = true := by
  cases r with
  | modify a => exact absurd h (by simp [Sound])
  | _ => rfl

/-- The ids of the orders that a list of requests adds. -/
def OrderBook.addedIds (rs : List Request) : List String :=
  rs.filterMap fun r => match r with
    | .add _ a => some a.id
    | _ => none

@[simp] theorem OrderBook.addedIds_cons_add (now : ℤ) (a : OrderArgs) (rs : List Request) :
    addedIds (.add now a :: rs) = a.id :: addedIds rs := rfl

/-- The order that a request adds, if any. -/
def OrderBook.Request.newOrder : Request → Option OrderArgs
  | .add _ a => some a
  | _ => none

/-- The orders that a list of requests adds. -/
def OrderBook.newOrders (rs : List Request) : List OrderArgs := rs.filterMap Request.newOrder

/-- A request does not add an order that is parked. -/
def OrderBook.parksNothing (s : OrderBook) : Request → Prop
  | .add _ a => (a.toData.hasParam .stop && a.toData.isDormant s.marketPrice) = false
  | _ => True

/-- A `modify_order` finds no live order: it changes nothing. -/
def OrderBook.modifiesNothing (s : OrderBook) : Request → Prop
  | .modify a => ∀ e, s.orders.lookup a.id = some e →
      (s.order e).cancelled = true ∨ (s.order e).isFullfilled = true
  | _ => True

/-- No entry of the index that a request cancels is a stop order. -/
def OrderBook.cancelsNoStop (s : OrderBook) : Request → Prop
  | .cancel id => ∀ e, s.orders.lookup id = some e → (s.order e).hasParam .stop = false
  | .checkDate now => ∀ dates, s.dateOrders.keys = .ok dates →
      ∀ o ∈ dates.takeWhile (fun o => (s.order o).isDue (now + 3600)), ∀ e,
        s.orders.lookup (s.order o).id = some e → (s.order e).hasParam .stop = false
  | _ => True

/-! ### Live orders -/

/-- The live orders: those that rest on a side, and those that are parked. -/
def OrderBook.liveOrders (s : OrderBook) : Except Fault (List ℕ) := do
  let bids ← s.getBids
  let asks ← s.getAsks
  let bidStops ← s.getBidStopOrders
  let askStops ← s.getAskStopOrders
  .ok (bids ++ asks ++ bidStops ++ askStops)

/-! ### Executions -/

/-- The buying order of an execution. -/
def Execution.buyer (s : OrderBook) (e : Execution) : ℕ :=
  if (s.order e.incoming).isBuy then e.incoming else e.resting

/-- The selling order of an execution. -/
def Execution.seller (s : OrderBook) (e : Execution) : ℕ :=
  if (s.order e.incoming).isBuy then e.resting else e.incoming

/-! ### The order of a side -/

/-- The price `p` comes before `q` on a side. -/
def Better (b : Bool) (p q : ℚ) : Prop := if b then q < p else p < q

theorem Better.irrefl {b : Bool} {p : ℚ} : ¬ Better b p p := by
  cases b <;> exact lt_irrefl p

theorem Better.asymm {b : Bool} {p q : ℚ} (h : Better b p q) : ¬ Better b q p := by
  cases b <;> exact lt_asymm h

/-! ### What an order can trade with -/

/-- The order accepts the price of the level. -/
def OrderData.accepts (o : OrderData) (l : LimitData) : Prop :=
  if o.isBuy then l.price ≤ o.price else o.price ≤ l.price

/-- The incoming order `o` and the resting order `c` exchange a quantity when they
meet: an all-or-nothing order is only filled as a whole. -/
def OrderData.tradesWith (o c : OrderData) : Prop :=
  if o.hasParam .aon then o.currentQty ≤ c.currentQty else c.currentQty ≠ 0

/-- **The order `a` finds nothing to trade with** in the book: it is parked, or has
no quantity, or no level whose price it accepts – and whose volume is enough, if it
is all-or-nothing – has an order that it can exchange a quantity with. -/
def OrderBook.FindsNothing (s : OrderBook) (a : OrderArgs) : Prop :=
  (a.toData.hasParam .stop && a.toData.isDormant s.marketPrice) = true ∨ a.qty ≤ 0 ∨
    ∀ levels l queue c, (s.limits !a.toData.isBuy).keys = .ok levels → l ∈ levels →
      a.toData.activated.accepts (s.limit l).toLimitData →
      (a.toData.activated.hasParam .aon = true → a.qty ≤ (s.limit l).activeVolume) →
      s.ordersAt l = .ok queue → c ∈ queue →
      ¬ a.toData.activated.tradesWith (s.order c).toOrderData

/-- The condition under which a request trades nothing. -/
def OrderBook.tradesNothing (s : OrderBook) : Request → Prop
  | .add _ a => s.FindsNothing a
  | _ => True

end LimitOrderBook
