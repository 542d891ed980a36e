import LimitOrderBook.Exchange.Defs
import LimitOrderBook.Ledger.Outgoing

/-!
# What the API lets through

The way of a request from its text to the book: `mappers/orderjson_order_mapper.hpp` builds an
order from the document, and `CreateOrderHandler::handle` hands it to the exchange when the
instrument exists, the side is known and the exchange is working. Nothing on this way looks at
the quantity or the price.

The parser is not part of the sources: a document is what the parser finds in it. A field that
is missing or has another type is `none`, and the parser throws when such a field is read as a
value; the request then ends without an order. How a `double` is rounded to a `float` is a
parameter.

The answers of the server are not part of the model, only the status that the exchange returns.
-/

namespace LimitOrderBook

/-- What the parser finds in the body of a request. -/
structure OrderJson where
  orderId : Option String
  instrument : Option String
  userId : Option String
  qty : Option ℚ
  price : Option ℚ
  side : Option String
  type : Option String
  params : Option UInt64
  expireTime : Option UInt64
  stopPrice : Option ℚ
  deriving DecidableEq

namespace OrderJson

def getOrderSide (side : String) : Side :=
  if side = "BUY" then .buy else if side = "SELL" then .sell else .unkown

def getOrderType (type : String) : OrderType := if type = "MARKET" then .market else .limit

def getOrderParams (params : UInt64) : OrderParams := ⟨params⟩

/-- `(params & param) == param`. -/
def includes (params param : OrderParams) : Bool :=
  params.toUInt64 &&& param.toUInt64 = param.toUInt64

/-- `map_json_to_order`, at the time `now`. -/
def mapJsonToOrder (toFloat : ℚ → ℚ) (now : ℤ) (orderJson : OrderJson) : Option OrderArgs := do
  let orderId := orderJson.orderId.getD ""
  let instrument ← orderJson.instrument
  let userId ← orderJson.userId
  let qty ← orderJson.qty
  let price ← orderJson.price
  let orderSide := getOrderSide (← orderJson.side)
  let type := getOrderType (← orderJson.type)
  let params := getOrderParams (← orderJson.params)
  -- without a date the time is `uint64_t(-1)`
  let expireTime ← if includes params .gtd || includes params .gfd then orderJson.expireTime
    else some (-1)
  -- a stop price is only read when there is no other flag
  let stopPrice ← if params = .stop then orderJson.stopPrice.map toFloat else some 0
  some
    { id := orderId
      instrument := instrument
      userId := userId
      qty := toFloat qty
      price := toFloat price
      stopPrice := stopPrice
      side := orderSide
      params := params
      type := type
      expireTime := expireTime.toInt64.toInt
      timestamp := now }

end OrderJson

/-- A request that reaches a handler; `working` is what `is_working` says at that time. -/
inductive ApiRequest where
  | create (now : ℤ) (working : Bool) (instrument : String) (order : OrderJson)
  | cancel (working : Bool) (instrument id : String)
  deriving DecidableEq

/-- An exchange, and the orders that it has accepted so far: the instrument of the book, and
the number of the order in it. -/
structure Admission where
  exchange : Exchange
  accepted : List (String × ℕ)

namespace Admission

variable (uuid : ℕ → String) (toFloat : ℚ → ℚ)

/-- `CreateOrderHandler::handle`. -/
def createOrder (E : Exchange) (now : ℤ) (working : Bool) (instrument : String)
    (order : OrderJson) : Except Fault (Exchange × Option OrderStatus) :=
  match order.mapJsonToOrder toFloat now with
  | none => .ok (E, none)
  | some a => if working then E.create uuid now instrument a else .ok (E, none)

/-- `CancelOrderHandler::handle`. -/
def cancelOrder (E : Exchange) (working : Bool) (instrument id : String) :
    Except Fault (Exchange × Option OrderStatus) :=
  if working then E.cancel instrument id else .ok (E, none)

/-- The accepted orders, when a new order of an instrument has got a status. -/
def accept (A : Admission) (instrument : String) (status : Option OrderStatus) :
    List (String × ℕ) :=
  match A.exchange.books.lookup instrument with
  | none => A.accepted
  | some s =>
    if status = some .accepted ∨ status = some .matched then
      A.accepted ++ [(instrument, s.nextOrder)]
    else A.accepted

def step (A : Admission) : ApiRequest → Except Fault (Admission × Option OrderStatus)
  | .create now working instrument order => do
    let (E, status) ← createOrder uuid toFloat A.exchange now working instrument order
    .ok (⟨E, A.accept instrument status⟩, status)
  | .cancel working instrument id => do
    let (E, status) ← cancelOrder A.exchange working instrument id
    .ok (⟨E, A.accepted⟩, status)

/-- An exchange with new books over an empty repository, which has accepted nothing. -/
def start (E : Exchange) : Admission := ⟨E, []⟩

/-- **The quantities are within bounds**: what is left of an accepted order is between zero and
its initial quantity, and something is left of every resting order. -/
structure Bounded (A : Admission) : Prop where
  accepted : ∀ X s, A.exchange.books.lookup X = some s → ∀ o, (X, o) ∈ A.accepted →
    0 ≤ (s.order o).currentQty ∧ (s.order o).currentQty ≤ (s.order o).qty
  resting : ∀ X s, A.exchange.books.lookup X = some s → ∀ b,
    ∃ orders, s.getOrders b = .ok orders ∧ ∀ o ∈ orders, 0 < (s.order o).currentQty

/-- The condition on a request that is not refused: the quantity is positive, or the order does
not stay, or there is nothing of it and it is parked. -/
def admits (A : Admission) : ApiRequest → Prop
  | .create now working instrument order => ∀ s a,
      A.exchange.books.lookup instrument = some s →
      order.mapJsonToOrder toFloat now = some a → working = true → a.side ≠ .unkown →
        0 < a.qty ∨ s.stays a = false ∨ a.qty = 0 ∧ s.parks a = true
  | .cancel _ _ _ => True

end Admission

end LimitOrderBook
