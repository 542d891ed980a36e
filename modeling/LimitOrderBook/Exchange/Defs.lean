import LimitOrderBook.OrderBook.Vocabulary
import LimitOrderBook.Repository.OrderRepository

/-!
# The class `Exchange`

One book for each instrument, and one order repository for all of them: `exchange/exchange.cpp`
with the handlers of `server/handlers/order_handler.cpp` that create and cancel orders, as a
system that takes one event at a time (`LimitOrderBook.Exchange.step`).

The handlers refuse a request for an instrument that does not exist and an order without a
side, and give every other new order an id of their own. The generator of the ids is not part
of the sources: it is a function from what it has generated so far.

What the books hand to the repository waits in a queue, and the thread of the repository takes
one message at a time. A message refers to the order, which may change until it is taken; a
restart leaves the orders of the old books as they are.
-/

namespace LimitOrderBook

/-- A message of the repository: an order of a book, or one whose book is gone. -/
inductive Message where
  | handle (instrument : String) (order : ℕ)
  | orphan (order : OrderData)

/-- The books of an exchange, and the repository that they share. -/
structure Exchange where
  books : AList fun _ : String => OrderBook
  store : OrderStore
  queue : List Message
  /-- How many ids have been generated. -/
  generated : ℕ

namespace Exchange

/-- There is no exchange yet, and the repository has been left by an earlier one. -/
def closed (store : OrderStore) : Exchange where
  books := ∅
  store := store
  queue := []
  generated := 0

/-- What can happen: a request of the two handlers, the construction of a new exchange over
the repository – which the messages in its queue survive or not – and a step of the thread of
the repository. -/
inductive Event where
  | create (now : ℤ) (instrument : String) (order : OrderArgs)
  | cancel (instrument : String) (id : String)
  | restart (instruments : List (String × ℚ)) (keepsQueue : Bool)
  | persist

/-- The order that a message is about, as it is now. -/
def read (E : Exchange) : Message → Option OrderData
  | .handle instrument o => (E.books.lookup instrument).map fun s => (s.order o).toOrderData
  | .orphan order => some order

/-- A book has gone from `s` to `s'`. -/
def setBook (E : Exchange) (instrument : String) (s s' : OrderBook) (generated : ℕ) : Exchange :=
  { E with
    books := E.books.insert instrument s'
    queue := E.queue ++ (s'.orderQueue.drop s.orderQueue.length).map (.handle instrument)
    generated := generated }

/-- The loop of the constructor; an instrument that is there already is not put in again. -/
def openBooks (store : OrderStore) :
    List (String × ℚ) → Except Fault (AList fun _ : String => OrderBook)
  | [] => .ok ∅
  | i :: rest => do
    let books ← openBooks store rest
    let s ← OrderBook.new i.1 i.2 store.getAll
    .ok (books.insert i.1 s)

/-- `CreateOrderHandler::handle` and `Exchange::add_order`. -/
def create (uuid : ℕ → String) (E : Exchange) (now : ℤ) (instrument : String) (order : OrderArgs) :
    Except Fault (Exchange × Option OrderStatus) :=
  match E.books.lookup instrument with
  | none => .ok (E, none)
  | some s =>
    if order.side = .unkown then .ok (E, none)
    else do
      let (s', status) ← s.step (.add now { order with id := uuid E.generated })
      .ok (E.setBook instrument s s' (E.generated + 1), status)

/-- `CancelOrderHandler::handle` and `Exchange::cancel_order`. -/
def cancel (E : Exchange) (instrument id : String) : Except Fault (Exchange × Option OrderStatus) :=
  match E.books.lookup instrument with
  | none => .ok (E, none)
  | some s => do
    let (s', status) ← s.step (.cancel id)
    .ok (E.setBook instrument s s' E.generated, status)

/-- The constructor of `Exchange`. -/
def restart (E : Exchange) (instruments : List (String × ℚ)) (keepsQueue : Bool) :
    Except Fault Exchange := do
  let books ← openBooks E.store instruments
  let queue := if keepsQueue then E.queue.filterMap fun m => (E.read m).map .orphan else []
  .ok { E with books := books, queue := queue }

/-- The loop of `process_messages`, once. -/
def persist (E : Exchange) : Except Fault Exchange :=
  match E.queue with
  | [] => .ok E
  | m :: rest => do
    let order ← deref (E.read m)
    .ok { E with queue := rest, store := E.store.processMessage order }

def step (uuid : ℕ → String) (E : Exchange) : Event → Except Fault (Exchange × Option OrderStatus)
  | .create now instrument order => E.create uuid now instrument order
  | .cancel instrument id => E.cancel instrument id
  | .restart instruments keepsQueue => do
    .ok (← E.restart instruments keepsQueue, none)
  | .persist => do
    .ok (← E.persist, none)

end Exchange

end LimitOrderBook
