import LimitOrderBook.OrderBook.Vocabulary
import LimitOrderBook.Repository.OrderRepository

/-!
# A book and the thread of its repository

`OrderRepository::process_messages` runs in a thread of its own, next to the worker that calls
the functions of the book: it takes a handle from the queue, looks at the order as it is at
that moment, and writes or deletes its record. So a call of the book is not one step here. It
goes through the states between any two writes that the thread can see
(`LimitOrderBook.OrderBook.callStates`), and the thread may take a handle in each of them
(`LimitOrderBook.Persistence.step`).

What the thread can see are the fields of the orders and the queue; writes to the levels, the
trees and the index are part of the state that comes next. The queue is taken to be lossless
and first-in first-out.
-/

namespace LimitOrderBook

namespace OrderBook

/-- A call of the book that changes orders on request. -/
inductive Call where
  | add (now : ℤ) (order : OrderArgs)
  | modify (order : OrderArgs)
  | cancel (id : String)
  deriving DecidableEq

def Call.request : Call → Request
  | .add now a => .add now a
  | .modify a => .modify a
  | .cancel id => .cancel id

/-! ### The states of a call

Each function is that of the book with the same name, cut where an order or the queue has been
written; the last state, or the first if there is none, is that in which it returns. -/

/-- Between the two writes of `resolve_orders`. -/
def exchangeStates (s : OrderBook) (currOrder order : ℕ) (currOrderQty orderQty : ℚ) :
    Except Fault (List OrderBook) :=
  if currOrderQty ≥ orderQty then do
    let curr ← (s.order currOrder).decreaseQty orderQty
    .ok [s.updateData currOrder fun _ => curr]
  else if !(s.order order).hasParam .aon then do
    let o ← (s.order order).decreaseQty currOrderQty
    .ok [s.updateData order fun _ => o]
  else .ok []

def processOrdersStates (now : ℤ) (order : ℕ) (crossPrice : ℚ) :
    ℕ → OrderBook → Option ℕ → Except Fault (List OrderBook)
  | 0, _, _ => .error .outOfFuel
  | _ + 1, _, none => .ok []
  | n + 1, s, some currOrder =>
    if 0 < (s.order order).currentQty then do
      let halfway ← s.exchangeStates currOrder order (s.order currOrder).currentQty
        (s.order order).currentQty
      let s₁ ← s.resolveOrders now currOrder order crossPrice
      let s₂ ← s₁.removeFilled currOrder
      let rest ← processOrdersStates now order crossPrice n s₂ (s₂.order currOrder).next
      .ok (halfway ++ s₁ :: s₂ :: rest)
    else .ok []

def processLimitOrderStates (s : OrderBook) (now : ℤ) (oppositeLimit order : ℕ) (crossPrice : ℚ) :
    Except Fault (List OrderBook) :=
  processOrdersStates now order crossPrice s.fuel s (s.limit oppositeLimit).head

def matchLimitsStates (now : ℤ) (order : ℕ) : OrderBook → List ℕ → Except Fault (List OrderBook)
  | _, [] => .ok []
  | s, oppositeLimit :: rest =>
    if (s.order order).hasParam .aon &&
        (s.limit oppositeLimit).activeVolume < (s.order order).currentQty then
      matchLimitsStates now order s rest
    else match calculateCrossPrice (s.order order).toOrderData
        (s.limit oppositeLimit).toLimitData with
      | none => .ok []
      | some crossPrice => do
        let states ← s.processLimitOrderStates now oppositeLimit order crossPrice
        let s ← s.processLimitOrder now oppositeLimit order crossPrice
        let s := { s with marketPrice := crossPrice }
        if (s.order order).currentQty = 0 then .ok (states ++ [s])
        else do
          let rest ← matchLimitsStates now order s rest
          .ok (states ++ s :: rest)

def matchOrderStates (s : OrderBook) (now : ℤ) (order : ℕ) (isBuy : Bool) :
    Except Fault (List OrderBook) := do
  let s ← s.cleanUp isBuy [] []
  let levels ← (s.limits isBuy).keys
  let states ← matchLimitsStates now order s levels
  .ok (s :: states)

def settleStates (s : OrderBook) (o : ℕ) (isBuy filled : Bool) : Except Fault (List OrderBook) := do
  let (s', _) ← s.settle o isBuy filled
  .ok [s']

def addOrderStates (s : OrderBook) (now : ℤ) (o : ℕ) : Except Fault (List OrderBook) := do
  let s := s.enqueueOrder o
  let isBuy := (s.order o).isBuy
  if (s.order o).hasParam .stop && (s.order o).isDormant s.marketPrice then do
    let s₁ ← s.addStopOrder o isBuy
    let s₂ ← s₁.addDateOrder o
    .ok [s, s₂]
  else do
    let s₁ := s.updateData o .activated
    let states ← s₁.matchOrderStates now o (!isBuy)
    let (s₂, filled) ← s₁.matchOrder now o (!isBuy)
    let rest ← s₂.settleStates o isBuy filled
    .ok (s :: s₁ :: states ++ rest)

def modifyOrderStates (s : OrderBook) (o : ℕ) : Except Fault (List OrderBook) :=
  match s.orders.lookup (s.order o).id with
  | none => .ok []
  | some orderbookEntry =>
    if !(s.order orderbookEntry).cancelled && !(s.order orderbookEntry).isFullfilled then do
      let s₁ := s.updateData orderbookEntry .cancel
      let s₂ ← s₁.replaceOrder orderbookEntry o
      .ok [s₁, s₂, s₂.enqueueOrder o]
    else .ok []

def cancelOrderStates (s : OrderBook) (id : String) : Except Fault (List OrderBook) :=
  match s.orders.lookup id with
  | none => .ok []
  | some orderbookEntry => do
    let s₁ := s.updateData orderbookEntry .cancel
    let s₂ ← s₁.removeOrder orderbookEntry
    .ok [s₁, s₂, s₂.enqueueOrder orderbookEntry]

/-- **The states that a call goes through**, after the new order, if any, has been built. -/
def callStates (s : OrderBook) : Call → Except Fault (List OrderBook)
  | .add now a => do
    let s₁ := s.allocOrder a.toData
    .ok (s₁ :: (← s₁.addOrderStates now s.nextOrder))
  | .modify a => do
    let s₁ := s.allocOrder a.toData
    .ok (s₁ :: (← s₁.modifyOrderStates s.nextOrder))
  | .cancel id => s.cancelOrderStates id

end OrderBook

open OrderBook (Call)

/-! ### The two threads -/

/-- A book, the states that the call in progress has still to go through, how many handles the
thread of the repository has taken from the queue, and the store. -/
structure Persistence where
  book : OrderBook
  rest : List OrderBook
  handled : ℕ
  store : OrderStore

namespace Persistence

/-- The worker begins a call, the call goes on, the thread of the repository takes a handle. -/
inductive Event where
  | call (c : Call)
  | go
  | pop
  deriving DecidableEq

/-- A book, before the first call. -/
def start (book : OrderBook) (store : OrderStore) : Persistence where
  book := book
  rest := []
  handled := 0
  store := store

/-- A call begins when the one before it has returned; taking a handle from an empty queue does
nothing. -/
def step (P : Persistence) : Event → Except Fault (Persistence × Unit)
  | .call c =>
    match P.rest with
    | [] => do
      let states ← P.book.callStates c
      .ok ({ P with rest := states }, ())
    | _ :: _ => .ok (P, ())
  | .go =>
    match P.rest with
    | [] => .ok (P, ())
    | s :: rest => .ok ({ P with book := s, rest := rest }, ())
  | .pop =>
    match P.book.orderQueue[P.handled]? with
    | none => .ok (P, ())
    | some o =>
      .ok ({ P with
        handled := P.handled + 1
        store := P.store.processMessage (P.book.order o).toOrderData }, ())

/-- No call is in progress. -/
def Idle (P : Persistence) : Prop := P.rest = []

/-- Every handle has been taken. -/
def Drained (P : Persistence) : Prop := P.handled = P.book.orderQueue.length

/-- The handles that are still in the queue. -/
def waiting (P : Persistence) : List ℕ := P.book.orderQueue.drop P.handled

/-- The state in which the call in progress returns. -/
def target (P : Persistence) : OrderBook := P.rest.getLastD P.book

/-- The call in progress has still to hand over an order with the id of `o`. -/
def Follows (P : Persistence) (o : ℕ) : Prop :=
  ∃ p ∈ P.target.orderQueue.drop P.book.orderQueue.length,
    (P.target.order p).id = (P.book.order o).id

end Persistence

/-- What the thread of the repository decides by. -/
def OrderData.visible (x : OrderData) : Bool × ℚ := (x.cancelled, x.currentQty)

/-- An order of the book: recovered, or handed to the repository. -/
def OrderBook.Known (recovered : ℕ) (s : OrderBook) (o : ℕ) : Prop :=
  o < recovered ∨ o ∈ s.orderQueue

/-- **The store agrees with the book**: different live orders have different ids, each has a
record with what remains of it, and every record is that of an order which is neither filled nor
cancelled, with what remains of it. (A store has one record for an id.) -/
structure OrderBook.Converged (recovered : ℕ) (s : OrderBook) (store : OrderStore) : Prop where
  live : ∃ live, s.liveOrders = .ok live ∧
    (∀ o ∈ live, ∀ p ∈ live, (s.order o).id = (s.order p).id → o = p) ∧
    ∀ o ∈ live, ∃ x ∈ store.records, x.id = (s.order o).id ∧
      x.currentQty = (s.order o).currentQty
  gone : ∀ x ∈ store.records, ∃ o, s.Known recovered o ∧ (s.order o).id = x.id ∧
    (s.order o).cancelled = false ∧ (s.order o).isFullfilled = false ∧
    (s.order o).currentQty = x.currentQty

/-- The call finds no stop order in the index, and modifies to a quantity other than zero. -/
def OrderBook.leavesLive (s : OrderBook) : Call → Prop
  | .add _ _ => True
  | .modify a => ∀ e, s.orders.lookup a.id = some e →
      (s.order e).hasParam .stop = false ∧ a.qty ≠ 0
  | .cancel id => ∀ e, s.orders.lookup id = some e → (s.order e).hasParam .stop = false

/-- **The condition on an event**: whenever a call goes on to write the remaining quantity or
the mark of an order, a handle of the order is still in the queue, or one with its id follows
in the same call. -/
def Persistence.handsOver (P : Persistence) : Persistence.Event → Prop
  | .call c => P.Idle → P.book.leavesLive c
  | .go => ∀ s rest, P.rest = s :: rest → ∀ o < P.book.nextOrder,
      (s.order o).visible ≠ (P.book.order o).visible → o ∈ P.waiting ∨ P.Follows o
  | .pop => True

instance (s : OrderBook) : DecidablePred s.leavesLive
  | .add _ _ => .isTrue trivial
  | .modify a => inferInstanceAs (Decidable (∀ e, s.orders.lookup a.id = some e →
      (s.order e).hasParam .stop = false ∧ a.qty ≠ 0))
  | .cancel id => inferInstanceAs (Decidable (∀ e, s.orders.lookup id = some e →
      (s.order e).hasParam .stop = false))

instance (P : Persistence) (o : ℕ) : Decidable (P.Follows o) :=
  inferInstanceAs (Decidable (∃ p ∈ P.target.orderQueue.drop P.book.orderQueue.length,
    (P.target.order p).id = (P.book.order o).id))

instance (P : Persistence) : Decidable P.Idle :=
  decidable_of_iff (P.rest.length = 0) List.length_eq_zero_iff

instance (P : Persistence) : DecidablePred P.handsOver
  | .call c => inferInstanceAs (Decidable (P.Idle → P.book.leavesLive c))
  | .go => decidable_of_iff (∀ s ∈ P.rest.head?, ∀ o < P.book.nextOrder,
      (s.order o).visible ≠ (P.book.order o).visible → o ∈ P.waiting ∨ P.Follows o) <| by
    simp only [Persistence.handsOver]
    constructor
    · intro h s rest hrest
      exact h s (by rw [hrest]; rfl)
    · intro h s hs
      obtain ⟨rest, hrest⟩ := List.head?_eq_some_iff.mp hs
      exact h s rest hrest
  | .pop => .isTrue trivial

/-- The ids of the orders that are added. -/
def Persistence.addedIds (es : List Persistence.Event) : List String :=
  es.filterMap fun e => match e with
    | .call (.add _ a) => some a.id
    | _ => none

end LimitOrderBook
