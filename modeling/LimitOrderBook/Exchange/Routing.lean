import LimitOrderBook.OrderBook.Vocabulary

/-!
# How an exchange finds the worker of an instrument

The two maps of `Exchange` and the number of workers of its thread pool
(`LimitOrderBook.Routing`). The pool gets a worker for each instrument that the constructor is
given, and none later. A request goes to the worker whose number the map of indices has for
its instrument, which runs it on the book; the caller waits for the result.

The keys of the maps are views of the strings that the caller gave, which are taken to stay as
they are. What the workers do between requests is not part of the model.
-/

namespace LimitOrderBook

open OrderBook (Request)

/-- The maps of an exchange, and the number of its workers. -/
structure Routing where
  /-- `_instrument_idx`. -/
  instrumentIdx : AList fun _ : String => UInt32
  /-- `_instruments`; a null pointer is `none`. -/
  instruments : AList fun _ : String => Option OrderBook
  workers : ℕ

namespace Routing

/-- Neither map has an entry, and there are no workers. -/
def empty : Routing := ⟨∅, ∅, 0⟩

/-- `instrument_exists`. -/
def instrumentExists (E : Routing) (instrument : String) : Bool := instrument ∈ E.instruments

/-- Give an instrument an index, and a book if it has none. -/
def register (E : Routing) (instrument : String) (idx : ℕ) (s : OrderBook) : Routing :=
  { E with
    instrumentIdx := E.instrumentIdx.insert instrument (UInt32.ofNat idx)
    instruments := if E.instrumentExists instrument then E.instruments
      else E.instruments.insert instrument (some s) }

/-- The loop of the constructor, from an index on. -/
def openInstruments (records : List OrderData) :
    ℕ → Routing → List (String × ℚ) → Except Fault Routing
  | _, E, [] => .ok E
  | idx, E, i :: rest => do
    let s ← OrderBook.new i.1 i.2 records
    openInstruments records (idx + 1) (E.register i.1 idx s) rest

/-- The constructor, over a repository with the given records. -/
def new (records : List OrderData) (instrumentsInfo : List (String × ℚ)) :
    Except Fault Routing := do
  let E ← openInstruments records 0 empty instrumentsInfo
  .ok { E with workers := instrumentsInfo.length }

/-- `ThreadPool::enqueue`, as far as it can go wrong. -/
def enqueueTask (E : Routing) (threadId : UInt32) : Except Fault Unit :=
  if threadId.toNat < E.workers then .ok () else .error .badPointer

/-- `operator[]` of both maps, which puts in a null pointer or a zero where there is no
entry. -/
def touch (E : Routing) (instrument : String) : Routing :=
  { E with
    instrumentIdx := if instrument ∈ E.instrumentIdx then E.instrumentIdx
      else E.instrumentIdx.insert instrument 0
    instruments := if E.instrumentExists instrument then E.instruments
      else E.instruments.insert instrument none }

/-- `add_order`, `modify_order` and `cancel_order`: the worker runs a request on the book. -/
def submit (E : Routing) (instrument : String) (r : Request) :
    Except Fault (Routing × Option OrderStatus) := do
  let E := E.touch instrument
  let threadId ← deref (E.instrumentIdx.lookup instrument)
  E.enqueueTask threadId
  let orderbook ← deref (E.instruments.lookup instrument)
  let s ← deref orderbook
  let (s', status) ← s.step r
  .ok ({ E with instruments := E.instruments.insert instrument (some s') }, status)

/-- `add_instrument`, over a repository with the given records. -/
def addInstrument (E : Routing) (instrument : String) (startingPrice : ℚ)
    (records : List OrderData) : Except Fault (Routing × Bool) :=
  if E.instrumentExists instrument then .ok (E, false)
  else do
    let s ← OrderBook.new instrument startingPrice records
    .ok (E.register instrument E.instruments.keys.length s, true)

/-- A call of the exchange; the requests are those for instruments that exist. -/
inductive Call where
  | addInstrument (instrument : String) (startingPrice : ℚ) (records : List OrderData)
  | addOrder (now : ℤ) (instrument : String) (order : OrderArgs)
  | modifyOrder (instrument : String) (order : OrderArgs)
  | cancelOrder (instrument : String) (orderId : String)

/-- What a call returns; a request for an instrument that does not exist is not made. -/
inductive Answer where
  | added (ok : Bool)
  | status (status : Option OrderStatus)
  | refused

/-- A request, if the instrument exists. -/
def request (E : Routing) (instrument : String) (r : Request) : Except Fault (Routing × Answer) :=
  if E.instrumentExists instrument then do
    let (E, status) ← E.submit instrument r
    .ok (E, .status status)
  else .ok (E, .refused)

/-- One call. -/
def step (E : Routing) : Call → Except Fault (Routing × Answer)
  | .addInstrument instrument startingPrice records => do
    let (E, ok) ← E.addInstrument instrument startingPrice records
    .ok (E, .added ok)
  | .addOrder now instrument order => E.request instrument (.add now order)
  | .modifyOrder instrument order => E.request instrument (.modify order)
  | .cancelOrder instrument orderId => E.request instrument (.cancel orderId)

end Routing

end LimitOrderBook
