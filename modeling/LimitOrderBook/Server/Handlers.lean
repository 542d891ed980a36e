import LimitOrderBook.Exchange.Admission

/-!
# The handlers

What the server answers: `server/handlers/order_handler.cpp` and
`server/handlers/orderbook_info_handler.cpp`, with the bodies of `server/handlers/response/`. A
handler tests the parameters of the path, the body and the working hours one after the other, each
in its own order, and the first test that fails gives the reply; then it makes its call of the
exchange.

A body that only copies the fields of another record is that record. When the parser throws there
is no reply of the handler (`none`), and what the client gets is up to the server library.

The same system also restarts, checks dates and takes steps of the repository
(`LimitOrderBook.Server.Event`).
-/

namespace LimitOrderBook

/-! ### Replies -/

/-- The statuses that the handlers set. -/
inductive HttpStatus where
  | ok
  | noContent
  | badRequest
  | notFound
  | notAcceptable
  deriving DecidableEq, Repr

/-- `static_cast<uint8_t>` of the enumerations. -/
def OrderStatus.toUInt8 : OrderStatus → UInt8
  | .accepted => 0
  | .matched => 1
  | .notMatched => 2
  | .rejected => 3
  | .cancelled => 4
  | .modified => 5
  | .notFound => 6

def Side.toUInt8 : Side → UInt8
  | .unkown => 0
  | .buy => 1
  | .sell => 2

def OrderType.toUInt8 : OrderType → UInt8
  | .market => 0
  | .limit => 1

/-- `SeastarOrderJson`. -/
structure SeastarOrderJson where
  id : String
  instrument : String
  userId : String
  timestamp : ℤ
  qty : ℚ
  currentQty : ℚ
  price : ℚ
  stopPrice : ℚ
  side : UInt8
  cancelled : Bool
  params : UInt64
  type : UInt8
  deriving DecidableEq

/-- The constructor of `SeastarOrderJson`. -/
def OrderData.toJson (o : OrderData) : SeastarOrderJson where
  id := o.id
  instrument := o.instrument
  userId := o.userId
  timestamp := o.timestamp
  qty := o.qty
  currentQty := o.currentQty
  price := o.price
  stopPrice := o.stopPrice
  side := o.side.toUInt8
  cancelled := o.cancelled
  params := o.params.toUInt64
  type := o.type.toUInt8

inductive Body where
  | text (message : String)
  /-- `SeastarOrderInfoJson`. -/
  | orderInfo (orderId : String) (status : UInt8)
  | order (order : SeastarOrderJson)
  /-- `SeastarSnapshotJson`. -/
  | snapshot (snapshot : Snapshot)

/-- A reply is made with the status 200 and without a body. -/
structure Reply where
  status : HttpStatus := .ok
  body : Option Body := none

/-! ### Calls of the exchange -/

namespace Exchange

/-- `Exchange::modify_order`. -/
def modify (E : Exchange) (instrument : String) (order : OrderArgs) :
    Except Fault (Exchange × Option OrderStatus) :=
  match E.books.lookup instrument with
  | none => .ok (E, none)
  | some s => do
    let (s', status) ← s.step (.modify order)
    .ok (E.setBook instrument s s' E.generated, status)

/-- `Exchange::get_order`. -/
def getOrder (E : Exchange) (orderId : String) : Option OrderData := E.store.get orderId

/-- `Exchange::get_orderbook_snapshot`. -/
def getOrderbookSnapshot (E : Exchange) (instrument : String) : Except Fault Snapshot := do
  let orderbook ← deref (E.books.lookup instrument)
  orderbook.getSnapshot

/-- The body of the loop of `Exchange::check_date_orders`. -/
def checkDate (E : Exchange) (now : ℤ) (instrument : String) : Except Fault Exchange :=
  match E.books.lookup instrument with
  | none => .ok E
  | some s => do
    let (s', _) ← s.step (.checkDate now)
    .ok (E.setBook instrument s s' E.generated)

end Exchange

/-! ### The handlers -/

/-- The parameters in the path of a request. -/
structure PathParams where
  instrument : Option String
  orderId : Option String
  deriving DecidableEq

namespace Server

variable (uuid : ℕ → String) (toFloat : ℚ → ℚ)

/-- The result of a test: a handler goes on, or ends with a reply, or with an exception. -/
abbrev Check (α : Type) : Type := Except (Option Reply) α

def validateParameter (parameter : Option String) (message : String) : Check String :=
  match parameter with
  | none => .error (some ⟨.badRequest, some (.text message)⟩)
  | some value => .ok value

def validateInstrumentParameter (E : Exchange) (params : PathParams) : Check String := do
  let instrument ← validateParameter params.instrument "invalid instrument parameter"
  if instrument ∈ E.books then .ok instrument
    else .error (some ⟨.notFound, some (.text ("instrument " ++ instrument ++ " doesn't exist"))⟩)

def validateOrderSide (orderSide : Side) : Check Unit :=
  if orderSide = .unkown then
    .error (some ⟨.badRequest, some (.text "order side can only be BUY or SELL")⟩)
  else .ok ()

def checkIfExchangeIsWorking (working : Bool) : Check Unit :=
  if working then .ok ()
  else .error (some ⟨.noContent, some (.text "exchange is not working currently.")⟩)

/-- The parser and the mapper, which throw when a field cannot be read. -/
def mapOrder (now : ℤ) (content : OrderJson) : Check OrderArgs :=
  match content.mapJsonToOrder toFloat now with
  | none => .error none
  | some order => .ok order

/-- The tests of `CreateOrderHandler::handle`. -/
def admitCreate (E : Exchange) (now : ℤ) (working : Bool) (params : PathParams)
    (content : OrderJson) : Check (String × OrderArgs) := do
  let instrument ← validateInstrumentParameter E params
  let order ← mapOrder toFloat now content
  validateOrderSide order.side
  checkIfExchangeIsWorking working
  .ok (instrument, order)

/-- `CreateOrderHandler::handle`. -/
def createOrder (E : Exchange) (now : ℤ) (working : Bool) (params : PathParams)
    (content : OrderJson) : Except Fault (Exchange × Option Reply) :=
  match admitCreate toFloat E now working params content with
  | .error reply => .ok (E, reply)
  | .ok (instrument, order) => do
    let (E', status) ← E.create uuid now instrument order
    let status ← deref status
    .ok (E', some { body := some (.orderInfo (uuid E.generated) status.toUInt8) })

/-- The tests of `UpdateOrderHandler::handle`. -/
def admitUpdate (E : Exchange) (now : ℤ) (working : Bool) (params : PathParams)
    (content : OrderJson) : Check (String × OrderArgs) := do
  let instrument ← validateInstrumentParameter E params
  checkIfExchangeIsWorking working
  let order ← mapOrder toFloat now content
  .ok (instrument, order)

/-- `UpdateOrderHandler::handle`. -/
def updateOrder (E : Exchange) (now : ℤ) (working : Bool) (params : PathParams)
    (content : OrderJson) : Except Fault (Exchange × Option Reply) :=
  match admitUpdate toFloat E now working params content with
  | .error reply => .ok (E, reply)
  | .ok (instrument, order) => do
    let (E', status) ← E.modify instrument order
    let status ← deref status
    .ok (E', some { body := some (.orderInfo order.id status.toUInt8) })

/-- The tests of `GetOrderHandler::handle`. -/
def admitGet (working : Bool) (params : PathParams) : Check String := do
  let orderId ← validateParameter params.orderId "invalid order parameter"
  checkIfExchangeIsWorking working
  .ok orderId

/-- `GetOrderHandler::handle`. -/
def getOrder (E : Exchange) (working : Bool) (params : PathParams) :
    Except Fault (Exchange × Option Reply) :=
  match admitGet working params with
  | .error reply => .ok (E, reply)
  | .ok orderId =>
    match E.getOrder orderId with
    | none => .ok (E, some { status := .notFound })
    | some order => .ok (E, some { body := some (.order order.toJson) })

/-- The tests of `CancelOrderHandler::handle`. -/
def admitCancel (E : Exchange) (working : Bool) (params : PathParams) :
    Check (String × String) := do
  let orderId ← validateParameter params.orderId "invalid order parameter"
  checkIfExchangeIsWorking working
  let instrument ← validateInstrumentParameter E params
  .ok (instrument, orderId)

/-- The status that `CancelOrderHandler::handle` sets; it stays 200 for the others. -/
def cancelStatus : OrderStatus → HttpStatus
  | .notFound => .notFound
  | .cancelled => .ok
  | .rejected => .notAcceptable
  | _ => .ok

/-- `CancelOrderHandler::handle`. -/
def cancelOrder (E : Exchange) (working : Bool) (params : PathParams) :
    Except Fault (Exchange × Option Reply) :=
  match admitCancel E working params with
  | .error reply => .ok (E, reply)
  | .ok (instrument, orderId) => do
    let (E', status) ← E.cancel instrument orderId
    let status ← deref status
    .ok (E', some { status := cancelStatus status })

/-- `SnapshotHandler::handle`. -/
def snapshot (E : Exchange) (params : PathParams) : Except Fault (Exchange × Option Reply) :=
  match validateInstrumentParameter E params with
  | .error reply => .ok (E, reply)
  | .ok instrument => do
    let snapshot ← E.getOrderbookSnapshot instrument
    .ok (E, some { body := some (.snapshot snapshot) })

/-! ### Refusals -/

/-- A test that fails gives a text, and a status other than 200. -/
def Check.Refuses {α : Type} (c : Check α) : Prop :=
  ∀ reply, c = .error (some reply) →
    reply.status ≠ .ok ∧ ∃ message, reply.body = some (.text message)

theorem Check.Refuses.bind {α β : Type} {c : Check α} {f : α → Check β} (hc : c.Refuses)
    (hf : ∀ a, (f a).Refuses) : (c >>= f).Refuses := by
  rcases c with reply | a
  · intro reply' he
    exact hc reply' (congrArg Except.error (Except.error.inj he))
  · exact hf a

/-- The two parts of a sequence of tests that all pass. -/
theorem Check.bind_eq_ok {α β : Type} {c : Check α} {f : α → Check β} {b : β} :
    c >>= f = .ok b ↔ ∃ a, c = .ok a ∧ f a = .ok b := by
  cases c <;> simp [Bind.bind, Except.bind]

theorem refuses_ok {α : Type} (a : α) : Check.Refuses (.ok a) := fun _ h => absurd h (by simp)

theorem refuses_text {α : Type} {status : HttpStatus} (hstatus : status ≠ .ok) (message : String) :
    Check.Refuses (α := α) (.error (some ⟨status, some (.text message)⟩)) := by
  rintro reply h
  cases h
  exact ⟨hstatus, message, rfl⟩

theorem refuses_validateParameter (parameter : Option String) (message : String) :
    (validateParameter parameter message).Refuses := by
  cases parameter with
  | none => exact refuses_text (by decide) _
  | some value => exact refuses_ok value

theorem refuses_validateInstrumentParameter (E : Exchange) (params : PathParams) :
    (validateInstrumentParameter E params).Refuses := by
  refine (refuses_validateParameter _ _).bind fun instrument => ?_
  split
  · exact refuses_ok _
  · exact refuses_text (by decide) _

theorem refuses_validateOrderSide (side : Side) : (validateOrderSide side).Refuses := by
  rw [validateOrderSide]
  split
  · exact refuses_text (by decide) _
  · exact refuses_ok _

theorem refuses_checkIfExchangeIsWorking (working : Bool) :
    (checkIfExchangeIsWorking working).Refuses := by
  rw [checkIfExchangeIsWorking]
  split
  · exact refuses_ok _
  · exact refuses_text (by decide) _

variable {toFloat}

theorem refuses_mapOrder (now : ℤ) (content : OrderJson) :
    (mapOrder toFloat now content).Refuses := by
  rw [mapOrder]
  split
  · exact fun _ h => absurd h (by simp)
  · exact refuses_ok _

theorem refuses_admitCreate (E : Exchange) (now : ℤ) (working : Bool) (params : PathParams)
    (content : OrderJson) : (admitCreate toFloat E now working params content).Refuses :=
  (refuses_validateInstrumentParameter E params).bind fun _ =>
    (refuses_mapOrder now content).bind fun _ => (refuses_validateOrderSide _).bind fun _ =>
      (refuses_checkIfExchangeIsWorking working).bind fun _ => refuses_ok _

theorem refuses_admitUpdate (E : Exchange) (now : ℤ) (working : Bool) (params : PathParams)
    (content : OrderJson) : (admitUpdate toFloat E now working params content).Refuses :=
  (refuses_validateInstrumentParameter E params).bind fun _ =>
    (refuses_checkIfExchangeIsWorking working).bind fun _ =>
      (refuses_mapOrder now content).bind fun _ => refuses_ok _

theorem refuses_admitGet (working : Bool) (params : PathParams) :
    (admitGet working params).Refuses :=
  (refuses_validateParameter _ _).bind fun _ =>
    (refuses_checkIfExchangeIsWorking working).bind fun _ => refuses_ok _

theorem refuses_admitCancel (E : Exchange) (working : Bool) (params : PathParams) :
    (admitCancel E working params).Refuses :=
  (refuses_validateParameter _ _).bind fun _ =>
    (refuses_checkIfExchangeIsWorking working).bind fun _ =>
      (refuses_validateInstrumentParameter E params).bind fun _ => refuses_ok _

/-! ### What is admitted -/

variable {E : Exchange} {now : ℤ} {working : Bool} {params : PathParams} {content : OrderJson}
  {X id : String} {a : OrderArgs}

theorem validateParameter_eq_ok {parameter : Option String} {message value : String}
    (h : validateParameter parameter message = .ok value) : parameter = some value := by
  cases parameter with
  | none => exact absurd h (by simp [validateParameter])
  | some value' => exact congrArg some (Except.ok.inj h)

theorem validateInstrumentParameter_eq_ok (h : validateInstrumentParameter E params = .ok X) :
    params.instrument = some X ∧ ∃ s, E.books.lookup X = some s := by
  obtain ⟨instrument, hinstrument, h⟩ := Check.bind_eq_ok.mp h
  split at h
  · next hmem =>
    obtain rfl := Except.ok.inj h
    exact ⟨validateParameter_eq_ok hinstrument, Option.isSome_iff_exists.mp
      (AList.lookup_isSome.mpr hmem)⟩
  · exact absurd h (by simp)

theorem mapOrder_eq_ok (h : mapOrder toFloat now content = .ok a) :
    content.mapJsonToOrder toFloat now = some a := by
  rw [mapOrder] at h
  split at h
  · exact absurd h (by simp)
  · next order horder => rw [horder, Except.ok.inj h]

theorem checkIfExchangeIsWorking_eq_ok {u : Unit} (h : checkIfExchangeIsWorking working = .ok u) :
    working = true := by
  cases working with
  | false => exact absurd h (by simp [checkIfExchangeIsWorking])
  | true => rfl

/-- An order that is admitted is for a book that there is, has a side, and is what the mapper makes
of the body. -/
theorem admitCreate_eq_ok (h : admitCreate toFloat E now working params content = .ok (X, a)) :
    params.instrument = some X ∧ (∃ s, E.books.lookup X = some s) ∧
      content.mapJsonToOrder toFloat now = some a ∧ a.side ≠ .unkown ∧ working = true := by
  obtain ⟨instrument, hinstrument, h⟩ := Check.bind_eq_ok.mp h
  obtain ⟨order, horder, h⟩ := Check.bind_eq_ok.mp h
  obtain ⟨_, hside, h⟩ := Check.bind_eq_ok.mp h
  obtain ⟨_, hworking, h⟩ := Check.bind_eq_ok.mp h
  obtain ⟨rfl, rfl⟩ := Prod.mk.inj (Except.ok.inj h)
  obtain ⟨hparams, hbook⟩ := validateInstrumentParameter_eq_ok hinstrument
  refine ⟨hparams, hbook, mapOrder_eq_ok horder, fun hunkown => ?_,
    checkIfExchangeIsWorking_eq_ok hworking⟩
  exact absurd hside (by simp [validateOrderSide, hunkown])

theorem admitUpdate_eq_ok (h : admitUpdate toFloat E now working params content = .ok (X, a)) :
    params.instrument = some X ∧ (∃ s, E.books.lookup X = some s) ∧
      content.mapJsonToOrder toFloat now = some a := by
  obtain ⟨instrument, hinstrument, h⟩ := Check.bind_eq_ok.mp h
  obtain ⟨-, -, h⟩ := Check.bind_eq_ok.mp h
  obtain ⟨order, horder, h⟩ := Check.bind_eq_ok.mp h
  obtain ⟨rfl, rfl⟩ := Prod.mk.inj (Except.ok.inj h)
  obtain ⟨hparams, hbook⟩ := validateInstrumentParameter_eq_ok hinstrument
  exact ⟨hparams, hbook, mapOrder_eq_ok horder⟩

theorem admitGet_eq_ok (h : admitGet working params = .ok id) : params.orderId = some id := by
  obtain ⟨orderId, horderId, h⟩ := Check.bind_eq_ok.mp h
  obtain ⟨-, -, h⟩ := Check.bind_eq_ok.mp h
  obtain rfl := Except.ok.inj h
  exact validateParameter_eq_ok horderId

theorem admitCancel_eq_ok (h : admitCancel E working params = .ok (X, id)) :
    params.instrument = some X ∧ params.orderId = some id ∧ (∃ s, E.books.lookup X = some s) ∧
      working = true := by
  obtain ⟨orderId, horderId, h⟩ := Check.bind_eq_ok.mp h
  obtain ⟨_, hworking, h⟩ := Check.bind_eq_ok.mp h
  obtain ⟨instrument, hinstrument, h⟩ := Check.bind_eq_ok.mp h
  obtain ⟨rfl, rfl⟩ := Prod.mk.inj (Except.ok.inj h)
  obtain ⟨hparams, hbook⟩ := validateInstrumentParameter_eq_ok hinstrument
  exact ⟨hparams, validateParameter_eq_ok horderId, hbook, checkIfExchangeIsWorking_eq_ok hworking⟩

/-! ### Runs -/

/-- What can happen: the requests of the five routes, where `working` is what `is_working` says at
that time; and, apart from requests, the check of the dates of one book, the construction of a new
exchange over the repository, and a step of the thread of the repository. -/
inductive Event where
  | create (now : ℤ) (working : Bool) (params : PathParams) (content : OrderJson)
  | update (now : ℤ) (working : Bool) (params : PathParams) (content : OrderJson)
  | get (working : Bool) (params : PathParams)
  | cancel (working : Bool) (params : PathParams)
  | snapshot (params : PathParams)
  | checkDate (now : ℤ) (instrument : String)
  | restart (instruments : List (String × ℚ)) (keepsQueue : Bool)
  | persist
  deriving DecidableEq

def step (uuid : ℕ → String) (toFloat : ℚ → ℚ) (E : Exchange) :
    Event → Except Fault (Exchange × Option Reply)
  | .create now working params content => createOrder uuid toFloat E now working params content
  | .update now working params content => updateOrder toFloat E now working params content
  | .get working params => getOrder E working params
  | .cancel working params => cancelOrder E working params
  | .snapshot params => snapshot E params
  | .checkDate now instrument => do
    .ok (← E.checkDate now instrument, none)
  | .restart instruments keepsQueue => do
    .ok (← E.restart instruments keepsQueue, none)
  | .persist => do
    .ok (← E.persist, none)

end Server

end LimitOrderBook
