import LimitOrderBook.Lib.Fault
import LimitOrderBook.Lib.SortedKeys
import Mathlib.Algebra.Order.Ring.Rat
import Mathlib.Data.Prod.Lex

/-!
# Orders and price levels

The classes of `data_structures/`: the enumerations, `Order` with its
comparators, `Limit` with its comparator, and the records that a book hands out.
Quantities and prices are exact rationals. A time is the integer `time_t`.

What an order or a level *says* is kept apart from how it is linked to others:
`LimitOrderBook.OrderData` and `LimitOrderBook.LimitData` have no pointers,
`LimitOrderBook.Order` and `LimitOrderBook.Limit` add them. A pointer is an
optional number, that of the object in the heap of the book.
-/

namespace LimitOrderBook

/-! ### Enumerations -/

/-- The enumeration `Side`; the source spells the first member `UNKOWN`. -/
inductive Side where
  | unkown : Side
  | buy : Side
  | sell : Side
  deriving DecidableEq, Repr

/-- The enumeration `OrderType`. -/
inductive OrderType where
  | market : OrderType
  | limit : OrderType
  deriving DecidableEq, Repr

/-- The enumeration `OrderStatus`. -/
inductive OrderStatus where
  | accepted : OrderStatus
  | matched : OrderStatus
  | notMatched : OrderStatus
  | rejected : OrderStatus
  | cancelled : OrderStatus
  | modified : OrderStatus
  | notFound : OrderStatus
  deriving DecidableEq, Repr

/-- The flags `OrderParams`: any combination of bits is a value. -/
structure OrderParams where
  toUInt64 : UInt64
  deriving DecidableEq, Repr

namespace OrderParams

def stop : OrderParams := ⟨1⟩
def aon : OrderParams := ⟨(1 : UInt64) <<< 1⟩
def ioc : OrderParams := ⟨(1 : UInt64) <<< 2⟩
def fok : OrderParams := ⟨aon.toUInt64 ||| ioc.toUInt64⟩
def gtc : OrderParams := ⟨(1 : UInt64) <<< 3⟩
def gfd : OrderParams := ⟨(1 : UInt64) <<< 4⟩
def gtd : OrderParams := ⟨(1 : UInt64) <<< 5⟩

end OrderParams

/-! ### Orders -/

/-- The fields of an order other than its links. -/
structure OrderData where
  id : String
  instrument : String
  userId : String
  timestamp : ℤ
  /-- The initial quantity `_qty`. -/
  qty : ℚ
  /-- The remaining quantity `_current_qty`. -/
  currentQty : ℚ
  price : ℚ
  stopPrice : ℚ
  side : Side
  cancelled : Bool
  params : OrderParams
  type : OrderType
  expireTime : ℤ
  deriving DecidableEq

/-- What the constructors of `Order` are given, and the time at which they run;
the constructors without a stop price leave it at its default. -/
structure OrderArgs where
  id : String
  instrument : String
  userId : String
  qty : ℚ
  price : ℚ
  stopPrice : ℚ := 0
  side : Side
  params : OrderParams
  type : OrderType
  expireTime : ℤ
  timestamp : ℤ
  deriving DecidableEq

/-- The constructor of `Order`: nothing is filled and nothing is cancelled. -/
def OrderArgs.toData (a : OrderArgs) : OrderData where
  id := a.id
  instrument := a.instrument
  userId := a.userId
  timestamp := a.timestamp
  qty := a.qty
  currentQty := a.qty
  price := a.price
  stopPrice := a.stopPrice
  side := a.side
  cancelled := false
  params := a.params
  type := a.type
  expireTime := a.expireTime

/-- The arguments of a limit order without a date, as concrete runs use them. -/
def OrderArgs.limit (id : String) (side : Side) (qty price : ℚ)
    (params : OrderParams := .gtc) : OrderArgs where
  id := id
  instrument := "X"
  userId := id
  qty := qty
  price := price
  side := side
  params := params
  type := .limit
  expireTime := 0
  timestamp := 0

namespace OrderData

def isBuy (o : OrderData) : Bool := o.side = .buy

def hasParam (o : OrderData) (p : OrderParams) : Bool :=
  o.params.toUInt64 &&& p.toUInt64 ≠ 0

def isFullfilled (o : OrderData) : Bool := o.currentQty = 0

def cancel (o : OrderData) : OrderData := { o with cancelled := true }

def fill (o : OrderData) : OrderData := { o with currentQty := 0 }

def setParams (o : OrderData) (p : OrderParams) : OrderData := { o with params := p }

def decreaseQty (o : OrderData) (deltaQty : ℚ) : Except Fault OrderData :=
  if deltaQty > o.currentQty then
    .error (.invalidArgument "Modifying quantity must not be bigger than current quantity")
  else .ok { o with currentQty := o.currentQty - deltaQty }

/-- An order that is good for the day or till a date. -/
def isDated (o : OrderData) : Bool := o.hasParam .gfd || o.hasParam .gtd

/-- The test of `add_order` for a dormant stop order. -/
def isDormant (o : OrderData) (marketPrice : ℚ) : Bool :=
  (o.isBuy && marketPrice > o.stopPrice) || (!o.isBuy && marketPrice < o.stopPrice)

/-- The test of `check_date_orders`, for a time that is already an hour ahead. -/
def isDue (o : OrderData) (now : ℤ) : Bool := o.hasParam .gfd || o.expireTime < now

/-- The order that `add_order` goes on with: a stop order that is not dormant
loses its flags when it is a market order. -/
def activated (o : OrderData) : OrderData :=
  if o.hasParam .stop && o.type = .market then o.setParams .ioc else o

/-- Fill-or-kill is asked for by either of its two flags. -/
theorem hasParam_fok (o : OrderData) : o.hasParam .fok = (o.hasParam .aon || o.hasParam .ioc) := by
  have hbit : ∀ x a b : UInt64, x &&& (a ||| b) = 0 ↔ x &&& a = 0 ∧ x &&& b = 0 := by
    intro x a b
    simp only [← UInt64.toBitVec_inj, UInt64.toBitVec_and, UInt64.toBitVec_or,
      UInt64.toBitVec_zero, BitVec.and_or_distrib_left, BitVec.or_eq_zero_iff]
  rw [Bool.eq_iff_iff]
  simp only [hasParam, OrderParams.fok, ne_eq, hbit, Bool.or_eq_true, decide_eq_true_eq]
  exact not_and_or

/-- An immediate-or-cancel order is not a stop order, and not all-or-nothing. -/
theorem hasParam_setParams_ioc (o : OrderData) :
    (o.setParams .ioc).hasParam .stop = false ∧ (o.setParams .ioc).hasParam .aon = false ∧
      (o.setParams .ioc).hasParam .ioc = true := by
  have hstop : OrderParams.ioc.toUInt64 &&& OrderParams.stop.toUInt64 = 0 := by decide
  have haon : OrderParams.ioc.toUInt64 &&& OrderParams.aon.toUInt64 = 0 := by decide
  have hioc : OrderParams.ioc.toUInt64 &&& OrderParams.ioc.toUInt64 ≠ 0 := by decide
  exact ⟨decide_eq_false (not_not.mpr hstop), decide_eq_false (not_not.mpr haon),
    decide_eq_true hioc⟩

/-- An order without the flag STOP stays as it is. -/
theorem activated_of_not_stop {o : OrderData} (h : o.hasParam .stop = false) : o.activated = o := by
  rw [activated, h]
  rfl

@[simp] theorem activated_side (o : OrderData) : o.activated.side = o.side := by
  unfold activated; split <;> rfl

@[simp] theorem activated_isBuy (o : OrderData) : o.activated.isBuy = o.isBuy := by
  simp [isBuy]

@[simp] theorem activated_price (o : OrderData) : o.activated.price = o.price := by
  unfold activated; split <;> rfl

@[simp] theorem activated_currentQty (o : OrderData) : o.activated.currentQty = o.currentQty := by
  unfold activated; split <;> rfl

@[simp] theorem activated_type (o : OrderData) : o.activated.type = o.type := by
  unfold activated; split <;> rfl

@[simp] theorem activated_id (o : OrderData) : o.activated.id = o.id := by
  unfold activated; split <;> rfl

@[simp] theorem activated_cancelled (o : OrderData) : o.activated.cancelled = o.cancelled := by
  unfold activated; split <;> rfl

end OrderData

/-- `x` is `y` at a later time: only the remaining quantity, the mark of a
cancellation and the flags of an order ever change. -/
structure OrderData.Keeps (x y : OrderData) : Prop where
  id : x.id = y.id
  instrument : x.instrument = y.instrument
  userId : x.userId = y.userId
  timestamp : x.timestamp = y.timestamp
  qty : x.qty = y.qty
  price : x.price = y.price
  stopPrice : x.stopPrice = y.stopPrice
  side : x.side = y.side
  type : x.type = y.type
  expireTime : x.expireTime = y.expireTime

namespace OrderData.Keeps

variable {x y z : OrderData}

theorem refl (x : OrderData) : x.Keeps x := ⟨rfl, rfl, rfl, rfl, rfl, rfl, rfl, rfl, rfl, rfl⟩

theorem trans (h : x.Keeps y) (h' : y.Keeps z) : x.Keeps z where
  id := h.id.trans h'.id
  instrument := h.instrument.trans h'.instrument
  userId := h.userId.trans h'.userId
  timestamp := h.timestamp.trans h'.timestamp
  qty := h.qty.trans h'.qty
  price := h.price.trans h'.price
  stopPrice := h.stopPrice.trans h'.stopPrice
  side := h.side.trans h'.side
  type := h.type.trans h'.type
  expireTime := h.expireTime.trans h'.expireTime

theorem isBuy (h : x.Keeps y) : x.isBuy = y.isBuy := by rw [OrderData.isBuy, OrderData.isBuy, h.side]

theorem isDormant (h : x.Keeps y) (marketPrice : ℚ) :
    x.isDormant marketPrice = y.isDormant marketPrice := by
  rw [OrderData.isDormant, OrderData.isDormant, h.isBuy, h.stopPrice]

theorem cancel (x : OrderData) : x.cancel.Keeps x := ⟨rfl, rfl, rfl, rfl, rfl, rfl, rfl, rfl, rfl, rfl⟩

theorem setQty (x : OrderData) (q : ℚ) : OrderData.Keeps { x with currentQty := q } x :=
  ⟨rfl, rfl, rfl, rfl, rfl, rfl, rfl, rfl, rfl, rfl⟩

theorem activated (x : OrderData) : x.activated.Keeps x := by
  unfold OrderData.activated
  split
  · exact ⟨rfl, rfl, rfl, rfl, rfl, rfl, rfl, rfl, rfl, rfl⟩
  · exact refl x

end OrderData.Keeps

/-- An order in the heap, linked into the queue of its level. -/
structure Order extends OrderData where
  parent : Option ℕ
  prev : Option ℕ
  next : Option ℕ

/-- An order that is in no queue. -/
def Order.ofData (o : OrderData) : Order := { o with parent := none, prev := none, next := none }

/-! ### Price levels -/

/-- The fields of a level other than its links. -/
structure LimitData where
  price : ℚ
  numberOfActiveOrders : UInt64 := 0
  totalNumberOfOrders : UInt64 := 0
  activeVolume : ℚ := 0
  totalVolume : ℚ := 0
  deriving DecidableEq

namespace LimitData

def increaseVolume (l : LimitData) (deltaQty : ℚ) : LimitData :=
  { l with activeVolume := l.activeVolume + deltaQty, totalVolume := l.totalVolume + deltaQty }

def decreaseVolume (l : LimitData) (deltaQty : ℚ) : LimitData :=
  { l with activeVolume := max 0 (l.activeVolume - deltaQty) }

def decreaseNumberOfOrders (l : LimitData) : LimitData :=
  { l with numberOfActiveOrders := l.numberOfActiveOrders - 1 }

end LimitData

/-- A level in the heap, with the two ends of its queue. -/
structure Limit extends LimitData where
  head : Option ℕ
  tail : Option ℕ

/-- The constructor of `Limit`. -/
def Limit.new (price : ℚ) : Limit := { price := price, head := none, tail := none }

/-! ### Comparators -/

/-- `LimitComparator`. -/
def limitComparator (asc : Bool) (lhs rhs : LimitData) : Bool :=
  if asc then lhs.price < rhs.price else lhs.price > rhs.price

/-- `OrderComparator`. -/
def orderComparator (asc : Bool) (lhs rhs : OrderData) : Bool :=
  if lhs.price = rhs.price then lhs.timestamp < rhs.timestamp
  else if asc then lhs.price < rhs.price else lhs.price > rhs.price

/-- `DateOrderComparator`. -/
def dateOrderComparator (asc : Bool) (lhs rhs : OrderData) : Bool :=
  if asc then lhs.expireTime < rhs.expireTime else lhs.expireTime > rhs.expireTime

/-- Comparing a key in a linear order is a strict weak order. -/
theorem strictWeak_of_key {α β : Type} [LinearOrder β] {lt : α → α → Bool} (f : α → β)
    (h : ∀ a b, lt a b = true ↔ f a < f b) : StrictWeak lt where
  irrefl a := by
    rw [h]
    exact lt_irrefl _
  trans a b c := by
    simp only [h]
    exact lt_trans
  incomp_trans a b c := by
    simp only [h, not_lt]
    exact fun h₁ h₂ => ⟨h₂.1.trans h₁.1, h₁.2.trans h₂.2⟩

theorem limitComparator_strictWeak (asc : Bool) {α : Type} (f : α → LimitData) :
    StrictWeak fun a b => limitComparator asc (f a) (f b) := by
  refine strictWeak_of_key (fun a => if asc then (f a).price else -(f a).price) fun a b => ?_
  cases asc <;> simp [limitComparator]

theorem orderComparator_strictWeak (asc : Bool) {α : Type} (f : α → OrderData) :
    StrictWeak fun a b => orderComparator asc (f a) (f b) := by
  refine strictWeak_of_key
    (fun a => toLex (if asc then (f a).price else -(f a).price, (f a).timestamp)) fun a b => ?_
  rw [Prod.Lex.toLex_lt_toLex, orderComparator]
  by_cases hp : (f a).price = (f b).price
  · simp [hp]
  · cases asc <;> simp [hp]

theorem dateOrderComparator_strictWeak (asc : Bool) {α : Type} (f : α → OrderData) :
    StrictWeak fun a b => dateOrderComparator asc (f a) (f b) := by
  refine strictWeak_of_key (fun a => if asc then (f a).expireTime else -(f a).expireTime)
    fun a b => ?_
  cases asc <;> simp [dateOrderComparator]

/-! ### Records -/

/-- A record for the trade repository. -/
structure Trade where
  buyerId : String
  sellerId : String
  buyerOrderId : String
  sellerOrderId : String
  instrument : String
  volume : ℚ
  price : ℚ
  timestamp : ℤ
  deriving DecidableEq

/-- The answer of `get_spread`. -/
structure Spread where
  bestBidPrice : ℚ
  bestAskPrice : ℚ
  marketPrice : ℚ
  deriving DecidableEq

/-- A price level as a snapshot shows it. -/
structure SnapshotLimit where
  price : ℚ
  qty : ℚ
  deriving DecidableEq

/-- The answer of `get_snapshot`. -/
structure Snapshot where
  asks : List SnapshotLimit
  bids : List SnapshotLimit
  spread : Spread
  deriving DecidableEq

end LimitOrderBook
