import LimitOrderBook.Exchange.Admission
import LimitOrderBook.OrderBook.Reach
import Mathlib.Tactic.SplitIfs

/-!
# From the document to the order

What of a request is left in the order that `map_json_to_order` makes of it. The flags are read
in three ways: the expire time with a masked equality, the stop price with an equality, and
`has_param` with a test for any bit. For a flag of one bit the first and the last are the same
(`LimitOrderBook.OrderJson.includes_iff`), but an order with STOP and another flag – the
enumeration has `STOP_GTC`, `STOP_GFD` and `STOP_GTD` for these – is a stop order whose stop
price has not been read: it is 0.

The expire time is read whenever it is needed, as a number without a sign, and becomes a
`time_t`, which has one.
-/

namespace LimitOrderBook

namespace OrderJson

variable {toFloat : ℚ → ℚ} {json : OrderJson}

/-! ### What is asked for -/

/-- Every field is present. -/
structure IsComplete (json : OrderJson) : Prop where
  orderId : json.orderId.isSome
  instrument : json.instrument.isSome
  userId : json.userId.isSome
  qty : json.qty.isSome
  price : json.price.isSome
  side : json.side.isSome
  type : json.type.isSome
  params : json.params.isSome
  expireTime : json.expireTime.isSome
  stopPrice : json.stopPrice.isSome

/-- **The order is the one that was asked for**, as far as its stop price and its expire time
go, and `add_order` parks it in a book exactly if it would park it with the stop price of the
request. -/
structure KeptBy (json : OrderJson) (a : OrderArgs) : Prop where
  stopPrice : a.toData.hasParam .stop = true → json.stopPrice = some a.toData.stopPrice
  expireTime : (a.toData.hasParam .gtd = true ∨ a.toData.hasParam .gfd = true) →
    json.expireTime.map (fun time => (time.toNat : ℤ)) = some a.toData.expireTime
  parks : ∀ (s : OrderBook) stopPrice, json.stopPrice = some stopPrice →
    s.parks a = s.parks { a with stopPrice := stopPrice }

/-- The stop price of an order with the flag STOP alone is a `float`, that of one with STOP and
other flags is 0, and a date is one that `time_t` has. -/
structure Keepable (toFloat : ℚ → ℚ) (json : OrderJson) : Prop where
  stopPrice : ∀ params stopPrice, json.params = some params → json.stopPrice = some stopPrice →
    params &&& OrderParams.stop.toUInt64 ≠ 0 →
      if params = OrderParams.stop.toUInt64 then toFloat stopPrice = stopPrice else stopPrice = 0
  expireTime : ∀ params time, json.params = some params → json.expireTime = some time →
    (params &&& OrderParams.gtd.toUInt64 ≠ 0 ∨ params &&& OrderParams.gfd.toUInt64 ≠ 0) →
      time.toNat < 2 ^ 63

/-! ### Reading the flags -/

/-- **For a flag of one bit** the masked equality is the test for any bit. -/
theorem and_eq_iff {x m : UInt64} {i : ℕ} (hm : m.toBitVec = BitVec.twoPow 64 i) (hi : i < 64) :
    x &&& m = m ↔ x &&& m ≠ 0 := by
  have hne : BitVec.twoPow 64 i ≠ 0#64 := fun he => by
    have hbit := congrArg (fun v : BitVec 64 => v.getLsbD i) he
    simp [hi] at hbit
  simp only [ne_eq, ← UInt64.toBitVec_inj, UInt64.toBitVec_and, UInt64.toBitVec_zero, hm,
    BitVec.and_twoPow]
  split_ifs
  · exact iff_of_true rfl hne
  · exact iff_of_false (Ne.symm hne) (not_not_intro rfl)

theorem includes_iff {params : OrderParams} :
    (includes params .gtd || includes params .gfd) = true ↔
      params.toUInt64 &&& OrderParams.gtd.toUInt64 ≠ 0 ∨
        params.toUInt64 &&& OrderParams.gfd.toUInt64 ≠ 0 := by
  have hgtd : OrderParams.gtd.toUInt64.toBitVec = BitVec.twoPow 64 5 := by decide
  have hgfd : OrderParams.gfd.toUInt64.toBitVec = BitVec.twoPow 64 4 := by decide
  rw [Bool.or_eq_true, includes, includes, decide_eq_true_eq, decide_eq_true_eq,
    and_eq_iff hgtd (by decide), and_eq_iff hgfd (by decide)]

/-- A number without a sign is the same as a `time_t` exactly if it is below `2 ^ 63`. -/
theorem toInt_toInt64_eq_iff (time : UInt64) :
    (time.toNat : ℤ) = time.toInt64.toInt ↔ time.toNat < 2 ^ 63 := by
  have hlt := time.toNat_lt
  have hint : time.toInt64.toInt = time.toBitVec.toInt := rfl
  rw [hint, BitVec.toInt_eq_toNat_cond]
  have hnat : time.toBitVec.toNat = time.toNat := rfl
  rw [hnat]
  split_ifs <;> omega

/-! ### The order -/

/-- **What the mapper makes of a complete document**: the flags are those of the document, the
stop price is read if STOP is the only one, and the expire time if there is a flag for it. -/
theorem IsComplete.mapJsonToOrder (h : json.IsComplete) (toFloat : ℚ → ℚ) (now : ℤ) :
    ∃ params stopPrice time a, json.params = some params ∧ json.stopPrice = some stopPrice ∧
      json.expireTime = some time ∧ json.mapJsonToOrder toFloat now = some a ∧
      a.params = ⟨params⟩ ∧
      a.stopPrice = (if params = OrderParams.stop.toUInt64 then toFloat stopPrice else 0) ∧
      ((params &&& OrderParams.gtd.toUInt64 ≠ 0 ∨ params &&& OrderParams.gfd.toUInt64 ≠ 0) →
        a.expireTime = time.toInt64.toInt) := by
  obtain ⟨instrument, hinstrument⟩ := Option.isSome_iff_exists.mp h.instrument
  obtain ⟨userId, huserId⟩ := Option.isSome_iff_exists.mp h.userId
  obtain ⟨qty, hqty⟩ := Option.isSome_iff_exists.mp h.qty
  obtain ⟨price, hprice⟩ := Option.isSome_iff_exists.mp h.price
  obtain ⟨side, hside⟩ := Option.isSome_iff_exists.mp h.side
  obtain ⟨type, htype⟩ := Option.isSome_iff_exists.mp h.type
  obtain ⟨params, hparams⟩ := Option.isSome_iff_exists.mp h.params
  obtain ⟨time, htime⟩ := Option.isSome_iff_exists.mp h.expireTime
  obtain ⟨stopPrice, hstopPrice⟩ := Option.isSome_iff_exists.mp h.stopPrice
  have halone : (⟨params⟩ : OrderParams) = .stop ↔ params = OrderParams.stop.toUInt64 :=
    ⟨congrArg OrderParams.toUInt64, congrArg OrderParams.mk⟩
  have hrun : json.mapJsonToOrder toFloat now = some
      { id := json.orderId.getD ""
        instrument := instrument
        userId := userId
        qty := toFloat qty
        price := toFloat price
        stopPrice := if params = OrderParams.stop.toUInt64 then toFloat stopPrice else 0
        side := getOrderSide side
        params := ⟨params⟩
        type := getOrderType type
        expireTime := (if includes ⟨params⟩ .gtd || includes ⟨params⟩ .gfd then time
          else -1 : UInt64).toInt64.toInt
        timestamp := now } := by
    rw [OrderJson.mapJsonToOrder, hinstrument, huserId, hqty, hprice, hside, htype, hparams]
    simp only [Option.bind_eq_bind, Option.bind_some, getOrderParams, htime, hstopPrice,
      Option.map_some, halone]
    split_ifs <;> rfl
  refine ⟨params, stopPrice, time, _, hparams, hstopPrice, htime, hrun, rfl, rfl, fun hdated => ?_⟩
  exact congrArg (fun time : UInt64 => time.toInt64.toInt) (if_pos (includes_iff.mpr hdated))

end OrderJson

/-- An order without STOP is not parked. -/
theorem OrderBook.parks_of_not_stop {s : OrderBook} {a : OrderArgs}
    (h : a.toData.hasParam .stop = false) : s.parks a = false := by
  rw [OrderBook.parks, h, Bool.false_and]

/-- A request to buy with a stop price of 95 and these flags. -/
def stopRequest (params : UInt64) : OrderJson where
  orderId := some "a"
  instrument := some "X"
  userId := some "a"
  qty := some 5
  price := some 100
  side := some "BUY"
  type := some "LIMIT"
  params := some params
  expireTime := some 0
  stopPrice := some 95

/-- **The mapper keeps the stop price and the expire time** of a complete document exactly if an
order with STOP has no other flag and a `float` for its stop price, or other flags and no stop
price, and the date of an order with GTD or GFD is one that `time_t` has. -/
theorem mapJsonToOrder_keeps_iff (toFloat : ℚ → ℚ) (now : ℤ) {json : OrderJson}
    (h : json.IsComplete) :
    ∃ a, json.mapJsonToOrder toFloat now = some a ∧ (json.KeptBy a ↔ json.Keepable toFloat) := by
  obtain ⟨params, stopPrice, time, a, hparams, hstopPrice, htime, hrun, hflags, hstop, hdate⟩ :=
    h.mapJsonToOrder toFloat now
  have hparam : ∀ p : OrderParams, a.toData.hasParam p = true ↔ params &&& p.toUInt64 ≠ 0 :=
    fun p => by rw [OrderData.hasParam, OrderArgs.toData, hflags, decide_eq_true_eq]
  have hprice : a.stopPrice = stopPrice ↔ if params = OrderParams.stop.toUInt64 then
      toFloat stopPrice = stopPrice else stopPrice = 0 := by
    rw [hstop]
    split_ifs
    · rfl
    · exact eq_comm
  refine ⟨a, hrun, fun hkept => ⟨?_, ?_⟩, fun hkeep => ?_⟩
  · intro params' stopPrice' hparams' hstopPrice' hp
    obtain rfl := Option.some.inj (hparams.symm.trans hparams')
    obtain rfl := Option.some.inj (hstopPrice.symm.trans hstopPrice')
    have hsame := hkept.stopPrice ((hparam .stop).mpr hp)
    exact hprice.mp (Option.some.inj (hsame.symm.trans hstopPrice))
  · intro params' time' hparams' htime' hp
    obtain rfl := Option.some.inj (hparams.symm.trans hparams')
    obtain rfl := Option.some.inj (htime.symm.trans htime')
    have hsame := hkept.expireTime (hp.imp (hparam .gtd).mpr (hparam .gfd).mpr)
    rw [htime, Option.map_some] at hsame
    exact (OrderJson.toInt_toInt64_eq_iff time).mp ((Option.some.inj hsame).trans (hdate hp))
  · have hsame : a.toData.hasParam .stop = true → a.stopPrice = stopPrice := fun hp =>
      hprice.mpr (hkeep.stopPrice params stopPrice hparams hstopPrice ((hparam .stop).mp hp))
    refine ⟨fun hp => hstopPrice.trans (congrArg some (hsame hp).symm), fun hp => ?_, ?_⟩
    · have hp := hp.imp (hparam .gtd).mp (hparam .gfd).mp
      rw [htime, Option.map_some]
      refine congrArg some (((OrderJson.toInt_toInt64_eq_iff time).mpr ?_).trans (hdate hp).symm)
      exact hkeep.expireTime params time hparams htime hp
    · intro s stopPrice' hstopPrice'
      obtain rfl := Option.some.inj (hstopPrice.symm.trans hstopPrice')
      by_cases hp : a.toData.hasParam .stop = true
      · rw [← hsame hp]
      · -- without STOP the stop price is not looked at
        rw [OrderBook.parks_of_not_stop (Bool.eq_false_iff.mpr hp),
          OrderBook.parks_of_not_stop (a := { a with stopPrice := stopPrice })
            (Bool.eq_false_iff.mpr hp)]

/-- A stop order without other flags. -/
theorem mapJsonToOrder_keeps_iff_stop :
    ∃ a, (stopRequest 1).mapJsonToOrder id 0 = some a ∧
      ((stopRequest 1).KeptBy a ↔ (stopRequest 1).Keepable id) :=
  mapJsonToOrder_keeps_iff id 0 ⟨rfl, rfl, rfl, rfl, rfl, rfl, rfl, rfl, rfl, rfl⟩

/-- **A stop order that is good till it is cancelled** loses its stop price of 95: it has 0
instead, and is parked at a market price of 90 where the request would not be. -/
theorem stop_price_dropped : ∃ a, (stopRequest 9).mapJsonToOrder id 0 = some a ∧
    a.toData.hasParam .stop = true ∧ a.toData.stopPrice = 0 ∧
    (OrderBook.empty "X" 90).parks a = true ∧
    (OrderBook.empty "X" 90).parks { a with stopPrice := 95 } = false ∧
    ¬ (stopRequest 9).KeptBy a := by
  refine ⟨_, rfl, by decide, rfl, by decide, by decide, fun h => ?_⟩
  have hsame : some (95 : ℚ) = some 0 := h.stopPrice (by decide)
  exact absurd hsame (by decide)

end LimitOrderBook
