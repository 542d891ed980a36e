import LimitOrderBook.Ledger.Reach
import Mathlib.Tactic.NormNum

/-!
# The market price

The market price should be the price of the last trade. `match_order` sets it at every
level that it visits, also where nothing is traded: at a level that is empty, and at one
that an all-or-nothing order finds no large enough order in. So the market price is the
one of the last execution exactly as long as the last level that an order visits leaves
the price that the levels with a trade leave (`LimitOrderBook.marketPrice_iff`).
-/

namespace LimitOrderBook

open OrderBook (Request)

/-- **The market price is that of the last execution**, or the one of the constructor. -/
def OrderBook.pricedByTrades (initial : ℚ) (s : OrderBook) : Prop :=
  s.getMarketPrice = (s.executions.getLast?.map Execution.price).getD initial

/-- The levels among `rs` at which a new order trades. -/
def OrderBook.tradingLevels (s : OrderBook) (a : OrderArgs) (rs : List (ℕ × ℚ)) : List (ℕ × ℚ) :=
  rs.filter fun r => tradesAt (a.toData.activated.hasParam .aon) r.2 (s.holding r.1)

/-- The levels that a new order comes to leave the market price that those leave at which
it trades. -/
def OrderBook.pricesByTrades (s : OrderBook) : Request → Prop
  | .add _ a => s.parks a = true ∨ s.priceAfterMatching a (s.reaches a) =
      s.priceAfterMatching a (s.tradingLevels a (s.reaches a))
  | _ => True

/-- What a request other than `add_order` does to the market price: nothing. -/
theorem Ledger.marketPrice_step {L : Ledger} {r : Request} (hr : r.newOrder = none) :
    (L.step r).1.marketPrice = L.marketPrice ∧ (L.step r).1.executions = L.executions := by
  cases r with
  | add now a => exact absurd hr (by simp [Request.newOrder])
  | modify a =>
    have hs := Ledger.Still.modifyOrder (L.allocOrder a.toData) L.nextOrder
    exact ⟨hs.marketPrice, hs.executions⟩
  | cancel id =>
    have hs := Ledger.Still.cancelOrder L id
    exact ⟨hs.marketPrice, hs.executions⟩
  | checkDate now =>
    have hs := Ledger.Still.checkDateOrders L now
    exact ⟨hs.marketPrice, hs.executions⟩

/-- **One request** keeps the market price at that of the last execution exactly under the
condition. -/
theorem Refines.pricedByTrades_step {s s' : OrderBook} {L : Ledger} {initial : ℚ} {r : Request}
    (h : Refines s L) (hp : s.pricedByTrades initial) (h' : Refines s' (L.step r).1) :
    s'.pricedByTrades initial ↔ s.pricesByTrades r := by
  have hlast : L.marketPrice = L.lastPrice initial := by
    rw [OrderBook.pricedByTrades, OrderBook.getMarketPrice, h.marketPrice, h.executions] at hp
    exact hp
  rw [OrderBook.pricedByTrades, OrderBook.getMarketPrice, h'.marketPrice, h'.executions]
  rcases hr : r.newOrder with _ | a
  · obtain ⟨hm, he⟩ := Ledger.marketPrice_step (L := L) hr
    rw [hm, he]
    cases r with
    | add now a => exact absurd hr (by simp [Request.newOrder])
    | _ => exact ⟨fun _ => trivial, fun _ => hlast⟩
  · obtain ⟨now, rfl⟩ : ∃ now, r = .add now a := by
      cases r with
      | add now a' => exact ⟨now, by rw [Option.some.inj hr]⟩
      | _ => exact absurd hr (by simp [Request.newOrder])
    rw [OrderBook.pricesByTrades, h.parks, Ledger.step_add]
    by_cases hpark : (L.receive a).isParked L.nextOrder = true
    · have hs := Ledger.Still.parkOrder (L.receive a) L.nextOrder
      rw [if_pos hpark, hs.marketPrice, hs.executions]
      exact ⟨fun _ => Or.inl hpark, fun _ => hlast⟩
    · have hs := Ledger.Still.settle (L.matched a).1 L.nextOrder (L.matched a).2
      have hmatch := h.wf.matched_reaches a
      rw [if_neg hpark, hs.marketPrice, hs.executions, hmatch.marketPrice, or_iff_right hpark,
        h.reaches,
        OrderBook.tradingLevels, h.holding, h.priceAfterMatching, h.priceAfterMatching]
      change _ = (L.matched a).1.lastPrice initial ↔ _
      rw [hmatch.lastPrice, hlast]

/-- **The market price is that of the last execution throughout a run** exactly if every
new order is parked, or the last level that it visits leaves the price that the last one
with a trade leaves. -/
theorem marketPrice_iff (instrument : String) (marketPrice : ℚ) (rs : List Request) :
    Throughout OrderBook.step (OrderBook.pricedByTrades marketPrice)
        (.empty instrument marketPrice) rs ↔
      Meets OrderBook.step OrderBook.pricesByTrades (.empty instrument marketPrice) rs := by
  refine throughout_iff_meets (I := fun s => ∃ L, Refines s L) (Q := fun _ => True)
    (fun s r _ hI hp => ?_) (fun _ _ => trivial) ⟨_, refines_empty instrument marketPrice⟩ rfl
  obtain ⟨L, h⟩ := hI
  obtain ⟨s', hs', h'⟩ := h.step r
  exact ⟨s', _, hs', ⟨_, h'⟩, h.pricedByTrades_step hp h'⟩

/-- The ask of the first execution is filled, and its level stays; the next bid visits it
and sets the market price to its own, without a trade. -/
theorem marketPrice_without_trade : ¬ Throughout OrderBook.step (OrderBook.pricedByTrades 5)
    (.empty "X" 5) [.add 0 (.limit "a" .sell 5 10), .add 0 (.limit "b" .buy 5 10),
      .add 0 (.limit "c" .buy 5 12)] := by
  intro h
  obtain ⟨s, answers, hrun, hs⟩ := h _ [] (List.append_nil _).symm
  have hfacts := eq_of_ok_of_map hrun
    (f := fun r => (r.1.marketPrice, (r.1.executions.getLast?.map Execution.price)))
    (b := (12, some 10)) (by decide +kernel)
  obtain ⟨hm, he⟩ := Prod.mk.inj hfacts
  rw [OrderBook.pricedByTrades, OrderBook.getMarketPrice, hm, he] at hs
  norm_num at hs

end LimitOrderBook
