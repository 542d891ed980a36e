import LimitOrderBook.Ledger.Runs

/-!
# A book is a ledger

The red-black trees, the linked queues and the index, with all their loops and pointers, are one
way to keep a ledger (`LimitOrderBook.book_refines`): over any repository and in every run of
requests of all four kinds nothing goes wrong, every answer is the one that the ledger gives, and
every query shows what the ledger holds. Nothing is asked of the orders: ids may be repeated,
quantities and prices may be anything, orders may be replaced while they rest.

The keys of the trees are orders and levels, which change while they are there. What the
comparators look at does not (`LimitOrderBook.book_sorted`).
-/

namespace LimitOrderBook

open OrderBook (Request)

namespace OrderBook

/-- Each side lists its levels best price first and no price twice, stop orders are listed by price
and time of submission, dated orders by the time at which they expire. -/
structure Sorted (s : OrderBook) : Prop where
  levels : ∀ b, ∃ levels, (s.limits b).keys = .ok levels ∧
    levels.Pairwise fun k l => Better b (s.limit k).price (s.limit l).price
  snapshot : ∃ snapshot, s.getSnapshot = .ok snapshot ∧
    snapshot.asks.Pairwise (fun r t => r.price < t.price) ∧
    snapshot.bids.Pairwise (fun r t => t.price < r.price)
  stops : ∀ b, ∃ stops, (s.stopOrders b).keys = .ok stops ∧
    stops.Pairwise fun o p =>
      orderComparator b (s.order o).toOrderData (s.order p).toOrderData = true
  dates : ∃ dates, s.getOrdersWithExperation = .ok dates ∧
    dates.Pairwise fun o p => (s.order o).expireTime < (s.order p).expireTime

end OrderBook

namespace Refines

variable {s : OrderBook} {L : Ledger} (h : Refines s L)

include h

/-- The levels of a side, as the comparator of its tree has them. -/
theorem levels_better (b : Bool) :
    (L.levels b).Pairwise fun k l => Better b (L.limit k).price (L.limit l).price := by
  refine (h.wf.levels_sorted b).imp fun {k l} hkl => ?_
  cases b <;> simpa [Ledger.limitLess, limitComparator, Better] using hkl

theorem sorted : s.Sorted where
  levels := fun b => by
    refine ⟨L.levels b, (h.levels b).keys, ?_⟩
    refine (h.levels_better b).imp fun {k l} hkl => ?_
    rwa [← h.limit k, ← h.limit l] at hkl
  snapshot := by
    obtain ⟨spread, hspread⟩ := h.getSnapshot
    refine ⟨_, hspread, ?_, ?_⟩
    · exact List.pairwise_map.mpr (h.levels_better false)
    · exact List.pairwise_map.mpr (h.levels_better true)
  stops := fun b => by
    refine ⟨L.stops b, (h.stops b).keys, ?_⟩
    refine (h.wf.stops_sorted b).imp fun {o p} hop => ?_
    rwa [Ledger.stopLess, ← h.order o, ← h.order p] at hop
  dates := by
    refine ⟨L.dates, h.dates.keys, ?_⟩
    refine h.wf.dates_sorted.imp fun {o p} hop => ?_
    rw [Ledger.dateLess, ← h.order o, ← h.order p] at hop
    simpa [dateOrderComparator] using hop

/-- **A run of requests** is answered as the ledger answers it. -/
theorem runAll (rs : List Request) : ∃ s', runAll OrderBook.step s rs = .ok (s', (L.run rs).2) ∧
    Refines s' (L.run rs).1 := by
  induction rs generalizing s L with
  | nil => exact ⟨s, rfl, h⟩
  | cons r rs ih =>
    obtain ⟨s₁, hs₁, h₁⟩ := h.step r
    obtain ⟨s₂, hs₂, h₂⟩ := ih h₁
    exact ⟨s₂, runAll_cons hs₁ hs₂, h₂⟩

end Refines

/-- **The trees stay sorted**, in every run over any repository: that orders are filled, cancelled,
replaced and stripped of their flags while they are keys disturbs no tree. -/
theorem book_sorted (instrument : String) (marketPrice : ℚ) (repository : List OrderData)
    (rs : List Request) : ∃ s₀, OrderBook.new instrument marketPrice repository = .ok s₀ ∧
      Throughout OrderBook.step OrderBook.Sorted s₀ rs := by
  obtain ⟨s₀, hs₀, h₀⟩ := refines_new instrument marketPrice repository
  refine ⟨s₀, hs₀, fun xs ys _ => ?_⟩
  obtain ⟨s, hs, h⟩ := h₀.runAll xs
  exact ⟨s, _, hs, h.sorted⟩

end LimitOrderBook
