import LimitOrderBook.Ledger.Recovered
import LimitOrderBook.Ledger.Register

/-!
# A book after a restart

Which book the constructor makes of the records in the repository, whatever they are
(`LimitOrderBook.new_builds`): the records without the flag STOP rest on the side that they are
on, best price first and in the order of the repository; of the others the tree of stop orders
keeps the last one for a price and a time.

The constructor does not enter them into the index or into the registry of dated orders, and
nothing does later. So no request ever cancels, replaces or expires an order that a book has
recovered (`LimitOrderBook.recovered_stay`); it only goes when it is filled.
-/

namespace LimitOrderBook

open OrderBook (Request)

namespace OrderBook

/-- **The book of the records `rs`**: the order with number `o` is the one of the record at the
place `o`. -/
structure Built (s : OrderBook) (rs : List OrderData) : Prop where
  order : ∀ (o : ℕ) x, rs[o]? = some x → (s.order o).toOrderData = x
  resting : ∀ b, ∃ os, s.getOrders b = .ok os ∧
    (∀ o, o ∈ os ↔ ∃ x, rs[o]? = some x ∧ x.hasParam .stop = false ∧ x.isBuy = b) ∧
    os.Pairwise fun o p => Better b (s.order o).price (s.order p).price ∨
      (s.order o).price = (s.order p).price ∧ o < p
  stops : ∀ b, ∃ os, (s.stopOrders b).keys = .ok os ∧
    (∀ o, o ∈ os ↔ ∃ x, StaysParked rs o x ∧ x.isBuy = b) ∧
    os.Pairwise fun o p => orderComparator b (s.order o).toOrderData (s.order p).toOrderData = true
  size : s.size = 0
  dates : s.getOrdersWithExperation = .ok []

/-- The index does not lead to the orders of the records `rs`, the registry does not have them,
and none of them has been marked as cancelled since. -/
structure OutOfReach (s : OrderBook) (rs : List OrderData) : Prop where
  entry : ∀ id (o : ℕ), s.orders.lookup id = some o → rs.length ≤ o
  dates : ∃ dates, s.getOrdersWithExperation = .ok dates ∧ ∀ o ∈ dates, rs.length ≤ o
  mark : ∀ (o : ℕ) x, rs[o]? = some x → (s.order o).cancelled = x.cancelled

end OrderBook

/-- The book of a ledger that the constructor has built. -/
theorem Ledger.Recovered.built {s : OrderBook} {L : Ledger} {rs : List OrderData}
    (h : L.Recovered rs) (hs : Refines s L) : s.Built rs where
  order := fun o x hx => (hs.order o).trans (h.order o x hx)
  resting := fun b => by
    refine ⟨L.resting b, hs.getOrders b, fun o => ?_, ?_⟩
    · rw [h.inPlace.mem_resting_iff, h.queue]
      constructor
      · rintro ⟨hb, x, hx, hstop⟩
        exact ⟨x, hx, hstop, h.order o x hx ▸ hb⟩
      · rintro ⟨x, hx, hstop, hb⟩
        exact ⟨(h.order o x hx).symm ▸ hb, x, hx, hstop⟩
    · refine (h.inPlace.resting_pairwise fun l _ => h.ascending l).imp fun {o p} hop => ?_
      rwa [← hs.order o, ← hs.order p] at hop
  stops := fun b => by
    refine ⟨L.stops b, (hs.stops b).keys, h.stops b, ?_⟩
    refine (hs.wf.stops_sorted b).imp fun {o p} hop => ?_
    rwa [Ledger.stopLess, ← hs.order o, ← hs.order p] at hop
  size := by
    rw [hs.size, h.orders]
    rfl
  dates := by
    rw [← h.dates]
    exact hs.dates.keys

/-- **What the constructor makes of any repository.** -/
theorem new_builds (instrument : String) (marketPrice : ℚ) (repository : List OrderData) :
    ∃ s, OrderBook.new instrument marketPrice repository = .ok s ∧ s.Built repository := by
  obtain ⟨s, hs, h⟩ := refines_new instrument marketPrice repository
  exact ⟨s, hs, (Ledger.recovered_new instrument marketPrice repository).built h⟩

namespace Ledger

variable {L : Ledger} {rs : List OrderData}

/-- The same in a ledger. -/
structure OutOfReach (L : Ledger) (rs : List OrderData) : Prop where
  wf : L.WellFormed
  le : rs.length ≤ L.nextOrder
  entry : ∀ id (o : ℕ), L.orders.lookup id = some o → rs.length ≤ o
  dates : ∀ o ∈ L.dates, rs.length ≤ o
  mark : ∀ (o : ℕ) x, rs[o]? = some x → (L.order o).cancelled = x.cancelled

theorem Recovered.outOfReach (h : L.Recovered rs) : L.OutOfReach rs where
  wf := h.inPlace.wf
  le := h.nextOrder.ge
  entry := by simp [h.orders]
  dates := by simp [h.dates]
  mark := fun o x hx => by rw [h.order o x hx]

theorem OutOfReach.step (h : L.OutOfReach rs) {s : OrderBook} (hs : Refines s L) (r : Request) :
    (L.step r).1.OutOfReach rs := by
  obtain ⟨s', -, h'⟩ := hs.step r
  obtain ⟨hentry, hdates, hmark⟩ := h.wf.recorded r
  have hle := h.le
  refine ⟨h'.wf, hle.trans (L.nextOrder_le_step r), fun id o ho => ?_, fun o ho => ?_,
    fun o x hx => ?_⟩
  · rcases hentry id o ho with ho | ⟨rfl, -⟩
    · exact h.entry id o ho
    · exact hle
  · rcases hdates o ho with ho | rfl
    · exact h.dates o ho
    · exact hle
  · have hlt : o < rs.length := (List.getElem?_eq_some_iff.mp hx).1
    rw [hmark o (by omega) fun id ho => absurd (h.entry id o ho) (by omega), h.mark o x hx]

end Ledger

/-- **No request reaches an order that a book has recovered**: in every run after the constructor,
over any repository, none of them is cancelled, replaced or expires. -/
theorem recovered_stay (instrument : String) (marketPrice : ℚ) (repository : List OrderData)
    (rs : List Request) : ∃ s₀, OrderBook.new instrument marketPrice repository = .ok s₀ ∧
      Throughout OrderBook.step (OrderBook.OutOfReach · repository) s₀ rs := by
  obtain ⟨s₀, hs₀, h₀⟩ := refines_new instrument marketPrice repository
  refine ⟨s₀, hs₀, fun xs ys _ => ?_⟩
  obtain ⟨s, answers, L, hrun, h, hout⟩ := h₀.run_invariant (J := fun L => L.OutOfReach repository)
    (fun _ _ r hs hL _ => hL.step hs r)
    (Ledger.recovered_new instrument marketPrice repository).outOfReach
    (meets_of_forall (P := fun _ => True) (fun _ _ => trivial) _)
  refine ⟨s, answers, hrun, fun id o ho => hout.entry id o (h.orders ▸ ho), ?_, fun o x hx => ?_⟩
  · exact ⟨L.dates, h.dates.keys, hout.dates⟩
  · rw [← hout.mark o x hx, ← h.order o]

end LimitOrderBook
