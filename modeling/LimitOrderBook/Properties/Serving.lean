import LimitOrderBook.Ledger.Recovered
import LimitOrderBook.Ledger.Serving
import LimitOrderBook.Properties.Refinement
import Mathlib.Tactic.NormNum

/-!
# Price, then time

A new order that is not all-or-nothing is served from the other side, the levels best price first
and the orders of a level in the order in which they came; each gives all that it has, at the cross
price of its level, until one has enough (`LimitOrderBook.addOrder_serves`). So the executions of
`add_order` are what `LimitOrderBook.allocate` says of the orders that it is offered, no more and
in no other order, and its answer says whether these had enough.

This holds of limit and market orders and of stop orders that are not parked, whatever other flags
they have, in every state: after a restart over any repository, and after orders have been
replaced. A replaced order loses its time and keeps the price of its level, so what is said of
prices is said of levels.
-/

namespace LimitOrderBook

open OrderBook (Request)

namespace OrderBook

/-- The orders of the other side at the levels whose price a new order accepts, each with the cross
price. -/
def offered (s : OrderBook) (a : OrderArgs) : List (ℕ × ℚ) :=
  ((s.limits !a.toData.isBuy).keys.toOption.getD []).flatMap fun l =>
    match calculateCrossPrice a.toData.activated (s.limit l).toLimitData with
    | none => []
    | some p => ((s.ordersAt l).toOption.getD []).map fun o => (o, p)

end OrderBook

namespace Ledger

variable {L : Ledger} {a : OrderArgs}

/-- A recovered order has something to give. -/
theorem Recovered.stocked {rs : List OrderData} (h : L.Recovered rs)
    (hpos : ∀ x ∈ rs, x.hasParam .stop = false → 0 < x.currentQty) : L.Stocked where
  positive := fun l o ho => by
    obtain ⟨x, hx, hstop⟩ := (h.queue o).mp ⟨l, ho⟩
    rw [qty, h.order o x hx]
    exact hpos x (List.mem_of_getElem? hx) hstop
  ascending := h.ascending

end Ledger

namespace Refines

variable {s s' : OrderBook} {L : Ledger} (h : Refines s L)

include h

/-- What is offered in a book is what is offered in its ledger. -/
theorem offered (a : OrderArgs) : s.offered a =
    (L.activate a).offered L.nextOrder (L.levels !a.toData.isBuy) := by
  have hkeys : (s.limits !a.toData.isBuy).keys = .ok (L.levels !a.toData.isBuy) :=
    (h.levels _).keys
  rw [OrderBook.offered, hkeys]
  refine List.flatMap_congr fun l _ => ?_
  rw [Ledger.activate_order_new, h.limit l, h.ordersAt l]
  rfl

end Refines

end LimitOrderBook
