import LimitOrderBook.OrderBook.Vocabulary

/-!
# How far an order gets

What matching does to quantities, computed from the state before it: what an order takes
from the orders of a level and what stays there (`LimitOrderBook.remaining`,
`LimitOrderBook.staying`), the levels it comes to (`LimitOrderBook.reached`), and the
price it leaves behind (`LimitOrderBook.priceAfter`). Conditions on requests are stated
with these; that they describe what the code does is shown on ledgers.

The orders of a level are given as pairs of a number and the quantity that is left.
-/

namespace LimitOrderBook

open OrderBook (Request)

/-- What an incoming order with `q` left takes from a resting one with `v` left. -/
def taken (aon : Bool) (q v : ℚ) : ℚ := if v ≥ q then q else if aon then 0 else v

/-- What is left of an incoming order after the orders of a level. -/
def remaining (aon : Bool) : ℚ → List (ℕ × ℚ) → ℚ
  | q, [] => q
  | q, c :: cs => if 0 < q then remaining aon (q - taken aon q c.2) cs else q

/-- The orders of a level that stay in its queue. -/
def staying (aon : Bool) : ℚ → List (ℕ × ℚ) → List (ℕ × ℚ)
  | _, [] => []
  | q, c :: cs =>
    if 0 < q then
      if c.2 = taken aon q c.2 then staying aon (q - taken aon q c.2) cs
      else (c.1, c.2 - taken aon q c.2) :: staying aon (q - taken aon q c.2) cs
    else c :: cs

/-- A positive quantity is taken from one of the orders of a level. -/
def tradesAt (aon : Bool) : ℚ → List (ℕ × ℚ) → Bool
  | _, [] => false
  | q, c :: cs => 0 < q && (0 < taken aon q c.2 || tradesAt aon (q - taken aon q c.2) cs)

/-- **The levels an order comes to**, each with what is left of the order by then: it
passes over those that it skips, and stops when it is filled or at the first price that
it does not accept. -/
def reached (x : OrderData) (limit : ℕ → LimitData) (holding : ℕ → List (ℕ × ℚ)) :
    ℚ → List ℕ → List (ℕ × ℚ)
  | _, [] => []
  | q, l :: ls =>
    if x.hasParam .aon && (limit l).activeVolume < q then reached x limit holding q ls
    else if (OrderBook.calculateCrossPrice x (limit l)).isNone then []
    else (l, q) :: if remaining (x.hasParam .aon) q (holding l) = 0 then []
      else reached x limit holding (remaining (x.hasParam .aon) q (holding l)) ls

/-- The price after some levels have been visited, each of which sets its cross price. -/
def priceAfter (x : OrderData) (limit : ℕ → LimitData) (price : ℚ) (rs : List (ℕ × ℚ)) : ℚ :=
  rs.foldl (fun p r => (OrderBook.calculateCrossPrice x (limit r.1)).getD p) price

/-! ### In a book -/

namespace OrderBook

/-- The orders of a level, with what is left of them. -/
def holding (s : OrderBook) (l : ℕ) : List (ℕ × ℚ) :=
  ((s.ordersAt l).toOption.getD []).map fun c => (c, (s.order c).currentQty)

/-- The levels that a new order comes to, if it is not parked. -/
def reaches (s : OrderBook) (a : OrderArgs) : List (ℕ × ℚ) :=
  reached a.toData.activated (fun l => (s.limit l).toLimitData) s.holding a.qty
    ((s.limits !a.toData.isBuy).keys.toOption.getD [])

/-- The market price after matching a new order that comes to the levels `rs`. -/
def priceAfterMatching (s : OrderBook) (a : OrderArgs) (rs : List (ℕ × ℚ)) : ℚ :=
  priceAfter a.toData.activated (fun l => (s.limit l).toLimitData) s.marketPrice rs

/-- A new order is parked. -/
def parks (s : OrderBook) (a : OrderArgs) : Bool :=
  a.toData.hasParam .stop && a.toData.isDormant s.marketPrice

end OrderBook

end LimitOrderBook
