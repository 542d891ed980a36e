import Mathlib.Data.Nat.ModEq

/-!
# Positions on a ring

A ring of `n` slots used as a queue: the values that go through it are counted, and the
value with number `i` has the slot `i % n`. A position moves to the next slot by adding
one and starting again at `0` (`LimitOrderBook.ringNext`), and numbers that are less than
`n` apart have different slots (`LimitOrderBook.ring_inj`).
-/

namespace LimitOrderBook

/-- The position after `p` on a ring of `n` slots. -/
def ringNext (n p : ℕ) : ℕ := if p + 1 = n then 0 else p + 1

variable {n i j : ℕ}

/-- Positions follow the count. -/
theorem ringNext_mod (hn : 0 < n) (i : ℕ) : ringNext n (i % n) = (i + 1) % n := by
  have hlt := Nat.mod_lt i hn
  rw [ringNext, ← Nat.mod_add_mod]
  split
  · next h => rw [h, Nat.mod_self]
  · next h => exact (Nat.mod_eq_of_lt (by omega)).symm

/-- Numbers that are close have the same slot only if they are equal. -/
theorem ring_inj (hij : i ≤ j) (hlt : j < i + n) (h : i % n = j % n) : i = j := by
  have hdvd : n ∣ j - i := (Nat.modEq_iff_dvd' hij).mp h
  rcases Nat.eq_zero_or_pos (j - i) with hz | hpos
  · omega
  · have hle := Nat.le_of_dvd hpos hdvd
    omega

end LimitOrderBook
