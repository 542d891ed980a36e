import LimitOrderBook.Ledger.Arrivals
import LimitOrderBook.Ledger.Quantities
import LimitOrderBook.Ledger.Reach
import LimitOrderBook.Lib.Allocation

/-!
# How an order is served

The two loops of matching, for an order that is not all-or-nothing: it is served from the orders
of the levels whose price it accepts, one after the other, and every part that it gets is an
execution at the cross price of the level (`LimitOrderBook.Ledger.matchLimits_allocate`).

That the orders of a level are served in the order in which they came, and that all of them have
something to give, is kept by every request (`LimitOrderBook.Ledger.Stocked`), also by one that
replaces an order: the new one comes last.
-/

namespace LimitOrderBook

open OrderBook (Request)

/-- The orders of a request are for a positive quantity. -/
def OrderBook.Request.Sized : Request → Prop
  | .add _ a => 0 < a.qty
  | .modify a => 0 < a.qty
  | _ => True

namespace Ledger

variable {L L' : Ledger} {o c l n : ℕ} {p : ℚ}

/-- The orders that are offered to the order `o` at some levels, each with its cross price. -/
def offered (L : Ledger) (o : ℕ) (ls : List ℕ) : List (ℕ × ℚ) :=
  ls.flatMap fun l => match OrderBook.calculateCrossPrice (L.order o) (L.limit l) with
    | none => []
    | some p => (L.queue l).map fun c => (c, p)

/-! ### One level -/

/-- The ledger after one level. -/
def visit (L : Ledger) (o l : ℕ) (p : ℚ) : Ledger := (L.processLimitOrder l o p).setMarketPrice p

theorem MatchFrame.visit (L : Ledger) (o l : ℕ) (p : ℚ) : MatchFrame L (L.visit o l p) :=
  (MatchFrame.processOrders L (L.queue l)).trans (.setMarketPrice _ p)

namespace WellFormed

variable (h : L.WellFormed) (hfree : ∀ x, o ∉ L.queue x)

include h hfree

theorem visit : (L.visit o l p).WellFormed :=
  { (processOrders_invariant (J := fun _ => True) (fun _ _ _ _ _ _ => trivial) h hfree
      trivial).2 with }

end WellFormed

/-! ### All levels -/

/-- **The orders of a queue have something to give, and stand in the order in which they came.** -/
structure Stocked (L : Ledger) : Prop where
  positive : L.Positive
  ascending : ∀ l, (L.queue l).Pairwise (· < ·)

namespace Stocked

variable (h : L.Stocked)

include h

/-- Orders leave the queues, and those that stay keep their quantities. -/
theorem shrink (hqty : ∀ x, L'.qty x = L.qty x) (hqueue : ∀ l, (L'.queue l).Sublist (L.queue l)) :
    L'.Stocked where
  positive := fun l x hx => by
    rw [hqty]
    exact h.positive l x ((hqueue l).mem hx)
  ascending := fun l => (h.ascending l).sublist (hqueue l)

/-- A new order comes last in a queue, behind orders that were there. -/
theorem append {xs : List ℕ} (hqty : ∀ x, L'.qty x = L.qty x) (hn : 0 < L.qty n)
    (hqueue : L'.queue = Function.update L.queue l (xs ++ [n])) (hxs : xs.Sublist (L.queue l))
    (hlast : ∀ x ∈ xs, x < n) : L'.Stocked where
  positive := fun k x hx => by
    rw [hqty]
    rw [hqueue] at hx
    by_cases hk : k = l
    · subst hk
      rw [Function.update_self, List.mem_append, List.mem_singleton] at hx
      rcases hx with hx | rfl
      · exact h.positive k x (hxs.mem hx)
      · exact hn
    · rw [Function.update_of_ne hk] at hx
      exact h.positive k x hx
  ascending := fun k => by
    rw [hqueue]
    by_cases hk : k = l
    · subst hk
      rw [Function.update_self]
      refine List.pairwise_append.mpr
        ⟨(h.ascending k).sublist hxs, List.pairwise_singleton _ _, fun x hx y hy => ?_⟩
      rw [List.mem_singleton.mp hy]
      exact hlast x hx
    · rw [Function.update_of_ne hk]
      exact h.ascending k

theorem allocOrder (hwf : L.WellFormed) (x : OrderData) : (L.allocOrder x).Stocked where
  positive := fun l y hy => by
    rw [qty, allocOrder_order_old (hwf.queue_lt l y hy)]
    exact h.positive l y hy
  ascending := h.ascending

theorem cancelOrder (hwf : L.WellFormed) (id : String) : (L.cancelOrder id).1.Stocked :=
  h.shrink (cancelOrder_qty L id) (hwf.queue_cancelOrder id)

end Stocked

/-- Where `add_limit_order` puts an order: at the end of a level, or alone into one. -/
theorem queue_addLimitOrder (L : Ledger) (n limit : ℕ) (b : Bool) :
    ∃ l xs, (L.addLimitOrder n limit b).queue = Function.update L.queue l (xs ++ [n]) ∧
      xs.Sublist (L.queue l) := by
  rw [addLimitOrder]
  split
  · next l _ => exact ⟨l, L.queue l, rfl, List.Sublist.refl _⟩
  · exact ⟨limit, [], rfl, List.nil_sublist _⟩

/-- A replaced order makes way for the new one. -/
theorem Stocked.replaceOrder (h : L.Stocked) (hn : 0 < L.qty n)
    (hlast : ∀ l, ∀ x ∈ L.queue l, x < n) (e : ℕ) : (L.replaceOrder e n).Stocked := by
  rw [Ledger.replaceOrder]
  split
  · exact h.shrink (fun _ => rfl) fun _ => List.Sublist.refl _
  · split
    · exact h
    · next l hl =>
      have hremove : ∀ k, ((L.removeLimitOrder e).queue k).Sublist (L.queue k) := by
        intro k
        rw [removeLimitOrder, hl]
        exact (MatchFrame.displace L e l).queue k
      have hstill := Still.removeLimitOrder L e
      have hremoved := h.shrink hstill.qty hremove
      obtain ⟨k, xs, hqueue, hxs⟩ :=
        queue_addLimitOrder (L.removeLimitOrder e) n l (L.order n).isBuy
      refine hremoved.append (Still.addLimitOrder _ n l _).qty ?_ hqueue hxs fun x hx => ?_
      · rw [hstill.qty]
        exact hn
      · exact hlast k x ((hremove k).mem (hxs.mem hx))

/-- What is left of a new order comes last. -/
theorem Stocked.ascending_add (h : L.Stocked) (hwf : L.WellFormed) (now : ℤ) (a : OrderArgs)
    (l : ℕ) : ((L.step (.add now a)).1.queue l).Pairwise (· < ·) := by
  have hframe : MatchFrame (L.activate a) (L.matched a).1 := .matchLimits _ _
  have hmatched : ∀ k, ((L.matched a).1.queue k).Sublist (L.queue k) := hframe.queue
  rw [step_add]
  split
  · obtain ⟨dates, hdates⟩ := (L.receive a).parkOrder_eq L.nextOrder
    rw [hdates]
    exact h.ascending l
  · rw [settle]
    split
    · exact (h.ascending l).sublist (hmatched l)
    · split
      · exact (h.ascending l).sublist (hmatched l)
      · obtain ⟨k, hk, -, -⟩ := (hwf.matched a).restOrder L.nextOrder
        rw [hk.queue]
        by_cases hlk : l = k
        · subst hlk
          rw [Function.update_self]
          refine List.pairwise_append.mpr ⟨(h.ascending l).sublist (hmatched l),
            List.pairwise_singleton _ _, fun x hx y hy => ?_⟩
          rw [List.mem_singleton.mp hy]
          exact hwf.queue_lt l x ((hmatched l).mem hx)
        · rw [Function.update_of_ne hlk]
          exact (h.ascending l).sublist (hmatched l)

/-- **Every request**, if the orders that come with it are for a positive quantity. -/
theorem Stocked.step (h : L.Stocked) (hwf : L.WellFormed) {r : Request} (hr : r.Sized) :
    (L.step r).1.Stocked := by
  cases r with
  | add now a =>
    have hpos : (L.step (.add now a)).1.Positive := h.positive.step hwf hr
    exact ⟨hpos, h.ascending_add hwf now a⟩
  | modify a =>
    have hnew : (L.allocOrder a.toData).Stocked := h.allocOrder hwf a.toData
    have hqty : (L.allocOrder a.toData).qty L.nextOrder = a.qty := by
      rw [qty, allocOrder_order_new]
      rfl
    rcases hwf.step_modify_cases a with ⟨-, he⟩ | ⟨e, l, -, -, -, -, he⟩ <;> rw [he]
    · exact hnew
    · have hmarked : ((L.allocOrder a.toData).updateData e .cancel).Stocked :=
        hnew.shrink qty_cancel fun _ => List.Sublist.refl _
      have hreplaced := hmarked.replaceOrder (n := L.nextOrder)
        (by rw [qty_cancel, hqty]; exact hr) (fun k x hx => hwf.queue_lt k x hx) e
      exact hreplaced.shrink (Still.enqueueOrder _ _).qty fun _ => List.Sublist.refl _
  | cancel id => exact h.cancelOrder hwf id
  | checkDate now =>
    exact (checkDateOrders_rule (J := fun L => L.WellFormed ∧ L.Stocked)
      (fun L' o hJ _ _ => ⟨hJ.1.cancelOrder _, hJ.2.cancelOrder hJ.1 _⟩)
      (fun L' o hJ => ⟨hJ.1.eraseDate, hJ.2.shrink (fun _ => rfl) fun _ => List.Sublist.refl _⟩)
      ⟨hwf, h⟩).2

end Ledger

end LimitOrderBook
