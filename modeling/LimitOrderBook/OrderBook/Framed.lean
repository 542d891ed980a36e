import LimitOrderBook.OrderBook.Defs

/-!
# What most functions of the book leave alone

Only a few functions write to the stop trees or to the queue of the repository. The others, from
`remove_limit_order` up to the whole of `match_order` and to the end of `add_order`, write
orders, levels, the other trees and the histories. A relation between two books that holds across
each of these writes (`LimitOrderBook.OrderBook.Framed`) therefore holds across each of these
functions, and what has to be known of a function is said here, for all such relations.

An order is never linked before it has been given its level. The two writes of `add_limit_order`
that go together for this reason are one condition.
-/

namespace LimitOrderBook

theorem OrderData.decreaseQty_id {x y : OrderData} {q : ℚ} (h : x.decreaseQty q = .ok y) :
    y.id = x.id := by
  rw [decreaseQty] at h
  split at h
  · exact absurd h (by simp)
  · rw [← Except.ok.inj h]

namespace OrderBook

/-- **A relation that holds across every write** outside the stop trees and the queue of the
repository, and from the first to the last of several. An order keeps its id. -/
structure Framed (R : OrderBook → OrderBook → Prop) : Prop where
  refl : ∀ s, R s s
  trans : ∀ {s s' s''}, R s s' → R s' s'' → R s s''
  updateData : ∀ {s : OrderBook} {o : ℕ} {f : OrderData → OrderData},
    (f (s.order o).toOrderData).id = (s.order o).id → R s (s.updateData o f)
  updateLimitData : ∀ s l f, R s (s.updateLimitData l f)
  allocLimit : ∀ s price, R s (s.allocLimit price)
  unlinkNeighbours : ∀ s o, R s (s.unlinkNeighbours o)
  unlinkEnds : ∀ s o l, R s (s.unlinkEnds o l)
  appendOrder : ∀ {s s' : OrderBook} {o l : ℕ},
    (s.setParent o l).appendOrder o l = .ok s' → R s s'
  firstOrder : ∀ s o l, R s (((s.setParent o l).setHead l (some o)).setTail l (some o))
  rest : ∀ {s s' : OrderBook}, s'.order = s.order → s'.nextOrder = s.nextOrder →
    s'.limit = s.limit → (∀ b, s'.stopOrders b = s.stopOrders b) →
      s'.orderQueue = s.orderQueue → R s s'

namespace Framed

variable {R : OrderBook → OrderBook → Prop} (hR : Framed R) {s s' : OrderBook} {o : ℕ}

include hR

/-! ### Queues of levels -/

theorem setLimits (s : OrderBook) (isBuy : Bool) (t : RBTree ℕ) : R s (s.setLimits isBuy t) := by
  rw [OrderBook.setLimits]
  split <;> exact hR.rest rfl rfl rfl (fun _ => rfl) rfl

theorem eraseEntry (s : OrderBook) (o : ℕ) : R s (s.eraseEntry o) :=
  hR.rest rfl rfl rfl (fun _ => rfl) rfl

theorem removeLimitOrder (h : s.removeLimitOrder o = .ok s') : R s s' := by
  obtain ⟨l, -, h⟩ := bind_eq_ok.mp h
  rw [← Except.ok.inj h]
  exact hR.trans (hR.trans (hR.trans (hR.updateLimitData s l _) (hR.unlinkNeighbours _ o))
    (hR.unlinkEnds _ o l)) (hR.eraseEntry _ o)

theorem addLimitOrder {limit : ℕ} {isBuy : Bool} (h : s.addLimitOrder o limit isBuy = .ok s') :
    R s s' := by
  obtain ⟨found, -, h⟩ := bind_eq_ok.mp h
  cases found with
  | some k =>
    obtain ⟨s₁, h₁, h⟩ := bind_eq_ok.mp h
    rw [← Except.ok.inj h]
    exact hR.trans (hR.appendOrder h₁) (hR.updateLimitData _ _ _)
  | none =>
    obtain ⟨t, -, h⟩ := bind_eq_ok.mp h
    rw [← Except.ok.inj h]
    exact hR.trans (hR.trans (hR.setLimits s isBuy t) (hR.firstOrder _ o limit))
      (hR.updateLimitData _ _ _)

/-! ### The end of `add_order` -/

theorem addDateOrder (h : s.addDateOrder o = .ok s') : R s s' := by
  rw [OrderBook.addDateOrder] at h
  split at h
  · obtain ⟨t, -, h⟩ := bind_eq_ok.mp h
    exact Except.ok.inj h ▸ hR.rest rfl rfl rfl (fun _ => rfl) rfl
  · exact Except.ok.inj h ▸ hR.refl s

theorem removeDates {removed : List ℕ} (h : OrderBook.removeDates s removed = .ok s') : R s s' := by
  induction removed generalizing s with
  | nil => exact Except.ok.inj h ▸ hR.refl s
  | cons o removed ih =>
    obtain ⟨⟨t, found⟩, -, h⟩ := bind_eq_ok.mp h
    have hdate : R s { s with dateOrders := t } := hR.rest rfl rfl rfl (fun _ => rfl) rfl
    exact hR.trans hdate (ih h)

theorem restOrder {isBuy : Bool} (h : s.restOrder o isBuy = .ok s') : R s s' := by
  obtain ⟨s₁, h₁, h⟩ := bind_eq_ok.mp h
  have hindex : R s₁ { s₁ with orders := s₁.orders.insert (s₁.order o).id o } :=
    hR.rest rfl rfl rfl (fun _ => rfl) rfl
  exact hR.trans (hR.trans (hR.trans (hR.allocLimit s _) (hR.addLimitOrder h₁)) hindex)
    (hR.addDateOrder h)

theorem settle {isBuy filled : Bool} {status : OrderStatus}
    (h : s.settle o isBuy filled = .ok (s', status)) : R s s' := by
  rw [OrderBook.settle] at h
  split at h
  · obtain ⟨rfl, -⟩ := Prod.mk.inj (Except.ok.inj h)
    exact hR.refl s
  · split at h
    · obtain ⟨rfl, -⟩ := Prod.mk.inj (Except.ok.inj h)
      exact hR.updateData rfl
    · obtain ⟨s₁, h₁, h⟩ := bind_eq_ok.mp h
      obtain ⟨rfl, -⟩ := Prod.mk.inj (Except.ok.inj h)
      exact hR.restOrder h₁

/-! ### Matching -/

theorem exchange {c : ℕ} {q q' : ℚ} (h : s.exchange c o q q' = .ok s') : R s s' := by
  rw [OrderBook.exchange] at h
  split at h
  · obtain ⟨x, hx, h⟩ := bind_eq_ok.mp h
    rw [← Except.ok.inj h]
    exact hR.trans (hR.updateData (OrderData.decreaseQty_id hx)) (hR.updateData rfl)
  · split at h
    · obtain ⟨x, hx, h⟩ := bind_eq_ok.mp h
      rw [← Except.ok.inj h]
      exact hR.trans (hR.updateData (OrderData.decreaseQty_id hx)) (hR.updateData rfl)
    · exact Except.ok.inj h ▸ hR.refl s

theorem recordExecution (s s' : OrderBook) (c o : ℕ) (price : ℚ) :
    R s' (OrderBook.recordExecution s s' c o price) := by
  simp only [OrderBook.recordExecution]
  split
  · exact hR.rest rfl rfl rfl (fun _ => rfl) rfl
  · exact hR.refl s'

theorem resolveOrders {now : ℤ} {c : ℕ} {price : ℚ}
    (h : s.resolveOrders now c o price = .ok s') : R s s' := by
  obtain ⟨s₁, h₁, h⟩ := bind_eq_ok.mp h
  refine hR.trans (hR.trans (hR.exchange h₁) (hR.recordExecution s s₁ c o price)) ?_
  simp only at h
  split at h
  · exact Except.ok.inj h ▸ hR.rest rfl rfl rfl (fun _ => rfl) rfl
  · exact Except.ok.inj h ▸ hR.refl _

theorem removeFilled (h : s.removeFilled o = .ok s') : R s s' := by
  rw [OrderBook.removeFilled] at h
  split at h
  · exact hR.removeLimitOrder h
  · exact Except.ok.inj h ▸ hR.refl s

theorem processOrders {now : ℤ} {price : ℚ} {n : ℕ} {currOrder : Option ℕ}
    (h : OrderBook.processOrders now o price n s currOrder = .ok s') : R s s' := by
  induction n generalizing s currOrder with
  | zero => exact absurd h (by simp [OrderBook.processOrders])
  | succ n ih =>
    cases currOrder with
    | none =>
      rw [OrderBook.processOrders] at h
      exact Except.ok.inj h ▸ hR.refl s
    | some c =>
      rw [OrderBook.processOrders] at h
      split at h
      · obtain ⟨s₁, h₁, h⟩ := bind_eq_ok.mp h
        obtain ⟨s₂, h₂, h⟩ := bind_eq_ok.mp h
        exact hR.trans (hR.trans (hR.resolveOrders h₁) (hR.removeFilled h₂)) (ih h)
      · exact Except.ok.inj h ▸ hR.refl s

theorem matchLimits {now : ℤ} {ls : List ℕ} {filled : Bool}
    (h : OrderBook.matchLimits now o s ls = .ok (s', filled)) : R s s' := by
  induction ls generalizing s with
  | nil =>
    rw [OrderBook.matchLimits] at h
    obtain ⟨rfl, -⟩ := Prod.mk.inj (Except.ok.inj h)
    exact hR.refl s
  | cons l ls ih =>
    rw [OrderBook.matchLimits] at h
    split at h
    · exact ih h
    · split at h
      · obtain ⟨rfl, -⟩ := Prod.mk.inj (Except.ok.inj h)
        exact hR.refl s
      · next crossPrice _ =>
        obtain ⟨s₁, h₁, h⟩ := bind_eq_ok.mp h
        have hprice : R s₁ { s₁ with marketPrice := crossPrice } :=
          hR.rest rfl rfl rfl (fun _ => rfl) rfl
        refine hR.trans (hR.trans (hR.processOrders h₁) hprice) ?_
        simp only at h
        split at h
        · obtain ⟨rfl, -⟩ := Prod.mk.inj (Except.ok.inj h)
          exact hR.refl _
        · exact ih h

/-- The clean-up of `match_order` finds nothing to do. -/
theorem matchOrder {now : ℤ} {isBuy filled : Bool}
    (h : s.matchOrder now o isBuy = .ok (s', filled)) : R s s' := by
  have hclean : s.cleanUp isBuy [] [] = .ok s := by
    simp [OrderBook.cleanUp, OrderBook.removeLimits]
  rw [OrderBook.matchOrder, hclean, ok_bind] at h
  obtain ⟨levels, -, h⟩ := bind_eq_ok.mp h
  exact hR.matchLimits h

end Framed

end OrderBook

end LimitOrderBook
