import LimitOrderBook.OrderBook.Framed
import LimitOrderBook.Persistence.Defs
import LimitOrderBook.Ledger.Surgery

/-!
# The states of a call

A call that returns goes through the states of `LimitOrderBook.OrderBook.callStates` and ends in
the last of them (`LimitOrderBook.OrderBook.callStates_spec`). On the way orders keep their ids,
and the queue of the repository only grows, by orders of the book
(`LimitOrderBook.OrderBook.Goes`).

Most functions of the book do not come near the queue (`LimitOrderBook.OrderBook.SameLog`): what
they write are remaining quantities, marks, links, levels and trees.
-/

namespace LimitOrderBook

namespace OrderBook

/-- The orders have the same ids, and the queue of the repository is the same. -/
structure SameLog (s s' : OrderBook) : Prop where
  nextOrder : s'.nextOrder = s.nextOrder
  id : ∀ o, (s'.order o).id = (s.order o).id
  orderQueue : s'.orderQueue = s.orderQueue

namespace SameLog

variable {s s' s'' : OrderBook} {o l : ℕ}

theorem refl (s : OrderBook) : SameLog s s := ⟨rfl, fun _ => rfl, rfl⟩

theorem trans (h : SameLog s s') (h' : SameLog s' s'') : SameLog s s'' where
  nextOrder := h'.nextOrder.trans h.nextOrder
  id := fun o => (h'.id o).trans (h.id o)
  orderQueue := h'.orderQueue.trans h.orderQueue

theorem symm (h : SameLog s s') : SameLog s' s :=
  ⟨h.nextOrder.symm, fun o => (h.id o).symm, h.orderQueue.symm⟩

theorem of_sameButLinks (h : SameButLinks s s') : SameLog s s' where
  nextOrder := h.nextOrder
  id := fun o => congrArg OrderData.id (h.order o)
  orderQueue := h.orderQueue

/-! ### Single writes -/

theorem updateOrder {f : Order → Order} (hf : (f (s.order o)).id = (s.order o).id) :
    SameLog s (s.updateOrder o f) where
  nextOrder := rfl
  id := fun x => by
    by_cases hx : x = o
    · subst hx
      rw [updateOrder_order, Function.update_self, hf]
    · rw [updateOrder_order, Function.update_of_ne hx]
  orderQueue := rfl

theorem updateData {f : OrderData → OrderData}
    (hf : (f (s.order o).toOrderData).id = (s.order o).id) : SameLog s (s.updateData o f) :=
  updateOrder hf

theorem setStopOrders (isBuy : Bool) (t : RBTree ℕ) : SameLog s (s.setStopOrders isBuy t) := by
  rw [OrderBook.setStopOrders]
  split <;> exact ⟨rfl, fun _ => rfl, rfl⟩

theorem updateLimit (f : Limit → Limit) : SameLog s (s.updateLimit l f) :=
  ⟨rfl, fun _ => rfl, rfl⟩

theorem setNext (p : Option ℕ) : SameLog s (s.setNext o p) := updateOrder rfl

theorem setPrev (p : Option ℕ) : SameLog s (s.setPrev o p) := updateOrder rfl

theorem setParent (s : OrderBook) (o l : ℕ) : SameLog s (s.setParent o l) := updateOrder rfl

theorem unlinkEnds (s : OrderBook) (o l : ℕ) : SameLog s (s.unlinkEnds o l) := by
  rw [OrderBook.unlinkEnds]
  split
  · exact (updateLimit _).trans (updateLimit _)
  · split
    · exact updateLimit _
    · split
      · exact updateLimit _
      · exact refl s

theorem appendOrder (h : s.appendOrder o l = .ok s') : SameLog s s' := by
  rw [OrderBook.appendOrder] at h
  split at h
  · rw [← Except.ok.inj h]
    exact (updateLimit _).trans (updateLimit _)
  · obtain ⟨pom, -, h⟩ := bind_eq_ok.mp h
    rw [← Except.ok.inj h]
    exact ((setNext _).trans (setPrev _)).trans (updateLimit _)

/-! ### Functions of the book -/

theorem framed : Framed SameLog where
  refl := refl
  trans := trans
  updateData := updateData
  updateLimitData := fun _ _ _ => updateLimit _
  allocLimit := fun _ _ => ⟨rfl, fun _ => rfl, rfl⟩
  unlinkNeighbours := fun s o => of_sameButLinks (unlinkNeighbours_spec s o).1
  unlinkEnds := unlinkEnds
  appendOrder := fun h => (setParent _ _ _).trans (appendOrder h)
  firstOrder := fun s o l => ((setParent s o l).trans (updateLimit _)).trans (updateLimit _)
  rest := fun horder hnext _ _ hqueue => ⟨hnext, fun o => by rw [horder], hqueue⟩

theorem addStopOrder {isBuy : Bool} (h : s.addStopOrder o isBuy = .ok s') : SameLog s s' := by
  obtain ⟨t, -, h⟩ := bind_eq_ok.mp h
  exact Except.ok.inj h ▸ setStopOrders isBuy t

theorem removeStopOrder (h : s.removeStopOrder o = .ok s') : SameLog s s' := by
  obtain ⟨⟨t, _⟩, -, h⟩ := bind_eq_ok.mp h
  rw [← Except.ok.inj h]
  exact (setStopOrders _ t).trans (framed.eraseEntry _ o)

theorem replaceOrder {e : ℕ} (h : s.replaceOrder e o = .ok s') : SameLog s s' := by
  rw [OrderBook.replaceOrder] at h
  split at h
  · obtain ⟨s₁, h₁, h⟩ := bind_eq_ok.mp h
    exact (removeStopOrder h₁).trans (addStopOrder h)
  · obtain ⟨s₁, h₁, h⟩ := bind_eq_ok.mp h
    obtain ⟨limit, -, h⟩ := bind_eq_ok.mp h
    exact (framed.removeLimitOrder h₁).trans (framed.addLimitOrder h)

theorem removeOrder (h : s.removeOrder o = .ok s') : SameLog s s' := by
  rw [OrderBook.removeOrder] at h
  split at h
  · exact removeStopOrder h
  · exact framed.removeLimitOrder h

/-- The one write that may be seen inside `resolve_orders`. -/
theorem exchangeStates {c : ℕ} {q q' : ℚ} (h : s.exchange c o q q' = .ok s') :
    ∃ halfway, s.exchangeStates c o q q' = .ok halfway ∧ ∀ m ∈ halfway, SameLog s m := by
  rw [OrderBook.exchange] at h
  rw [OrderBook.exchangeStates]
  split at h
  · next hge =>
    obtain ⟨x, hx, -⟩ := bind_eq_ok.mp h
    have hfirst : SameLog s (s.updateData c fun _ => x) := updateData (OrderData.decreaseQty_id hx)
    rw [if_pos hge, hx, ok_bind]
    exact ⟨_, rfl, by simpa using hfirst⟩
  · next hlt =>
    rw [if_neg hlt]
    split at h
    · next haon =>
      obtain ⟨x, hx, -⟩ := bind_eq_ok.mp h
      have hfirst : SameLog s (s.updateData o fun _ => x) := updateData (OrderData.decreaseQty_id hx)
      rw [if_pos haon, hx, ok_bind]
      exact ⟨_, rfl, by simpa using hfirst⟩
    · next haon =>
      rw [if_neg haon]
      exact ⟨[], rfl, by simp⟩

end SameLog

/-! ### The queue grows -/

/-- The orders of the book keep their ids, and further orders of the book have been handed to
the repository. -/
structure Later (s s' : OrderBook) : Prop where
  nextOrder : s.nextOrder ≤ s'.nextOrder
  id : ∀ o < s.nextOrder, (s'.order o).id = (s.order o).id
  orderQueue : ∃ new, s'.orderQueue = s.orderQueue ++ new ∧ ∀ o ∈ new, o < s'.nextOrder

namespace Later

variable {s s' s'' : OrderBook} {o : ℕ}

theorem of_sameLog (h : SameLog s s') : Later s s' where
  nextOrder := h.nextOrder.ge
  id := fun o _ => h.id o
  orderQueue := ⟨[], by rw [h.orderQueue, List.append_nil], by simp⟩

theorem refl (s : OrderBook) : Later s s := of_sameLog (.refl s)

theorem trans (h : Later s s') (h' : Later s' s'') : Later s s'' where
  nextOrder := h.nextOrder.trans h'.nextOrder
  id := fun o ho => (h'.id o (ho.trans_le h.nextOrder)).trans (h.id o ho)
  orderQueue := by
    obtain ⟨xs, hxs, hlt⟩ := h.orderQueue
    obtain ⟨ys, hys, hlt'⟩ := h'.orderQueue
    refine ⟨xs ++ ys, by rw [hys, hxs, List.append_assoc], fun o ho => ?_⟩
    rcases List.mem_append.mp ho with ho | ho
    · exact (hlt o ho).trans_le h'.nextOrder
    · exact hlt' o ho

theorem allocOrder (s : OrderBook) (x : OrderData) : Later s (s.allocOrder x) where
  nextOrder := Nat.le_succ _
  id := fun o ho => by rw [allocOrder_order, Function.update_of_ne (ne_of_lt ho)]
  orderQueue := ⟨[], (List.append_nil _).symm, by simp⟩

theorem enqueueOrder (ho : o < s.nextOrder) : Later s (s.enqueueOrder o) where
  nextOrder := le_rfl
  id := fun _ _ => rfl
  orderQueue := ⟨[o], rfl, by simpa using ho⟩

end Later

/-- From `s` through the states of a list, each later than the one before, to the last one. -/
inductive Goes : OrderBook → List OrderBook → OrderBook → Prop where
  | done (s : OrderBook) : Goes s [] s
  | next {s m s' : OrderBook} {ms : List OrderBook} (h : Later s m) (hms : Goes m ms s') :
      Goes s (m :: ms) s'

namespace Goes

variable {s m s' s'' : OrderBook} {ms ms' : List OrderBook} {o : ℕ}

theorem single (h : Later s s') : Goes s [s'] s' := .next h (.done s')

theorem append (h : Goes s ms s') (h' : Goes s' ms' s'') : Goes s (ms ++ ms') s'' := by
  induction h with
  | done s => exact h'
  | next hm _ ih => exact .next hm (ih h')

theorem later (h : Goes s ms s') : Later s s' := by
  induction h with
  | done s => exact .refl s
  | next hm _ ih => exact hm.trans ih

theorem getLastD (h : Goes s ms s') : ms.getLastD s = s' := by
  induction h with
  | done s => rfl
  | next _ _ ih => rw [List.getLastD_cons, ih]

/-- Through states in which nothing has been handed over. -/
theorem of_sameLog (hms : ∀ m ∈ ms, SameLog s m) (h : Later s s') : Goes s (ms ++ [s']) s' := by
  induction ms generalizing s with
  | nil => exact single h
  | cons m ms ih =>
    have hm : SameLog s m := hms m (by simp)
    refine .next (.of_sameLog hm) (ih (fun m' hm' => ?_) ((Later.of_sameLog hm.symm).trans h))
    exact hm.symm.trans (hms m' (List.mem_cons_of_mem _ hm'))

/-! ### Matching -/

theorem processOrders {now : ℤ} {price : ℚ} {n : ℕ} {currOrder : Option ℕ}
    (h : OrderBook.processOrders now o price n s currOrder = .ok s') :
    ∃ ms, processOrdersStates now o price n s currOrder = .ok ms ∧ Goes s ms s' := by
  induction n generalizing s currOrder with
  | zero => exact absurd h (by simp [OrderBook.processOrders])
  | succ n ih =>
    cases currOrder with
    | none =>
      rw [OrderBook.processOrders] at h
      exact ⟨[], rfl, Except.ok.inj h ▸ .done s⟩
    | some c =>
      rw [OrderBook.processOrders] at h
      rw [processOrdersStates]
      split at h
      · next hpos =>
        obtain ⟨s₁, h₁, h⟩ := bind_eq_ok.mp h
        obtain ⟨s₂, h₂, h⟩ := bind_eq_ok.mp h
        obtain ⟨s₃, h₃, -⟩ := bind_eq_ok.mp h₁
        obtain ⟨halfway, hhalfway, hall⟩ := SameLog.exchangeStates h₃
        obtain ⟨ms, hms, hgoes⟩ := ih h
        rw [if_pos hpos, hhalfway, ok_bind, h₁, ok_bind, h₂, ok_bind, hms, ok_bind]
        refine ⟨_, rfl, ?_⟩
        rw [List.append_cons]
        exact (of_sameLog hall (.of_sameLog (SameLog.framed.resolveOrders h₁))).append
          (.next (.of_sameLog (SameLog.framed.removeFilled h₂)) hgoes)
      · next hpos =>
        rw [if_neg hpos]
        exact ⟨[], rfl, Except.ok.inj h ▸ .done s⟩

theorem matchLimits {now : ℤ} {levels : List ℕ} {filled : Bool}
    (h : OrderBook.matchLimits now o s levels = .ok (s', filled)) :
    ∃ ms, matchLimitsStates now o s levels = .ok ms ∧ Goes s ms s' := by
  induction levels generalizing s with
  | nil =>
    obtain ⟨rfl, -⟩ := Prod.mk.inj (Except.ok.inj h)
    exact ⟨[], rfl, .done s⟩
  | cons l levels ih =>
    rw [OrderBook.matchLimits] at h
    rw [matchLimitsStates]
    split at h
    · next hskip =>
      rw [if_pos hskip]
      exact ih h
    · next hskip =>
      rw [if_neg hskip]
      rcases hcross : calculateCrossPrice (s.order o).toOrderData (s.limit l).toLimitData with
        _ | price <;> rw [hcross] at h
      · obtain ⟨rfl, -⟩ := Prod.mk.inj (Except.ok.inj h)
        exact ⟨[], rfl, .done s⟩
      · obtain ⟨s₁, h₁, h⟩ := bind_eq_ok.mp h
        obtain ⟨ms, hms, hgoes⟩ := processOrders h₁
        have hprice : Later s₁ { s₁ with marketPrice := price } :=
          .of_sameLog ⟨rfl, fun _ => rfl, rfl⟩
        dsimp only
        rw [processLimitOrderStates, hms, ok_bind, h₁, ok_bind]
        dsimp only at h
        split at h
        · next hzero =>
          obtain ⟨rfl, -⟩ := Prod.mk.inj (Except.ok.inj h)
          rw [if_pos hzero]
          exact ⟨_, rfl, hgoes.append (single hprice)⟩
        · next hzero =>
          obtain ⟨ms', hms', hgoes'⟩ := ih h
          rw [if_neg hzero, hms', ok_bind]
          exact ⟨_, rfl, hgoes.append (.next hprice hgoes')⟩

theorem matchOrder {now : ℤ} {isBuy filled : Bool}
    (h : s.matchOrder now o isBuy = .ok (s', filled)) :
    ∃ ms, s.matchOrderStates now o isBuy = .ok ms ∧ Goes s ms s' := by
  obtain ⟨s₁, h₁, h⟩ := bind_eq_ok.mp h
  obtain ⟨levels, hlevels, h⟩ := bind_eq_ok.mp h
  obtain ⟨ms, hms, hgoes⟩ := matchLimits h
  have hclean : Later s s₁ := by
    rw [← Except.ok.inj h₁]
    exact .of_sameLog ⟨rfl, fun _ => rfl, List.append_nil _⟩
  rw [matchOrderStates, h₁, ok_bind, hlevels, ok_bind, hms, ok_bind]
  exact ⟨_, rfl, .next hclean hgoes⟩

end Goes

/-! ### Calls -/

variable {s s' : OrderBook} {o : ℕ} {status : OrderStatus}

theorem addOrderStates_spec {now : ℤ} (h : s.addOrder now o = .ok (s', status))
    (ho : o < s.nextOrder) : ∃ ms, s.addOrderStates now o = .ok ms ∧ Goes s ms s' := by
  have hqueue : Later s (s.enqueueOrder o) := .enqueueOrder ho
  rw [addOrder] at h
  rw [addOrderStates]
  dsimp only at h ⊢
  split at h
  · next hpark =>
    obtain ⟨s₁, h₁, h⟩ := bind_eq_ok.mp h
    obtain ⟨s₂, h₂, h⟩ := bind_eq_ok.mp h
    obtain ⟨rfl, -⟩ := Prod.mk.inj (Except.ok.inj h)
    rw [if_pos hpark, h₁, ok_bind, h₂, ok_bind]
    exact ⟨_, rfl, .next hqueue (.single (.of_sameLog
      (SameLog.trans (.addStopOrder h₁) (SameLog.framed.addDateOrder h₂))))⟩
  · next hpark =>
    obtain ⟨⟨s₁, filled⟩, h₁, h⟩ := bind_eq_ok.mp h
    obtain ⟨ms, hms, hgoes⟩ := Goes.matchOrder h₁
    have hactivated : Later (s.enqueueOrder o) ((s.enqueueOrder o).updateData o .activated) :=
      .of_sameLog (.updateData (OrderData.activated_id _))
    rw [if_neg hpark, hms, ok_bind, h₁, ok_bind, settleStates, h, ok_bind, ok_bind]
    exact ⟨_, rfl, .next hqueue ((Goes.next hactivated hgoes).append
      (.single (.of_sameLog (SameLog.framed.settle h))))⟩

theorem modifyOrderStates_spec (h : s.modifyOrder o = .ok (s', status)) (ho : o < s.nextOrder) :
    ∃ ms, s.modifyOrderStates o = .ok ms ∧ Goes s ms s' := by
  rw [modifyOrder] at h
  rw [modifyOrderStates]
  rcases he : s.orders.lookup (s.order o).id with _ | e <;> rw [he] at h
  · obtain ⟨rfl, -⟩ := Prod.mk.inj (Except.ok.inj h)
    exact ⟨[], rfl, .done s⟩
  · dsimp only at h ⊢
    split at h
    · next hlive =>
      obtain ⟨s₁, h₁, h⟩ := bind_eq_ok.mp h
      obtain ⟨rfl, -⟩ := Prod.mk.inj (Except.ok.inj h)
      have hcancel : SameLog s (s.updateData e .cancel) := .updateData rfl
      have hreplace := SameLog.replaceOrder h₁
      have ho' : o < s₁.nextOrder := by
        rw [(hcancel.trans hreplace).nextOrder]
        exact ho
      rw [if_pos hlive, h₁, ok_bind]
      exact ⟨_, rfl, .next (.of_sameLog hcancel) (.next (.of_sameLog hreplace)
        (.single (.enqueueOrder ho')))⟩
    · next hlive =>
      obtain ⟨rfl, -⟩ := Prod.mk.inj (Except.ok.inj h)
      rw [if_neg hlive]
      exact ⟨[], rfl, .done s⟩

theorem cancelOrderStates_spec {id : String} (h : s.cancelOrder id = .ok (s', status))
    (hlt : ∀ e, s.orders.lookup id = some e → e < s.nextOrder) :
    ∃ ms, s.cancelOrderStates id = .ok ms ∧ Goes s ms s' := by
  rw [cancelOrder] at h
  rw [cancelOrderStates]
  rcases he : s.orders.lookup id with _ | e <;> rw [he] at h
  · obtain ⟨rfl, -⟩ := Prod.mk.inj (Except.ok.inj h)
    exact ⟨[], rfl, .done s⟩
  · obtain ⟨s₁, h₁, h⟩ := bind_eq_ok.mp h
    obtain ⟨rfl, -⟩ := Prod.mk.inj (Except.ok.inj h)
    have hcancel : SameLog s (s.updateData e .cancel) := .updateData rfl
    have hremove := SameLog.removeOrder h₁
    have he' : e < s₁.nextOrder := by
      rw [(hcancel.trans hremove).nextOrder]
      exact hlt e he
    dsimp only
    rw [h₁, ok_bind]
    exact ⟨_, rfl, .next (.of_sameLog hcancel) (.next (.of_sameLog hremove)
      (.single (.enqueueOrder he')))⟩

/-- **A call goes through its states**, and ends in the last one. -/
theorem callStates_spec {c : Call} {answer : Option OrderStatus}
    (h : s.step c.request = .ok (s', answer))
    (hlt : ∀ id e, s.orders.lookup id = some e → e < s.nextOrder) :
    ∃ ms, s.callStates c = .ok ms ∧ Goes s ms s' := by
  cases c with
  | add now a =>
    obtain ⟨⟨s₁, status⟩, h₁, h⟩ := bind_eq_ok.mp h
    obtain ⟨rfl, -⟩ := Prod.mk.inj (Except.ok.inj h)
    obtain ⟨ms, hms, hgoes⟩ := addOrderStates_spec h₁ (Nat.lt_succ_self _)
    rw [callStates, hms]
    exact ⟨_, rfl, .next (.allocOrder s _) hgoes⟩
  | modify a =>
    obtain ⟨⟨s₁, status⟩, h₁, h⟩ := bind_eq_ok.mp h
    obtain ⟨rfl, -⟩ := Prod.mk.inj (Except.ok.inj h)
    obtain ⟨ms, hms, hgoes⟩ := modifyOrderStates_spec h₁ (Nat.lt_succ_self _)
    rw [callStates, hms]
    exact ⟨_, rfl, .next (.allocOrder s _) hgoes⟩
  | cancel id =>
    obtain ⟨⟨s₁, status⟩, h₁, h⟩ := bind_eq_ok.mp h
    obtain ⟨rfl, -⟩ := Prod.mk.inj (Except.ok.inj h)
    exact cancelOrderStates_spec h₁ (hlt id)

end OrderBook

end LimitOrderBook
