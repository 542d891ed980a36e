import LimitOrderBook.Ledger.Effects

/-!
# How orders come and go

What a request other than `modify_order` can do to the orders of a ledger, said once
(`LimitOrderBook.Ledger.StepFrame`): an order keeps what it says, queues only lose
orders except that the new one may come last, a new level has the price and the side of
the new order, only the new order is ever parked, and what is executed is executed
between the new order and one in a queue.

Over a run this gives the orders their numbers in the order in which they were added
(`LimitOrderBook.Ledger.Numbered`).
-/

namespace LimitOrderBook

open OrderBook (Request)

namespace Ledger

variable {L L' L'' : Ledger} {o l : ℕ} {r : Request}

/-- **What a request can do to the orders.** -/
structure StepFrame (L : Ledger) (r : Request) (L' : Ledger) : Prop where
  nextOrder : L'.nextOrder = L.nextOrder + r.newOrder.toList.length
  keeps : ∀ x < L.nextOrder, (L'.order x).Keeps (L.order x)
  new : ∀ a, r.newOrder = some a → (L'.order L.nextOrder).Keeps a.toData
  queue : ∀ l, ∃ q, q.Sublist (L.queue l) ∧
    (L'.queue l = q ∨ r.newOrder.isSome = true ∧ L'.queue l = q ++ [L.nextOrder])
  levels : ∀ b, ∀ l ∈ L'.levels b,
    (l ∈ L.levels b ∧ (L'.limit l).price = (L.limit l).price) ∨
      ∃ a, r.newOrder = some a ∧ a.toData.isBuy = b ∧ a.price = (L'.limit l).price
  stops : ∀ b, ∀ x ∈ L'.stops b, x ∈ L.stops b ∨
    r.newOrder.isSome = true ∧ x = L.nextOrder ∧ (L'.order x).isBuy = b
  executions : ∃ es, L'.executions = L.executions ++ es ∧
    ∀ e ∈ es, e.incoming = L.nextOrder ∧ ∃ l, e.resting ∈ L.queue l

/-- The executions of matching the order `o`. -/
theorem WellFormed.executions_matchLimits (h : L.WellFormed) (ho : ∀ l, o ∉ L.queue l)
    (ls : List ℕ) : ∃ es, (L.matchLimits o ls).1.executions = L.executions ++ es ∧
      ∀ e ∈ es, e.incoming = o ∧ ∃ l, e.resting ∈ L.queue l := by
  refine (matchLimits_invariant (J := fun L' => MatchFrame L L' ∧
      ∃ es, L'.executions = L.executions ++ es ∧
        ∀ e ∈ es, e.incoming = o ∧ ∃ l, e.resting ∈ L.queue l)
    (fun L' l c p _ _ hwf hJ hc _ => ⟨hJ.1.trans (.fillOrder L' c o p), ?_⟩)
    (fun L' p hJ => ⟨hJ.1.trans (.setMarketPrice L' p), hJ.2⟩) h ho
    ⟨.refl L, [], by simp, by simp⟩).1.2
  obtain ⟨hframe, es, hes, hmem⟩ := hJ
  have hc₀ : c ∈ L.queue l := (hframe.queue l).mem hc
  have hco : c ≠ o := by
    rintro rfl
    exact ho l hc₀
  rw [hwf.executions_fillOrder hc hco, hes]
  split
  · refine ⟨es ++ [⟨o, c, L'.moved c o, p⟩], List.append_assoc _ _ _, ?_⟩
    intro e he
    rcases List.mem_append.mp he with he | he
    · exact hmem e he
    · rw [List.mem_singleton.mp he]
      exact ⟨rfl, l, hc₀⟩
  · exact ⟨es, rfl, hmem⟩

namespace StepFrame

/-- A request that adds no order, if it only lets orders go. -/
theorem of_still (hr : r.newOrder = none) (hs : Still L L')
    (hq : ∀ l, (L'.queue l).Sublist (L.queue l))
    (hl : L'.levels = L.levels ∧ ∀ l, (L'.limit l).price = (L.limit l).price)
    (hp : ∀ b, L'.stops b ⊆ L.stops b) : StepFrame L r L' where
  nextOrder := by rw [hs.nextOrder, hr]; rfl
  keeps := fun x _ => hs.keeps x
  new := fun a ha => absurd ha (by simp [hr])
  queue := fun l => ⟨_, hq l, Or.inl rfl⟩
  levels := fun b l hmem => Or.inl ⟨hl.1 ▸ hmem, hl.2 l⟩
  stops := fun b x hx => Or.inl (hp b hx)
  executions := ⟨[], by rw [hs.executions, List.append_nil], by simp⟩

end StepFrame

/-- Cancelling keeps the levels and their prices. -/
theorem WellFormed.levels_cancelOrder (h : L.WellFormed) (id : String) :
    (L.cancelOrder id).1.levels = L.levels ∧
      ∀ l, ((L.cancelOrder id).1.limit l).price = (L.limit l).price := by
  rcases h.cancelOrder_cases id with ⟨-, he⟩ | ⟨e, -, -, he⟩ | ⟨e, l, -, -, -, he⟩ <;> rw [he]
  · exact ⟨rfl, fun _ => rfl⟩
  · exact ⟨rfl, fun _ => rfl⟩
  · exact ⟨rfl, (MatchFrame.displace (L.updateData e .cancel) e l).price⟩

/-- Cancelling only lets parked orders go. -/
theorem WellFormed.stops_cancelOrder (h : L.WellFormed) (id : String) (b : Bool) :
    (L.cancelOrder id).1.stops b ⊆ L.stops b := by
  rcases h.cancelOrder_cases id with ⟨-, he⟩ | ⟨e, -, -, he⟩ | ⟨e, l, -, -, -, he⟩ <;> rw [he]
  · exact List.Subset.refl _
  · intro x hx
    rw [enqueueOrder_stops, removeStopOrder_stops] at hx
    have hc := h.updateData (o := e) .cancel
    by_cases hb : b = ((L.updateData e .cancel).order e).isBuy
    · subst hb
      rw [Function.update_self] at hx
      exact ((mem_eraseKey ((L.updateData e .cancel).stopLess_strictWeak _)
        (hc.stops_sorted _)).mp hx).1
    · rwa [Function.update_of_ne hb] at hx
  · exact List.Subset.refl _

theorem WellFormed.matched (h : L.WellFormed) (a : OrderArgs) : (L.matched a).1.WellFormed :=
  (matchLimits_invariant (J := fun _ => True) (fun _ _ _ _ _ _ _ _ _ _ => trivial)
    (fun _ _ _ => trivial) (h.activate a) (h.fresh_activate a).queue trivial).2

/-- A new order that is not parked leaves the parked ones alone. -/
theorem WellFormed.stops_settle (h : L.WellFormed) (o : ℕ) (filled : Bool) :
    (L.settle o filled).1.stops = L.stops := by
  rw [settle]
  split
  · rfl
  · split
    · rfl
    · obtain ⟨k, hk, -, -⟩ := h.restOrder o
      exact hk.stops

/-- A new order that comes to rest or is dropped after matching. -/
theorem WellFormed.stepFrame_matched (h : L.WellFormed) (now : ℤ) (a : OrderArgs) :
    StepFrame L (.add now a) ((L.matched a).1.settle L.nextOrder (L.matched a).2).1 := by
  have hframe : MatchFrame (L.activate a) (L.matched a).1 := .matchLimits _ _
  have hstill := Still.settle (L.matched a).1 L.nextOrder (L.matched a).2
  have hactivate : ∀ x < L.nextOrder, (L.activate a).order x = L.order x := fun x hx =>
    activate_order hx a
  refine ⟨?_, fun x hx => ?_, fun a' ha => ?_, fun l => ?_, fun b l hl => ?_, fun b x hx => ?_, ?_⟩
  · rw [hstill.nextOrder, hframe.nextOrder]
    rfl
  · have hkeep := (hstill.keeps x).trans (hframe.keeps x)
    rwa [hactivate x hx] at hkeep
  · obtain rfl : a = a' := Option.some.inj ha
    have hkeep := (hstill.keeps L.nextOrder).trans (hframe.keeps L.nextOrder)
    rw [activate_order_new] at hkeep
    exact hkeep.trans (.activated _)
  · refine ⟨(L.matched a).1.queue l, hframe.queue l, ?_⟩
    rw [settle]
    split
    · exact Or.inl rfl
    · split
      · exact Or.inl rfl
      · obtain ⟨k, hk, -, -⟩ := (h.matched a).restOrder L.nextOrder
        rw [hk.queue]
        by_cases hl : l = k
        · subst hl
          rw [Function.update_self]
          exact Or.inr ⟨rfl, rfl⟩
        · rw [Function.update_of_ne hl]
          exact Or.inl rfl
  · have hold : l ∈ (L.matched a).1.levels b → l ∈ L.levels b ∧
        ((L.matched a).1.limit l).price = (L.limit l).price := by
      intro hl
      rw [hframe.levels] at hl
      exact ⟨hl, hframe.price l⟩
    rw [settle] at hl ⊢
    split at hl
    · next hfilled =>
      rw [if_pos hfilled]
      exact Or.inl (hold hl)
    · next hfilled =>
      rw [if_neg hfilled]
      split at hl
      · next hfok =>
        rw [if_pos hfok]
        exact Or.inl (hold hl)
      · next hfok =>
        rw [if_neg hfok]
        obtain ⟨k, hk, hprice, -⟩ := (h.matched a).restOrder L.nextOrder
        rcases (hk.levels b l).mp hl with ⟨rfl, rfl⟩ | hl
        · refine Or.inr ⟨a, rfl, ?_, ?_⟩
          · rw [(hframe.keeps _).isBuy, activate_order_new, OrderData.activated_isBuy]
          · rw [hprice, (hframe.keeps _).price, activate_order_new, OrderData.activated_price]
            rfl
        · obtain ⟨hl', hprice'⟩ := hold hl
          exact Or.inl ⟨hl', (hk.price b l hl).trans hprice'⟩
  · rw [(h.matched a).stops_settle, hframe.stops] at hx
    exact Or.inl hx
  · obtain ⟨es, hes, hmem⟩ := (h.activate a).executions_matchLimits (h.fresh_activate a).queue
      (L.levels (!a.toData.isBuy))
    exact ⟨es, hstill.executions.trans hes, hmem⟩

/-- **What every request but `modify_order` can do.** -/
theorem WellFormed.stepFrame (h : L.WellFormed) (hr : r.keepsOrders = true) :
    StepFrame L r (L.step r).1 := by
  cases r with
  | add now a =>
    rw [step_add]
    split
    · have hstill := Still.parkOrder (L.receive a) L.nextOrder
      obtain ⟨dates, hdates⟩ := (L.receive a).parkOrder_eq L.nextOrder
      refine ⟨hstill.nextOrder, fun x hx => ?_, fun a' ha => ?_, fun l => ?_, fun b l hl => ?_,
        fun b x hx => ?_, ⟨[], ?_, by simp⟩⟩
      · have hkeep := hstill.keeps x
        rwa [receive_order hx] at hkeep
      · obtain rfl : a = a' := Option.some.inj ha
        have hkeep := hstill.keeps L.nextOrder
        rwa [receive_order_new] at hkeep
      · refine ⟨L.queue l, List.Sublist.refl _, Or.inl ?_⟩
        rw [hdates]
        rfl
      · rw [hdates] at hl ⊢
        exact Or.inl ⟨hl, rfl⟩
      · rw [hdates] at hx ⊢
        rcases (h.receive a).mem_addStopOrder hx with ⟨rfl, rfl⟩ | hx
        · exact Or.inr ⟨rfl, rfl, rfl⟩
        · exact Or.inl hx
      · rw [hstill.executions, List.append_nil]
        rfl
    · exact h.stepFrame_matched now a
  | modify a => exact absurd hr (by simp [Request.keepsOrders])
  | cancel id =>
    exact .of_still rfl (.cancelOrder L id) (h.queue_cancelOrder id) (h.levels_cancelOrder id)
      (h.stops_cancelOrder id)
  | checkDate now =>
    obtain ⟨-, hqueue, hlevels, hstops⟩ := checkDateOrders_rule
      (J := fun L' => L'.WellFormed ∧ (∀ l, (L'.queue l).Sublist (L.queue l)) ∧
        (L'.levels = L.levels ∧ ∀ l, (L'.limit l).price = (L.limit l).price) ∧
        ∀ b, L'.stops b ⊆ L.stops b)
      (fun L' x hJ _ _ => by
        obtain ⟨hwf, hq, ⟨hl, hp⟩, hs⟩ := hJ
        obtain ⟨hl', hp'⟩ := hwf.levels_cancelOrder (L.order x).id
        exact ⟨hwf.cancelOrder _, fun l => (hwf.queue_cancelOrder _ l).trans (hq l),
          ⟨hl'.trans hl, fun l => (hp' l).trans (hp l)⟩,
          fun b => List.Subset.trans (hwf.stops_cancelOrder _ b) (hs b)⟩)
      (fun L' x hJ => ⟨hJ.1.eraseDate, hJ.2⟩)
      ⟨h, fun l => List.Sublist.refl _, ⟨rfl, fun _ => rfl⟩, fun b => List.Subset.refl _⟩
    exact .of_still rfl (.checkDateOrders L now) hqueue hlevels hstops

/-- **The flags of an order** are only ever changed before it is matched. -/
theorem hasParam_step (hr : r.keepsOrders = true) (ho : o < L.nextOrder) (q : OrderParams) :
    ((L.step r).1.order o).hasParam q = (L.order o).hasParam q := by
  cases r with
  | add now a =>
    rw [step_add]
    split
    · rw [parkOrder_order, receive_order ho]
    · have hframe : MatchFrame (L.activate a) (L.matched a).1 := .matchLimits _ _
      rw [settle_order_old (ne_of_lt ho), hframe.hasParam, activate_order ho]
  | modify a => exact absurd hr (by simp [Request.keepsOrders])
  | cancel id => exact cancelOrder_hasParam L id o q
  | checkDate now =>
    exact checkDateOrders_rule (J := fun L' => (L'.order o).hasParam q = (L.order o).hasParam q)
      (fun L' x hJ _ _ => (cancelOrder_hasParam L' _ o q).trans hJ) (fun _ _ hJ => hJ) rfl

/-! ### Numbers -/

/-- The orders of the ledger are those that were added, numbered in the order in which
they were added; in every queue they stand in this order. -/
structure Numbered (L : Ledger) (as : List OrderArgs) : Prop where
  nextOrder : L.nextOrder = as.length
  keeps : ∀ o a, as[o]? = some a → (L.order o).Keeps a.toData
  sorted : ∀ l, (L.queue l).Pairwise (· < ·)

theorem numbered_empty (instrument : String) (marketPrice : ℚ) :
    (empty instrument marketPrice).Numbered [] :=
  ⟨rfl, by simp, by simp [empty]⟩

/-- **Orders keep their numbers**, and a new one gets the next. -/
theorem Numbered.step {as : List OrderArgs} (h : L.Numbered as) (hwf : L.WellFormed)
    (hr : r.keepsOrders = true) : (L.step r).1.Numbered (as ++ r.newOrder.toList) := by
  have hf := hwf.stepFrame hr
  refine ⟨?_, fun o a ha => ?_, fun l => ?_⟩
  · rw [hf.nextOrder, h.nextOrder, List.length_append]
  · rcases lt_or_ge o as.length with ho | ho
    · rw [List.getElem?_append_left ho] at ha
      exact (hf.keeps o (h.nextOrder ▸ ho)).trans (h.keeps o a ha)
    · rw [List.getElem?_append_right ho] at ha
      obtain ⟨hr', ho'⟩ : r.newOrder = some a ∧ o = as.length := by
        rcases hn : r.newOrder with _ | a'
        · simp [hn] at ha
        · rw [hn, Option.toList_some, List.getElem?_singleton] at ha
          split at ha
          · exact ⟨ha, by omega⟩
          · exact absurd ha (by simp)
      rw [ho', ← h.nextOrder]
      exact hf.new a hr'
  · obtain ⟨q, hsub, hq | ⟨-, hq⟩⟩ := hf.queue l
    · rw [hq]
      exact (h.sorted l).sublist hsub
    · rw [hq]
      refine List.pairwise_append.mpr ⟨(h.sorted l).sublist hsub, List.pairwise_singleton _ _, ?_⟩
      intro x hx y hy
      rw [List.mem_singleton.mp hy]
      exact hwf.queue_lt l x (hsub.mem hx)

/-- An order that has a number was added. -/
theorem Numbered.exists_added {as : List OrderArgs} (h : L.Numbered as) (ho : o < L.nextOrder) :
    ∃ a ∈ as, (L.order o).Keeps a.toData := by
  rw [h.nextOrder] at ho
  exact ⟨as.get ⟨o, ho⟩, List.get_mem _ _, h.keeps o _ (List.getElem?_eq_getElem ho)⟩

end Ledger

end LimitOrderBook
