import LimitOrderBook.Ledger.Surgery
import LimitOrderBook.Ledger.Matching

/-!
# Every request is simulated

A book that refines a ledger answers each request without a fault, with the
status of the ledger, and refines the ledger after the request
(`LimitOrderBook.Refines.step`); so do whole runs, from what the constructor
recovers (`LimitOrderBook.refines_run`). In particular no null pointer is followed,
`decrease_qty` does not throw, and every loop ends.

The only loop over links is that of `process_limit_order`, which removes orders
from the queue it walks along; the induction is on the rest of the queue.
-/

namespace LimitOrderBook

open OrderBook (Request)

/-- An order stays outside when no link changes. -/
theorem Outside.congr {s s' : OrderBook} {L L' : Ledger} {o : ℕ} (hout : Outside s L o)
    (hlt : L.nextOrder ≤ L'.nextOrder) (hq : ∀ l, o ∉ L'.queue l)
    (hentry : ∀ id, L'.orders.lookup id ≠ some o) (hn : s'.next = s.next)
    (hp : s'.prev = s.prev) : Outside s' L' o := by
  refine ⟨lt_of_lt_of_le hout.lt hlt, hq, hentry, ?_, ?_, ?_⟩
  · rw [hn]
    exact hout.next
  · rw [hp]
    exact hout.prev
  · rw [hn, hp]
    exact hout.links

theorem Outside.allocLimit {s : OrderBook} {L : Ledger} {o : ℕ} (hout : Outside s L o) (price : ℚ) :
    Outside (s.allocLimit price) (L.allocLimit price) o := by
  have hqueue : ∀ l, o ∉ (L.allocLimit price).queue l := by
    intro l hl
    by_cases hx : l = L.nextLimit
    · simp [hx] at hl
    · rw [Ledger.allocLimit_queue, Function.update_of_ne hx] at hl
      exact hout.queue l hl
  exact { hout with queue := hqueue }

/-- `add_limit_order` puts the order into a queue. -/
theorem Ledger.mem_addLimitOrder (L : Ledger) (o limit : ℕ) (b : Bool) :
    ∃ l, o ∈ (L.addLimitOrder o limit b).queue l := by
  rw [Ledger.addLimitOrder]
  split
  · next l _ => exact ⟨l, by simp⟩
  · exact ⟨limit, by simp⟩

theorem Ledger.removeOrder_order (L : Ledger) (o : ℕ) : (L.removeOrder o).order = L.order := by
  rw [removeOrder, removeLimitOrder]
  split
  · rfl
  · split <;> rfl

/-- `cancel_order` marks at most the order that it finds. -/
theorem Ledger.cancelOrder_order (L : Ledger) (id : String) (x : ℕ) :
    (L.cancelOrder id).1.order x = L.order x ∨
      (L.cancelOrder id).1.order x = (L.order x).cancel := by
  rw [cancelOrder]
  split
  · exact Or.inl rfl
  · next e _ =>
    dsimp only
    rw [enqueueOrder_order, removeOrder_order, updateData_order]
    by_cases hx : x = e
    · subst hx
      simp
    · simp [hx]

theorem Ledger.isDue_cancelOrder (L : Ledger) (id : String) (x : ℕ) (now : ℤ) :
    ((L.cancelOrder id).1.order x).isDue now = (L.order x).isDue now := by
  rcases L.cancelOrder_order id x with h | h <;> rw [h]
  rfl

namespace Refines

variable {s : OrderBook} {L : Ledger} (h : Refines s L) {o c l : ℕ} {b : Bool}

include h

theorem qty (o : ℕ) : (s.order o).currentQty = L.qty o := congrArg OrderData.currentQty (h.order o)

/-! ### One resting order -/

theorem exchange (c o : ℕ) :
    ∃ s', s.exchange c o (s.order c).currentQty (s.order o).currentQty = .ok s' ∧
      Refines s' (L.exchange c o) ∧ s'.next = s.next ∧ s'.prev = s.prev := by
  have haon : (s.order o).hasParam .aon = (L.order o).hasParam .aon :=
    congrArg (fun x => OrderData.hasParam x .aon) (h.order o)
  rw [OrderBook.exchange, Ledger.exchange, haon, h.qty, h.qty]
  by_cases hge : L.qty c ≥ L.qty o
  · have hdec : (s.order c).decreaseQty (L.qty o) =
        .ok { (s.order c).toOrderData with currentQty := L.qty c - L.qty o } := by
      rw [OrderData.decreaseQty, h.qty, if_neg (not_lt.mpr hge)]
    rw [if_pos hge, if_pos hge, hdec]
    refine ⟨_, rfl, ?_, ?_, ?_⟩
    · exact (h.updateData (o := c) (f := fun x => { x with currentQty := L.qty c - L.qty o })
        fun x => .setQty x _).updateData fun x => .setQty x _
    · simp
    · simp
  · rw [if_neg hge, if_neg hge]
    by_cases ha : (!(L.order o).hasParam .aon) = true
    · have hdec : (s.order o).decreaseQty (L.qty c) =
          .ok { (s.order o).toOrderData with currentQty := L.qty o - L.qty c } := by
        rw [OrderData.decreaseQty, h.qty, if_neg (not_lt.mpr (not_le.mp hge).le)]
      rw [if_pos ha, if_pos ha, hdec]
      refine ⟨_, rfl, ?_, ?_, ?_⟩
      · exact (h.updateData (o := o) (f := fun x => { x with currentQty := L.qty o - L.qty c })
          fun x => .setQty x _).updateData fun x => .setQty x _
      · simp
      · simp
    · rw [if_neg ha, if_neg ha]
      exact ⟨s, rfl, h, rfl, rfl⟩

theorem recordExecution {s' : OrderBook} {L' : Ledger} (h' : Refines s' L') (c o : ℕ) (p : ℚ) :
    Refines (OrderBook.recordExecution s s' c o p) (Ledger.recordExecution L L' c o p) ∧
      (OrderBook.recordExecution s s' c o p).next = s'.next ∧
      (OrderBook.recordExecution s s' c o p).prev = s'.prev := by
  simp only [OrderBook.recordExecution, Ledger.recordExecution, h.qty, h'.qty]
  split
  · exact ⟨h'.logExecution _, rfl, rfl⟩
  · exact ⟨h', rfl, rfl⟩

/-- **`resolve_orders`** does not throw; it enqueues no trade. -/
theorem resolveOrders (now : ℤ) (c o : ℕ) (p : ℚ) :
    ∃ s', s.resolveOrders now c o p = .ok s' ∧ Refines s' (L.resolveOrders c o p) ∧
      s'.next = s.next ∧ s'.prev = s.prev := by
  obtain ⟨s₁, hs₁, h₁, hn₁, hp₁⟩ := h.exchange c o
  obtain ⟨h₂, hn₂, hp₂⟩ := h.recordExecution h₁ c o p
  refine ⟨_, ?_, h₂, hn₂.trans hn₁, hp₂.trans hp₁⟩
  rw [OrderBook.resolveOrders, hs₁]
  simp

/-- The body of the loop of `process_limit_order`; the link that the loop then
follows still leads to the next order of the queue. -/
theorem fillOrder (now : ℤ) (p : ℚ) (hout : Outside s L o) {xs rest : List ℕ}
    (hq : L.queue l = xs ++ c :: rest) :
    ∃ s₁ s', s.resolveOrders now c o p = .ok s₁ ∧ s₁.removeFilled c = .ok s' ∧
      Refines s' (L.fillOrder c o p) ∧ Outside s' (L.fillOrder c o p) o ∧
      s'.next c = rest.head? := by
  have hc : c ∈ L.queue l := by simp [hq]
  have hframe := Ledger.MatchFrame.fillOrder L c o p
  have hnextc : s.next c = rest.head? := (h.linked l).next_eq hq
  obtain ⟨s₁, hs₁, h₁, hn₁, hp₁⟩ := h.resolveOrders now c o p
  have hframe₁ := Ledger.MatchFrame.resolveOrders L c o p
  have hout₁ : Outside s₁ (L.resolveOrders c o p) o := by
    refine hout.congr hframe₁.nextOrder.ge (fun l hl => ?_) (fun id hid => ?_) hn₁ hp₁
    · exact hout.queue l ((hframe₁.queue l).mem hl)
    · exact hout.entry id (hframe₁.entry id o hid)
  have hfill : (s₁.order c).isFullfilled = ((L.resolveOrders c o p).order c).isFullfilled :=
    congrArg OrderData.isFullfilled (h₁.order c)
  refine ⟨s₁, ?_⟩
  rw [OrderBook.removeFilled, Ledger.fillOrder, Ledger.removeFilled, hfill]
  by_cases hf : ((L.resolveOrders c o p).order c).isFullfilled = true
  · have hmem : c ∈ (L.resolveOrders c o p).queue l := by
      rw [L.resolveOrders_queue]
      exact hc
    obtain ⟨s', hs', h', hn', hp'⟩ := h₁.removeLimitOrder (h₁.wf.queue_parent l c hmem) (Or.inl hmem)
    rw [if_pos hf, if_pos hf]
    rw [Ledger.fillOrder, Ledger.removeFilled, if_pos hf] at hframe
    refine ⟨s', hs₁, hs', h', ?_, ?_⟩
    · refine hout₁.of_remove ?_ (fun l hl => ?_) (fun id y hy => ?_) hn' hp'
      · rw [hframe.nextOrder, hframe₁.nextOrder]
      · exact hout.queue l ((hframe.queue l).mem hl)
      · have hrem : Ledger.MatchFrame (L.resolveOrders c o p)
            ((L.resolveOrders c o p).removeFilled c) := .removeFilled _ c
        rw [Ledger.removeFilled, if_pos hf] at hrem
        exact hrem.entry id y hy
    · rw [hn', ite_self, hn₁, hnextc]
  · rw [if_neg hf, if_neg hf]
    exact ⟨s₁, hs₁, rfl, h₁, hout₁, by rw [hn₁, hnextc]⟩

/-- **The loop of `process_limit_order`**, from any order of the queue on. -/
theorem processOrders (now : ℤ) (p : ℚ) {xs rest : List ℕ} {n : ℕ} (hout : Outside s L o)
    (hq : L.queue l = xs ++ rest) (hn : rest.length < n) :
    ∃ s', OrderBook.processOrders now o p n s rest.head? = .ok s' ∧
      Refines s' (L.processOrders o p rest) ∧ Outside s' (L.processOrders o p rest) o := by
  induction rest generalizing s L xs n with
  | nil =>
    obtain ⟨n, rfl⟩ : ∃ m, n = m + 1 := ⟨n - 1, by simp at hn; omega⟩
    exact ⟨s, rfl, h, hout⟩
  | cons c rest ih =>
    obtain ⟨n, rfl⟩ : ∃ m, n = m + 1 := ⟨n - 1, by simp at hn; omega⟩
    rw [List.head?_cons, OrderBook.processOrders, Ledger.processOrders, h.qty]
    by_cases hpos : 0 < L.qty o
    · obtain ⟨s₁, s₂, hs₁, hs₂, h₂, hout₂, hnext⟩ := h.fillOrder now p hout hq
      have hco : c ≠ o := fun he => hout.queue l (by simp [hq, ← he])
      obtain ⟨ys, hys⟩ := h.wf.queue_fillOrder_suffix (p := p) hco hq
      obtain ⟨s₃, hs₃, h₃, hout₃⟩ := ih h₂ hout₂ hys (by simp at hn; omega)
      rw [if_pos hpos, if_pos hpos]
      refine ⟨s₃, ?_, h₃, hout₃⟩
      rw [hs₁, ok_bind, hs₂, ok_bind]
      exact (congrArg (OrderBook.processOrders now o p n s₂) hnext).trans hs₃
    · rw [if_neg hpos, if_neg hpos]
      exact ⟨s, rfl, h, hout⟩

/-! ### Matching -/

theorem fuel_gt (l : ℕ) : (L.queue l).length < s.fuel := by
  have hsub : L.queue l ⊆ List.range L.nextOrder := fun x hx =>
    List.mem_range.mpr (h.wf.queue_lt l x hx)
  have hle := ((h.wf.queue_nodup l).subperm hsub).length_le
  rw [List.length_range] at hle
  rw [OrderBook.fuel, h.nextOrder]
  omega

theorem processLimitOrder (now : ℤ) (p : ℚ) (hout : Outside s L o) :
    ∃ s', s.processLimitOrder now l o p = .ok s' ∧ Refines s' (L.processLimitOrder l o p) ∧
      Outside s' (L.processLimitOrder l o p) o := by
  rw [OrderBook.processLimitOrder, h.head]
  exact h.processOrders now p hout (List.nil_append _).symm (h.fuel_gt l)

/-- **The loop of `match_order`**. -/
theorem matchLimits (now : ℤ) (ls : List ℕ) (hout : Outside s L o) :
    ∃ s', OrderBook.matchLimits now o s ls = .ok (s', (L.matchLimits o ls).2) ∧
      Refines s' (L.matchLimits o ls).1 ∧ Outside s' (L.matchLimits o ls).1 o := by
  induction ls generalizing s L with
  | nil => exact ⟨s, rfl, h, hout⟩
  | cons l ls ih =>
    have hskip : ((s.order o).hasParam .aon &&
        decide ((s.limit l).activeVolume < (s.order o).currentQty)) = L.skips o l := by
      rw [Ledger.skips, ← h.order o, ← h.limit l, h.qty]
    rw [OrderBook.matchLimits, Ledger.matchLimits, hskip, h.order o, h.limit l]
    by_cases hs : L.skips o l = true
    · rw [if_pos hs, if_pos hs]
      exact ih h hout
    · rw [if_neg hs, if_neg hs]
      rcases hcross : OrderBook.calculateCrossPrice (L.order o) (L.limit l) with _ | p
      · exact ⟨s, rfl, h, hout⟩
      · obtain ⟨s₁, hs₁, h₁, hout₁⟩ := h.processLimitOrder (l := l) now p hout
        have h₂ := h₁.setMarketPrice p
        have hout₂ : Outside { s₁ with marketPrice := p }
            ((L.processLimitOrder l o p).setMarketPrice p) o := { hout₁ with }
        dsimp only
        rw [hs₁, ok_bind, h₂.qty]
        by_cases hz : ((L.processLimitOrder l o p).setMarketPrice p).qty o = 0
        · rw [if_pos hz, if_pos hz]
          exact ⟨_, rfl, h₂, hout₂⟩
        · rw [if_neg hz, if_neg hz]
          exact ih h₂ hout₂

theorem matchOrder (now : ℤ) (hout : Outside s L o) :
    ∃ s', s.matchOrder now o b = .ok (s', (L.matchLimits o (L.levels b)).2) ∧
      Refines s' (L.matchLimits o (L.levels b)).1 ∧
      Outside s' (L.matchLimits o (L.levels b)).1 o := by
  have hclean : s.cleanUp b [] [] = .ok s := by
    simp [OrderBook.cleanUp, OrderBook.removeLimits]
  rw [OrderBook.matchOrder, hclean, ok_bind, (h.levels b).keys, ok_bind]
  exact h.matchLimits now _ hout

/-! ### Requests -/

theorem restOrder (hout : Outside s L o) (hb : (L.order o).isBuy = b) :
    ∃ s', s.restOrder o b = .ok s' ∧ Refines s' (L.restOrder o) := by
  have hprice : (s.order o).price = (L.order o).price := congrArg OrderData.price (h.order o)
  have h₁ := h.allocLimit (L.order o).price
  obtain ⟨s₂, hs₂, h₂⟩ := h₁.addLimitOrder (b := b) (hout.allocLimit (L.order o).price)
    (Nat.lt_succ_self L.nextLimit)
  obtain ⟨l, hl⟩ := Ledger.mem_addLimitOrder (L.allocLimit (L.order o).price) o L.nextLimit b
  obtain ⟨s₃, hs₃, h₃⟩ := (h₂.insertEntry hl).addDateOrder (h₂.wf.queue_lt l o hl)
  refine ⟨s₃, ?_, ?_⟩
  · simp only [OrderBook.restOrder, hprice, h.nextLimit, hs₂, ok_bind, hs₃]
  · rw [Ledger.restOrder, hb]
    exact h₃

theorem settle (filled : Bool) (hout : Outside s L o) (hb : (L.order o).isBuy = b) :
    ∃ s', s.settle o b filled = .ok (s', (L.settle o filled).2) ∧
      Refines s' (L.settle o filled).1 := by
  have hfok : (s.order o).hasParam .fok = (L.order o).hasParam .fok :=
    congrArg (fun x => OrderData.hasParam x .fok) (h.order o)
  rw [OrderBook.settle, Ledger.settle, hfok]
  by_cases hf : filled = true
  · rw [if_pos hf, if_pos hf]
    exact ⟨s, rfl, h⟩
  · rw [if_neg hf, if_neg hf]
    by_cases hp : (L.order o).hasParam .fok = true
    · rw [if_pos hp, if_pos hp]
      exact ⟨_, rfl, h.updateData .cancel⟩
    · obtain ⟨s', hs', h'⟩ := h.restOrder hout hb
      rw [if_neg hp, if_neg hp, hs']
      exact ⟨s', rfl, h'⟩

/-- **`add_order`**, on a new order. -/
theorem addOrder (now : ℤ) (hout : Outside s L o) :
    ∃ s', s.addOrder now o = .ok (s', (L.addOrder o).2) ∧ Refines s' (L.addOrder o).1 := by
  have h₁ := h.enqueueOrder (o := o)
  have hout₁ : Outside (s.enqueueOrder o) (L.enqueueOrder o) o := { hout with }
  have hbuy : (s.order o).isBuy = (L.order o).isBuy := congrArg OrderData.isBuy (h.order o)
  have hpark : ((s.order o).hasParam .stop && (s.order o).isDormant s.marketPrice) =
      (L.enqueueOrder o).isParked o := by
    rw [Ledger.isParked, h.order o, h.marketPrice]
    rfl
  simp only [OrderBook.addOrder, Ledger.addOrder, OrderBook.enqueueOrder_order,
    OrderBook.enqueueOrder_marketPrice, hpark, hbuy]
  by_cases hp : (L.enqueueOrder o).isParked o = true
  · obtain ⟨s₂, hs₂, h₂, -, -⟩ := h₁.addStopOrder (b := (L.order o).isBuy) hout₁.lt
    obtain ⟨s₃, hs₃, h₃⟩ := h₂.addDateOrder (o := o) hout.lt
    rw [if_pos hp, if_pos hp, hs₂, ok_bind, hs₃]
    exact ⟨s₃, rfl, h₃⟩
  · rw [if_neg hp, if_neg hp]
    have h₂ := h₁.updateData (o := o) .activated
    have hout₂ : Outside ((s.enqueueOrder o).updateData o .activated)
        ((L.enqueueOrder o).updateData o .activated) o :=
      hout₁.congr le_rfl hout.queue hout.entry (by simp) (by simp)
    obtain ⟨s₃, hs₃, h₃, hout₃⟩ := h₂.matchOrder (b := !(L.order o).isBuy) now hout₂
    have hframe := Ledger.MatchFrame.matchLimits (o := o)
      ((L.enqueueOrder o).updateData o .activated) (L.levels !(L.order o).isBuy)
    rw [hs₃]
    refine h₃.settle _ hout₃ ?_
    refine (hframe.keeps o).isBuy.trans ?_
    simp

/-- An entry of the index is in the queue of its level, or nothing leads from it to
a queue. -/
theorem entry_cases {id : String} (he : L.orders.lookup id = some o) :
    ∃ l, L.parent o = some l ∧ (o ∈ L.queue l ∨ (∀ x, o ∉ L.queue x) ∧
      ∀ p, (s.next o = some p ∨ s.prev o = some p) → ∀ x, p ∉ L.queue x) := by
  obtain ⟨l, hl⟩ := h.wf.entry_parent id o he
  refine ⟨l, hl, ?_⟩
  by_cases hq : o ∈ L.queue l
  · exact Or.inl hq
  · have hfree : ∀ x, o ∉ L.queue x := by
      intro x hx
      have hp := h.wf.queue_parent x o hx
      rw [hl, Option.some.injEq] at hp
      exact hq (hp ▸ hx)
    exact Or.inr ⟨hfree, h.loose id o he hfree⟩

/-- The part of `modify_order` that takes the old order out and puts the new one
in. -/
theorem replaceOrder {e : ℕ} {id : String} (he : L.orders.lookup id = some e)
    (hout : Outside s L o) :
    ∃ s', s.replaceOrder e o = .ok s' ∧ Refines s' (L.replaceOrder e o) := by
  have hstop : (s.order e).hasParam .stop = (L.order e).hasParam .stop :=
    congrArg (fun x => OrderData.hasParam x .stop) (h.order e)
  rw [OrderBook.replaceOrder, Ledger.replaceOrder, hstop]
  by_cases hs : (L.order e).hasParam .stop = true
  · obtain ⟨s₁, hs₁, h₁, -, -⟩ := h.removeStopOrder (o := o)
    have hbuy : (s₁.order o).isBuy = (L.order o).isBuy := congrArg OrderData.isBuy (h₁.order o)
    obtain ⟨s₂, hs₂, h₂, -, -⟩ := h₁.addStopOrder (o := o) (b := (L.order o).isBuy) hout.lt
    rw [if_pos hs, if_pos hs, hs₁, ok_bind, hbuy]
    exact ⟨s₂, hs₂, h₂⟩
  · obtain ⟨l, hp, hcase⟩ := h.entry_cases he
    obtain ⟨s₁, hs₁, h₁, hn₁, hp₁⟩ := h.removeLimitOrder hp hcase
    have hL : L.removeLimitOrder e = L.displace e l := by rw [Ledger.removeLimitOrder, hp]
    have hframe := Ledger.MatchFrame.displace L e l
    rw [hL] at h₁
    have hpar : (s₁.order e).parent = some l := (h₁.parent e).trans hp
    have hbuy : (s₁.order o).isBuy = (L.order o).isBuy := congrArg OrderData.isBuy (h₁.order o)
    have hout₁ : Outside s₁ (L.displace e l) o := hout.of_remove le_rfl
      (fun x hx => hout.queue x ((hframe.queue x).mem hx)) hframe.entry hn₁ hp₁
    obtain ⟨s₂, hs₂, h₂⟩ := h₁.addLimitOrder (b := (L.order o).isBuy) hout₁ (h.wf.parent_lt e l hp)
    rw [if_neg hs, if_neg hs, hs₁, ok_bind, hpar, deref_some, ok_bind, hbuy, hp, hL]
    exact ⟨s₂, hs₂, h₂⟩

/-- **`modify_order`**, with a new order. -/
theorem modifyOrder (hout : Outside s L o) :
    ∃ s', s.modifyOrder o = .ok (s', (L.modifyOrder o).2) ∧ Refines s' (L.modifyOrder o).1 := by
  have hid : (s.order o).id = (L.order o).id := congrArg OrderData.id (h.order o)
  rw [OrderBook.modifyOrder, Ledger.modifyOrder, h.orders, hid]
  rcases he : L.orders.lookup (L.order o).id with _ | e
  · exact ⟨s, rfl, h⟩
  · have hlive : (!(s.order e).cancelled && !(s.order e).isFullfilled) =
        (!(L.order e).cancelled && !(L.order e).isFullfilled) :=
      congrArg (fun x => !OrderData.cancelled x && !OrderData.isFullfilled x) (h.order e)
    dsimp only
    rw [hlive]
    split
    · have hout₁ : Outside (s.updateData e .cancel) (L.updateData e .cancel) o :=
        hout.congr le_rfl hout.queue hout.entry (by simp) (by simp)
      obtain ⟨s', hs', h'⟩ := (h.updateData (o := e) .cancel).replaceOrder he hout₁
      rw [hs']
      exact ⟨_, rfl, h'.enqueueOrder⟩
    · exact ⟨s, rfl, h⟩

theorem removeOrder {id : String} (he : L.orders.lookup id = some o) :
    ∃ s', s.removeOrder o = .ok s' ∧ Refines s' (L.removeOrder o) := by
  have hstop : (s.order o).hasParam .stop = (L.order o).hasParam .stop :=
    congrArg (fun x => OrderData.hasParam x .stop) (h.order o)
  rw [OrderBook.removeOrder, Ledger.removeOrder, hstop]
  split
  · obtain ⟨s', hs', h', -, -⟩ := h.removeStopOrder (o := o)
    exact ⟨s', hs', h'⟩
  · obtain ⟨l, hp, hcase⟩ := h.entry_cases he
    obtain ⟨s', hs', h', -, -⟩ := h.removeLimitOrder hp hcase
    exact ⟨s', hs', h'⟩

/-- **`cancel_order`**. -/
theorem cancelOrder (id : String) :
    ∃ s', s.cancelOrder id = .ok (s', (L.cancelOrder id).2) ∧ Refines s' (L.cancelOrder id).1 := by
  rw [OrderBook.cancelOrder, Ledger.cancelOrder, h.orders]
  rcases he : L.orders.lookup id with _ | e
  · exact ⟨s, rfl, h⟩
  · have he' : (L.updateData e .cancel).orders.lookup id = some e := he
    obtain ⟨s', hs', h'⟩ := (h.updateData (o := e) .cancel).removeOrder he'
    dsimp only
    rw [hs']
    exact ⟨_, rfl, h'.enqueueOrder⟩

/-- The first loop of `check_date_orders`; an order stays due when it is
cancelled. -/
theorem cancelDue (now : ℤ) (dates : List ℕ) :
    ∃ s', OrderBook.cancelDue now s dates =
        .ok (s', dates.takeWhile fun o => (L.order o).isDue now) ∧
      Refines s' (L.cancelDue now dates) := by
  induction dates generalizing s L with
  | nil => exact ⟨s, rfl, h⟩
  | cons o dates ih =>
    have hdue : (s.order o).isDue now = (L.order o).isDue now :=
      congrArg (fun x => OrderData.isDue x now) (h.order o)
    have hid : (s.order o).id = (L.order o).id := congrArg OrderData.id (h.order o)
    rw [OrderBook.cancelDue, Ledger.cancelDue, hdue, hid]
    by_cases hd : (L.order o).isDue now = true
    · obtain ⟨s₁, hs₁, h₁⟩ := h.cancelOrder (L.order o).id
      obtain ⟨s₂, hs₂, h₂⟩ := ih h₁
      simp only [Ledger.isDue_cancelOrder] at hs₂
      rw [if_pos hd, if_pos hd, hs₁, ok_bind, List.takeWhile_cons, if_pos hd]
      dsimp only
      rw [hs₂]
      exact ⟨s₂, rfl, h₂⟩
    · rw [if_neg hd, if_neg hd, List.takeWhile_cons, if_neg hd]
      exact ⟨s, rfl, h⟩

theorem removeDates (removed : List ℕ) :
    ∃ s', OrderBook.removeDates s removed = .ok s' ∧ Refines s' (L.removeDates removed) := by
  induction removed generalizing s L with
  | nil => exact ⟨s, rfl, h⟩
  | cons o removed ih =>
    obtain ⟨t, f, ht, h₁⟩ := h.eraseDate (o := o)
    obtain ⟨s', hs', h'⟩ := ih h₁
    rw [OrderBook.removeDates, ht]
    exact ⟨s', hs', h'⟩

/-- **`check_date_orders`**. -/
theorem checkDateOrders (now : ℤ) :
    ∃ s', s.checkDateOrders now = .ok s' ∧ Refines s' (L.checkDateOrders now) := by
  obtain ⟨s₁, hs₁, h₁⟩ := h.cancelDue (now + 3600) L.dates
  obtain ⟨s₂, hs₂, h₂⟩ := h₁.removeDates (L.dueOrders now)
  rw [OrderBook.checkDateOrders, h.dates.keys, ok_bind, hs₁, ok_bind]
  exact ⟨s₂, hs₂, h₂⟩

theorem recoverOrder (hout : Outside s L o) :
    ∃ s', s.recoverOrder o = .ok s' ∧ Refines s' (L.recoverOrder o) := by
  have hstop : (s.order o).hasParam .stop = (L.order o).hasParam .stop :=
    congrArg (fun x => OrderData.hasParam x .stop) (h.order o)
  have hbuy : (s.order o).isBuy = (L.order o).isBuy := congrArg OrderData.isBuy (h.order o)
  have hprice : (s.order o).price = (L.order o).price := congrArg OrderData.price (h.order o)
  rw [OrderBook.recoverOrder, Ledger.recoverOrder, hstop, hbuy, hprice, h.nextLimit]
  split
  · obtain ⟨s', hs', h', -, -⟩ := h.addStopOrder (o := o) (b := (L.order o).isBuy) hout.lt
    exact ⟨s', hs', h'⟩
  · exact (h.allocLimit (L.order o).price).addLimitOrder (hout.allocLimit (L.order o).price)
      (Nat.lt_succ_self L.nextLimit)

theorem recover (repository : List OrderData) :
    ∃ s', OrderBook.recover s repository = .ok s' ∧ Refines s' (L.recover repository) := by
  induction repository generalizing s L with
  | nil => exact ⟨s, rfl, h⟩
  | cons x repository ih =>
    obtain ⟨s₁, hs₁, h₁⟩ := (h.allocOrder x).recoverOrder (h.outside_new x)
    obtain ⟨s₂, hs₂, h₂⟩ := ih h₁
    rw [OrderBook.recover, h.nextOrder, hs₁]
    exact ⟨s₂, hs₂, h₂⟩

/-! ### Runs -/

/-- **Every request** is answered as the ledger answers it. -/
theorem step (r : Request) :
    ∃ s', s.step r = .ok (s', (L.step r).2) ∧ Refines s' (L.step r).1 := by
  cases r with
  | add now a =>
    obtain ⟨s', hs', h'⟩ := (h.allocOrder a.toData).addOrder now (h.outside_new a.toData)
    rw [OrderBook.step, h.nextOrder, hs']
    exact ⟨s', rfl, h'⟩
  | modify a =>
    obtain ⟨s', hs', h'⟩ := (h.allocOrder a.toData).modifyOrder (h.outside_new a.toData)
    rw [OrderBook.step, h.nextOrder, hs']
    exact ⟨s', rfl, h'⟩
  | cancel id =>
    obtain ⟨s', hs', h'⟩ := h.cancelOrder id
    rw [OrderBook.step, hs']
    exact ⟨s', rfl, h'⟩
  | checkDate now =>
    obtain ⟨s', hs', h'⟩ := h.checkDateOrders now
    rw [OrderBook.step, hs']
    exact ⟨s', rfl, h'⟩

end Refines

/-- **The constructor** recovers any repository. -/
theorem refines_new (instrument : String) (marketPrice : ℚ) (repository : List OrderData) :
    ∃ s, OrderBook.new instrument marketPrice repository = .ok s ∧
      Refines s ((Ledger.empty instrument marketPrice).recover repository) :=
  (refines_empty instrument marketPrice).recover repository

end LimitOrderBook
