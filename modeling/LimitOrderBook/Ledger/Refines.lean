import LimitOrderBook.Ledger.WellFormed
import LimitOrderBook.Storage.Keys
import LimitOrderBook.Lib.Chain

/-!
# A book refines a ledger

`LimitOrderBook.Refines s L` says that the pointers of the book `s` read as the
ledger `L`: each tree has the keys of its list, each level's links run along its
queue. Each primitive operation of the source takes a book that refines a ledger
to one that refines the ledger after the operation of the same name; this is
where the pointer surgery is checked, once.

An order in the index need not be in a queue: when `modify_order` moves a level
into the tree of the other side it forgets the orders that were in it, and they
stay linked to each other. Removing such an order must not disturb the queues, so
the relation says that its neighbours are in no queue
(`LimitOrderBook.Refines.loose`). A new order that has not been put anywhere yet
is `LimitOrderBook.Outside`.
-/

namespace LimitOrderBook

open OrderBook (Request)

/-- The link to the next order of a queue. -/
def OrderBook.next (s : OrderBook) (o : ℕ) : Option ℕ := (s.order o).next

/-- The link to the previous order of a queue. -/
def OrderBook.prev (s : OrderBook) (o : ℕ) : Option ℕ := (s.order o).prev

/-- **The pointers of the book read as the ledger.** -/
structure Refines (s : OrderBook) (L : Ledger) : Prop where
  wf : L.WellFormed
  instrument : s.instrument = L.instrument
  marketPrice : s.marketPrice = L.marketPrice
  order : ∀ o, (s.order o).toOrderData = L.order o
  parent : ∀ o, (s.order o).parent = L.parent o
  nextOrder : s.nextOrder = L.nextOrder
  limit : ∀ l, (s.limit l).toLimitData = L.limit l
  nextLimit : s.nextLimit = L.nextLimit
  levels : ∀ b, (s.limits b).HasKeys (L.levels b)
  lastLevel : ∀ b, (s.limits b).first = RBTree.nil → (s.limits b).last = RBTree.nil
  stops : ∀ b, (s.stopOrders b).HasKeys (L.stops b)
  dates : s.dateOrders.HasKeys L.dates
  orders : s.orders = L.orders
  orderQueue : s.orderQueue = L.orderQueue
  tradeQueue : s.tradeQueue = L.tradeQueue
  executions : s.executions = L.executions
  head : ∀ l, (s.limit l).head = (L.queue l).head?
  tail : ∀ l, (s.limit l).tail = (L.queue l).getLast?
  linked : ∀ l, Linked s.next s.prev (L.queue l)
  loose : ∀ id o, L.orders.lookup id = some o → (∀ l, o ∉ L.queue l) →
    ∀ p, (s.next o = some p ∨ s.prev o = some p) → ∀ l, p ∉ L.queue l
  links_lt : ∀ o p, s.next o = some p ∨ s.prev o = some p → p < L.nextOrder

/-- An order that nothing leads to: it is in no queue and not in the index, it has
no links and no order is linked to it. -/
structure Outside (s : OrderBook) (L : Ledger) (o : ℕ) : Prop where
  lt : o < L.nextOrder
  queue : ∀ l, o ∉ L.queue l
  entry : ∀ id, L.orders.lookup id ≠ some o
  next : s.next o = none
  prev : s.prev o = none
  links : ∀ x, s.next x ≠ some o ∧ s.prev x ≠ some o

theorem refines_empty (instrument : String) (marketPrice : ℚ) :
    Refines (.empty instrument marketPrice) (.empty instrument marketPrice) where
  wf := Ledger.wellFormed_empty instrument marketPrice
  instrument := rfl
  marketPrice := rfl
  order := fun _ => rfl
  parent := fun _ => rfl
  nextOrder := rfl
  limit := fun _ => rfl
  nextLimit := rfl
  levels := fun b => by cases b <;> exact RBTree.hasKeys_empty
  lastLevel := fun b => by cases b <;> exact fun _ => rfl
  stops := fun b => by cases b <;> exact RBTree.hasKeys_empty
  dates := RBTree.hasKeys_empty
  orders := rfl
  orderQueue := rfl
  tradeQueue := rfl
  executions := rfl
  head := fun _ => rfl
  tail := fun _ => rfl
  linked := fun _ => linked_nil
  loose := fun id o h => absurd h (by simp [Ledger.empty])
  links_lt := fun o p h => absurd h (by simp [OrderBook.next, OrderBook.prev, OrderBook.empty,
    Order.ofData])

namespace OrderBook

variable (s : OrderBook) (o l : ℕ)

/-! ### What the writes to the heaps leave alone -/

@[simp] theorem next_updateData (f : OrderData → OrderData) : (s.updateData o f).next = s.next := by
  funext x
  by_cases hx : x = o
  · subst hx
    simp [OrderBook.next, updateData]
  · simp [OrderBook.next, updateData, hx]

@[simp] theorem prev_updateData (f : OrderData → OrderData) : (s.updateData o f).prev = s.prev := by
  funext x
  by_cases hx : x = o
  · subst hx
    simp [OrderBook.prev, updateData]
  · simp [OrderBook.prev, updateData, hx]

theorem order_updateData (f : OrderData → OrderData) (x : ℕ) :
    ((s.updateData o f).order x).toOrderData =
      Function.update (fun y => (s.order y).toOrderData) o (f (s.order o).toOrderData) x := by
  by_cases hx : x = o
  · subst hx
    simp [updateData]
  · simp [updateData, hx]

theorem parent_updateData (f : OrderData → OrderData) (x : ℕ) :
    ((s.updateData o f).order x).parent = (s.order x).parent := by
  by_cases hx : x = o
  · subst hx
    simp [updateData]
  · simp [updateData, hx]

/-- A new order has no links. -/
theorem links_of_allocOrder {x : OrderData} {y p : ℕ}
    (h : (s.allocOrder x).next y = some p ∨ (s.allocOrder x).prev y = some p) :
    s.next y = some p ∨ s.prev y = some p := by
  by_cases hy : y = s.nextOrder
  · subst hy
    simp [OrderBook.next, OrderBook.prev, Order.ofData] at h
  · simpa [OrderBook.next, OrderBook.prev, hy] using h

end OrderBook

namespace Refines

variable {s : OrderBook} {L : Ledger} (h : Refines s L) {o l : ℕ} {b : Bool}

include h

theorem limitLess : s.limitLess b = L.limitLess b := by
  funext x y
  rw [OrderBook.limitLess, Ledger.limitLess, h.limit, h.limit]

theorem stopLess : s.stopLess b = L.stopLess b := by
  funext x y
  rw [OrderBook.stopLess, Ledger.stopLess, h.order, h.order]

theorem dateLess : s.dateLess = L.dateLess := by
  funext x y
  rw [OrderBook.dateLess, Ledger.dateLess, h.order, h.order]

/-! ### Simple writes -/

theorem enqueueOrder : Refines (s.enqueueOrder o) (L.enqueueOrder o) :=
  { h with
    wf := { h.wf with }
    orderQueue := by simp [h.orderQueue] }

theorem setMarketPrice (p : ℚ) : Refines { s with marketPrice := p } (L.setMarketPrice p) :=
  { h with wf := { h.wf with }, marketPrice := rfl }

theorem logExecution (e : Execution) :
    Refines { s with executions := s.executions ++ [e] } (L.logExecution e) :=
  { h with wf := { h.wf with }, executions := by simp [h.executions] }

theorem updateData {f : OrderData → OrderData} (hf : ∀ x, (f x).Keeps x) :
    Refines (s.updateData o f) (L.updateData o f) :=
  { h with
    wf := h.wf.updateData hf
    order := fun x => by
      rw [OrderBook.order_updateData, Ledger.updateData_order, h.order o]
      exact congrArg (fun g => Function.update g o (f (L.order o)) x) (funext h.order)
    parent := fun x => by
      rw [OrderBook.parent_updateData]
      exact h.parent x
    linked := by simpa using h.linked
    loose := by simpa using h.loose
    links_lt := by simpa using h.links_lt }

theorem allocOrder (x : OrderData) : Refines (s.allocOrder x) (L.allocOrder x) := by
  have hnew : s.nextOrder = L.nextOrder := h.nextOrder
  have hnext : ∀ y, y ≠ L.nextOrder → (s.allocOrder x).next y = s.next y := fun y hy => by
    simp [OrderBook.next, hnew, hy]
  have hprev : ∀ y, y ≠ L.nextOrder → (s.allocOrder x).prev y = s.prev y := fun y hy => by
    simp [OrderBook.prev, hnew, hy]
  have hq : ∀ l, ∀ y ∈ L.queue l, y ≠ L.nextOrder := fun l y hy => ne_of_lt (h.wf.queue_lt l y hy)
  refine
    { h with
      wf := h.wf.allocOrder x
      order := fun y => ?_
      parent := fun y => ?_
      nextOrder := by simp [hnew]
      linked := fun l => (h.linked l).congr (fun y hy => hnext y (hq l y hy))
        fun y hy => hprev y (hq l y hy)
      loose := fun id y hy hfree p hp => h.loose id y hy hfree p (s.links_of_allocOrder hp)
      links_lt := fun y p hp => Nat.lt_succ_of_lt (h.links_lt y p (s.links_of_allocOrder hp)) }
  · by_cases hy : y = L.nextOrder
    · subst hy
      simp [hnew, Order.ofData]
    · simp [hnew, hy, h.order]
  · by_cases hy : y = L.nextOrder
    · subst hy
      simp [hnew, Order.ofData]
    · simp [hnew, hy, h.parent]

/-- A new order is outside. -/
theorem outside_new (x : OrderData) : Outside (s.allocOrder x) (L.allocOrder x) L.nextOrder := by
  have hnew : s.nextOrder = L.nextOrder := h.nextOrder
  refine ⟨Nat.lt_succ_self _, fun l hl => ?_, fun id he => ?_, ?_, ?_, fun y =>
    ⟨fun hy => ?_, fun hy => ?_⟩⟩
  · exact lt_irrefl _ (h.wf.queue_lt l _ hl)
  · exact lt_irrefl _ (h.wf.entry_lt id _ he)
  · simp [OrderBook.next, hnew, Order.ofData]
  · simp [OrderBook.prev, hnew, Order.ofData]
  · exact lt_irrefl _ (h.links_lt y _ (s.links_of_allocOrder (Or.inl hy)))
  · exact lt_irrefl _ (h.links_lt y _ (s.links_of_allocOrder (Or.inr hy)))

theorem allocLimit (price : ℚ) : Refines (s.allocLimit price) (L.allocLimit price) := by
  have hnew : s.nextLimit = L.nextLimit := h.nextLimit
  have hsub : ∀ l o, o ∈ (L.allocLimit price).queue l → o ∈ L.queue l := by
    intro l o ho
    by_cases hl : l = L.nextLimit
    · simp [hl] at ho
    · rwa [Ledger.allocLimit_queue, Function.update_of_ne hl] at ho
  have hempty : L.queue L.nextLimit = [] := by
    refine List.eq_nil_iff_forall_not_mem.mpr fun o ho => ?_
    exact lt_irrefl _ (h.wf.parent_lt o _ (h.wf.queue_parent _ o ho))
  have hqueue : ∀ l, (L.allocLimit price).queue l = L.queue l := by
    intro l
    by_cases hl : l = L.nextLimit
    · subst hl
      simp [hempty]
    · simp [hl]
  refine
    { h with
      wf := h.wf.allocLimit price
      limit := fun l => ?_
      nextLimit := by simp [hnew]
      head := fun l => ?_
      tail := fun l => ?_
      linked := fun l => by
        rw [hqueue]
        exact h.linked l
      loose := fun id o ho hfree p hp l hl => ?_ }
  · by_cases hl : l = L.nextLimit
    · subst hl
      simp [hnew, Limit.new]
    · simp [hnew, hl, h.limit]
  · rw [hqueue]
    by_cases hl : l = L.nextLimit
    · subst hl
      simp [hnew, hempty, Limit.new]
    · simp [hnew, hl, h.head]
  · rw [hqueue]
    by_cases hl : l = L.nextLimit
    · subst hl
      simp [hnew, hempty, Limit.new]
    · simp [hnew, hl, h.tail]
  · refine h.loose id o ho (fun l' hl' => hfree l' ?_) p hp l (hsub l p hl)
    rw [hqueue]
    exact hl'

/-! ### Trees -/

theorem addStopOrder (ho : o < L.nextOrder) :
    ∃ s', s.addStopOrder o b = .ok s' ∧ Refines s' (L.addStopOrder o b) ∧ s'.next = s.next ∧
      s'.prev = s.prev := by
  obtain ⟨t, ht, hk⟩ := (h.stops b).insert (L.stopLess_strictWeak b) (h.wf.stops_sorted b) o
  have hrun : s.addStopOrder o b = .ok (s.setStopOrders b t) := by
    rw [OrderBook.addStopOrder, h.stopLess, ht, ok_bind]
  rw [hrun]
  have hwf : (L.addStopOrder o b).WellFormed := h.wf.addStopOrder ho
  have hother := h.stops !b
  cases b with
  | false =>
    refine ⟨_, rfl, { h with wf := hwf, stops := fun c => ?_ }, rfl, rfl⟩
    cases c with
    | false => exact hk
    | true => exact hother
  | true =>
    refine ⟨_, rfl, { h with wf := hwf, stops := fun c => ?_ }, rfl, rfl⟩
    cases c with
    | false => exact hother
    | true => exact hk

theorem removeStopOrder :
    ∃ s', s.removeStopOrder o = .ok s' ∧ Refines s' (L.removeStopOrder o) ∧ s'.next = s.next ∧
      s'.prev = s.prev := by
  obtain ⟨b, hb⟩ : ∃ b, (L.order o).isBuy = b := ⟨_, rfl⟩
  have hbuy : (s.order o).isBuy = b := (congrArg OrderData.isBuy (h.order o)).trans hb
  have hid : (s.order o).id = (L.order o).id := congrArg OrderData.id (h.order o)
  obtain ⟨t, ht, hk⟩ := (h.stops b).remove (L.stopLess_strictWeak b) (h.wf.stops_sorted b) o
  have hrun : s.removeStopOrder o = .ok ((s.setStopOrders b t).eraseEntry o) := by
    rw [OrderBook.removeStopOrder, hbuy, h.stopLess, ht, ok_bind]
  rw [hrun]
  have hwf : (L.removeStopOrder o).WellFormed := h.wf.removeStopOrder
  have hloose : ∀ id x, (L.orders.erase (L.order o).id).lookup id = some x →
      (∀ l, x ∉ L.queue l) → ∀ p, (s.next x = some p ∨ s.prev x = some p) → ∀ l, p ∉ L.queue l :=
    fun id x hx => h.loose id x (Ledger.lookup_of_erase hx)
  have hother := h.stops !b
  have horders : s.orders.erase (s.order o).id = L.orders.erase (L.order o).id := by
    rw [h.orders, hid]
  have hstops : ∀ c, (L.removeStopOrder o).stops c =
      if c = b then eraseKey (L.stopLess b) o (L.stops b) else L.stops c := by
    intro c
    rw [Ledger.removeStopOrder_stops, hb, Function.update_apply]
  cases b with
  | false =>
    refine ⟨_, rfl, { h with wf := hwf, stops := fun c => ?_, orders := horders,
                             loose := hloose }, rfl, rfl⟩
    rw [hstops]
    cases c with
    | false => exact hk
    | true => exact hother
  | true =>
    refine ⟨_, rfl, { h with wf := hwf, stops := fun c => ?_, orders := horders,
                             loose := hloose }, rfl, rfl⟩
    rw [hstops]
    cases c with
    | false => exact hother
    | true => exact hk

theorem insertDate (ho : o < L.nextOrder) :
    ∃ t, s.dateOrders.insert s.dateLess o = .ok t ∧
      Refines { s with dateOrders := t } (L.insertDate o) := by
  obtain ⟨t, ht, hk⟩ := h.dates.insert L.dateLess_strictWeak h.wf.dates_sorted o
  rw [h.dateLess]
  exact ⟨t, ht, { h with wf := h.wf.insertDate ho, dates := hk }⟩

theorem eraseDate :
    ∃ t f, s.dateOrders.remove s.dateLess o = .ok (t, f) ∧
      Refines { s with dateOrders := t } (L.eraseDate o) := by
  obtain ⟨t, ht, hk⟩ := h.dates.remove L.dateLess_strictWeak h.wf.dates_sorted o
  rw [h.dateLess]
  exact ⟨t, _, ht, { h with wf := h.wf.eraseDate, dates := hk }⟩

theorem addDateOrder (ho : o < L.nextOrder) :
    ∃ s', s.addDateOrder o = .ok s' ∧ Refines s' (L.addDateOrder o) := by
  have hdated : (s.order o).isDated = (L.order o).isDated := congrArg OrderData.isDated (h.order o)
  rw [OrderBook.addDateOrder, Ledger.addDateOrder, hdated]
  by_cases hd : (L.order o).isDated = true
  · obtain ⟨t, ht, hr⟩ := h.insertDate ho
    rw [if_pos hd, if_pos hd, ht]
    exact ⟨_, rfl, hr⟩
  · rw [if_neg hd, if_neg hd]
    exact ⟨s, rfl, h⟩

/-- An order in a queue is entered into the index. -/
theorem insertEntry (ho : o ∈ L.queue l) :
    Refines { s with orders := s.orders.insert (s.order o).id o } (L.insertEntry o) := by
  have hid : (s.order o).id = (L.order o).id := congrArg OrderData.id (h.order o)
  refine
    { h with
      wf := h.wf.insertEntry (h.wf.queue_lt l o ho) ⟨l, h.wf.queue_parent l o ho⟩
      orders := by rw [Ledger.insertEntry_orders, h.orders, hid]
      loose := fun id x hx hfree => ?_ }
  rw [Ledger.insertEntry_orders] at hx
  by_cases hi : id = (L.order o).id
  · subst hi
    rw [AList.lookup_insert, Option.some.injEq] at hx
    exact absurd ho (hx ▸ hfree l)
  · rw [AList.lookup_insert_ne hi] at hx
    exact h.loose id x hx hfree

end Refines

end LimitOrderBook
