import LimitOrderBook.Ledger.Quantities
import LimitOrderBook.Ledger.Tracked
import LimitOrderBook.Properties.Stops

/-!
# Where a new order goes

An `add_order` has four outcomes. A stop order that passes the parking test is parked, and
the rest of the book does not notice. Any other order is matched first: if nothing is left
of it, it has been matched; if something is left, its flags – as they are after the rewrite
of a market stop order – decide between refusing it and letting it rest
(`LimitOrderBook.Placement`). Which outcome it is can be read from the status, and the
status from what is left of the order (`LimitOrderBook.addOrder_placement`).
-/

namespace LimitOrderBook

open OrderBook (Request)

/-- The order `o` is in no queue, in no stop tree and not in the index. -/
structure OrderBook.Nowhere (s : OrderBook) (o : ℕ) : Prop where
  queue : ∀ l, ∃ queue, s.ordersAt l = .ok queue ∧ o ∉ queue
  stops : ∀ b, ∃ stops, (s.stopOrders b).keys = .ok stops ∧ o ∉ stops
  entry : ∀ id, s.orders.lookup id ≠ some o
  id : s.orders.lookup (s.order o).id = none

/-- **The order `o` is parked** on its side and in no queue; the levels with their queues,
the quantities of the other orders and the market price are those of the book `s`. -/
structure OrderBook.ParkedIn (s s' : OrderBook) (o : ℕ) : Prop where
  stops : ∃ stops, (s'.stopOrders (s'.order o).isBuy).keys = .ok stops ∧ o ∈ stops
  queue : ∀ l, ∃ queue, s'.ordersAt l = .ok queue ∧ o ∉ queue
  levels : ∀ b, ∃ levels, (s.limits b).keys = .ok levels ∧ (s'.limits b).keys = .ok levels
  limit : ∀ l, (s'.limit l).toLimitData = (s.limit l).toLimitData
  queues : ∀ l, ∃ queue, s.ordersAt l = .ok queue ∧ s'.ordersAt l = .ok queue
  qty : ∀ x, x ≠ o → (s'.order x).currentQty = (s.order x).currentQty
  marketPrice : s'.marketPrice = s.marketPrice

/-- The order `o` is in no stop tree, last in the queue of the level of its price on its
side, and in the index under its id. -/
structure OrderBook.RestsLast (s : OrderBook) (o : ℕ) : Prop where
  stops : ∀ b, ∃ stops, (s.stopOrders b).keys = .ok stops ∧ o ∉ stops
  last : ∃ levels l queue, (s.limits (s.order o).isBuy).keys = .ok levels ∧ l ∈ levels ∧
    (s.limit l).price = (s.order o).price ∧ s.ordersAt l = .ok queue ∧ queue.getLast? = some o
  entry : s.orders.lookup (s.order o).id = some o

/-- The order is not to rest: it is all-or-nothing or immediate-or-cancel. -/
def OrderData.refuses (x : OrderData) : Bool := x.hasParam .aon || x.hasParam .ioc

/-- **What becomes of a new order** `a`, the order `o` of the book `s'`, whose status is
`status`. -/
structure Placement (s s' : OrderBook) (a : OrderArgs) (o : ℕ) (status : OrderStatus) : Prop where
  keeps : (s'.order o).Keeps a.toData
  parked : s.parks a = true → status = .accepted ∧ s.ParkedIn s' o
  matched_iff : s.parks a = false → (status = .matched ↔ (s'.order o).currentQty = 0)
  matched : s.parks a = false → status = .matched → s'.Nowhere o
  refused_iff : s.parks a = false → (status = .notMatched ↔
    0 < (s'.order o).currentQty ∧ a.toData.activated.refuses = true)
  refused : s.parks a = false → status = .notMatched →
    (s'.order o).cancelled = true ∧ s'.Nowhere o
  accepted_iff : s.parks a = false → (status = .accepted ↔ ¬ (s'.order o).currentQty = 0 ∧
    ¬ (0 < (s'.order o).currentQty ∧ a.toData.activated.refuses = true))
  accepted : s.parks a = false → status = .accepted → s'.RestsLast o

namespace Ledger

variable {L : Ledger} {a : OrderArgs} {o : ℕ}

/-- An order that is nowhere in the ledger, under an id without an entry. -/
structure Nowhere (L : Ledger) (o : ℕ) : Prop where
  queue : ∀ l, o ∉ L.queue l
  stops : ∀ b, o ∉ L.stops b
  entry : ∀ id, L.orders.lookup id ≠ some o
  id : L.orders.lookup (L.order o).id = none

/-- **Matching leaves a new order nowhere** if its id has no entry. -/
theorem WellFormed.nowhere_matched (h : L.WellFormed) (hid : L.orders.lookup a.id = none) :
    (L.matched a).1.Nowhere L.nextOrder := by
  have hframe : MatchFrame (L.activate a) (L.matched a).1 := .matchLimits _ _
  have hfresh := (h.fresh_activate a).of_frame hframe
  refine ⟨hfresh.queue, hfresh.stops, hfresh.entry, ?_⟩
  rw [(hframe.keeps _).id, activate_order_new, OrderData.activated_id]
  refine Option.eq_none_iff_forall_ne_some.mpr fun e he => ?_
  have hold : L.orders.lookup a.id = some e := hframe.entry _ e he
  rw [hid] at hold
  exact absurd hold (by simp)

theorem Nowhere.cancel (h : L.Nowhere o) (x : ℕ) : (L.updateData x .cancel).Nowhere o where
  queue := h.queue
  stops := h.stops
  entry := h.entry
  id := by
    rw [(keeps_updateData L x .cancel o).id]
    exact h.id

/-- **Parking a new order** changes a stop tree and the dates only. -/
theorem parkOrder_frame (L : Ledger) (o : ℕ) : (L.parkOrder o).queue = L.queue ∧
    (L.parkOrder o).levels = L.levels ∧ (L.parkOrder o).limit = L.limit ∧
      (L.parkOrder o).stops = (L.addStopOrder o (L.order o).isBuy).stops := by
  obtain ⟨dates, hdates⟩ := L.parkOrder_eq o
  rw [hdates]
  exact ⟨rfl, rfl, rfl, rfl⟩

end Ledger

section Books

variable {s s' : OrderBook} {L L' : Ledger} {a : OrderArgs} {o : ℕ}

theorem Refines.nowhere (h : Refines s L) (ho : L.Nowhere o) : s.Nowhere o where
  queue := fun l => ⟨_, h.ordersAt l, ho.queue l⟩
  stops := fun b => ⟨_, (h.stops b).keys, ho.stops b⟩
  entry := fun id => by
    rw [h.orders]
    exact ho.entry id
  id := by
    rw [h.orders, h.order]
    exact ho.id

/-- A new order that is parked. -/
theorem Refines.parkedIn (h : Refines s L) (h' : Refines s' ((L.receive a).parkOrder L.nextOrder)) :
    s.ParkedIn s' L.nextOrder := by
  obtain ⟨hqueue, hlevels, hlimit, -⟩ := Ledger.parkOrder_frame (L.receive a) L.nextOrder
  have horder := Ledger.parkOrder_order (L.receive a) L.nextOrder
  have hstill := Ledger.Still.parkOrder (L.receive a) L.nextOrder
  refine ⟨⟨_, (h'.stops _).keys, ?_⟩, fun l => ⟨_, h'.ordersAt l, ?_⟩,
    fun b => ⟨_, (h.levels b).keys, ?_⟩, fun l => ?_, fun l => ⟨_, h.ordersAt l, ?_⟩,
    fun x hx => ?_, ?_⟩
  · rw [h'.order, horder]
    exact (h.wf.receive a).mem_stops_parkOrder L.nextOrder
  · rw [hqueue]
    exact (h.wf.fresh_receive a).queue l
  · rw [(h'.levels b).keys, hlevels]
    rfl
  · rw [h'.limit, hlimit, h.limit]
    rfl
  · rw [h'.ordersAt, hqueue]
    rfl
  · have hold : (L.receive a).order x = L.order x := by simp [Ledger.receive, hx]
    rw [h'.order, horder, hold, h.order]
  · rw [h'.marketPrice, hstill.marketPrice, h.marketPrice]
    rfl

/-- A new order that comes to rest. -/
theorem Refines.restsLast (hwf : L.WellFormed) (ho : ∀ b, o ∉ L.stops b)
    (h' : Refines s' (L.restOrder o)) : s'.RestsLast o := by
  obtain ⟨l, hl, hprice, horders⟩ := hwf.restOrder o
  refine
    { stops := fun b => ⟨_, (h'.stops b).keys, ?_⟩
      last := ⟨_, l, _, (h'.levels _).keys, ?_, ?_, h'.ordersAt l, ?_⟩
      entry := ?_ }
  · rw [hl.stops]
    exact ho b
  · rw [h'.order, hl.order]
    exact hl.mem
  · rw [h'.order, hl.order, ← hprice, ← h'.limit l]
  · rw [hl.queue, Function.update_self]
    exact List.getLast?_concat
  · rw [h'.orders, h'.order, hl.order, horders]
    exact AList.lookup_insert _

/-- **One `add_order`** of positive quantity, under an id that has no entry. -/
theorem Refines.placement {now : ℤ} (h : Refines s L) (hpos : L.Positive) (ha : 0 < a.qty)
    (hid : L.orders.lookup a.id = none) (h' : Refines s' (L.step (.add now a)).1) :
    ∃ status, (L.step (.add now a)).2 = some status ∧ Placement s s' a L.nextOrder status := by
  have hkeeps : (s'.order L.nextOrder).Keeps a.toData := by
    rw [h'.order]
    exact (h.wf.stepFrame (r := .add now a) rfl).new a rfl
  have hparks : s.parks a = (L.receive a).isParked L.nextOrder := h.parks a
  by_cases hpark : (L.receive a).isParked L.nextOrder = true
  · -- parked
    have hyes : s.parks a ≠ false := by simp [hparks, hpark]
    rw [Ledger.step_add, if_pos hpark] at h'
    refine ⟨.accepted, by rw [Ledger.step_add, if_pos hpark], ?_⟩
    exact
      { keeps := hkeeps
        parked := fun _ => ⟨rfl, h.parkedIn h'⟩
        matched_iff := fun hno => absurd hno hyes
        matched := fun hno => absurd hno hyes
        refused_iff := fun hno => absurd hno hyes
        refused := fun hno => absurd hno hyes
        accepted_iff := fun hno => absurd hno hyes
        accepted := fun hno => absurd hno hyes }
  · have hno : (L.receive a).isParked L.nextOrder = false := by simpa using hpark
    have hnot : s.parks a ≠ true := by simp [hparks, hno]
    have hfok : a.toData.activated.refuses = a.toData.activated.hasParam .fok :=
      (OrderData.hasParam_fok _).symm
    have hout := h.wf.nowhere_matched hid
    rcases hpos.step_add_cases h.wf now ha hno with ⟨hstep, -, hzero⟩ | ⟨-, hleft, hstep⟩
    · -- filled
      rw [hstep] at h' ⊢
      have hqty : (s'.order L.nextOrder).currentQty = 0 := (h'.qty _).trans hzero
      refine ⟨.matched, rfl, hkeeps, fun hp => absurd hp hnot, fun _ => ?_, fun _ _ => ?_,
        fun _ => ?_, fun _ hs => ?_, fun _ => ?_, fun _ hs => ?_⟩
      · exact iff_of_true rfl hqty
      · exact h'.nowhere hout
      · exact iff_of_false (by simp) (by simp [hqty])
      · exact absurd hs (by simp)
      · exact iff_of_false (by simp) (by simp [hqty])
      · exact absurd hs (by simp)
    · by_cases hrefuse : a.toData.activated.hasParam .fok = true
      · -- refused
        rw [if_pos hrefuse] at hstep
        rw [hstep] at h' ⊢
        have hqty : 0 < (s'.order L.nextOrder).currentQty := by
          rw [h'.qty, Ledger.qty_cancel]
          exact hleft
        refine ⟨.notMatched, rfl, hkeeps, fun hp => absurd hp hnot, fun _ => ?_, fun _ hs => ?_,
          fun _ => ?_, fun _ _ => ⟨?_, ?_⟩, fun _ => ?_, fun _ hs => ?_⟩
        · exact iff_of_false (by simp) hqty.ne'
        · exact absurd hs (by simp)
        · exact iff_of_true rfl ⟨hqty, hfok.trans hrefuse⟩
        · rw [h'.order, Ledger.updateData_order, Function.update_self]
          rfl
        · exact h'.nowhere (hout.cancel _)
        · exact iff_of_false (by simp) fun hacc => hacc.2 ⟨hqty, hfok.trans hrefuse⟩
        · exact absurd hs (by simp)
      · -- at rest
        rw [if_neg hrefuse] at hstep
        rw [hstep] at h' ⊢
        have hqty : 0 < (s'.order L.nextOrder).currentQty := by
          rw [h'.qty, (Ledger.Still.restOrder _ _).qty]
          exact hleft
        have hstays : ¬ (0 < (s'.order L.nextOrder).currentQty ∧
            a.toData.activated.refuses = true) := fun hr => hrefuse (hfok.symm.trans hr.2)
        refine ⟨.accepted, rfl, hkeeps, fun hp => absurd hp hnot, fun _ => ?_, fun _ hs => ?_,
          fun _ => ?_, fun _ hs => ?_, fun _ => ?_, fun _ _ => ?_⟩
        · exact iff_of_false (by simp) hqty.ne'
        · exact absurd hs (by simp)
        · exact iff_of_false (by simp) hstays
        · exact absurd hs (by simp)
        · exact iff_of_true rfl ⟨hqty.ne', hstays⟩
        · exact Refines.restsLast (h.wf.matched a) hout.stops h'

end Books

/-- **A run of sound requests with distinct ids**, read as a ledger; the ids of the requests
that are still to come have no entry and are those of no order that is held. -/
theorem exists_tracked_run (instrument : String) (marketPrice : ℚ) {rs more : List Request}
    (hrs : ∀ r ∈ rs, r.Sound) (hids : (OrderBook.addedIds (rs ++ more)).Nodup) :
    ∃ s answers L, runAll OrderBook.step (.empty instrument marketPrice) rs = .ok (s, answers) ∧
      Refines s L ∧ L.Tidy ∧ L.Positive ∧ L.Tracked (OrderBook.addedIds more) := by
  obtain ⟨s, answers, L, hrun, hL, htidy, hpos, htracked, -⟩ :=
    (refines_empty instrument marketPrice).run_rule
      (J := fun L rest => L.Tidy ∧ L.Positive ∧ L.Tracked (OrderBook.addedIds (rest ++ more)) ∧
        (OrderBook.addedIds (rest ++ more)).Nodup)
      (fun _ _ _ _ _ hJ hr => ⟨hJ.1.step hr.keepsOrders, hJ.2.1.step hJ.1.wf hr,
        Ledger.Tracked.step_next hr.keepsOrders hJ.2.2⟩)
      ⟨Ledger.tidy_empty instrument marketPrice,
        fun _ _ ho => absurd ho (by simp [Ledger.empty]),
        Ledger.tracked_empty instrument marketPrice _, hids⟩ (meets_of_forall hrs _)
  exact ⟨s, answers, L, hrun, hL, htidy, hpos, htracked⟩

/-- **The placement and the status of a new order**: after any run of new orders of positive
quantity with distinct ids, cancellations and checks of dates, adding one more order under a
new id, of any type and with any flags, does not fault, and the order ends where its status
says. -/
theorem addOrder_placement (instrument : String) (marketPrice : ℚ) {rs : List Request}
    (hrs : ∀ r ∈ rs, r.Sound) (now : ℤ) {a : OrderArgs} (ha : 0 < a.qty)
    (hids : (OrderBook.addedIds (rs ++ [.add now a])).Nodup) :
    ∃ s answers s' status,
      runAll OrderBook.step (.empty instrument marketPrice) rs = .ok (s, answers) ∧
      s.step (.add now a) = .ok (s', some status) ∧ Placement s s' a s.nextOrder status := by
  obtain ⟨s, answers, L, hrun, hL, -, hpos, htracked⟩ :=
    exists_tracked_run instrument marketPrice hrs hids
  obtain ⟨s', hs', hL'⟩ := hL.step (.add now a)
  have hid : L.orders.lookup a.id = none := (htracked.fresh a.id (by simp [OrderBook.addedIds])).1
  obtain ⟨status, hstatus, hplace⟩ := hL.placement hpos ha hid hL'
  rw [hstatus] at hs'
  rw [← hL.nextOrder] at hplace
  exact ⟨s, answers, s', status, hrun, hs', hplace⟩

/-- A bid for more than rests on the other side, which comes to rest. -/
theorem addOrder_placement_bid : (0 : ℚ) < 7 ∧ ["a", "b"].Nodup ∧ ∃ s answers s' status,
    runAll OrderBook.step (.empty "X" 10) [.add 0 (.limit "a" .sell 5 10)] = .ok (s, answers) ∧
    s.step (.add 0 (.limit "b" .buy 7 10)) = .ok (s', some status) ∧
    Placement s s' (.limit "b" .buy 7 10) s.nextOrder status :=
  ⟨by norm_num, by decide, addOrder_placement "X" 10 (by simp [Request.Sound, OrderArgs.limit]) 0
    (by norm_num [OrderArgs.limit]) (by decide)⟩

end LimitOrderBook
