import LimitOrderBook.Ledger.Arrivals
import LimitOrderBook.Ledger.InPlace
import LimitOrderBook.Ledger.Reach

/-!
# What a request leaves behind

Two things the code around a book depends on: which orders a request hands to the order
repository (`LimitOrderBook.Ledger.step_add_orderQueue`,
`LimitOrderBook.Ledger.cancelOrder_orderQueue`), and which orders are live after it. A new
order is live exactly if it is parked, or neither filled nor refused
(`LimitOrderBook.Ledger.new_mem_live_iff`), which can be told from the book before
(`LimitOrderBook.OrderBook.stays`).
-/

namespace LimitOrderBook

open OrderBook (Request)

/-- **A new order stays** in the book: it is parked, or it is not filled by the levels it comes
to and does not ask to be filled at once. -/
def OrderBook.stays (s : OrderBook) (a : OrderArgs) : Bool :=
  s.parks a || (!a.toData.activated.hasParam .fok && (s.reaches a).all fun r =>
    remaining (a.toData.activated.hasParam .aon) r.2 (s.holding r.1) ≠ 0)

namespace Ledger

variable {L L' : Ledger} {o : ℕ} {r : Request}

/-! ### The queue of the repository -/

theorem addLimitOrder_orderQueue (L : Ledger) (o limit : ℕ) (b : Bool) :
    (L.addLimitOrder o limit b).orderQueue = L.orderQueue := by
  rw [addLimitOrder]
  split <;> rfl

theorem addDateOrder_orderQueue (L : Ledger) (o : ℕ) :
    (L.addDateOrder o).orderQueue = L.orderQueue := by
  rw [addDateOrder]
  split <;> rfl

theorem settle_orderQueue (L : Ledger) (o : ℕ) (filled : Bool) :
    (L.settle o filled).1.orderQueue = L.orderQueue := by
  rw [settle]
  split
  · rfl
  · split
    · rfl
    · rw [restOrder, addDateOrder_orderQueue]
      exact addLimitOrder_orderQueue _ _ _ _

/-- **`add_order` hands its order to the repository**, once. -/
theorem addOrder_orderQueue (L : Ledger) (o : ℕ) :
    (L.addOrder o).1.orderQueue = L.orderQueue ++ [o] := by
  simp only [addOrder]
  split
  · exact addDateOrder_orderQueue _ _
  · rw [settle_orderQueue]
    exact (MatchFrame.matchLimits _ _).orderQueue

/-- The same for a new order. -/
theorem step_add_orderQueue (L : Ledger) (now : ℤ) (a : OrderArgs) :
    (L.step (.add now a)).1.orderQueue = L.orderQueue ++ [L.nextOrder] :=
  addOrder_orderQueue (L.allocOrder a.toData) L.nextOrder

theorem removeOrder_orderQueue (L : Ledger) (o : ℕ) :
    (L.removeOrder o).orderQueue = L.orderQueue := by
  rw [removeOrder, removeLimitOrder]
  split
  · rfl
  · split <;> rfl

/-- `cancel_order` hands the order that it cancels to the repository. -/
theorem cancelOrder_orderQueue (L : Ledger) (id : String) :
    (L.cancelOrder id).1.orderQueue = L.orderQueue ++ (L.orders.lookup id).toList := by
  rw [cancelOrder]
  split
  · next he => rw [he, Option.toList_none, List.append_nil]
  · next e he =>
    rw [enqueueOrder_orderQueue, removeOrder_orderQueue, he]
    rfl

/-- The constructor hands nothing to the repository. -/
theorem recover_orderQueue (instrument : String) (marketPrice : ℚ) (repository : List OrderData) :
    ((empty instrument marketPrice).recover repository).orderQueue = [] := by
  have hrecover : ∀ (repository : List OrderData) (L : Ledger),
      (L.recover repository).orderQueue = L.orderQueue := by
    intro repository
    induction repository with
    | nil => exact fun L => rfl
    | cons x rest ih =>
      intro L
      rw [recover, ih, recoverOrder]
      split
      · rfl
      · exact addLimitOrder_orderQueue _ _ _ _
  exact hrecover repository _

/-! ### Live orders -/

theorem mem_live_of_mem_queue (h : L.InPlace) {l : ℕ} (ho : o ∈ L.queue l) : o ∈ L.live :=
  h.mem_live_iff.mpr (Or.inl ⟨l, ho⟩)

theorem mem_live_of_mem_stops {b : Bool} (ho : o ∈ L.stops b) : o ∈ L.live :=
  mem_live.mpr (Or.inr ⟨b, ho⟩)

theorem WellFormed.live_lt (h : L.WellFormed) (ho : o ∈ L.live) : o < L.nextOrder := by
  rcases mem_live.mp ho with ⟨b, hb⟩ | ⟨b, hb⟩
  · obtain ⟨l, -, hl⟩ := mem_resting.mp hb
    exact h.queue_lt l o hl
  · exact h.stops_lt b o hb

/-- **An order that is live after a request** was so before, or is the new one. -/
theorem InPlace.mem_live_step (h : L.InPlace) (hr : r.keepsOrders = true)
    (ho : o ∈ (L.step r).1.live) :
    o ∈ L.live ∨ r.newOrder.isSome = true ∧ o = L.nextOrder := by
  have hf := h.wf.stepFrame hr
  rcases (h.step hr).mem_live_iff.mp ho with ⟨l, hl⟩ | ⟨b, hb⟩
  · obtain ⟨q, hsub, hq | ⟨hnew, hq⟩⟩ := hf.queue l
    · rw [hq] at hl
      exact Or.inl (mem_live_of_mem_queue h (hsub.subset hl))
    · rw [hq, List.mem_append, List.mem_singleton] at hl
      exact hl.imp (fun hl => mem_live_of_mem_queue h (hsub.subset hl)) fun hl => ⟨hnew, hl⟩
  · rcases hf.stops b o hb with hb | ⟨hnew, ho, -⟩
    · exact Or.inl (mem_live_of_mem_stops hb)
    · exact Or.inr ⟨hnew, ho⟩

/-- **The new order is live** if it is parked, or neither filled nor refused. -/
theorem InPlace.new_mem_live_iff (h : L.InPlace) (now : ℤ) (a : OrderArgs) :
    L.nextOrder ∈ (L.step (.add now a)).1.live ↔
      (L.receive a).isParked L.nextOrder = true ∨
        a.toData.activated.hasParam .fok = false ∧ (L.matched a).2 = false := by
  have hframe : MatchFrame (L.activate a) (L.matched a).1 := .matchLimits _ _
  have hfresh := (h.wf.fresh_activate a).of_frame hframe
  have hdata : ((L.matched a).1.order L.nextOrder).hasParam .fok =
      a.toData.activated.hasParam .fok := by
    rw [hframe.hasParam, activate_order_new]
  -- an order that matching has just let go of is not live
  have hout : ∀ L' : Ledger, L'.queue = (L.matched a).1.queue → L'.stops = (L.matched a).1.stops →
      L'.InPlace → L.nextOrder ∉ L'.live := by
    intro L' hq hs h' hmem
    rcases h'.mem_live_iff.mp hmem with ⟨l, hl⟩ | ⟨b, hb⟩
    · rw [hq] at hl
      exact hfresh.queue l hl
    · rw [hs] at hb
      exact hfresh.stops b hb
  rw [step_add]
  split
  · next hpark =>
    refine iff_of_true (mem_live.mpr (Or.inr ⟨((L.receive a).order L.nextOrder).isBuy, ?_⟩))
      (Or.inl hpark)
    exact (h.wf.receive a).mem_stops_parkOrder L.nextOrder
  · next hpark =>
    rw [or_iff_right hpark, Ledger.settle]
    split
    · next hfilled =>
      exact iff_of_false (hout _ rfl rfl (h.matched a)) (by simp [hfilled])
    · next hfilled =>
      split
      · next hfok =>
        refine iff_of_false (hout _ rfl rfl ((h.matched a).updateData .cancel)) ?_
        rw [hdata] at hfok
        simp [hfok]
      · next hfok =>
        obtain ⟨l, hl, -, -⟩ := (h.matched a).wf.restOrder L.nextOrder
        refine iff_of_true (mem_live_of_mem_queue ((h.matched a).restOrder hfresh)
          (hl.mem_queue.mpr (Or.inl ⟨rfl, rfl⟩))) ⟨?_, by simpa using hfilled⟩
        rw [← hdata]
        simpa using hfok

end Ledger

/-- Whether a new order stays is seen from the ledger. -/
theorem Refines.stays_iff {s : OrderBook} {L : Ledger} (h : Refines s L) (a : OrderArgs) :
    s.stays a = true ↔ (L.receive a).isParked L.nextOrder = true ∨
      a.toData.activated.hasParam .fok = false ∧ (L.matched a).2 = false := by
  have hfilled : (L.matched a).2 = false ↔
      ∀ r ∈ L.reaches a, remaining (a.toData.activated.hasParam .aon) r.2 (L.holding r.1) ≠ 0 := by
    rw [← Bool.not_eq_true, (h.wf.matched_reaches a).filled]
    push Not
    rfl
  rw [OrderBook.stays, Bool.or_eq_true, h.parks, Bool.and_eq_true, h.reaches, h.holding,
    List.all_eq_true, hfilled]
  simp

/-- The id of an order has no part in what becomes of its flags. -/
theorem OrderData.activated_withId (x : OrderData) (id : String) :
    OrderData.activated { x with id := id } = { x.activated with id := id } := by
  unfold OrderData.activated
  change (if (x.hasParam .stop && decide (x.type = .market)) = true then _ else _) = _
  split <;> rfl

/-- The id of a new order has no part in whether it stays. -/
theorem OrderBook.stays_id (s : OrderBook) (a : OrderArgs) (id : String) :
    s.stays { a with id := id } = s.stays a := by
  have hdata : ({ a with id := id } : OrderArgs).toData.activated =
      { a.toData.activated with id := id } := OrderData.activated_withId a.toData id
  have hreach : s.reaches { a with id := id } = s.reaches a := by
    rw [reaches, hdata]
    exact Ledger.reached_congr (x := { a.toData.activated with id := id })
      (y := a.toData.activated) (fun _ => rfl) rfl (fun _ _ => ⟨rfl, rfl⟩) _
  rw [stays, hreach, hdata]
  rfl

end LimitOrderBook
