import LimitOrderBook.Ledger.Quantities

/-!
# Conservation of quantity

In a run of new orders of positive quantity, cancellations and checks of dates, an
`add_order` only moves quantity between the new order and the orders that rest on
the opposite side (`LimitOrderBook.addOrder_conserves`).
-/

namespace LimitOrderBook

open OrderBook (Request)

namespace Ledger

variable {L : Ledger}

/-- **One `add_order`** takes from the opposite side what the new order loses, and
changes the quantity of no other order. -/
theorem Positive.step_add_balance (h : L.Positive) (hwf : L.WellFormed) (now : ℤ) {a : OrderArgs}
    (ha : 0 < a.qty) :
    a.qty - (L.step (.add now a)).1.qty L.nextOrder =
        ((L.resting !a.toData.isBuy).map fun x => L.qty x - (L.step (.add now a)).1.qty x).sum ∧
      ∀ x < L.nextOrder, x ∉ L.resting (!a.toData.isBuy) →
        (L.step (.add now a)).1.qty x = L.qty x := by
  have hold : ∀ x ∈ L.resting (!a.toData.isBuy), x < L.nextOrder := by
    intro x hx
    obtain ⟨l, -, hl⟩ := mem_resting.mp hx
    exact hwf.queue_lt l x hl
  rw [step_add]
  split
  · -- the order is parked
    have hnew : ((L.receive a).parkOrder L.nextOrder).qty L.nextOrder = a.qty := by
      rw [(Still.parkOrder _ _).qty, qty, receive_order_new]
      rfl
    have hsame : ∀ x < L.nextOrder, ((L.receive a).parkOrder L.nextOrder).qty x = L.qty x := by
      intro x hx
      rw [(Still.parkOrder _ _).qty, qty, receive_order hx]
      rfl
    refine ⟨?_, fun x hx _ => hsame x hx⟩
    rw [hnew, sub_self, List.map_congr_left fun x hx => by rw [hsame x (hold x hx), sub_self]]
    simp
  · obtain ⟨htraded, -⟩ := h.matched hwf ha
    have hsame : ∀ x < L.nextOrder, (L.activate a).qty x = L.qty x := by
      intro x hx
      rw [qty, activate_order hx]
      rfl
    have hresting : (L.activate a).resting (!a.toData.isBuy) = L.resting (!a.toData.isBuy) := rfl
    have hbalance := htraded.balance
    rw [hresting, activate_qty_new, List.map_congr_left fun x hx => hsame x (hold x hx)] at hbalance
    simp only [(Still.settle _ _ _).qty]
    refine ⟨?_, fun x hx hxr => ?_⟩
    · have hsum : ((L.resting !a.toData.isBuy).map L.qty).sum =
          ((L.resting !a.toData.isBuy).map fun x => L.qty x - (L.matched a).1.qty x).sum +
            ((L.resting !a.toData.isBuy).map (L.matched a).1.qty).sum := by
        rw [← List.sum_map_add]
        simp
      linarith
    · rw [htraded.unchanged x (ne_of_lt hx) (by rwa [hresting]), hsame x hx]

end Ledger

/-- The quantities before and after an `add_order` of the order `a`: the new order
has lost what the orders on the opposite side have lost, all other orders – those
on its side, the parked ones, the ones that have left the book – are as before, and
nothing that rests is used up. -/
structure Conserved (s s' : OrderBook) (a : OrderArgs) : Prop where
  balance : ∃ opposite, s.getOrders (!a.toData.isBuy) = .ok opposite ∧
    a.qty - (s'.order s.nextOrder).currentQty =
      (opposite.map fun x => (s.order x).currentQty - (s'.order x).currentQty).sum ∧
    ∀ x < s.nextOrder, x ∉ opposite → (s'.order x).currentQty = (s.order x).currentQty
  sameSide : ∃ same, s.getOrders a.toData.isBuy = .ok same ∧
    ∀ x ∈ same, (s'.order x).currentQty = (s.order x).currentQty
  parked : ∀ b, ∃ stops, (s.stopOrders b).keys = .ok stops ∧
    ∀ x ∈ stops, (s'.order x).currentQty = (s.order x).currentQty
  resting : ∀ l, ∃ queue, s'.ordersAt l = .ok queue ∧ ∀ x ∈ queue, 0 < (s'.order x).currentQty

/-- **Quantity is conserved**: after any run of new orders of positive quantity,
cancellations and checks of dates, adding one more order, of any type and with any
flags, does not fault and only moves quantity between it and the opposite side. -/
theorem addOrder_conserves (instrument : String) (marketPrice : ℚ) {rs : List Request}
    (hrs : ∀ r ∈ rs, r.Sound) (now : ℤ) {a : OrderArgs} (ha : 0 < a.qty) :
    ∃ s answers s' status,
      runAll OrderBook.step (.empty instrument marketPrice) rs = .ok (s, answers) ∧
      s.step (.add now a) = .ok (s', some status) ∧ Conserved s s' a := by
  obtain ⟨s, answers, L, hrun, hL, htidy, hpos⟩ := exists_sound_run instrument marketPrice hrs
  obtain ⟨s', hs', hL'⟩ := hL.step (.add now a)
  obtain ⟨hbalance, hsame⟩ := hpos.step_add_balance htidy.wf now ha
  have hpos' := hpos.step htidy.wf (r := .add now a) ha
  have hunchanged : ∀ x < L.nextOrder, x ∉ L.resting (!a.toData.isBuy) →
      (s'.order x).currentQty = (s.order x).currentQty := by
    intro x hx hxr
    rw [hL'.qty, hL.qty]
    exact hsame x hx hxr
  refine ⟨s, answers, s', _, hrun, hs', ⟨⟨_, hL.getOrders _, ?_, ?_⟩, ⟨_, hL.getOrders _, ?_⟩,
    fun b => ⟨_, hL.getStopOrders b, ?_⟩, fun l => ⟨_, hL'.ordersAt l, ?_⟩⟩⟩
  · simp only [hL'.qty, hL.qty, hL.nextOrder]
    exact hbalance
  · rw [hL.nextOrder]
    exact hunchanged
  · intro x hx
    obtain ⟨hside, l, hl⟩ := htidy.inPlace.mem_resting_iff.mp hx
    refine hunchanged x (htidy.wf.queue_lt l x hl) fun hx' => ?_
    have hside' := (htidy.inPlace.mem_resting_iff.mp hx').1
    rw [hside] at hside'
    exact absurd hside' (by simp)
  · intro x hx
    refine hunchanged x (htidy.wf.stops_lt b x hx) fun hx' => ?_
    obtain ⟨-, l, hl⟩ := htidy.inPlace.mem_resting_iff.mp hx'
    exact htidy.parked b x hx l hl
  · intro x hx
    rw [hL'.qty]
    exact hpos' l x hx

/-- A bid that takes a resting ask and comes to rest. -/
theorem addOrder_conserves_bid : (0 : ℚ) < 7 ∧ ∃ s answers s' status,
    runAll OrderBook.step (.empty "X" 10) [.add 0 (.limit "a" .sell 5 10)] = .ok (s, answers) ∧
    s.step (.add 0 (.limit "b" .buy 7 10)) = .ok (s', some status) ∧
    Conserved s s' (.limit "b" .buy 7 10) :=
  ⟨by norm_num, addOrder_conserves "X" 10 (by simp [Request.Sound, OrderArgs.limit]) 0
    (by norm_num [OrderArgs.limit])⟩

end LimitOrderBook
