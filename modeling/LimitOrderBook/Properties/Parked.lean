import LimitOrderBook.Properties.Stops

/-!
# Parked orders are kept

The stop trees are sets under a comparator that looks at the price and at the timestamp, in
seconds, and an insertion replaces an equivalent key. So a stop order that is parked takes the
place of one of its side with the same price and timestamp. A parked order is not in the index;
but the index can hold a stop order that was processed immediately and rests, and cancelling
that one takes an equivalent order out of a stop tree.

`LimitOrderBook.Parking` is a book with the list of the orders that were parked and should
still be there, and `LimitOrderBook.parkedKept_iff` says when they are.
-/

namespace LimitOrderBook

open OrderBook (Request)

/-- A book, with the orders that `add_order` parked and that have since not been cancelled.
Nothing in the source activates a parked order. -/
structure Parking where
  book : OrderBook
  parked : List ℕ

/-- An order to add, or an id to cancel. -/
def OrderBook.Request.addsOrCancels : Request → Bool
  | .add _ _ => true
  | .cancel _ => true
  | _ => false

theorem OrderBook.Request.keepsOrders_of_addsOrCancels {r : Request}
    (h : r.addsOrCancels = true) : r.keepsOrders = true := by
  cases r with
  | modify a => exact absurd h (by simp [addsOrCancels])
  | _ => rfl

namespace Parking

/-- The orders that are parked after a request and its answer. -/
def after (p : Parking) : Request → Option OrderStatus → List ℕ
  | .add _ a, _ => if p.book.parks a then p.parked ++ [p.book.nextOrder] else p.parked
  | .cancel id, answer =>
    if answer = some .cancelled then p.parked.filter fun o => (p.book.order o).id ≠ id
    else p.parked
  | _, _ => p.parked

/-- One call. -/
def step (p : Parking) (r : Request) : Except Fault (Parking × Option OrderStatus) := do
  let (s, answer) ← p.book.step r
  .ok (⟨s, p.after r answer⟩, answer)

/-- **The two stop trees together have every parked order**, exactly once. -/
def Kept (p : Parking) : Prop :=
  ∃ bids asks, p.book.getBidStopOrders = .ok bids ∧ p.book.getAskStopOrders = .ok asks ∧
    ∀ o ∈ p.parked, (bids ++ asks).count o = 1

/-- An order is in the way of a parked one: it has the same side, price and timestamp. -/
def Clashes (p : Parking) (x : OrderData) (o : ℕ) : Prop :=
  (p.book.order o).isBuy = x.isBuy ∧ (p.book.order o).price = x.price ∧
    (p.book.order o).timestamp = x.timestamp

/-- A new order that is parked is in the way of no parked order; nor is a stop order of the
index that is cancelled. -/
def keeps (p : Parking) : Request → Prop
  | .add _ a => p.book.parks a = true → ∀ o ∈ p.parked, ¬ p.Clashes a.toData o
  | .cancel id => ∀ e, p.book.orders.lookup id = some e → (p.book.order e).hasParam .stop = true →
      ∀ o ∈ p.parked, (p.book.order o).id ≠ id → ¬ p.Clashes (p.book.order e).toOrderData o
  | _ => True

end Parking

namespace Ledger

variable {L L' : Ledger} {ps : List ℕ}

/-- The parked orders of a list are those of the ledger. -/
def HasParked (L : Ledger) (ps : List ℕ) : Prop := ∀ o ∈ ps, o ∈ L.stops (L.order o).isBuy

theorem HasParked.lt (h : L.HasParked ps) (hwf : L.WellFormed) {o : ℕ} (ho : o ∈ ps) :
    o < L.nextOrder :=
  hwf.stops_lt _ o (h o ho)

/-- A parked order is in one stop tree, once. -/
theorem WellFormed.count_stops (h : L.WellFormed) (hside : L.Sided) (o : ℕ) :
    (L.stops true ++ L.stops false).count o = 1 ↔ o ∈ L.stops (L.order o).isBuy := by
  have hnd : ∀ b, (L.stops b).Nodup := fun b =>
    (h.stops_sorted b).nodup (L.stopLess_strictWeak b)
  have hnd' : (L.stops true ++ L.stops false).Nodup := by
    refine List.nodup_append.mpr ⟨hnd true, hnd false, fun x hx y hy hxy => ?_⟩
    have hb := hside true x hx
    rw [hxy, hside false y hy] at hb
    exact absurd hb (by simp)
  have hmem : o ∈ L.stops true ++ L.stops false ↔ o ∈ L.stops (L.order o).isBuy := by
    rw [List.mem_append]
    constructor
    · rintro (ho | ho)
      · rwa [hside true o ho]
      · rwa [hside false o ho]
    · cases (L.order o).isBuy with
      | true => exact Or.inl
      | false => exact Or.inr
  rw [← hmem]
  exact ⟨fun hcount => List.count_pos_iff.mp (by omega), List.count_eq_one_of_mem hnd'⟩

/-! ### One request -/

/-- **Parking an order** keeps the others exactly if none of them has its side, price and
timestamp. -/
theorem HasParked.parkOrder (h : L.HasParked ps) (hwf : L.WellFormed) {n : ℕ}
    (hn : n ∉ ps) : (L.parkOrder n).HasParked (ps ++ [n]) ↔ ∀ o ∈ ps,
      ¬ ((L.order o).isBuy = (L.order n).isBuy ∧ (L.order o).price = (L.order n).price ∧
        (L.order o).timestamp = (L.order n).timestamp) := by
  obtain ⟨dates, hdates⟩ := L.parkOrder_eq n
  have hstops : (L.parkOrder n).stops = (L.addStopOrder n (L.order n).isBuy).stops := by
    rw [hdates]
    rfl
  have hself : n ∈ (L.addStopOrder n (L.order n).isBuy).stops (L.order n).isBuy :=
    hstops ▸ hwf.mem_stops_parkOrder n
  have hold : ∀ o ∈ ps, o ∈ (L.addStopOrder n (L.order n).isBuy).stops (L.order o).isBuy ↔
      ¬ ((L.order o).isBuy = (L.order n).isBuy ∧ (L.order o).price = (L.order n).price ∧
        (L.order o).timestamp = (L.order n).timestamp) := fun o ho => by
    rw [addStopOrder_stops]
    by_cases hb : (L.order o).isBuy = (L.order n).isBuy
    · rw [hb, Function.update_self, mem_insertKey (L.stopLess_strictWeak _) (hwf.stops_sorted _),
        stopLess_equiv, or_iff_right fun he : o = n => hn (he ▸ ho)]
      refine (and_iff_right (hb ▸ h o ho)).trans (not_congr ?_)
      exact ⟨fun he => ⟨rfl, he.1.symm, he.2.symm⟩, fun he => ⟨he.2.1.symm, he.2.2.symm⟩⟩
    · rw [Function.update_of_ne hb]
      exact iff_of_true (h o ho) fun he => hb he.1
  rw [HasParked, parkOrder_order, hstops]
  constructor
  · exact fun hkept o ho => (hold o ho).mp (hkept o (List.mem_append_left _ ho))
  · intro hfree o ho
    rcases List.mem_append.mp ho with ho | ho
    · exact (hold o ho).mpr (hfree o ho)
    · rw [List.mem_singleton.mp ho]
      exact hself

/-- **Cancelling a stop order** keeps the parked orders exactly if none of them has its side,
price and timestamp. -/
theorem HasParked.removeStopOrder (h : L.HasParked ps) (hwf : L.WellFormed) (e : ℕ) :
    (L.removeStopOrder e).HasParked ps ↔ ∀ o ∈ ps,
      ¬ ((L.order o).isBuy = (L.order e).isBuy ∧ (L.order o).price = (L.order e).price ∧
        (L.order o).timestamp = (L.order e).timestamp) := by
  refine forall₂_congr fun o ho => ?_
  rw [removeStopOrder_stops, removeStopOrder_order]
  by_cases hb : (L.order o).isBuy = (L.order e).isBuy
  · rw [hb, Function.update_self, mem_eraseKey (L.stopLess_strictWeak _) (hwf.stops_sorted _),
      stopLess_equiv]
    refine (and_iff_right (hb ▸ h o ho)).trans (not_congr ?_)
    exact ⟨fun he => ⟨rfl, he.1.symm, he.2.symm⟩, fun he => ⟨he.2.1.symm, he.2.2.symm⟩⟩
  · rw [Function.update_of_ne hb]
    exact iff_of_true (h o ho) fun he => hb he.1

/-- The parked orders stay when the stop trees do and no order changes its side. -/
theorem HasParked.of_eq (h : L.HasParked ps) (hstops : L'.stops = L.stops)
    (hkeep : ∀ o ∈ ps, (L'.order o).isBuy = (L.order o).isBuy) : L'.HasParked ps := fun o ho => by
  rw [hstops, hkeep o ho]
  exact h o ho

theorem HasParked.mono {ps' : List ℕ} (h : L.HasParked ps) (hsub : ps' ⊆ ps) : L.HasParked ps' :=
  fun o ho => h o (hsub ho)

/-- **A cancellation** keeps the parked orders that have another id exactly if it is not for a
stop order with the side, price and timestamp of one of them. -/
theorem HasParked.cancelOrder (h : L.HasParked ps) (hwf : L.WellFormed) (id : String) :
    (L.cancelOrder id).1.HasParked (if (L.cancelOrder id).2 = .cancelled then
        ps.filter fun o => (L.order o).id ≠ id else ps) ↔
      ∀ e, L.orders.lookup id = some e → (L.order e).hasParam .stop = true →
        ∀ o ∈ ps, (L.order o).id ≠ id → ¬ ((L.order o).isBuy = (L.order e).isBuy ∧
          (L.order o).price = (L.order e).price ∧
          (L.order o).timestamp = (L.order e).timestamp) := by
  have hfilter : L.HasParked (ps.filter fun o => (L.order o).id ≠ id) :=
    h.mono fun o ho => (List.mem_filter.mp ho).1
  have hkeep : ∀ e x, ((L.updateData e .cancel).order x).Keeps (L.order x) := fun e =>
    L.keeps_updateData e .cancel
  have hcancel : ∀ e ps', L.HasParked ps' → (L.updateData e .cancel).HasParked ps' :=
    fun e ps' h' => h'.of_eq rfl fun o _ => (hkeep e o).isBuy
  rcases hwf.cancelOrder_cases id with ⟨hnone, he⟩ | ⟨e, hlook, hstop, he⟩ |
    ⟨e, l, hlook, hstop, -, he⟩
  · rw [he]
    exact iff_of_true h fun e hlook => absurd hlook (by simp [hnone])
  · have hremove := (hcancel e _ hfilter).removeStopOrder (hwf.updateData (o := e) .cancel) e
    rw [he, if_pos rfl, hlook]
    refine hremove.trans ?_
    simp only [List.mem_filter, (hkeep e _).isBuy, (hkeep e _).price, (hkeep e _).timestamp,
      decide_eq_true_eq, and_imp]
    constructor
    · intro hclash e' he' _
      obtain rfl := Option.some.inj he'
      exact hclash
    · exact fun hclash => hclash e rfl hstop
  · rw [he, if_pos rfl, hlook]
    refine iff_of_true ((hcancel e _ hfilter).of_eq rfl fun o _ => rfl) ?_
    intro e' he' hstop'
    obtain rfl := Option.some.inj he'
    rw [hstop] at hstop'
    exact absurd hstop' (by simp)

end Ledger

/-- What the parked orders of a ledger mean for the book. -/
theorem Refines.kept_iff {p : Parking} {L : Ledger} (h : Refines p.book L) (hside : L.Sided) :
    p.Kept ↔ L.HasParked p.parked := by
  have hbids : p.book.getBidStopOrders = .ok (L.stops true) := (h.stops true).keys
  have hasks : p.book.getAskStopOrders = .ok (L.stops false) := (h.stops false).keys
  constructor
  · rintro ⟨bids, asks, hb, ha, hcount⟩ o ho
    rw [hbids, Except.ok.injEq] at hb
    rw [hasks, Except.ok.injEq] at ha
    subst hb ha
    exact (h.wf.count_stops hside o).mp (hcount o ho)
  · exact fun hp => ⟨_, _, hbids, hasks, fun o ho => (h.wf.count_stops hside o).mpr (hp o ho)⟩

theorem Refines.clashes {p : Parking} {L : Ledger} (h : Refines p.book L) (x : OrderData) (o : ℕ) :
    p.Clashes x o ↔ (L.order o).isBuy = x.isBuy ∧ (L.order o).price = x.price ∧
      (L.order o).timestamp = x.timestamp := by
  rw [Parking.Clashes, h.order]

/-- **One request** keeps the parked orders exactly under the condition. -/
theorem Refines.parking_step {p : Parking} {L : Ledger} {r : Request} (h : Refines p.book L)
    (hr : r.addsOrCancels = true) (hp : L.HasParked p.parked) :
    (L.step r).1.HasParked (p.after r (L.step r).2) ↔ p.keeps r := by
  have hf := h.wf.stepFrame (OrderBook.Request.keepsOrders_of_addsOrCancels hr)
  have hkeep : ∀ o ∈ p.parked, ((L.step r).1.order o).isBuy = (L.order o).isBuy := fun o ho =>
    (hf.keeps o (hp.lt h.wf ho)).isBuy
  cases r with
  | add now a =>
    have hreceive : (L.receive a).HasParked p.parked := fun o ho => by
      rw [Ledger.receive_order (hp.lt h.wf ho)]
      exact hp o ho
    rw [Parking.after, Parking.keeps, h.parks, h.nextOrder]
    rw [Ledger.step_add] at hkeep ⊢
    by_cases hpark : (L.receive a).isParked L.nextOrder = true
    · rw [if_pos hpark] at hkeep ⊢
      rw [if_pos hpark, hreceive.parkOrder (h.wf.receive a) fun hn =>
        absurd (hp.lt h.wf hn) (lt_irrefl _), Ledger.receive_order_new]
      rw [forall_prop_of_true hpark]
      refine forall₂_congr fun o ho => ?_
      rw [h.clashes, Ledger.receive_order (hp.lt h.wf ho)]
    · rw [if_neg hpark] at hkeep ⊢
      rw [if_neg hpark]
      refine iff_of_true (hp.of_eq ?_ hkeep) fun hc => absurd hc hpark
      exact ((h.wf.matched a).stops_settle _ _).trans
        (Ledger.MatchFrame.matchLimits (L.activate a) _).stops
  | cancel id =>
    have hafter : p.after (.cancel id) (L.step (.cancel id)).2 =
        if (L.cancelOrder id).2 = .cancelled then p.parked.filter fun o => (L.order o).id ≠ id
        else p.parked := by
      have hid : ∀ o, (p.book.order o).id = (L.order o).id := fun o => by rw [h.order]
      simp only [Parking.after, Ledger.step, Option.some.injEq, hid]
    rw [hafter, Parking.keeps, h.orders]
    refine (hp.cancelOrder h.wf id).trans ?_
    simp only [h.clashes, h.order]
  | modify a => exact absurd hr (by simp [OrderBook.Request.addsOrCancels])
  | checkDate now => exact absurd hr (by simp [OrderBook.Request.addsOrCancels])

/-- **The parked orders are kept throughout a run** exactly if no new order that is parked, and
no stop order of the index that is cancelled, has the side, price and timestamp of a parked
one. -/
theorem parkedKept_iff (instrument : String) (marketPrice : ℚ) {rs : List Request}
    (hrs : ∀ r ∈ rs, r.addsOrCancels = true) :
    Throughout Parking.step Parking.Kept ⟨.empty instrument marketPrice, []⟩ rs ↔
      Meets Parking.step Parking.keeps ⟨.empty instrument marketPrice, []⟩ rs := by
  have hL := refines_empty instrument marketPrice
  have hside : (Ledger.empty instrument marketPrice).Sided := by simp [Ledger.Sided, Ledger.empty]
  refine throughout_iff_meets (I := fun p => ∃ L, Refines p.book L ∧ L.Sided)
    (Q := fun r => r.addsOrCancels = true) (fun p r hr hI hp => ?_) hrs ⟨_, hL, hside⟩
    ((hL.kept_iff (p := ⟨.empty instrument marketPrice, []⟩) hside).mpr fun o ho =>
      absurd ho (List.not_mem_nil))
  obtain ⟨L, h, hside⟩ := hI
  obtain ⟨s', hs', h'⟩ := h.step r
  have hside' := hside.step h.wf (OrderBook.Request.keepsOrders_of_addsOrCancels hr)
  rw [h.kept_iff hside] at hp
  refine ⟨⟨s', p.after r (L.step r).2⟩, _, by rw [Parking.step, hs']; rfl, ⟨_, h', hside'⟩, ?_⟩
  exact ((h'.kept_iff (p := ⟨s', p.after r (L.step r).2⟩) hside').trans (h.parking_step hr hp))

/-- Two parked bids with different prices, one of which is cancelled in vain. -/
theorem parkedKept_iff_two : Throughout Parking.step Parking.Kept ⟨.empty "X" 10, []⟩
      [.add 0 { OrderArgs.limit "s" .buy 5 10 .stop with stopPrice := 5 },
        .add 0 { OrderArgs.limit "t" .buy 5 9 .stop with stopPrice := 6 }, .cancel "s"] ↔
    Meets Parking.step Parking.keeps ⟨.empty "X" 10, []⟩
      [.add 0 { OrderArgs.limit "s" .buy 5 10 .stop with stopPrice := 5 },
        .add 0 { OrderArgs.limit "t" .buy 5 9 .stop with stopPrice := 6 }, .cancel "s"] :=
  parkedKept_iff "X" 10 (by decide)

/-- Two bids with the same price that are parked in the same second: the first one is lost. -/
theorem parked_evicted : ¬ Throughout Parking.step Parking.Kept ⟨.empty "X" 10, []⟩
    [.add 0 { OrderArgs.limit "s" .buy 5 10 .stop with stopPrice := 5 },
      .add 0 { OrderArgs.limit "t" .buy 7 10 .stop with stopPrice := 6 }] := by
  intro h
  obtain ⟨p, answers, hrun, bids, asks, hb, ha, hcount⟩ := h _ [] (List.append_nil _).symm
  have hfacts := eq_of_ok_of_map hrun
    (f := fun r => (r.1.parked, r.1.book.getBidStopOrders.toOption,
      r.1.book.getAskStopOrders.toOption))
    (b := ([0, 1], some [1], some [])) (by decide +kernel)
  simp only [Prod.mk.injEq, hb, ha] at hfacts
  obtain ⟨hparked, hbids, hasks⟩ := hfacts
  have hzero := hcount 0 (by simp [hparked])
  rw [Option.some.inj hbids, Option.some.inj hasks] at hzero
  exact absurd hzero (by decide)

end LimitOrderBook
