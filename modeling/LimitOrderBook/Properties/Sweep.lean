import LimitOrderBook.Ledger.Sweep
import LimitOrderBook.Properties.Conservation

/-!
# Market orders

A market order should take from the other side what there is, best level first, and never
rest. The sweep does go best level first; but the crossing test looks at the price of a market
order as if it were a limit, and what is left of one rests unless its flags forbid it. So it
does what it should exactly if enough rests at prices that pass the test, or everything does
and the order is immediate-or-cancel (`LimitOrderBook.addOrder_sweeps_iff`).
-/

namespace LimitOrderBook

open OrderBook (Request)

/-- A new market order that is neither a stop order nor all-or-nothing. -/
structure OrderArgs.SweepsAll (a : OrderArgs) : Prop where
  qty : 0 < a.qty
  type : a.type = .market
  stop : a.toData.hasParam .stop = false
  aon : a.toData.hasParam .aon = false

/-- The price `p` of a level passes the crossing test against the price of the new order. -/
def OrderArgs.passes (a : OrderArgs) (p : ℚ) : Bool :=
  if a.toData.isBuy then p ≤ a.price else a.price ≤ p

/-- **The new order `o` sweeps the book**: it and the orders `opposite` of the other side lose
the smaller of its quantity and their total, nothing is taken from an order while one at a
better price has something left, and the order is in no queue. -/
structure SweepsBook (s s' : OrderBook) (a : OrderArgs) (o : ℕ) (opposite : List ℕ) : Prop where
  executed : a.qty - (s'.order o).currentQty =
    min a.qty (opposite.map fun x => (s.order x).currentQty).sum
  taken : (opposite.map fun x => (s.order x).currentQty - (s'.order x).currentQty).sum =
    min a.qty (opposite.map fun x => (s.order x).currentQty).sum
  bestFirst : ∀ x ∈ opposite, ∀ y ∈ opposite,
    Better (!a.toData.isBuy) (s.order x).price (s.order y).price →
    (s'.order y).currentQty ≠ (s.order y).currentQty → (s'.order x).currentQty = 0
  gone : ∀ l, ∃ queue, s'.ordersAt l = .ok queue ∧ o ∉ queue

/-- Enough of the orders of the other side is at prices that pass the crossing test, or all of
them are and the new order is immediate-or-cancel. -/
def OrderBook.SweptWhen (s : OrderBook) (a : OrderArgs) (opposite : List ℕ) : Prop :=
  a.qty ≤ ((opposite.filter fun x => a.passes (s.order x).price).map
      fun x => (s.order x).currentQty).sum ∨
    a.toData.hasParam .ioc = true ∧ ∀ x ∈ opposite, a.passes (s.order x).price = true

namespace Ledger

variable {L : Ledger} {a : OrderArgs}

/-- What the new order is offered, in terms of prices. -/
theorem InPlace.offers_iff (h : L.InPlace) (hstop : a.toData.hasParam .stop = false) {b : Bool}
    {x : ℕ} (hx : x ∈ L.resting b) :
    a.passes (L.order x).price = true ↔ (L.activate a).Offers L.nextOrder x := by
  obtain ⟨l, -, hl⟩ := mem_resting.mp hx
  have hnew := L.activate_order_of_not_stop hstop
  have hpasses : a.passes (L.order x).price = true ↔
      (OrderBook.calculateCrossPrice a.toData (L.limit l)).isSome = true := by
    rw [← not_iff_not, Bool.not_eq_true, Bool.not_eq_true, Option.isSome_eq_false_iff,
      Option.isNone_iff_eq_none, calculateCrossPrice_eq_none, outOfReach, OrderArgs.passes,
      h.price l x hl]
    have hprice : a.toData.price = a.price := rfl
    cases a.toData.isBuy <;> simp [hprice]
  rw [hpasses]
  constructor
  · intro hsome
    refine ⟨l, hl, ?_⟩
    rw [hnew]
    exact hsome
  · rintro ⟨k, hk, hsome⟩
    have hk : x ∈ L.queue k := hk
    rw [h.wf.queue_unique hl hk, hnew] at hsome
    exact hsome

/-- What is offered is no more than what rests, and as much only if everything is offered. -/
theorem Positive.sum_filter_resting (h : L.Positive) (b : Bool) (offered : ℕ → Bool) :
    (((L.resting b).filter offered).map L.qty).sum ≤ ((L.resting b).map L.qty).sum ∧
      ((((L.resting b).filter offered).map L.qty).sum = ((L.resting b).map L.qty).sum ↔
        ∀ x ∈ L.resting b, offered x = true) := by
  have hpos : ∀ x ∈ L.resting b, 0 < L.qty x := fun x hx => by
    obtain ⟨l, -, hl⟩ := mem_resting.mp hx
    exact h l x hl
  have hparts := List.sum_map_filter_add_sum_map_filter_not (fun x => offered x = true) L.qty
    (L.resting b)
  simp only [Bool.decide_eq_true] at hparts
  have hrest : ∀ v ∈ ((L.resting b).filter fun x => ¬ offered x = true).map L.qty, 0 ≤ v := by
    intro v hv
    obtain ⟨x, hx, rfl⟩ := List.mem_map.mp hv
    exact (hpos x (List.mem_filter.mp hx).1).le
  rw [← hparts, left_eq_add]
  refine ⟨le_add_of_nonneg_right (List.sum_nonneg hrest), fun hzero x hx => ?_, fun hall => ?_⟩
  · by_contra hno
    have hmem : L.qty x ∈ ((L.resting b).filter fun x => ¬ offered x = true).map L.qty :=
      List.mem_map.mpr ⟨x, List.mem_filter.mpr ⟨hx, by simpa using hno⟩, rfl⟩
    have hle := List.single_le_sum hrest _ hmem
    rw [hzero] at hle
    exact absurd (hpos x hx) (not_lt.mpr hle)
  · rw [List.filter_eq_nil_iff.mpr fun x hx => by simp [hall x hx]]
    rfl

/-- **What matching takes for a market order**: the smaller of its quantity and of what rests
at prices that pass the crossing test, best price first. -/
theorem Positive.matched_market (h : L.Positive) (ht : L.Tidy) (ha : a.SweepsAll) :
    a.qty - (L.matched a).1.qty L.nextOrder = min a.qty
        (((L.resting !a.toData.isBuy).filter fun x => a.passes (L.order x).price).map L.qty).sum ∧
      ∀ x ∈ L.resting (!a.toData.isBuy), ∀ y ∈ L.resting (!a.toData.isBuy),
        Better (!a.toData.isBuy) (L.order x).price (L.order y).price →
        (L.matched a).1.qty y ≠ L.qty y → (L.matched a).1.qty x = 0 := by
  have haon : a.toData.activated.hasParam .aon = false := by
    rw [OrderData.activated_of_not_stop ha.stop, ha.aon]
  obtain ⟨rest, hswept, hend⟩ := h.matched_swept ht.wf ha.qty haon
  have hold : ∀ x ∈ L.resting (!a.toData.isBuy), (L.activate a).qty x = L.qty x := by
    intro x hx
    obtain ⟨l, -, hl⟩ := mem_resting.mp hx
    rw [qty, activate_order (ht.wf.queue_lt l x hl), qty]
  refine ⟨?_, fun x hx y hy hxy hne => ?_⟩
  · have hmin := hswept.taken_eq_min hend (fun x => a.passes (L.order x).price)
      fun x hx => ht.inPlace.offers_iff ha.stop hx
    rw [activate_qty_new] at hmin
    rw [hmin]
    refine congrArg (min a.qty) (congrArg List.sum (List.map_congr_left fun x hx => ?_))
    exact hold x (List.mem_filter.mp hx).1
  · have hsorted := ht.inPlace.resting_pairwise (b := !a.toData.isBuy) (Q := fun _ _ => True)
      fun l _ => List.pairwise_of_forall fun _ _ => trivial
    refine hswept.used_up hsorted hx hy (fun he => ?_) (fun hyx => ?_) (by rwa [hold y hy])
    · rw [he] at hxy
      exact hxy.irrefl
    · rcases hyx with hyx | ⟨heq, -⟩
      · exact hyx.asymm hxy
      · rw [heq] at hxy
        exact hxy.irrefl

/-- **Where a market order ends**: it is filled, or something is left of it, and then it is in
no queue exactly if it is immediate-or-cancel. -/
theorem Positive.market_gone_iff (h : L.Positive) (hwf : L.WellFormed) (ha : a.SweepsAll)
    (now : ℤ) : (∀ l, L.nextOrder ∉ (L.step (.add now a)).1.queue l) ↔
      (L.matched a).1.qty L.nextOrder = 0 ∨ a.toData.hasParam .ioc = true := by
  have hpark := L.isParked_of_not_stop ha.stop
  have hfok : a.toData.activated.hasParam .fok = a.toData.hasParam .ioc := by
    rw [OrderData.activated_of_not_stop ha.stop, OrderData.hasParam_fok, ha.aon, Bool.false_or]
  have hfresh : (L.matched a).1.Fresh L.nextOrder :=
    (hwf.fresh_activate a).of_frame (.matchLimits _ _)
  rcases h.step_add_cases hwf now ha.qty hpark with ⟨hstep, -, hzero⟩ | ⟨-, hleft, hstep⟩
  · rw [hstep]
    exact iff_of_true hfresh.queue (Or.inl hzero)
  · rw [hfok] at hstep
    rw [or_iff_right hleft.ne']
    split at hstep
    · next hioc =>
      rw [hstep]
      exact iff_of_true hfresh.queue hioc
    · next hioc =>
      rw [hstep]
      obtain ⟨l, hl, -, -⟩ := (hwf.matched a).restOrder L.nextOrder
      exact iff_of_false (fun hno => hno l (hl.mem_queue.mpr (Or.inl ⟨rfl, rfl⟩))) hioc

end Ledger

section Books

variable {s s' : OrderBook} {L : Ledger} {a : OrderArgs} {now : ℤ}

/-- **One `add_order`** of a market order. -/
theorem Refines.sweepsBook_iff (h : Refines s L) (ht : L.Tidy) (hpos : L.Positive)
    (ha : a.SweepsAll) (h' : Refines s' (L.step (.add now a)).1) :
    SweepsBook s s' a L.nextOrder (L.resting !a.toData.isBuy) ↔
      s.SweptWhen a (L.resting !a.toData.isBuy) := by
  have hpark := L.isParked_of_not_stop ha.stop
  have hprice : ∀ x, (s.order x).price = (L.order x).price := fun x => by rw [h.order]
  have hqty : ∀ x, (L.step (.add now a)).1.qty x = (L.matched a).1.qty x := fun x => by
    rw [Ledger.step_add, if_neg (by simp [hpark]), (Ledger.Still.settle _ _ _).qty]
  have hqty' : ∀ x, (s'.order x).currentQty = (L.matched a).1.qty x := fun x => by
    rw [h'.qty, hqty]
  obtain ⟨htaken, hbest⟩ := hpos.matched_market ht ha
  obtain ⟨hbalance, -⟩ := hpos.step_add_balance h.wf now ha.qty
  obtain ⟨hle, hall⟩ := hpos.sum_filter_resting (!a.toData.isBuy)
    fun x => a.passes (L.order x).price
  simp only [hqty] at hbalance
  rw [OrderBook.SweptWhen]
  simp only [hprice, h.qty, ← hall]
  -- both sides, in terms of what is offered and what rests
  have hsweeps : SweepsBook s s' a L.nextOrder (L.resting !a.toData.isBuy) ↔
      a.qty - (L.matched a).1.qty L.nextOrder =
        min a.qty ((L.resting !a.toData.isBuy).map L.qty).sum ∧
      ((L.matched a).1.qty L.nextOrder = 0 ∨ a.toData.hasParam .ioc = true) := by
    rw [← hpos.market_gone_iff h.wf ha now]
    constructor
    · intro hsweep
      have hex := hsweep.executed
      rw [hqty'] at hex
      simp only [h.qty] at hex
      refine ⟨hex, fun l hl => ?_⟩
      obtain ⟨queue, hat, hno⟩ := hsweep.gone l
      rw [h'.ordersAt, Except.ok.injEq] at hat
      exact hno (hat ▸ hl)
    · rintro ⟨hex, hgone⟩
      refine ⟨?_, ?_, fun x hx y hy hxy hne => ?_, fun l => ⟨_, h'.ordersAt l, hgone l⟩⟩
      · rw [hqty']
        simp only [h.qty]
        exact hex
      · simp only [hqty', h.qty]
        rw [← hbalance]
        exact hex
      · rw [hprice, hprice] at hxy
        rw [hqty', h.qty] at hne
        rw [hqty']
        exact hbest x hx y hy hxy hne
  rw [hsweeps, htaken]
  by_cases henough : a.qty ≤ (((L.resting !a.toData.isBuy).filter fun x =>
      a.passes (L.order x).price).map L.qty).sum
  · rw [min_eq_left henough] at htaken ⊢
    refine iff_of_true ⟨(min_eq_left (henough.trans hle)).symm, Or.inl ?_⟩ (Or.inl henough)
    exact sub_eq_self.mp htaken
  · have hlt := not_le.mp henough
    rw [min_eq_right hlt.le] at htaken ⊢
    have hleft : (L.matched a).1.qty L.nextOrder ≠ 0 := by
      intro hzero
      rw [hzero, sub_zero] at htaken
      exact absurd htaken hlt.ne'
    rw [or_iff_right hleft, or_iff_right henough, and_comm]
    refine and_congr_right fun _ => ⟨fun hmin => ?_, fun heq => ?_⟩
    · rcases min_choice a.qty ((L.resting !a.toData.isBuy).map L.qty).sum with hm | hm
      · exact absurd (hmin.trans hm) hlt.ne
      · exact hmin.trans hm
    · rw [← heq, min_eq_right hlt.le]

end Books

/-- **Market orders sweep the book** exactly if enough rests on the other side at prices that
pass the crossing test, or all of it does and the order is immediate-or-cancel: after any run
of new orders of positive quantity, cancellations and checks of dates. -/
theorem addOrder_sweeps_iff (instrument : String) (marketPrice : ℚ) {rs : List Request}
    (hrs : ∀ r ∈ rs, r.Sound) (now : ℤ) {a : OrderArgs} (ha : a.SweepsAll) :
    ∃ s answers s' status opposite,
      runAll OrderBook.step (.empty instrument marketPrice) rs = .ok (s, answers) ∧
      s.step (.add now a) = .ok (s', some status) ∧
      s.getOrders (!a.toData.isBuy) = .ok opposite ∧
      (SweepsBook s s' a s.nextOrder opposite ↔ s.SweptWhen a opposite) := by
  obtain ⟨s, answers, L, hrun, hL, ht, hpos⟩ := exists_sound_run instrument marketPrice hrs
  obtain ⟨s', hs', hL'⟩ := hL.step (.add now a)
  refine ⟨s, answers, s', _, _, hrun, hs', hL.getOrders _, ?_⟩
  rw [hL.nextOrder]
  exact hL.sweepsBook_iff ht hpos ha hL'

/-- The arguments of a market order with a price, as concrete runs use them. -/
def OrderArgs.market (id : String) (side : Side) (qty price : ℚ)
    (params : OrderParams := .gtc) : OrderArgs :=
  { OrderArgs.limit id side qty price params with type := .market }

/-- A market bid, and an ask that is enough for it. -/
theorem addOrder_sweeps_iff_bid : OrderArgs.SweepsAll (.market "b" .buy 5 10) ∧
    ∃ s answers s' status opposite, runAll OrderBook.step (.empty "X" 10)
        [.add 0 (.limit "a" .sell 7 10)] = .ok (s, answers) ∧
      s.step (.add 0 (.market "b" .buy 5 10)) = .ok (s', some status) ∧
      s.getOrders false = .ok opposite ∧
      (SweepsBook s s' (.market "b" .buy 5 10) s.nextOrder opposite ↔
        s.SweptWhen (.market "b" .buy 5 10) opposite) := by
  have ha : OrderArgs.SweepsAll (.market "b" .buy 5 10) :=
    ⟨by norm_num [OrderArgs.market, OrderArgs.limit], rfl, by decide, by decide⟩
  exact ⟨ha, addOrder_sweeps_iff "X" 10 (by simp [Request.Sound, OrderArgs.limit]) 0 ha⟩

/-- A market bid with the price zero and an ask at ten: nothing is executed, and the bid
rests. -/
theorem market_order_rests : ∃ s answers s' status opposite, runAll OrderBook.step (.empty "X" 10)
      [.add 0 (.limit "a" .sell 7 10)] = .ok (s, answers) ∧
    s.step (.add 0 (.market "b" .buy 5 0)) = .ok (s', some status) ∧
    s.getOrders false = .ok opposite ∧
    ¬ SweepsBook s s' (.market "b" .buy 5 0) s.nextOrder opposite := by
  obtain ⟨⟨s, answers⟩, hrun, hs⟩ := exists_ok_of_map (f := fun r =>
      ((r.1.getOrders false).toOption, r.1.nextOrder, (r.1.order 0).currentQty))
    (b := (some [0], 1, 7)) (show (runAll OrderBook.step (.empty "X" 10)
      [.add 0 (.limit "a" .sell 7 10)]).toOption.map _ = _ by decide +kernel)
  have hstep := eq_of_ok_of_map hrun (f := fun r =>
      (r.1.step (.add 0 (.market "b" .buy 5 0))).toOption.map fun t =>
        (t.2, (t.1.order 1).currentQty))
    (b := some (some OrderStatus.accepted, 5)) (by decide +kernel)
  simp only [Prod.mk.injEq] at hs
  obtain ⟨horders, hnew, hqty⟩ := hs
  obtain ⟨opposite, hget, rfl⟩ := exists_ok_of_map (f := id) (by simpa using horders)
  obtain ⟨⟨s', status⟩, hs', hafter⟩ := exists_ok_of_map hstep
  simp only [Prod.mk.injEq] at hafter
  obtain ⟨rfl, hleft⟩ := hafter
  refine ⟨s, answers, s', .accepted, [0], hrun, hs', hget, fun hsweep => ?_⟩
  have hex := hsweep.executed
  rw [hnew, hleft, List.map_singleton, List.sum_singleton, hqty] at hex
  exact absurd hex (by decide +kernel)

end LimitOrderBook
