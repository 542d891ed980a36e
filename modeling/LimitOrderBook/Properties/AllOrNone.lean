import LimitOrderBook.Ledger.AllOrNone
import LimitOrderBook.Properties.Conservation

/-!
# All-or-nothing orders in a book

What an `add_order` of an all-or-nothing order does depends on one question: whether some
resting order of the other side, at a price that the new one accepts, has enough left on its
own (`LimitOrderBook.OrderBook.Fillable`). If so, the order is filled; if not, nothing of it
is (`LimitOrderBook.addOrder_allOrNone`). The volume of a level is only used to pass levels
over, so an order that a level could fill with several of its orders is refused
(`LimitOrderBook.addOrder_fillsFromLevel_iff`), and a level that is tried in vain still sets
the market price (`LimitOrderBook.addOrder_untouched_iff`).

To accept a price is the test of `calculate_cross_price`, which looks at the price of a market
order, too.
-/

namespace LimitOrderBook

open OrderBook (Request)

/-- A new order that is all-or-nothing and not a stop order. -/
structure OrderArgs.AllOrNone (a : OrderArgs) : Prop where
  qty : 0 < a.qty
  stop : a.toData.hasParam .stop = false
  aon : a.toData.hasParam .aon = true

namespace OrderBook

variable (s : OrderBook) (a : OrderArgs)

/-- **A resting order of the other side has enough** for the new order, at a price that it
accepts. -/
def Fillable : Prop :=
  ∃ levels l queue c, (s.limits !a.toData.isBuy).keys = .ok levels ∧ l ∈ levels ∧
    a.toData.accepts (s.limit l).toLimitData ∧ s.ordersAt l = .ok queue ∧ c ∈ queue ∧
    a.qty ≤ (s.order c).currentQty

/-- **A level of the other side has enough** for the new order, at a price that it accepts,
in all its orders together. -/
def LevelFillable : Prop :=
  ∃ levels l queue, (s.limits !a.toData.isBuy).keys = .ok levels ∧ l ∈ levels ∧
    a.toData.accepts (s.limit l).toLimitData ∧ s.ordersAt l = .ok queue ∧
    a.qty ≤ (queue.map fun c => (s.order c).currentQty).sum

/-- The levels that the new order is tried at if none of them fills it: those with enough
volume at a price that it accepts. -/
def triedLevels (levels : List ℕ) : List ℕ :=
  levels.filter fun l => decide (a.qty ≤ (s.limit l).activeVolume) &&
    (calculateCrossPrice a.toData (s.limit l).toLimitData).isSome

/-- The market price is already the cross price of the last of these levels. -/
def KeepsPrice : Prop :=
  ∀ levels l, (s.limits !a.toData.isBuy).keys = .ok levels →
    (s.triedLevels a levels).getLast? = some l →
    calculateCrossPrice a.toData (s.limit l).toLimitData = some s.marketPrice

end OrderBook

/-! ### What the statements say -/

/-- **The order `o` is filled as a whole or not at all**, and it is filled if a resting order
has enough. -/
structure AllOrNothing (s s' : OrderBook) (a : OrderArgs) (o : ℕ) : Prop where
  whole : (s'.order o).currentQty = 0 ∨ (s'.order o).currentQty = a.qty
  filled : s.Fillable a → (s'.order o).currentQty = 0

/-- **The order is matched**, and the resting orders have lost its quantity. -/
def FilledFromBook (s s' : OrderBook) (a : OrderArgs) (status : OrderStatus) : Prop :=
  status = .matched ∧ ∃ bids asks, s.getBids = .ok bids ∧ s.getAsks = .ok asks ∧
    ((bids ++ asks).map fun x => (s.order x).currentQty - (s'.order x).currentQty).sum = a.qty

/-- **Nothing has changed** but the order `o`: levels, queues and volumes, the other orders,
the stop trees, the index, the dated orders and the market price are as before. -/
structure Untouched (s s' : OrderBook) (o : ℕ) : Prop where
  levels : ∀ b, ∃ levels, (s.limits b).keys = .ok levels ∧ (s'.limits b).keys = .ok levels
  limit : ∀ l, (s'.limit l).toLimitData = (s.limit l).toLimitData
  queues : ∀ l, ∃ queue, s.ordersAt l = .ok queue ∧ s'.ordersAt l = .ok queue
  order : ∀ x, x ≠ o → (s'.order x).toOrderData = (s.order x).toOrderData
  stops : ∀ b, ∃ stops, (s.stopOrders b).keys = .ok stops ∧ (s'.stopOrders b).keys = .ok stops
  orders : s'.orders = s.orders
  dates : ∃ dates, s.getOrdersWithExperation = .ok dates ∧ s'.getOrdersWithExperation = .ok dates
  marketPrice : s'.marketPrice = s.marketPrice

/-! ### Ledgers and books -/

section Ledgers

variable {s s' : OrderBook} {L : Ledger} {a : OrderArgs} {now : ℤ}

theorem Refines.fillable (h : Refines s L) : s.Fillable a ↔ L.Fillable a := by
  constructor
  · rintro ⟨levels, l, queue, c, hkeys, hl, haccept, hqueue, hc, hbig⟩
    rw [(h.levels _).keys, Except.ok.injEq] at hkeys
    rw [h.ordersAt, Except.ok.injEq] at hqueue
    subst hkeys hqueue
    rw [h.limit] at haccept
    rw [h.qty] at hbig
    exact ⟨l, hl, haccept, c, hc, hbig⟩
  · rintro ⟨l, hl, haccept, c, hc, hbig⟩
    refine ⟨_, l, _, c, (h.levels _).keys, hl, ?_, h.ordersAt l, hc, ?_⟩
    · rw [h.limit]
      exact haccept
    · rw [h.qty]
      exact hbig

/-- A single order with enough makes a level with enough. -/
theorem Refines.levelFillable (h : Refines s L) (hpos : L.Positive) (hfill : s.Fillable a) :
    s.LevelFillable a := by
  obtain ⟨levels, l, queue, c, hkeys, hl, haccept, hqueue, hc, hbig⟩ := hfill
  refine ⟨levels, l, queue, hkeys, hl, haccept, hqueue, hbig.trans ?_⟩
  rw [h.ordersAt, Except.ok.injEq] at hqueue
  subst hqueue
  simp only [h.qty]
  exact hpos.qty_le_sum hc

/-- The price that is left behind, read off the book. -/
theorem Refines.keepsPrice_iff (h : Refines s L) (ha : a.AllOrNone) : s.KeepsPrice a ↔
    (L.activate a).triedPrice L.nextOrder (L.levels !a.toData.isBuy) = L.marketPrice := by
  have hnew := L.activate_order_of_not_stop ha.stop
  have htried : s.triedLevels a (L.levels !a.toData.isBuy) =
      (L.levels !a.toData.isBuy).filter ((L.activate a).tries L.nextOrder) := by
    refine List.filter_congr fun l _ => ?_
    have hvol : (L.activate a).limit l = L.limit l := rfl
    rw [Ledger.tries, Ledger.skips, hnew, Ledger.activate_qty_new, ha.aon, hvol, h.limit,
      Bool.true_and, ← decide_not]
    simp only [not_lt]
  have hmarket : (L.activate a).marketPrice = L.marketPrice := rfl
  rw [Ledger.triedPrice, ← htried, hnew, hmarket]
  constructor
  · intro hkeeps
    rcases hlast : (s.triedLevels a (L.levels !a.toData.isBuy)).getLast? with _ | l
    · rfl
    · have hprice := hkeeps _ l (h.levels _).keys hlast
      rw [h.limit, h.marketPrice] at hprice
      have hprice : OrderBook.calculateCrossPrice a.toData ((L.activate a).limit l) = _ := hprice
      rw [Option.bind_some, hprice]
      rfl
  · intro hprice levels l hkeys hlast
    rw [(h.levels _).keys, Except.ok.injEq] at hkeys
    subst hkeys
    rw [hlast, Option.bind_some] at hprice
    have hmem : l ∈ s.triedLevels a (L.levels !a.toData.isBuy) :=
      List.mem_of_getLast? hlast
    have hsome := (List.mem_filter.mp hmem).2
    rw [Bool.and_eq_true] at hsome
    obtain ⟨p, hp⟩ := Option.isSome_iff_exists.mp hsome.2
    rw [hp, h.marketPrice, ← hprice]
    rw [h.limit] at hp
    have hp : OrderBook.calculateCrossPrice a.toData ((L.activate a).limit l) = _ := hp
    rw [hp]
    rfl

/-- **The two ways in which `add_order` ends** for an all-or-nothing order. -/
theorem Ledger.Positive.step_allOrNone (hpos : L.Positive) (hwf : L.WellFormed)
    (hcov : L.VolumeCovers) (ha : a.AllOrNone) (now : ℤ) :
    (L.Fillable a ∧ (L.step (.add now a)).2 = some .matched ∧
        (L.step (.add now a)).1.qty L.nextOrder = 0) ∨
      (¬ L.Fillable a ∧ L.step (.add now a) =
        (((L.activate a).setMarketPrice ((L.activate a).triedPrice L.nextOrder
          (L.levels !a.toData.isBuy))).updateData L.nextOrder .cancel, some .notMatched)) := by
  have hpark := L.isParked_of_not_stop ha.stop
  have hfok : a.toData.activated.hasParam .fok = true := by
    rw [OrderData.activated_of_not_stop ha.stop, OrderData.hasParam_fok, ha.aon, Bool.true_or]
  have hcases := hpos.step_add_cases hwf now ha.qty hpark
  by_cases hfill : L.Fillable a
  · have hfilled := hfill.matched hwf hpos ha.stop ha.aon ha.qty hcov
    rcases hcases with ⟨hstep, -, hzero⟩ | ⟨hleft, -⟩
    · rw [hstep]
      exact Or.inl ⟨hfill, rfl, hzero⟩
    · exact absurd (hfilled.symm.trans hleft) (by simp)
  · have hmatched := hwf.matched_unfilled hpos ha.stop ha.aon ha.qty hfill
    rcases hcases with ⟨-, hfilled, -⟩ | ⟨-, -, hstep⟩
    · rw [hmatched] at hfilled
      exact absurd hfilled (by simp)
    · rw [if_pos hfok, hmatched] at hstep
      exact Or.inr ⟨hfill, hstep⟩

theorem Refines.allOrNothing (h : Refines s L) (hpos : L.Positive) (hcov : L.VolumeCovers)
    (ha : a.AllOrNone) (h' : Refines s' (L.step (.add now a)).1) :
    AllOrNothing s s' a L.nextOrder := by
  rcases hpos.step_allOrNone h.wf hcov ha now with ⟨-, -, hzero⟩ | ⟨hfill, hstep⟩
  · rw [← h'.qty] at hzero
    exact ⟨Or.inl hzero, fun _ => hzero⟩
  · refine ⟨Or.inr ?_, fun hf => absurd (h.fillable.mp hf) hfill⟩
    rw [h'.qty, hstep, Ledger.qty_cancel]
    exact Ledger.activate_qty_new L a

/-- The order is matched exactly if a resting order has enough for it. -/
theorem Refines.filledFromBook_iff {status : OrderStatus} (h : Refines s L) (ht : L.Tidy)
    (hpos : L.Positive) (hcov : L.VolumeCovers) (ha : a.AllOrNone)
    (h' : Refines s' (L.step (.add now a)).1) (hstatus : (L.step (.add now a)).2 = some status) :
    FilledFromBook s s' a status ↔ s.Fillable a := by
  rw [h.fillable]
  rcases hpos.step_allOrNone h.wf hcov ha now with ⟨hfill, hmatched, hzero⟩ | ⟨hfill, hstep⟩
  · refine iff_of_true ⟨?_, _, _, h.getOrders true, h.getOrders false, ?_⟩ hfill
    · exact Option.some.inj (hstatus.symm.trans hmatched)
    · -- what the new order has lost, the other side has lost
      obtain ⟨hbalance, hsame⟩ := hpos.step_add_balance h.wf now ha.qty
      have hside : ((L.resting a.toData.isBuy).map fun x =>
          (s.order x).currentQty - (s'.order x).currentQty).sum = 0 := by
        refine List.sum_eq_zero fun v hv => ?_
        obtain ⟨x, hx, rfl⟩ := List.mem_map.mp hv
        obtain ⟨hbuy, l, hl⟩ := ht.inPlace.mem_resting_iff.mp hx
        rw [h.qty, h'.qty, hsame x (h.wf.queue_lt l x hl) fun hx' => ?_, sub_self]
        have hbuy' := (ht.inPlace.mem_resting_iff.mp hx').1
        rw [hbuy] at hbuy'
        exact absurd hbuy' (by simp)
      have hother : ((L.resting !a.toData.isBuy).map fun x =>
          (s.order x).currentQty - (s'.order x).currentQty).sum = a.qty := by
        simp only [h.qty, h'.qty]
        rw [← hbalance, hzero, sub_zero]
      rw [List.map_append, List.sum_append]
      rcases hb : a.toData.isBuy with _ | _ <;> rw [hb] at hside hother
      · rw [hside, add_zero]
        exact hother
      · rw [hside, zero_add]
        exact hother
  · refine iff_of_false (fun hf => ?_) hfill
    rw [hstep, Option.some.injEq] at hstatus
    rw [hf.1] at hstatus
    exact absurd hstatus (by simp)

/-- A refused order leaves everything but the market price. -/
theorem Refines.untouched_iff {p : ℚ} (h : Refines s L) (h' : Refines s'
      (((L.activate a).setMarketPrice p).updateData L.nextOrder .cancel)) :
    Untouched s s' L.nextOrder ↔ p = L.marketPrice := by
  constructor
  · intro hun
    rw [← h.marketPrice, ← hun.marketPrice, h'.marketPrice]
    rfl
  · intro hp
    refine
      { levels := fun b => ⟨_, (h.levels b).keys, (h'.levels b).keys⟩
        limit := fun l => (h'.limit l).trans (h.limit l).symm
        queues := fun l => ⟨_, h.ordersAt l, h'.ordersAt l⟩
        order := fun x hx => ?_
        stops := fun b => ⟨_, (h.stops b).keys, (h'.stops b).keys⟩
        orders := h'.orders.trans h.orders.symm
        dates := ⟨_, h.dates.keys, h'.dates.keys⟩
        marketPrice := ?_ }
    · rw [h'.order, h.order]
      simp [Ledger.activate, Ledger.receive, hx]
    · rw [h'.marketPrice, h.marketPrice]
      exact hp

end Ledgers

/-! ### Runs -/

/-- **A run of sound requests, and one more order**, read as ledgers; the volumes cover what
rests. -/
theorem exists_covered_add (instrument : String) (marketPrice : ℚ) {rs : List Request}
    (hrs : ∀ r ∈ rs, r.Sound) (now : ℤ) (a : OrderArgs) :
    ∃ s answers L s' status,
      runAll OrderBook.step (.empty instrument marketPrice) rs = .ok (s, answers) ∧
      s.step (.add now a) = .ok (s', some status) ∧ Refines s L ∧
      Refines s' (L.step (.add now a)).1 ∧ (L.step (.add now a)).2 = some status ∧
      L.Tidy ∧ L.Positive ∧ L.VolumeCovers := by
  obtain ⟨s, answers, L, hrun, hL, ht, hpos, hcov⟩ :=
    (refines_empty instrument marketPrice).run_invariant
      (J := fun L => L.Tidy ∧ L.Positive ∧ L.VolumeCovers)
      (fun _ _ _ _ hJ hr => ⟨hJ.1.step hr.keepsOrders, hJ.2.1.step hJ.1.wf hr,
        hJ.2.2.step hJ.1 hJ.2.1 hr⟩)
      ⟨Ledger.tidy_empty instrument marketPrice, fun _ _ ho => absurd ho (by simp [Ledger.empty]),
        fun _ _ hl => absurd hl (by simp [Ledger.empty])⟩ (meets_of_forall hrs _)
  obtain ⟨s', hs', hL'⟩ := hL.step (.add now a)
  obtain ⟨status, hstatus⟩ : ∃ status, (L.step (.add now a)).2 = some status := ⟨_, rfl⟩
  rw [hstatus] at hs'
  exact ⟨s, answers, L, s', status, hrun, hs', hL, hL', hstatus, ht, hpos, hcov⟩

/-- **All-or-nothing orders are never partially filled**, and a resting order with enough at
a price that they accept fills them: after any run of new orders of positive quantity,
cancellations and checks of dates. -/
theorem addOrder_allOrNone (instrument : String) (marketPrice : ℚ) {rs : List Request}
    (hrs : ∀ r ∈ rs, r.Sound) (now : ℤ) {a : OrderArgs} (ha : a.AllOrNone) :
    ∃ s answers s' status,
      runAll OrderBook.step (.empty instrument marketPrice) rs = .ok (s, answers) ∧
      s.step (.add now a) = .ok (s', some status) ∧ AllOrNothing s s' a s.nextOrder := by
  obtain ⟨s, answers, L, s', status, hrun, hs', hL, hL', -, -, hpos, hcov⟩ :=
    exists_covered_add instrument marketPrice hrs now a
  refine ⟨s, answers, s', status, hrun, hs', ?_⟩
  rw [hL.nextOrder]
  exact hL.allOrNothing hpos hcov ha hL'

/-- A fill-or-kill bid, and an ask that has enough behind one that has not. -/
theorem addOrder_allOrNone_bid : OrderArgs.AllOrNone (.limit "c" .buy 5 10 .fok) ∧
    ∃ s answers s' status, runAll OrderBook.step (.empty "X" 10)
        [.add 0 (.limit "a" .sell 3 10), .add 0 (.limit "b" .sell 6 10)] = .ok (s, answers) ∧
      s.step (.add 0 (.limit "c" .buy 5 10 .fok)) = .ok (s', some status) ∧
      AllOrNothing s s' (.limit "c" .buy 5 10 .fok) s.nextOrder := by
  have ha : OrderArgs.AllOrNone (.limit "c" .buy 5 10 .fok) :=
    ⟨by norm_num [OrderArgs.limit], by decide, by decide⟩
  exact ⟨ha, addOrder_allOrNone "X" 10 (by simp [Request.Sound, OrderArgs.limit]) 0 ha⟩

/-- **A level with enough fills an all-or-nothing order** – it is matched, and the resting
orders lose its quantity – exactly if there is no such level, or a single order with enough. -/
theorem addOrder_fillsFromLevel_iff (instrument : String) (marketPrice : ℚ) {rs : List Request}
    (hrs : ∀ r ∈ rs, r.Sound) (now : ℤ) {a : OrderArgs} (ha : a.AllOrNone) :
    ∃ s answers s' status,
      runAll OrderBook.step (.empty instrument marketPrice) rs = .ok (s, answers) ∧
      s.step (.add now a) = .ok (s', some status) ∧
      ((s.LevelFillable a → FilledFromBook s s' a status) ↔
        ¬ s.LevelFillable a ∨ s.Fillable a) := by
  obtain ⟨s, answers, L, s', status, hrun, hs', hL, hL', hstatus, ht, hpos, hcov⟩ :=
    exists_covered_add instrument marketPrice hrs now a
  refine ⟨s, answers, s', status, hrun, hs', ?_⟩
  rw [hL.filledFromBook_iff ht hpos hcov ha hL' hstatus]
  exact imp_iff_not_or

/-- An ask that has enough behind one that has not. -/
theorem addOrder_fillsFromLevel_iff_bid : OrderArgs.AllOrNone (.limit "c" .buy 5 10 .fok) ∧
    ∃ s answers s' status, runAll OrderBook.step (.empty "X" 10)
        [.add 0 (.limit "a" .sell 3 10), .add 0 (.limit "b" .sell 6 10)] = .ok (s, answers) ∧
      s.step (.add 0 (.limit "c" .buy 5 10 .fok)) = .ok (s', some status) ∧
      ((s.LevelFillable (.limit "c" .buy 5 10 .fok) →
          FilledFromBook s s' (.limit "c" .buy 5 10 .fok) status) ↔
        ¬ s.LevelFillable (.limit "c" .buy 5 10 .fok) ∨
          s.Fillable (.limit "c" .buy 5 10 .fok)) := by
  have ha : OrderArgs.AllOrNone (.limit "c" .buy 5 10 .fok) :=
    ⟨by norm_num [OrderArgs.limit], by decide, by decide⟩
  exact ⟨ha, addOrder_fillsFromLevel_iff "X" 10 (by simp [Request.Sound, OrderArgs.limit]) 0 ha⟩

/-- Two asks of three against a fill-or-kill bid of five: it is refused. -/
theorem level_does_not_fill : ∃ s answers s' status, runAll OrderBook.step (.empty "X" 10)
      [.add 0 (.limit "a" .sell 3 10), .add 0 (.limit "b" .sell 3 10)] = .ok (s, answers) ∧
    s.step (.add 0 (.limit "c" .buy 5 10 .fok)) = .ok (s', some status) ∧
    s.LevelFillable (.limit "c" .buy 5 10 .fok) ∧
    ¬ FilledFromBook s s' (.limit "c" .buy 5 10 .fok) status := by
  obtain ⟨⟨s, answers⟩, hrun, hs⟩ := exists_ok_of_map (f := fun r =>
      ((r.1.limits false).keys.toOption, (r.1.ordersAt 0).toOption,
        [(r.1.limit 0).price, (r.1.order 0).currentQty, (r.1.order 1).currentQty],
        (r.1.step (.add 0 (.limit "c" .buy 5 10 .fok))).toOption.map Prod.snd))
    (b := (some [0], some [0, 1], [10, 3, 3], some (some OrderStatus.notMatched)))
    (show (runAll OrderBook.step (.empty "X" 10)
      [.add 0 (.limit "a" .sell 3 10), .add 0 (.limit "b" .sell 3 10)]).toOption.map _ = _ by
      decide +kernel)
  simp only [Prod.mk.injEq, List.cons.injEq, and_true] at hs
  obtain ⟨hkeys, hqueue, ⟨hprice, hqty, hqty'⟩, hstep⟩ := hs
  obtain ⟨levels, hlevels, rfl⟩ := exists_ok_of_map (f := id) (by simpa using hkeys)
  obtain ⟨queue, hat, rfl⟩ := exists_ok_of_map (f := id) (by simpa using hqueue)
  obtain ⟨⟨s', status⟩, hs', rfl⟩ := exists_ok_of_map hstep
  refine ⟨s, answers, s', .notMatched, hrun, hs', ⟨[0], 0, [0, 1], hlevels, by simp, ?_, hat, ?_⟩,
    fun hf => absurd hf.1 (by simp)⟩
  · rw [OrderData.accepts, hprice]
    decide
  · simp only [List.map_cons, List.map_nil, hqty, hqty']
    decide +kernel

/-- **A refused all-or-nothing order leaves no trace** exactly if a resting order has enough
for it – it is not refused then – or the last level that it is tried at has the market price
as its cross price. -/
theorem addOrder_untouched_iff (instrument : String) (marketPrice : ℚ) {rs : List Request}
    (hrs : ∀ r ∈ rs, r.Sound) (now : ℤ) {a : OrderArgs} (ha : a.AllOrNone) :
    ∃ s answers s' status,
      runAll OrderBook.step (.empty instrument marketPrice) rs = .ok (s, answers) ∧
      s.step (.add now a) = .ok (s', some status) ∧
      ((status = .notMatched → Untouched s s' s.nextOrder) ↔ s.Fillable a ∨ s.KeepsPrice a) := by
  obtain ⟨s, answers, L, s', status, hrun, hs', hL, hL', hstatus, -, hpos, hcov⟩ :=
    exists_covered_add instrument marketPrice hrs now a
  refine ⟨s, answers, s', status, hrun, hs', ?_⟩
  rw [hL.fillable, hL.keepsPrice_iff ha, hL.nextOrder]
  rcases hpos.step_allOrNone hL.wf hcov ha now with ⟨hfill, hmatched, -⟩ | ⟨hfill, hstep⟩
  · rw [hmatched, Option.some.injEq] at hstatus
    exact iff_of_true (fun hno => absurd (hstatus.trans hno) (by simp)) (Or.inl hfill)
  · rw [hstep] at hL' hstatus
    obtain rfl := Option.some.inj hstatus
    rw [or_iff_right hfill, ← hL.untouched_iff hL']
    exact ⟨fun hun => hun rfl, fun hun _ => hun⟩

/-- A fill-or-kill bid for more than there is. -/
theorem addOrder_untouched_iff_bid : OrderArgs.AllOrNone (.limit "c" .buy 5 10 .fok) ∧
    ∃ s answers s' status, runAll OrderBook.step (.empty "X" 10)
        [.add 0 (.limit "a" .sell 3 10)] = .ok (s, answers) ∧
      s.step (.add 0 (.limit "c" .buy 5 10 .fok)) = .ok (s', some status) ∧
      ((status = .notMatched → Untouched s s' s.nextOrder) ↔
        s.Fillable (.limit "c" .buy 5 10 .fok) ∨ s.KeepsPrice (.limit "c" .buy 5 10 .fok)) := by
  have ha : OrderArgs.AllOrNone (.limit "c" .buy 5 10 .fok) :=
    ⟨by norm_num [OrderArgs.limit], by decide, by decide⟩
  exact ⟨ha, addOrder_untouched_iff "X" 10 (by simp [Request.Sound, OrderArgs.limit]) 0 ha⟩

/-- Two asks of three at ten against a fill-or-kill bid of five, where the market price is
nine: the bid is refused, and the market price is ten. -/
theorem refused_moves_price : ∃ s answers s' status, runAll OrderBook.step (.empty "X" 9)
      [.add 0 (.limit "a" .sell 3 10), .add 0 (.limit "b" .sell 3 10)] = .ok (s, answers) ∧
    s.step (.add 0 (.limit "c" .buy 5 10 .fok)) = .ok (s', some status) ∧
    status = .notMatched ∧ ¬ Untouched s s' s.nextOrder := by
  obtain ⟨⟨s, answers⟩, hrun, hs⟩ := exists_ok_of_map (f := fun r =>
      (r.1.marketPrice, ((r.1.step (.add 0 (.limit "c" .buy 5 10 .fok))).toOption.map fun t =>
        (t.1.marketPrice, t.2))))
    (b := (9, some (10, some OrderStatus.notMatched)))
    (show (runAll OrderBook.step (.empty "X" 9)
      [.add 0 (.limit "a" .sell 3 10), .add 0 (.limit "b" .sell 3 10)]).toOption.map _ = _ by
      decide +kernel)
  simp only [Prod.mk.injEq] at hs
  obtain ⟨hprice, hstep⟩ := hs
  obtain ⟨⟨s', status⟩, hs', hafter⟩ := exists_ok_of_map hstep
  simp only [Prod.mk.injEq] at hafter
  obtain ⟨hprice', rfl⟩ := hafter
  refine ⟨s, answers, s', .notMatched, hrun, hs', rfl, fun hun => ?_⟩
  have heq := hun.marketPrice
  rw [hprice, hprice'] at heq
  exact absurd heq (by norm_num)

end LimitOrderBook
