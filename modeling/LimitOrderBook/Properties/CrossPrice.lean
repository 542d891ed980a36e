import LimitOrderBook.Ledger.Idle
import Mathlib.Tactic.NormNum

/-!
# No execution outside the limits

The cross price is computed from the incoming order and the level, not from the
resting order. It is within the limits of both as long as every order rests on its
own side, in a level whose price it accepts (`LimitOrderBook.Ledger.InLimits`). New
orders do. `modify_order` puts the new order at the price of the old one, whatever
its own price is; and when its side has no level of that price, it puts the level of
the old order, with the new order as its only one, into the tree of the other side
too. The statement is about runs in which neither happens
(`LimitOrderBook.executions_within_limits`).
-/

namespace LimitOrderBook

open OrderBook (Request)

/-- **The execution is within the limits** of both orders, which are on opposite
sides. -/
structure WithinLimits (s : OrderBook) (e : Execution) : Prop where
  sides : (s.order e.incoming).isBuy ≠ (s.order e.resting).isBuy
  buyer : e.price ≤ (s.order (e.buyer s)).price
  seller : (s.order (e.seller s)).price ≤ e.price

/-- A `modify_order` that finds a live order which is not a stop order: the side of
the new order has a level at the price of the old one, and that price is acceptable
to the new order. -/
def OrderBook.ModifiesInPlace (s : OrderBook) (a : OrderArgs) : Prop :=
  ∀ e l, s.orders.lookup a.id = some e → (s.order e).cancelled = false →
    (s.order e).isFullfilled = false → (s.order e).hasParam .stop = false →
    (s.order e).parent = some l →
    a.toData.accepts (s.limit l).toLimitData ∧
      ∃ levels k, (s.limits a.toData.isBuy).keys = .ok levels ∧ k ∈ levels ∧
        (s.limit k).price = (s.limit l).price

/-- The condition on a request. -/
def OrderBook.modifiesInPlace (s : OrderBook) : Request → Prop
  | .modify a => s.ModifiesInPlace a
  | _ => True

theorem accepts_crossPrice {o : OrderData} {l : LimitData} {p : ℚ}
    (h : OrderBook.calculateCrossPrice o l = some p) :
    if o.isBuy then l.price ≤ p ∧ p ≤ o.price else o.price ≤ p ∧ p = l.price := by
  have haccept := accepts_of_crossPrice h
  rw [OrderData.accepts] at haccept
  rw [OrderBook.calculateCrossPrice] at h
  split at h
  · exact absurd h (by simp)
  · cases hb : o.isBuy <;> cases ht : o.type <;> simp [hb, ht] at h haccept ⊢ <;> subst h
    · exact ⟨haccept, rfl⟩
    · exact ⟨haccept, rfl⟩
    · exact ⟨le_rfl, haccept⟩
    · exact ⟨haccept, le_rfl⟩

namespace Ledger

/-- The orders of an execution are on opposite sides, and its price is within their
limits. -/
def Within (L : Ledger) (e : Execution) : Prop :=
  if (L.order e.incoming).isBuy then
    (L.order e.resting).isBuy = false ∧ e.price ≤ (L.order e.incoming).price ∧
      (L.order e.resting).price ≤ e.price
  else (L.order e.resting).isBuy = true ∧ e.price ≤ (L.order e.resting).price ∧
    (L.order e.incoming).price ≤ e.price

/-- Every order rests on its side at a price it accepts, and so far nothing was
executed outside the limits. -/
structure InLimits (L : Ledger) : Prop where
  wf : L.WellFormed
  disjoint : ∀ l, l ∈ L.levels true → l ∉ L.levels false
  side : ∀ b, ∀ l ∈ L.levels b, ∀ o ∈ L.queue l, (L.order o).isBuy = b
  accepts : ∀ b, ∀ l ∈ L.levels b, ∀ o ∈ L.queue l, (L.order o).accepts (L.limit l)
  exists_lt : ∀ e ∈ L.executions, e.incoming < L.nextOrder ∧ e.resting < L.nextOrder
  executed : ∀ e ∈ L.executions, L.Within e

theorem inLimits_empty (instrument : String) (marketPrice : ℚ) :
    (empty instrument marketPrice).InLimits where
  wf := wellFormed_empty instrument marketPrice
  disjoint := by simp [empty]
  side := by simp [empty]
  accepts := by simp [empty]
  exists_lt := by simp [empty]
  executed := by simp [empty]

theorem accepts_congr {x y : OrderData} {k l : LimitData} (hs : x.isBuy = y.isBuy)
    (hp : x.price = y.price) (hl : k.price = l.price) : x.accepts k ↔ y.accepts l := by
  rw [OrderData.accepts, OrderData.accepts, hs, hp, hl]

namespace InLimits

variable {L L' : Ledger} (h : L.InLimits) {o c l : ℕ} {b : Bool} {p : ℚ}

include h

/-- What may change: quantities and flags, orders that leave queues, prices of
objects that are not levels; a new execution is within the limits. -/
theorem congr (hwf : L'.WellFormed) (hlev : L'.levels = L.levels)
    (hold : ∀ x < L.nextOrder, (L'.order x).Keeps (L.order x)) (hn : L.nextOrder ≤ L'.nextOrder)
    (hq : ∀ l, L'.queue l ⊆ L.queue l) (hp : ∀ l, (L'.limit l).price = (L.limit l).price)
    (he : ∀ e ∈ L'.executions, e ∈ L.executions ∨
      (e.incoming < L'.nextOrder ∧ e.resting < L'.nextOrder) ∧ L'.Within e) : L'.InLimits where
  wf := hwf
  disjoint := by
    rw [hlev]
    exact h.disjoint
  side := fun b l hl x hx => by
    rw [hlev] at hl
    rw [(hold x (h.wf.queue_lt l x (hq l hx))).isBuy]
    exact h.side b l hl x (hq l hx)
  accepts := fun b l hl x hx => by
    rw [hlev] at hl
    have hk := hold x (h.wf.queue_lt l x (hq l hx))
    exact (accepts_congr hk.isBuy hk.price (hp l)).mpr (h.accepts b l hl x (hq l hx))
  exists_lt := fun e hex => by
    rcases he e hex with hex | hex
    · exact ⟨(h.exists_lt e hex).1.trans_le hn, (h.exists_lt e hex).2.trans_le hn⟩
    · exact hex.1
  executed := fun e hex => by
    rcases he e hex with hex | hex
    · obtain ⟨hi, hr⟩ := h.exists_lt e hex
      rw [Within, (hold _ hi).isBuy, (hold _ hr).isBuy, (hold _ hi).price, (hold _ hr).price]
      exact h.executed e hex
    · exact hex.2

theorem of_still (hs : Still L L') (hwf : L'.WellFormed) (hlev : L'.levels = L.levels)
    (hq : ∀ l, L'.queue l ⊆ L.queue l) (hp : ∀ l, (L'.limit l).price = (L.limit l).price) :
    L'.InLimits :=
  h.congr hwf hlev (fun x _ => hs.keeps x) hs.nextOrder.ge hq hp fun _ hex =>
    Or.inl (hs.executions ▸ hex)

/-- **One exchange** with an order of the opposite side. -/
theorem fillOrder (hl : l ∈ L.levels (!(L.order o).isBuy)) (ho : o < L.nextOrder)
    (hfree : ∀ x, o ∉ L.queue x)
    (hcross : OrderBook.calculateCrossPrice (L.order o) (L.limit l) = some p)
    (hc : c ∈ L.queue l) : (L.fillOrder c o p).InLimits := by
  have hframe := MatchFrame.fillOrder L c o p
  have hco : c ≠ o := fun he => hfree l (he ▸ hc)
  refine h.congr h.wf.fillOrder hframe.levels (fun x _ => hframe.keeps x) hframe.nextOrder.ge
    (fun l => (hframe.queue l).subset) hframe.price fun e he => ?_
  rw [h.wf.executions_fillOrder hc hco] at he
  split at he
  · rcases List.mem_append.mp he with he | he
    · exact Or.inl he
    · rw [List.mem_singleton] at he
      subst he
      refine Or.inr ⟨?_, ?_⟩
      · rw [hframe.nextOrder]
        exact ⟨ho, h.wf.queue_lt l c hc⟩
      · have hprice := accepts_crossPrice hcross
        have hside := h.side _ l hl c hc
        have haccept := h.accepts _ l hl c hc
        rw [Within, (hframe.keeps o).isBuy, (hframe.keeps c).isBuy, (hframe.keeps o).price,
          (hframe.keeps c).price]
        rw [OrderData.accepts, hside] at haccept
        cases hb : (L.order o).isBuy <;> simp only [hb, Bool.not_true, Bool.not_false, if_true,
          Bool.false_eq_true, if_false] at hprice hside haccept ⊢
        · exact ⟨hside, hprice.2.trans_le haccept, hprice.1⟩
        · exact ⟨hside, hprice.2, haccept.trans hprice.1⟩
  · exact Or.inl he

/-- Matching a new order against the opposite side. -/
theorem matchLimits (ho : o < L.nextOrder) (hfree : ∀ x, o ∉ L.queue x) (hb : (L.order o).isBuy = b) :
    (L.matchLimits o (L.levels !b)).1.InLimits := by
  refine (matchLimits_invariant
    (J := fun L' => L'.InLimits ∧ MatchFrame L L') (fun L' l c p hl hcross _ hJ hc _ => ?_)
    (fun L' p hJ => ⟨{ hJ.1 with wf := { hJ.1.wf with } }, hJ.2.trans (.setMarketPrice L' p)⟩)
    h.wf hfree ⟨h, .refl L⟩).1.1
  refine ⟨hJ.1.fillOrder ?_ ?_ (fun x hx => hfree x ((hJ.2.queue x).mem hx)) hcross hc,
    hJ.2.trans (.fillOrder L' c o p)⟩
  · rw [hJ.2.levels, (hJ.2.keeps o).isBuy, hb]
    exact hl
  · rw [hJ.2.nextOrder]
    exact ho

/-! ### Requests -/

theorem allocOrder (x : OrderData) : (L.allocOrder x).InLimits :=
  h.congr (h.wf.allocOrder x) rfl
    (fun y hy => by
      rw [allocOrder_order, Function.update_of_ne (ne_of_lt hy)]
      exact .refl _)
    (Nat.le_succ _) (fun _ => List.Subset.refl _) (fun _ => rfl) fun _ => Or.inl

theorem receive (a : OrderArgs) : (L.receive a).InLimits :=
  { h.allocOrder a.toData with wf := h.wf.receive a }

theorem updateData {f : OrderData → OrderData} (hf : ∀ x, (f x).Keeps x) :
    (L.updateData o f).InLimits :=
  h.congr (h.wf.updateData hf) rfl (fun x _ => L.keeps_updateData o hf x) le_rfl
    (fun _ => List.Subset.refl _) (fun _ => rfl) fun _ => Or.inl

theorem matched (a : OrderArgs) : (L.matched a).1.InLimits := by
  have hfresh := h.wf.fresh_activate a
  refine ((h.receive a).updateData .activated).matchLimits hfresh.lt hfresh.queue ?_
  rw [← activate, activate_order_new, OrderData.activated_isBuy]

theorem parkOrder (hf : L.Fresh o) : (L.parkOrder o).InLimits := by
  have hwf := hf.wellFormed_parkOrder h.wf
  obtain ⟨dates, hdates⟩ := L.parkOrder_eq o
  rw [hdates] at hwf ⊢
  exact { h with wf := hwf }

/-- **An order is placed** on its side, in a level whose price it accepts. -/
theorem of_placed (hl : Placed L L' o l b) (hwf : L'.WellFormed) (hside : (L.order o).isBuy = b)
    (haccept : (L.order o).accepts (L'.limit l)) : L'.InLimits := by
  have hdisj := hl.disjoint h.disjoint
  -- an order that was in a queue is in the queue of an old level
  have hold : ∀ c, ∀ x ∈ L'.levels c, ∀ y ∈ L.queue x, x ∈ L.levels c := by
    intro c x hx y hy
    rcases (hl.levels c x).mp hx with ⟨rfl, rfl⟩ | hx
    · rcases hl.old_or_new with hx | ⟨-, hempty⟩
      · exact hx
      · rw [hempty] at hy
        exact absurd hy (by simp)
    · exact hx
  refine ⟨hwf, hdisj, fun c x hx y hy => ?_, fun c x hx y hy => ?_, ?_, ?_⟩
  · rw [hl.order]
    rcases hl.mem_queue.mp hy with ⟨rfl, rfl⟩ | hy
    · exact hside.trans (side_unique hdisj hl.mem hx)
    · exact h.side c x (hold c x hx y hy) y hy
  · rw [hl.order]
    rcases hl.mem_queue.mp hy with ⟨rfl, rfl⟩ | hy
    · exact haccept
    · have hx' := hold c x hx y hy
      exact (accepts_congr rfl rfl (hl.price c x hx')).mpr (h.accepts c x hx' y hy)
  · rw [hl.executions, hl.nextOrder]
    exact h.exists_lt
  · intro e he
    rw [hl.executions] at he
    rw [Within, hl.order]
    exact h.executed e he

theorem settle (hf : L.Fresh o) (filled : Bool) : (L.settle o filled).1.InLimits := by
  rw [Ledger.settle]
  split
  · exact h
  · split
    · exact h.updateData .cancel
    · obtain ⟨l, hl, hprice, -⟩ := h.wf.restOrder o
      refine h.of_placed hl (hf.wellFormed_restOrder h.wf) rfl ?_
      rw [OrderData.accepts, hprice]
      split <;> exact le_rfl

theorem displace (e l : ℕ) : (L.displace e l).InLimits := by
  have hframe := MatchFrame.displace L e l
  exact h.congr h.wf.displace rfl (fun x _ => hframe.keeps x) le_rfl
    (fun l => (hframe.queue l).subset) hframe.price fun _ => Or.inl

theorem cancelOrder (id : String) : (L.cancelOrder id).1.InLimits := by
  rcases h.wf.cancelOrder_cases id with ⟨-, he⟩ | ⟨e, -, -, he⟩ | ⟨e, l, -, -, -, he⟩ <;> rw [he]
  · exact h
  · have hc := h.updateData (o := e) .cancel
    exact { hc with wf := { hc.wf.removeStopOrder (o := e) with } }
  · have hc := (h.updateData (o := e) .cancel).displace e l
    exact { hc with wf := { hc.wf with } }

/-- `modify_order`, under the condition that it finds a level for the new order. -/
theorem modifyOrder (hf : L.Fresh o)
    (hplace : ∀ e l, L.orders.lookup (L.order o).id = some e → (L.order e).cancelled = false →
      (L.order e).isFullfilled = false → (L.order e).hasParam .stop = false →
      L.parent e = some l → (L.order o).accepts (L.limit l) ∧
        ∃ k ∈ L.levels (L.order o).isBuy, (L.limit k).price = (L.limit l).price) :
    (L.modifyOrder o).1.InLimits := by
  rcases L.modifyOrder_cases o with ⟨-, heq⟩ | ⟨e, he, hcan, hful, heq⟩ <;> rw [heq]
  · exact h
  · have hc := h.updateData (o := e) .cancel
    have heo : e ≠ o := fun heo => hf.entry _ (heo ▸ he)
    have ho : (L.updateData e .cancel).order o = L.order o := by simp [Ne.symm heo]
    have hstop : ((L.updateData e .cancel).order e).hasParam .stop = (L.order e).hasParam .stop := by
      simp [OrderData.hasParam, OrderData.cancel]
    rw [replaceOrder, hstop, ho]
    split
    · -- the new order is parked
      have hwf := hc.wf.removeStopOrder (o := o)
      exact { hc with wf := { hwf.addStopOrder (b := _) hf.lt with } }
    · next hs =>
      obtain ⟨l, hl⟩ := h.wf.entry_parent _ e he
      have hl' : (L.updateData e .cancel).parent e = some l := hl
      obtain ⟨haccept, k, hk, hprice⟩ := hplace e l he hcan hful (by simpa using hs) hl
      rw [removeLimitOrder, hl']
      have hd := hc.displace e l
      have hframe := MatchFrame.displace (L.updateData e .cancel) e l
      have hlevel : (((L.updateData e .cancel).displace e l).limit k).price =
          (((L.updateData e .cancel).displace e l).limit l).price := by
        rw [hframe.price, hframe.price]
        exact hprice
      obtain ⟨hplaced, hpl⟩ := hd.wf.addLimitOrder_old (b := (L.order o).isBuy) o hk hlevel
      have hwf := hd.wf.addLimitOrder (b := (L.order o).isBuy) hf.lt
        (h.wf.parent_lt e l hl) fun x hx => hf.queue x ((hframe.queue x).mem hx)
      have hfinal := hd.of_placed hplaced hwf (by rw [displace_order, ho]) ?_
      · exact { hfinal with wf := { hfinal.wf with } }
      · rw [displace_order, ho]
        refine (accepts_congr rfl rfl ?_).mpr haccept
        rw [hpl, hframe.price]
        rfl

theorem checkDateOrders (now : ℤ) : (L.checkDateOrders now).InLimits :=
  checkDateOrders_rule (J := InLimits) (fun _ _ hJ _ _ => hJ.cancelOrder _)
    (fun _ _ hJ => { hJ with wf := hJ.wf.eraseDate }) h

/-- **Every request keeps executions within the limits**, if a modified order finds a
level. -/
theorem step {s : OrderBook} (hs : Refines s L) {r : Request} (hr : s.modifiesInPlace r) :
    (L.step r).1.InLimits := by
  cases r with
  | add now a =>
    rw [step_add]
    split
    · exact (h.receive a).parkOrder (h.wf.fresh_receive a)
    · exact (h.matched a).settle ((h.wf.fresh_activate a).of_frame (.matchLimits _ _)) _
  | modify a =>
    have hf : (L.allocOrder a.toData).Fresh L.nextOrder := { h.wf.fresh_receive a with }
    have hnew := L.allocOrder_order_new a.toData
    refine (h.allocOrder a.toData).modifyOrder hf fun e l he hcan hful hstop hpar => ?_
    rw [hnew] at he ⊢
    have hlt : e < L.nextOrder := h.wf.entry_lt _ e he
    have hold := allocOrder_order_old hlt a.toData
    have hpar : L.parent e = some l := by
      rwa [allocOrder_parent, Function.update_of_ne (ne_of_lt hlt)] at hpar
    rw [hold, ← hs.order e] at hcan hful hstop
    obtain ⟨haccept, levels, k, hkeys, hk, hprice⟩ := hr e l (hs.orders ▸ he) hcan hful hstop
      ((hs.parent e).trans hpar)
    rw [(hs.levels _).keys, Except.ok.injEq] at hkeys
    subst hkeys
    refine ⟨hs.limit l ▸ haccept, k, hk, ?_⟩
    rw [allocOrder_limit, allocOrder_limit, ← hs.limit k, ← hs.limit l]
    exact hprice
  | cancel id => exact h.cancelOrder id
  | checkDate now => exact h.checkDateOrders now

end InLimits

end Ledger

/-- **No execution outside the limits**, in every run of new, modified and cancelled
orders and checks of dates in which each `modify_order` of a live order finds a
level at the price of the old one, on the side of the new one, and that price is
acceptable to the new order. -/
theorem executions_within_limits (instrument : String) (marketPrice : ℚ) {rs : List Request}
    (hrs : Meets OrderBook.step OrderBook.modifiesInPlace (.empty instrument marketPrice) rs) :
    ∃ s answers, runAll OrderBook.step (.empty instrument marketPrice) rs = .ok (s, answers) ∧
      ∀ e ∈ s.executions, WithinLimits s e := by
  obtain ⟨s, answers, L, hrun, hL, h⟩ := (refines_empty instrument marketPrice).run_invariant
    (J := Ledger.InLimits) (fun _ _ _ hs hJ hr => hJ.step hs hr)
    (Ledger.inLimits_empty instrument marketPrice) hrs
  have hbuy : ∀ x, (s.order x).isBuy = (L.order x).isBuy := fun x =>
    congrArg OrderData.isBuy (hL.order x)
  have hprice : ∀ x, (s.order x).price = (L.order x).price := fun x =>
    congrArg OrderData.price (hL.order x)
  refine ⟨s, answers, hrun, fun e he => ?_⟩
  rw [hL.executions] at he
  have hwithin := h.executed e he
  rw [Ledger.Within] at hwithin
  by_cases hb : (L.order e.incoming).isBuy = true
  · rw [if_pos hb] at hwithin
    refine ⟨?_, ?_, ?_⟩
    · rw [hbuy, hbuy, hb, hwithin.1]
      simp
    · rw [Execution.buyer, hbuy, if_pos hb, hprice]
      exact hwithin.2.1
    · rw [Execution.seller, hbuy, if_pos hb, hprice]
      exact hwithin.2.2
  · rw [if_neg hb] at hwithin
    refine ⟨?_, ?_, ?_⟩
    · rw [hbuy, hbuy, hwithin.1]
      exact hb
    · rw [Execution.buyer, hbuy, if_neg hb, hprice]
      exact hwithin.2.1
    · rw [Execution.seller, hbuy, if_neg hb, hprice]
      exact hwithin.2.2

/-- An ask is modified to a lower price, in the level it has. -/
theorem executions_within_limits_modify : ∃ s answers, runAll OrderBook.step (.empty "X" 10)
      [.add 0 (.limit "a" .sell 5 10), .modify (.limit "a" .sell 3 9)] = .ok (s, answers) ∧
    ∀ e ∈ s.executions, WithinLimits s e := by
  refine executions_within_limits "X" 10 ⟨trivial, fun s answer hs => ⟨?_, fun _ _ _ => trivial⟩⟩
  have hfacts := eq_of_ok_of_map hs (f := fun r => (r.1.orders.lookup "a", (r.1.order 0).parent,
    (r.1.limit 0).price, (r.1.limits false).keys.toOption))
    (b := (some 0, some 0, 10, some [0])) (by decide +kernel)
  simp only [Prod.mk.injEq] at hfacts
  obtain ⟨hlook, hpar, hprice, hkeys⟩ := hfacts
  intro e l he _ _ _ hl
  obtain rfl : e = 0 := Option.some.inj (he.symm.trans hlook)
  obtain rfl : l = 0 := Option.some.inj (hl.symm.trans hpar)
  obtain ⟨levels, hlevels, rfl⟩ : ∃ levels, (s.limits false).keys = .ok levels ∧ levels = [0] := by
    rcases hk : (s.limits false).keys with _ | levels
    · rw [hk] at hkeys
      exact absurd hkeys (by simp [Except.toOption])
    · rw [hk] at hkeys
      exact ⟨levels, rfl, Option.some.inj hkeys⟩
  refine ⟨?_, [0], 0, hlevels, by simp, rfl⟩
  rw [OrderData.accepts, hprice, if_neg (by decide)]
  norm_num [OrderArgs.toData, OrderArgs.limit]

/-- An ask at 10 is modified to 12 and stays in its level; a bid at 10 then trades
with it. -/
theorem execution_below_ask : ∃ s answers, runAll OrderBook.step (.empty "X" 10)
      [.add 0 (.limit "a" .sell 5 10), .modify (.limit "a" .sell 5 12),
        .add 0 (.limit "b" .buy 5 10)] = .ok (s, answers) ∧
    ¬ ∀ e ∈ s.executions, WithinLimits s e := by
  obtain ⟨⟨s, answers⟩, hrun, hs⟩ := exists_ok_of_map (f := fun r =>
      (r.1.executions, (r.1.order 2).isBuy, (r.1.order 1).price))
    (b := ([⟨2, 1, 5, 10⟩], true, 12)) (show (runAll OrderBook.step (.empty "X" 10)
      [.add 0 (.limit "a" .sell 5 10), .modify (.limit "a" .sell 5 12),
        .add 0 (.limit "b" .buy 5 10)]).toOption.map _ = _ by decide +kernel)
  simp only [Prod.mk.injEq] at hs
  obtain ⟨hex, hbuy, hprice⟩ := hs
  refine ⟨s, answers, hrun, fun h => ?_⟩
  have hseller := (h ⟨2, 1, 5, 10⟩ (by simp [hex])).seller
  rw [Execution.seller, if_pos hbuy, hprice] at hseller
  norm_num at hseller

end LimitOrderBook
