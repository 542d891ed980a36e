import LimitOrderBook.Ledger.Reach
import LimitOrderBook.Ledger.Arrivals
import LimitOrderBook.Ledger.Tidy

/-!
# Stop orders

`add_order` decides once, when a stop order is submitted, whether it is parked; a parked
order is never looked at again, since nothing calls the two functions that would add it
to the book. So a change of the market price can leave a parked order behind that is no
longer dormant (`LimitOrderBook.stopsDormant_iff`), and a stop order acts if it is
processed when it is submitted, or never (`LimitOrderBook.stopsInTime_iff`).
-/

namespace LimitOrderBook

open OrderBook (Request)

/-! ### Parked orders -/

/-- **Every parked order is dormant** at the market price. -/
structure StopsDormant (s : OrderBook) : Prop where
  bids : ∃ stops, s.getBidStopOrders = .ok stops ∧
    ∀ o ∈ stops, (s.order o).stopPrice < s.getMarketPrice
  asks : ∃ stops, s.getAskStopOrders = .ok stops ∧
    ∀ o ∈ stops, s.getMarketPrice < (s.order o).stopPrice

/-- A new order leaves a market price at which every parked order is dormant. -/
def OrderBook.keepsDormant (s : OrderBook) : Request → Prop
  | .add _ a => s.parks a = true ∨ ∀ b stops, (s.stopOrders b).keys = .ok stops →
      ∀ o ∈ stops, (s.order o).isDormant (s.priceAfterMatching a (s.reaches a)) = true
  | _ => True

namespace Ledger

variable {L L' : Ledger} {o : ℕ} {r : Request}

/-- Parked orders are on their side. -/
def Sided (L : Ledger) : Prop := ∀ b, ∀ o ∈ L.stops b, (L.order o).isBuy = b

/-- Every parked order of the ledger is dormant. -/
def Dormant (L : Ledger) : Prop := ∀ b, ∀ o ∈ L.stops b, (L.order o).isDormant L.marketPrice = true

theorem Sided.step (h : L.Sided) (hwf : L.WellFormed) (hr : r.keepsOrders = true) :
    (L.step r).1.Sided := by
  have hf := hwf.stepFrame hr
  intro b x hx
  rcases hf.stops b x hx with hx | ⟨-, -, hb⟩
  · rw [(hf.keeps x (hwf.stops_lt b x hx)).isBuy]
    exact h b x hx
  · exact hb

/-- Fewer parked orders at the same market price. -/
theorem Dormant.of_subset (h : L.Dormant) (hs : Still L L') (hp : ∀ b, L'.stops b ⊆ L.stops b) :
    L'.Dormant := by
  intro b x hx
  rw [(hs.keeps x).isDormant, hs.marketPrice]
  exact h b x (hp b hx)

end Ledger

/-- What the dormant orders of a ledger mean for the book. -/
theorem Refines.stopsDormant {s : OrderBook} {L : Ledger} (h : Refines s L) (hside : L.Sided) :
    StopsDormant s ↔ L.Dormant := by
  have hbids : s.getBidStopOrders = .ok (L.stops true) := (h.stops true).keys
  have hasks : s.getAskStopOrders = .ok (L.stops false) := (h.stops false).keys
  have hstop : ∀ o, (s.order o).stopPrice = (L.order o).stopPrice := fun o =>
    congrArg OrderData.stopPrice (h.order o)
  have hmarket : s.getMarketPrice = L.marketPrice := h.marketPrice
  constructor
  · rintro ⟨⟨bids, hb, hbid⟩, ⟨asks, ha, hask⟩⟩ b o ho
    rw [hbids, Except.ok.injEq] at hb
    rw [hasks, Except.ok.injEq] at ha
    rw [OrderData.isDormant, hside b o ho]
    cases b with
    | true =>
      have hlt := hbid o (hb ▸ ho)
      rw [hstop, hmarket] at hlt
      simpa using hlt
    | false =>
      have hlt := hask o (ha ▸ ho)
      rw [hstop, hmarket] at hlt
      simpa using hlt
  · intro hd
    refine ⟨⟨_, hbids, fun o ho => ?_⟩, ⟨_, hasks, fun o ho => ?_⟩⟩
    · have hlt := hd true o ho
      rw [OrderData.isDormant, hside true o ho] at hlt
      rw [hstop, hmarket]
      simpa using hlt
    · have hlt := hd false o ho
      rw [OrderData.isDormant, hside false o ho] at hlt
      rw [hstop, hmarket]
      simpa using hlt

/-- **One request** keeps the parked orders dormant exactly under the condition. -/
theorem Refines.dormant_step {s : OrderBook} {L : Ledger} {r : Request} (h : Refines s L)
    (hr : r.keepsOrders = true) (hd : L.Dormant) : (L.step r).1.Dormant ↔ s.keepsDormant r := by
  have hf := h.wf.stepFrame hr
  cases r with
  | add now a =>
    rw [OrderBook.keepsDormant, h.parks]
    rw [Ledger.step_add] at hf ⊢
    by_cases hpark : (L.receive a).isParked L.nextOrder = true
    · rw [if_pos hpark] at hf ⊢
      refine ⟨fun _ => Or.inl hpark, fun _ b x hx => ?_⟩
      have hs := Ledger.Still.parkOrder (L.receive a) L.nextOrder
      have hmarket : ((L.receive a).parkOrder L.nextOrder).marketPrice = L.marketPrice :=
        hs.marketPrice
      rw [hmarket]
      rcases hf.stops b x hx with hx | ⟨-, rfl, -⟩
      · rw [(hf.keeps x (h.wf.stops_lt b x hx)).isDormant]
        exact hd b x hx
      · rw [(hs.keeps _).isDormant]
        exact ((Bool.and_eq_true _ _).mp hpark).2
    · rw [if_neg hpark] at hf ⊢
      have hmatch := h.wf.matched_reaches a
      have hmarket : ((L.matched a).1.settle L.nextOrder (L.matched a).2).1.marketPrice =
          s.priceAfterMatching a (s.reaches a) := by
        rw [(Ledger.Still.settle _ _ _).marketPrice, hmatch.marketPrice, h.reaches,
          h.priceAfterMatching]
      have hstops : ((L.matched a).1.settle L.nextOrder (L.matched a).2).1.stops = L.stops :=
        ((h.wf.matched a).stops_settle _ _).trans (Ledger.MatchFrame.matchLimits (L.activate a) _).stops
      rw [Ledger.Dormant, hstops, hmarket, or_iff_right hpark]
      constructor
      · intro hnew b stops hkeys o ho
        rw [h.getStopOrders, Except.ok.injEq] at hkeys
        subst hkeys
        have hdo := hnew b o ho
        rw [(hf.keeps o (h.wf.stops_lt b o ho)).isDormant] at hdo
        rw [h.order]
        exact hdo
      · intro hnew b o ho
        rw [(hf.keeps o (h.wf.stops_lt b o ho)).isDormant, ← h.order]
        exact hnew b _ (h.getStopOrders b) o ho
  | modify a => exact absurd hr (by simp [Request.keepsOrders])
  | cancel id =>
    exact iff_of_true (hd.of_subset (.cancelOrder L id) (h.wf.stops_cancelOrder id)) trivial
  | checkDate now =>
    refine iff_of_true (hd.of_subset (.checkDateOrders L now) fun b x hx => ?_) trivial
    rcases hf.stops b x hx with hx | ⟨hnew, -⟩
    · exact hx
    · exact absurd hnew (by simp [Request.newOrder])

/-- **The parked orders are dormant throughout a run** exactly if every new order that is
not parked leaves a market price at which all parked orders are dormant. -/
theorem stopsDormant_iff (instrument : String) (marketPrice : ℚ) {rs : List Request}
    (hrs : ∀ r ∈ rs, r.keepsOrders = true) :
    Throughout OrderBook.step StopsDormant (.empty instrument marketPrice) rs ↔
      Meets OrderBook.step OrderBook.keepsDormant (.empty instrument marketPrice) rs := by
  have hL := refines_empty instrument marketPrice
  have hside : (Ledger.empty instrument marketPrice).Sided := by simp [Ledger.Sided, Ledger.empty]
  refine throughout_iff_meets (I := fun s => ∃ L, Refines s L ∧ L.Sided)
    (Q := fun r => r.keepsOrders = true) (fun s r hr hI hp => ?_) hrs ⟨_, hL, hside⟩
    ((hL.stopsDormant hside).mpr (by simp [Ledger.Dormant, Ledger.empty]))
  obtain ⟨L, h, hside⟩ := hI
  obtain ⟨s', hs', h'⟩ := h.step r
  have hside' := hside.step h.wf hr
  rw [h.stopsDormant hside] at hp
  exact ⟨s', _, hs', ⟨_, h', hside'⟩, (h'.stopsDormant hside').trans (h.dormant_step hr hp)⟩

/-- A parked bid, and an ask that comes to rest. -/
theorem stopsDormant_iff_two : Throughout OrderBook.step StopsDormant (.empty "X" 10)
      [.add 0 { OrderArgs.limit "s" .buy 5 10 .stop with stopPrice := 5 },
        .add 0 (.limit "a" .sell 7 11)] ↔
    Meets OrderBook.step OrderBook.keepsDormant (.empty "X" 10)
      [.add 0 { OrderArgs.limit "s" .buy 5 10 .stop with stopPrice := 5 },
        .add 0 (.limit "a" .sell 7 11)] :=
  stopsDormant_iff "X" 10 (by decide)

/-- A trade takes the market price from 10 to 4, and the bid with stop price 5 stays
parked. -/
theorem stop_left_parked : ¬ Throughout OrderBook.step StopsDormant (.empty "X" 10)
    [.add 0 { OrderArgs.limit "s" .buy 5 10 .stop with stopPrice := 5 },
      .add 0 (.limit "b" .buy 7 4), .add 0 (.limit "a" .sell 7 4)] := by
  intro h
  obtain ⟨s, answers, hrun, hs⟩ := h _ [] (List.append_nil _).symm
  have hfacts := eq_of_ok_of_map hrun
    (f := fun r => (r.1.getBidStopOrders.toOption, (r.1.order 0).stopPrice, r.1.marketPrice))
    (b := (some [0], 5, 4)) (by decide +kernel)
  simp only [Prod.mk.injEq] at hfacts
  obtain ⟨hkeys, hstop, hmarket⟩ := hfacts
  obtain ⟨stops, hb, hlt⟩ := hs.bids
  rw [hb] at hkeys
  have hlt := hlt 0 (by simp [Option.some.inj hkeys])
  rw [OrderBook.getMarketPrice, hstop, hmarket] at hlt
  exact absurd hlt (by decide)

/-! ### Activation -/

/-- The market price has reached the stop price of an order: from below for an order to
buy, from above for one to sell. -/
def StopReached (a : OrderArgs) (marketPrice : ℚ) : Prop :=
  (a.side = .buy → a.stopPrice ≤ marketPrice) ∧ (a.side = .sell → marketPrice ≤ a.stopPrice)

/-- The order `o` was executed, or is in the queue of a level. -/
def OrderBook.Acted (s : OrderBook) (o : ℕ) : Prop :=
  (∃ e ∈ s.executions, e.incoming = o ∨ e.resting = o) ∨
    ∃ b orders, s.getOrders b = .ok orders ∧ o ∈ orders

/-- **No stop order acts early** in the run: when one that was added in the state `s₁`
has acted, the market price had reached its stop price in some state from `s₁` on,
before the last request. -/
def StopsInTime (s₀ : OrderBook) (rs : List Request) : Prop :=
  ∀ rs₁ now a rs₂ rs₃, rs = rs₁ ++ .add now a :: (rs₂ ++ rs₃) →
    a.toData.hasParam .stop = true →
    ∃ s₁ answers₁ s₂ answers₂, runAll OrderBook.step s₀ rs₁ = .ok (s₁, answers₁) ∧
      runAll OrderBook.step s₁ (.add now a :: rs₂) = .ok (s₂, answers₂) ∧
      (s₂.Acted s₁.nextOrder → ∃ xs ys s answers, .add now a :: rs₂ = xs ++ ys ∧ ys ≠ [] ∧
        runAll OrderBook.step s₁ xs = .ok (s, answers) ∧ StopReached a s.marketPrice)

/-- A new stop order is parked, or the market price has reached its stop price, or it is
dropped without a trade. -/
def OrderBook.actsInTime (s : OrderBook) : Request → Prop
  | .add _ a => a.toData.hasParam .stop = true → s.parks a = true ∨
      StopReached a s.marketPrice ∨
      (∀ r ∈ s.reaches a, tradesAt (a.toData.activated.hasParam .aon) r.2 (s.holding r.1) = false) ∧
      (a.toData.activated.hasParam .fok = true ∨ ∃ r ∈ s.reaches a,
        remaining (a.toData.activated.hasParam .aon) r.2 (s.holding r.1) = 0)
  | _ => True

namespace Ledger

variable {L L' : Ledger} {o : ℕ} {r : Request}

/-- The orders of all executions exist. -/
def ExecutionsLt (L : Ledger) : Prop :=
  ∀ e ∈ L.executions, e.incoming < L.nextOrder ∧ e.resting < L.nextOrder

theorem ExecutionsLt.step (h : L.ExecutionsLt) (hwf : L.WellFormed) (hr : r.keepsOrders = true) :
    (L.step r).1.ExecutionsLt := by
  have hf := hwf.stepFrame hr
  have hle : L.nextOrder ≤ (L.step r).1.nextOrder := by
    rw [hf.nextOrder]
    exact Nat.le_add_right _ _
  obtain ⟨es, hes, hmem⟩ := hf.executions
  intro e he
  rw [hes] at he
  rcases List.mem_append.mp he with he | he
  · exact ⟨(h e he).1.trans_le hle, (h e he).2.trans_le hle⟩
  · obtain ⟨hin, l, hl⟩ := hmem e he
    -- only a new order is executed
    have hnew : r.newOrder.isSome = true := by
      cases r with
      | add now a => rfl
      | modify a => exact absurd hr (by simp [Request.keepsOrders])
      | cancel id =>
        have hnil := hes.symm.trans (Still.cancelOrder L id).executions
        rw [List.append_right_eq_self.mp hnil] at he
        exact absurd he (by simp)
      | checkDate now =>
        have hnil := hes.symm.trans (Still.checkDateOrders L now).executions
        rw [List.append_right_eq_self.mp hnil] at he
        exact absurd he (by simp)
    have hlt : L.nextOrder < (L.step r).1.nextOrder := by
      obtain ⟨a, ha⟩ := Option.isSome_iff_exists.mp hnew
      rw [hf.nextOrder, ha]
      exact Nat.lt_succ_self _
    exact ⟨hin ▸ hlt, (hwf.queue_lt l _ hl).trans hlt⟩

/-- The order `o` is in no queue, and was never executed. -/
structure Away (L : Ledger) (o : ℕ) : Prop where
  lt : o < L.nextOrder
  queue : ∀ l, o ∉ L.queue l
  executions : ∀ e ∈ L.executions, e.incoming ≠ o ∧ e.resting ≠ o

/-- **An order that is away stays away.** -/
theorem Away.step (h : L.Away o) (hwf : L.WellFormed) (hr : r.keepsOrders = true) :
    (L.step r).1.Away o := by
  have hf := hwf.stepFrame hr
  refine ⟨?_, fun l hl => ?_, fun e he => ?_⟩
  · rw [hf.nextOrder]
    exact Nat.lt_add_right _ h.lt
  · obtain ⟨q, hsub, hq | ⟨-, hq⟩⟩ := hf.queue l
    · rw [hq] at hl
      exact h.queue l (hsub.mem hl)
    · rw [hq] at hl
      rcases List.mem_append.mp hl with hl | hl
      · exact h.queue l (hsub.mem hl)
      · exact ne_of_lt h.lt (List.mem_singleton.mp hl)
  · obtain ⟨es, hes, hmem⟩ := hf.executions
    rw [hes] at he
    rcases List.mem_append.mp he with he | he
    · exact h.executions e he
    · obtain ⟨hin, l, hl⟩ := hmem e he
      refine ⟨?_, ?_⟩
      · rw [hin]
        exact ne_of_gt h.lt
      · rintro rfl
        exact h.queue l hl

/-- A parked order is away. -/
theorem WellFormed.away_parkOrder (h : L.WellFormed) (he : L.ExecutionsLt) (a : OrderArgs) :
    ((L.receive a).parkOrder L.nextOrder).Away L.nextOrder := by
  have hs := Still.parkOrder (L.receive a) L.nextOrder
  obtain ⟨dates, hdates⟩ := (L.receive a).parkOrder_eq L.nextOrder
  refine ⟨?_, fun l hl => ?_, fun e hmem => ?_⟩
  · rw [hs.nextOrder]
    exact Nat.lt_succ_self _
  · rw [hdates] at hl
    exact (h.fresh_receive a).queue l hl
  · rw [hs.executions] at hmem
    exact ⟨ne_of_lt (he e hmem).1, ne_of_lt (he e hmem).2⟩

/-- What a new order that is not parked has to do with queues and executions: it is
executed if it trades at a level that it comes to, and it rests if it is neither filled
nor dropped. -/
theorem WellFormed.acted_settle (h : L.WellFormed) (he : L.ExecutionsLt) (a : OrderArgs) :
    ((L.matched a).1.settle L.nextOrder (L.matched a).2).1.Away L.nextOrder ↔
      (∀ r ∈ L.reaches a, tradesAt (a.toData.activated.hasParam .aon) r.2 (L.holding r.1) = false) ∧
      (a.toData.activated.hasParam .fok = true ∨ ∃ r ∈ L.reaches a,
        remaining (a.toData.activated.hasParam .aon) r.2 (L.holding r.1) = 0) := by
  have hmatch := h.matched_reaches a
  have hframe : MatchFrame (L.activate a) (L.matched a).1 := .matchLimits _ _
  have hs := Still.settle (L.matched a).1 L.nextOrder (L.matched a).2
  obtain ⟨es, hes, hnil⟩ := hmatch.executions
  have hfok : ((L.matched a).1.order L.nextOrder).hasParam .fok =
      a.toData.activated.hasParam .fok := by
    rw [hframe.hasParam, activate_order_new]
  have hfree : ∀ l, L.nextOrder ∉ (L.matched a).1.queue l := fun l hl =>
    (h.fresh_activate a).queue l ((hframe.queue l).mem hl)
  rw [← hnil, ← hmatch.filled, ← hfok]
  constructor
  · rintro ⟨-, hqueue, hexec⟩
    constructor
    · refine List.eq_nil_iff_forall_not_mem.mpr fun e hmem => ?_
      obtain ⟨es', hes', hin⟩ := (h.activate a).executions_matchLimits
        (h.fresh_activate a).queue (L.levels !a.toData.isBuy)
      obtain rfl : es = es' := List.append_cancel_left (hes.symm.trans hes')
      refine (hexec e ?_).1 (hin e hmem).1
      rw [hs.executions, hes]
      exact List.mem_append_right _ hmem
    · by_contra hcon
      obtain ⟨hno, hfilled⟩ := not_or.mp hcon
      obtain ⟨l, hl, -, -⟩ := (h.matched a).restOrder L.nextOrder
      refine hqueue l ?_
      rw [settle, if_neg hfilled, if_neg hno]
      exact hl.mem_queue.mpr (Or.inl ⟨rfl, rfl⟩)
  · rintro ⟨rfl, hend⟩
    refine ⟨?_, fun l hl => ?_, fun e hmem => ?_⟩
    · rw [hs.nextOrder, hframe.nextOrder]
      exact Nat.lt_succ_self _
    · rw [settle] at hl
      split at hl
      · exact hfree l hl
      · next hfilled =>
        rw [if_pos (hend.resolve_right hfilled)] at hl
        exact hfree l hl
    · rw [hs.executions, hes, List.append_nil] at hmem
      exact ⟨ne_of_lt (he e hmem).1, ne_of_lt (he e hmem).2⟩

end Ledger

/-- In a book an order has acted unless it is away. -/
theorem Refines.acted_iff {s : OrderBook} {L : Ledger} {o : ℕ} (h : Refines s L) (ht : L.Tidy)
    (ho : o < L.nextOrder) : s.Acted o ↔ ¬ L.Away o := by
  constructor
  · rintro (⟨e, he, heo⟩ | ⟨b, orders, hget, hmem⟩) haway
    · rw [h.executions] at he
      obtain ⟨h₁, h₂⟩ := haway.executions e he
      exact heo.elim h₁ h₂
    · rw [h.getOrders, Except.ok.injEq] at hget
      subst hget
      obtain ⟨l, -, hl⟩ := Ledger.mem_resting.mp hmem
      exact haway.queue l hl
  · intro hnot
    by_contra hacted
    refine hnot ⟨ho, fun l hl => ?_, fun e he => ?_⟩
    · exact hacted (Or.inr ⟨_, _, h.getOrders _, ht.inPlace.mem_resting_iff.mpr ⟨rfl, l, hl⟩⟩)
    · refine ⟨fun hin => ?_, fun hre => ?_⟩
      · exact hacted (Or.inl ⟨e, h.executions ▸ he, Or.inl hin⟩)
      · exact hacted (Or.inl ⟨e, h.executions ▸ he, Or.inr hre⟩)

/-- **A new stop order acts in its own call** exactly if it is not parked, and trades or is
not dropped. -/
theorem Refines.acted_add {s s' : OrderBook} {L : Ledger} {now : ℤ} {a : OrderArgs}
    (h : Refines s L) (ht : L.Tidy) (he : L.ExecutionsLt)
    (h' : Refines s' (L.step (.add now a)).1) : s'.Acted s.nextOrder ↔ ¬ (s.parks a = true ∨
      (∀ r ∈ s.reaches a, tradesAt (a.toData.activated.hasParam .aon) r.2 (s.holding r.1) = false) ∧
      (a.toData.activated.hasParam .fok = true ∨ ∃ r ∈ s.reaches a,
        remaining (a.toData.activated.hasParam .aon) r.2 (s.holding r.1) = 0)) := by
  have ht' : (L.step (.add now a)).1.Tidy := ht.step rfl
  have hlt : L.nextOrder < (L.step (.add now a)).1.nextOrder := by
    rw [(ht.wf.stepFrame (r := .add now a) rfl).nextOrder]
    exact Nat.lt_succ_self _
  rw [h.nextOrder, h'.acted_iff ht' hlt, h.parks, h.reaches, h.holding]
  refine not_congr ?_
  rw [Ledger.step_add]
  by_cases hpark : (L.receive a).isParked L.nextOrder = true
  · rw [if_pos hpark]
    exact iff_of_true (ht.wf.away_parkOrder he a) (Or.inl hpark)
  · rw [if_neg hpark, or_iff_right hpark]
    exact ht.wf.acted_settle he a

/-- **No stop order acts early in a run** exactly if every new stop order is parked, or
comes when the market price has reached its stop price, or is dropped without a trade. -/
theorem stopsInTime_iff (instrument : String) (marketPrice : ℚ) {rs : List Request}
    (hrs : ∀ r ∈ rs, r.keepsOrders = true) :
    StopsInTime (.empty instrument marketPrice) rs ↔
      Meets OrderBook.step OrderBook.actsInTime (.empty instrument marketPrice) rs := by
  -- where a run comes
  have hreach : ∀ xs, (∀ r ∈ xs, r.keepsOrders = true) → ∃ s answers L,
      runAll OrderBook.step (.empty instrument marketPrice) xs = .ok (s, answers) ∧
      Refines s L ∧ L.Tidy ∧ L.ExecutionsLt := fun xs hxs =>
    (refines_empty instrument marketPrice).run_invariant
      (J := fun L => L.Tidy ∧ L.ExecutionsLt)
      (fun _ _ _ _ hJ hr => ⟨hJ.1.step hr, hJ.2.step hJ.1.wf hr⟩)
      ⟨Ledger.tidy_empty instrument marketPrice, by simp [Ledger.ExecutionsLt, Ledger.empty]⟩
      (meets_of_forall hxs _)
  constructor
  · intro h
    refine meets_of_splits fun xs r ys s answers hsplit hrun => ?_
    have hxs : ∀ r ∈ xs, r.keepsOrders = true := fun r hr => hrs r (by simp [hsplit, hr])
    obtain ⟨s', answers', L, hrun', hL, ht, he⟩ := hreach xs hxs
    obtain ⟨rfl, -⟩ : s' = s ∧ answers' = answers := by simpa [hrun'] using hrun
    cases r with
    | add now a =>
      intro hstop
      obtain ⟨s₁, answers₁, s₂, answers₂, hrun₁, hrun₂, hact⟩ := h xs now a [] ys hsplit hstop
      obtain ⟨rfl, -⟩ : s' = s₁ ∧ answers' = answers₁ := by simpa [hrun'] using hrun₁
      obtain ⟨s'', hs'', h''⟩ := hL.step (.add now a)
      obtain ⟨rfl, -⟩ : s'' = s₂ ∧ _ = answers₂ := by simpa [runAll, hs''] using hrun₂
      by_contra hcon
      simp only [not_or] at hcon
      obtain ⟨hpark, hreached, hdropped⟩ := hcon
      obtain ⟨zs, ws, s, answers, hzs, hws, hrunzs, hsr⟩ := hact
        ((hL.acted_add ht he h'').mpr (not_or.mpr ⟨hpark, hdropped⟩))
      -- the only state before the call is the one in which the order was submitted
      obtain rfl : zs = [] := by
        rcases zs with _ | ⟨z, zs⟩
        · rfl
        · exact absurd (List.cons.inj hzs).2.symm (by simp [hws])
      obtain ⟨rfl, -⟩ : s' = s ∧ [] = answers := by simpa [runAll] using hrunzs
      exact hreached hsr
    | modify a => trivial
    | cancel id => trivial
    | checkDate now => trivial
  · intro hmeets rs₁ now a rs₂ rs₃ hsplit hstop
    have hrs₁ : ∀ r ∈ rs₁, r.keepsOrders = true := fun r hr => hrs r (by simp [hsplit, hr])
    have hrs₂ : ∀ r ∈ rs₂, r.keepsOrders = true := fun r hr => hrs r (by simp [hsplit, hr])
    obtain ⟨s₁, answers₁, L₁, hrun₁, hL₁, ht₁, he₁⟩ := hreach rs₁ hrs₁
    rw [hsplit] at hmeets
    obtain ⟨hcond, -⟩ := hmeets.of_append.2 s₁ answers₁ hrun₁
    obtain ⟨s', hs', hL'⟩ := hL₁.step (.add now a)
    have ht' : (L₁.step (.add now a)).1.Tidy := ht₁.step rfl
    have hlt : L₁.nextOrder < (L₁.step (.add now a)).1.nextOrder := by
      rw [(ht₁.wf.stepFrame (r := .add now a) rfl).nextOrder]
      exact Nat.lt_succ_self _
    obtain ⟨s₂, answers₂, L₂, hrun₂, hL₂, ht₂, hlt₂, haway⟩ := hL'.run_invariant
      (J := fun L => L.Tidy ∧ L₁.nextOrder < L.nextOrder ∧
        ((L₁.step (.add now a)).1.Away L₁.nextOrder → L.Away L₁.nextOrder))
      (fun _ L r _ hJ hr => by
        have hnext := (hJ.1.wf.stepFrame hr).nextOrder
        exact ⟨hJ.1.step hr, by omega, fun ha => (hJ.2.2 ha).step hJ.1.wf hr⟩)
      ⟨ht', hlt, id⟩ (meets_of_forall hrs₂ _)
    refine ⟨s₁, answers₁, s₂, _, hrun₁, runAll_cons hs' hrun₂, fun hact => ?_⟩
    refine ⟨[], _, s₁, [], rfl, List.cons_ne_nil _ _, rfl, ?_⟩
    -- the order acted in the call that added it
    have hacted : s'.Acted s₁.nextOrder := by
      rw [hL₁.nextOrder] at hact ⊢
      rw [hL'.acted_iff ht' hlt]
      exact fun ha => (hL₂.acted_iff ht₂ hlt₂).mp hact (haway ha)
    have hnot := (hL₁.acted_add ht₁ he₁ hL').mp hacted
    rcases hcond hstop with hpark | hreached | hdropped
    · exact absurd (Or.inl hpark) hnot
    · exact hreached
    · exact absurd (Or.inr hdropped) hnot

/-- A bid that is parked, and an ask. -/
theorem stopsInTime_iff_two : StopsInTime (.empty "X" 10)
      [.add 0 { OrderArgs.limit "s" .buy 5 10 .stop with stopPrice := 5 },
        .add 0 (.limit "a" .sell 7 11)] ↔
    Meets OrderBook.step OrderBook.actsInTime (.empty "X" 10)
      [.add 0 { OrderArgs.limit "s" .buy 5 10 .stop with stopPrice := 5 },
        .add 0 (.limit "a" .sell 7 11)] :=
  stopsInTime_iff "X" 10 (by decide)

/-- A bid with the stop price 15 is put into a queue at the market price 10. -/
theorem stop_acts_early : ¬ StopsInTime (.empty "X" 10)
    [.add 0 { OrderArgs.limit "s" .buy 5 10 .stop with stopPrice := 15 }] := by
  intro h
  obtain ⟨s₁, answers₁, s₂, answers₂, hrun₁, hrun₂, hact⟩ := h [] 0 _ [] [] rfl (by decide)
  obtain ⟨rfl, rfl⟩ : OrderBook.empty "X" 10 = s₁ ∧ [] = answers₁ := by simpa [runAll] using hrun₁
  have hbids := eq_of_ok_of_map hrun₂ (f := fun r => r.1.getBids.toOption) (b := some [0])
    (by decide +kernel)
  rcases hb : s₂.getBids with _ | bids
  · rw [hb] at hbids
    exact absurd hbids (by simp [Except.toOption])
  rw [hb] at hbids
  obtain ⟨xs, ys, s, answers, hxs, hys, hrun, hreached⟩ := hact
    (Or.inr ⟨true, bids, hb, by simp [Option.some.inj hbids, OrderBook.empty]⟩)
  obtain rfl : xs = [] := by
    rcases xs with _ | ⟨x, xs⟩
    · rfl
    · exact absurd (List.cons.inj hxs).2.symm (by simp [hys])
  obtain ⟨rfl, -⟩ : OrderBook.empty "X" 10 = s ∧ [] = answers := by simpa [runAll] using hrun
  have hle : (15 : ℚ) ≤ 10 := hreached.1 rfl
  exact absurd hle (by decide)

end LimitOrderBook
