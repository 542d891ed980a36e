import LimitOrderBook.Ledger.Quantities

/-!
# The book is never crossed

The matching loop visits the levels of the opposite side best price first and
empties every one it passes, so an order that comes to rest leaves nothing behind
that it could have traded with (`LimitOrderBook.Ledger.Traded.out_of_reach`). In
every run of new orders of positive quantity, cancellations and checks of dates all
bids are below all asks (`LimitOrderBook.bids_below_asks`).
-/

namespace LimitOrderBook

open OrderBook (Request)

namespace Ledger

variable {L L₀ : Ledger} {o : ℕ}

/-- **What an order leaves behind is out of its reach**, when it was not filled and
is not all-or-nothing. -/
theorem Traded.out_of_reach {buy : Bool} (h : Traded L₀ L o !buy) (h₀ : L₀.WellFormed)
    (hfree : ∀ x, o ∉ L₀.queue x) (hbuy : (L₀.order o).isBuy = buy)
    (haon : (L₀.order o).hasParam .aon = false) (ho : 0 < L.qty o)
    (hf : (L.matchLimits o (L₀.levels !buy)).2 = false) {l : ℕ} (hl : l ∈ L₀.levels !buy)
    (hq : (L.matchLimits o (L₀.levels !buy)).1.queue l ≠ []) :
    outOfReach buy (L₀.order o).price (L₀.limit l).price := by
  have hnoskip : ∀ {L l}, Traded L₀ L o (!buy) → L.skips o l = false := by
    intro L l hL
    rw [skips, hL.frame.hasParam, haon, Bool.false_and]
  have hmem : ∀ {done rest : List ℕ} {k}, L₀.levels (!buy) = done ++ k :: rest →
      k ∈ L₀.levels (!buy) := by
    intro done rest k hk
    simp [hk]
  rcases matchLimits_rule (o := o)
    (P := fun L rest => Traded L₀ L o (!buy) ∧ 0 < L.qty o ∧
      ∃ done, L₀.levels (!buy) = done ++ rest ∧ ∀ k ∈ done, L.queue k = [])
    (Q := fun _ => True)
    (fun L k rest hP hs => absurd hs (by simp [hnoskip hP.1])) (fun _ _ _ _ _ _ _ _ => trivial)
    (fun L k rest p => by
      rintro ⟨hL, hpos, done, hdone, hempty⟩ - - hne
      have hL' := hL.processLimitOrder (p := p) h₀ hfree (hmem hdone)
      have hpos' : 0 < (L.processLimitOrder k o p).qty o := lt_of_le_of_ne hL'.nonneg (Ne.symm hne)
      refine ⟨hL'.setMarketPrice p, hpos', done ++ [k], by simp [hdone], fun x hx => ?_⟩
      rcases List.mem_append.mp hx with hx | hx
      · have hsub := (MatchFrame.processOrders (o := o) (p := p) L (L.queue k)).queue x
        rw [hempty x hx] at hsub
        exact List.sublist_nil.mp hsub
      · rw [List.mem_singleton.mp hx]
        exact hL.empties h₀ hfree (hmem hdone) haon hpos')
    L (L₀.levels !buy) ⟨h, ho, [], rfl, by simp⟩ with
    ⟨ht, -⟩ | ⟨-, rest, ⟨hL, -, done, hdone, hempty⟩, hstop⟩
  · exact absurd ht (by simp [hf])
  · -- the level is one of those the loop has not reached
    have hlrest : l ∈ rest := by
      rw [hdone] at hl
      exact (List.mem_append.mp hl).resolve_left fun hl => hq (hempty l hl)
    obtain ⟨k, rest, rfl⟩ := List.exists_cons_of_ne_nil (List.ne_nil_of_mem hlrest)
    have hk := calculateCrossPrice_eq_none.mp (hstop k rfl)
    rw [(hL.frame.keeps o).isBuy, hbuy, (hL.frame.keeps o).price, hL.frame.price] at hk
    rcases List.mem_cons.mp hlrest with rfl | hlrest
    · exact hk
    · have hsorted := h₀.levels_sorted (!buy)
      rw [hdone] at hsorted
      have hlt := (List.pairwise_cons.mp (List.pairwise_append.mp hsorted).2.1).1 l hlrest
      exact outOfReach_of_limitLess hk hlt

/-- Every bid is below every ask. -/
def Uncrossed (L : Ledger) : Prop :=
  ∀ x ∈ L.resting true, ∀ y ∈ L.resting false, (L.order x).price < (L.order y).price

theorem Uncrossed.of_sub {L' : Ledger} (h : L.Uncrossed)
    (hprice : ∀ x, (L'.order x).price = (L.order x).price)
    (hsub : ∀ b, L'.resting b ⊆ L.resting b) : L'.Uncrossed := by
  intro x hx y hy
  rw [hprice, hprice]
  exact h x (hsub true hx) y (hsub false hy)

theorem Uncrossed.of_frame {L' : Ledger} (h : L.Uncrossed) (hm : MatchFrame L L') :
    L'.Uncrossed := by
  refine h.of_sub (fun x => (hm.keeps x).price) fun b x hx => ?_
  obtain ⟨l, hl, hx⟩ := mem_resting.mp hx
  rw [hm.levels] at hl
  exact mem_resting.mpr ⟨l, hl, (hm.queue l).mem hx⟩

theorem Uncrossed.activate (h : L.Uncrossed) (hwf : L.WellFormed) (a : OrderArgs) :
    (L.activate a).Uncrossed := by
  have hold : ∀ b, ∀ x ∈ L.resting b, (L.activate a).order x = L.order x := by
    intro b x hx
    obtain ⟨l, -, hl⟩ := mem_resting.mp hx
    exact activate_order (hwf.queue_lt l x hl) a
  intro x hx y hy
  rw [hold true x hx, hold false y hy]
  exact h x hx y hy

theorem Uncrossed.receive (h : L.Uncrossed) (hwf : L.WellFormed) (a : OrderArgs) :
    (L.receive a).Uncrossed := by
  refine (h.activate hwf a).of_sub (fun x => ?_) fun b => List.Subset.refl _
  by_cases hx : x = L.nextOrder
  · subst hx
    rw [activate_order_new, receive_order_new, OrderData.activated_price]
  · simp [Ledger.activate, hx]

/-- A new order comes to rest. -/
theorem Uncrossed.restOrder (h : L.Uncrossed) (ht : L.Tidy) (hf : L.Fresh o)
    (hfok : (L.order o).hasParam .fok = false)
    (hreach : ∀ y ∈ L.resting !(L.order o).isBuy,
      outOfReach (L.order o).isBuy (L.order o).price (L.order y).price) :
    (L.restOrder o).Uncrossed := by
  obtain ⟨l, hl, -, -⟩ := ht.wf.restOrder o
  have hmem : ∀ b, ∀ x ∈ (L.restOrder o).resting b,
      (x = o ∧ (L.order o).isBuy = b) ∨ x ∈ L.resting b := by
    intro b x hx
    obtain ⟨hside, k, hk⟩ := (ht.restOrder hf hfok).inPlace.mem_resting_iff.mp hx
    rw [hl.order] at hside
    rcases hl.mem_queue.mp hk with ⟨rfl, -⟩ | hk
    · exact Or.inl ⟨rfl, hside⟩
    · exact Or.inr (ht.inPlace.mem_resting_iff.mpr ⟨hside, k, hk⟩)
  intro x hx y hy
  rw [hl.order]
  rcases hmem true x hx with ⟨rfl, hbuy⟩ | hx'
  · rcases hmem false y hy with ⟨-, hsell⟩ | hy'
    · rw [hbuy] at hsell
      exact absurd hsell (by simp)
    · rw [hbuy] at hreach
      exact hreach y hy'
  · rcases hmem false y hy with ⟨rfl, hsell⟩ | hy'
    · rw [hsell] at hreach
      exact hreach x hx'
    · exact h x hx' y hy'

theorem Uncrossed.cancelOrder (h : L.Uncrossed) (ht : L.Tidy) (id : String) :
    (L.cancelOrder id).1.Uncrossed := by
  have hkeep : ∀ x, ((L.cancelOrder id).1.order x).Keeps (L.order x) := by
    intro x
    rcases L.cancelOrder_order id x with hx | hx <;> rw [hx]
    · exact .refl _
    · exact .cancel _
  refine h.of_sub (fun x => (hkeep x).price) fun b x hx => ?_
  obtain ⟨hside, l, hl⟩ := (ht.cancelOrder id).inPlace.mem_resting_iff.mp hx
  rw [(hkeep x).isBuy] at hside
  exact ht.inPlace.mem_resting_iff.mpr ⟨hside, l, (ht.wf.queue_cancelOrder id l).mem hl⟩

/-- **No request crosses the book.** -/
theorem Uncrossed.step (h : L.Uncrossed) (ht : L.Tidy) (hpos : L.Positive) {r : Request}
    (hr : r.Sound) : (L.step r).1.Uncrossed := by
  cases r with
  | add now a =>
    have hr : 0 < a.qty := hr
    rw [step_add]
    split
    · obtain ⟨dates, hdates⟩ := (L.receive a).parkOrder_eq L.nextOrder
      rw [hdates]
      exact h.receive ht.wf a
    · have hframe : MatchFrame (L.activate a) (L.matched a).1 := .matchLimits _ _
      have hM : (L.matched a).1.Uncrossed := (h.activate ht.wf a).of_frame hframe
      have htM := ht.matched a
      have hbuy : ((L.matched a).1.order L.nextOrder).isBuy = a.toData.isBuy := by
        rw [(hframe.keeps _).isBuy, activate_order_new, OrderData.activated_isBuy]
      rw [settle]
      split
      · exact hM
      · next hfilled =>
        split
        · exact hM.of_sub (fun x => (keeps_updateData _ _ .cancel x).price) fun b =>
            List.Subset.refl _
        · next hfok =>
          have hfok : ((L.matched a).1.order L.nextOrder).hasParam .fok = false := by
            simpa using hfok
          have haon : ((L.activate a).order L.nextOrder).hasParam .aon = false := by
            rw [← hframe.hasParam]
            rw [OrderData.hasParam_fok, Bool.or_eq_false_iff] at hfok
            exact hfok.1
          have hfresh := (ht.wf.fresh_activate a)
          refine hM.restOrder htM (hfresh.of_frame hframe) hfok fun y hy => ?_
          obtain ⟨l, hl, hyl⟩ := mem_resting.mp hy
          rw [hbuy, hframe.levels] at hl
          have hpos' : 0 < (L.activate a).qty L.nextOrder := by
            rw [activate_qty_new]
            exact hr
          have hout := (Traded.refl (ht.wf.activate a) (hpos.activate ht.wf a)
            hpos'.le).out_of_reach (ht.wf.activate a) hfresh.queue
            (by rw [activate_order_new, OrderData.activated_isBuy]) haon hpos'
            (Bool.eq_false_iff.mpr hfilled) hl (List.ne_nil_of_mem hyl)
          rw [hbuy, (hframe.keeps _).price, htM.price l y hyl, hframe.price]
          exact hout
  | modify a => exact absurd hr (by simp [Request.Sound])
  | cancel id => exact h.cancelOrder ht id
  | checkDate now =>
    exact (checkDateOrders_rule (J := fun L => L.Tidy ∧ L.Uncrossed)
      (fun L' o hJ _ _ => ⟨hJ.1.cancelOrder _, hJ.2.cancelOrder hJ.1 _⟩)
      (fun L' o hJ => ⟨{ hJ.1 with wf := hJ.1.wf.eraseDate }, hJ.2⟩) ⟨ht, h⟩).2

end Ledger

/-- **The book is never crossed**: in every state that new orders of positive
quantity, of any type and with any flags, cancellations and checks of dates lead
to, every order of `get_bids()` has a price below that of every order of
`get_asks()`. -/
theorem bids_below_asks (instrument : String) (marketPrice : ℚ) {rs : List Request}
    (hrs : ∀ r ∈ rs, r.Sound) :
    ∃ s answers bids asks,
      runAll OrderBook.step (.empty instrument marketPrice) rs = .ok (s, answers) ∧
      s.getBids = .ok bids ∧ s.getAsks = .ok asks ∧
      ∀ x ∈ bids, ∀ y ∈ asks, (s.order x).price < (s.order y).price := by
  obtain ⟨s, answers, L, hrun, hL, -, -, hun⟩ := (refines_empty instrument marketPrice).run_invariant
    (J := fun L => L.Tidy ∧ L.Positive ∧ L.Uncrossed)
    (fun _ _ _ _ hJ hr => ⟨hJ.1.step hr.keepsOrders, hJ.2.1.step hJ.1.wf hr,
      hJ.2.2.step hJ.1 hJ.2.1 hr⟩)
    ⟨Ledger.tidy_empty instrument marketPrice, fun _ _ ho => absurd ho (by simp [Ledger.empty]),
      fun _ hx => absurd hx (by simp [Ledger.empty, Ledger.resting])⟩
    (meets_of_forall hrs _)
  have hprice : ∀ x, (s.order x).price = (L.order x).price := fun x =>
    congrArg OrderData.price (hL.order x)
  refine ⟨s, answers, _, _, hrun, hL.getOrders true, hL.getOrders false, fun x hx y hy => ?_⟩
  rw [hprice, hprice]
  exact hun x hx y hy

/-- A bid below an ask. -/
theorem bids_below_asks_two : ∃ s answers bids asks,
    runAll OrderBook.step (.empty "X" 10)
      [.add 0 (.limit "a" .sell 5 11), .add 0 (.limit "b" .buy 7 10)] = .ok (s, answers) ∧
    s.getBids = .ok bids ∧ s.getAsks = .ok asks ∧
    ∀ x ∈ bids, ∀ y ∈ asks, (s.order x).price < (s.order y).price :=
  bids_below_asks "X" 10 (by norm_num [Request.Sound, OrderArgs.limit])

end LimitOrderBook
