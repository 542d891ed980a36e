import LimitOrderBook.Ledger.Tidy

/-!
# Orders that find nothing to trade with

An order that reaches no resting order it can exchange a quantity with
(`LimitOrderBook.Ledger.Idle`) leaves all quantities as they are; matching then at
most drops empty orders from queues and moves the market price
(`LimitOrderBook.Ledger.Idle.matched`).

For books the condition is `LimitOrderBook.OrderBook.FindsNothing`.
-/

namespace LimitOrderBook

open OrderBook (Request)

theorem accepts_of_crossPrice {o : OrderData} {l : LimitData} {p : ℚ}
    (h : OrderBook.calculateCrossPrice o l = some p) : o.accepts l := by
  rw [OrderBook.calculateCrossPrice] at h
  rw [OrderData.accepts]
  split at h
  · exact absurd h (by simp)
  · next hp => cases hb : o.isBuy <;> simpa [hb] using hp

namespace Ledger

variable {L L₀ : Ledger} {c o l : ℕ} {b : Bool} {p : ℚ}

/-- The order `o` finds nothing to trade with on the side `b`. -/
def Idle (L : Ledger) (o : ℕ) (b : Bool) : Prop :=
  0 < L.qty o → ∀ l ∈ L.levels b, (L.order o).accepts (L.limit l) → L.skips o l = false →
    ∀ c ∈ L.queue l, ¬ (L.order o).tradesWith (L.order c)

theorem moved_eq_zero (h : ¬ (L.order o).tradesWith (L.order c)) (ho : 0 < L.qty o) :
    L.moved c o = 0 := by
  rw [OrderData.tradesWith] at h
  rw [moved]
  split at h
  · next haon =>
    have h : ¬ L.qty c ≥ L.qty o := h
    rw [if_neg h, if_pos haon]
  · next haon =>
    have hc : L.qty c = 0 := not_not.mp h
    rw [hc, if_neg (not_le.mpr ho), if_neg haon]

/-- Matching has led from `L₀` to `L` and moved nothing. -/
structure Unmoved (L₀ L : Ledger) : Prop where
  frame : MatchFrame L₀ L
  order : L.order = L₀.order
  executions : L.executions = L₀.executions
  queue : ∀ l, ∀ x ∈ L₀.queue l, L₀.qty x ≠ 0 → x ∈ L.queue l
  limit : ∀ l, (∀ x ∈ L₀.queue l, L₀.qty x ≠ 0) → L.limit l = L₀.limit l

theorem Unmoved.refl (L : Ledger) : Unmoved L L :=
  ⟨.refl L, rfl, rfl, fun _ _ hx _ => hx, fun _ _ => rfl⟩

theorem Unmoved.fillOrder (h : Unmoved L₀ L) (hwf : L.WellFormed) (hc : c ∈ L.queue l)
    (hco : c ≠ o) (hzero : L.moved c o = 0) : Unmoved L₀ (L.fillOrder c o p) := by
  have hframe := MatchFrame.fillOrder L c o p
  have hqty : ∀ x, (L.fillOrder c o p).qty x = L.qty x := by
    intro x
    rw [hwf.qty_fillOrder hc hco, hzero]
    split
    · next hx => rw [hx, sub_zero]
    · split
      · next hx => rw [hx, sub_zero]
      · rfl
  refine ⟨h.frame.trans hframe, ?_, ?_, fun x y hy hy' => ?_, fun x hx => ?_⟩
  · funext x
    rw [hframe.order x, hqty, ← h.order]
    rfl
  · rw [hwf.fillOrder_eq hc, resolveOrders_eq hco, hzero]
    simp only [lt_irrefl, if_false]
    split <;> exact h.executions
  · obtain ⟨xs, ys, hq⟩ := List.append_of_mem hc
    have hyq := h.queue x y hy hy'
    rw [hwf.queue_fillOrder hco hq, hzero]
    split
    · next hcz =>
      by_cases hx : x = l
      · subst hx
        have hyc : y ≠ c := by
          rintro rfl
          exact hy' (by rw [qty, ← h.order]; exact hcz)
        rw [hq] at hyq
        rw [Function.update_self]
        simpa [hyc] using hyq
      · rwa [Function.update_of_ne hx]
    · exact hyq
  · have hlimit := h.limit x hx
    rw [hwf.fillOrder_eq hc, resolveOrders_eq hco, hzero]
    simp only [lt_irrefl, if_false]
    split
    · next hcz =>
      have hxl : x ≠ l := by
        rintro rfl
        refine hx c ((h.frame.queue x).mem hc) ?_
        have hcz : L.qty c = 0 := by simpa [moveQty_qty hco, hco] using hcz
        rw [qty, ← h.order]
        exact hcz
      rw [displace_limit, Function.update_of_ne hxl]
      exact hlimit
    · exact hlimit

/-- **Matching an order that finds nothing moves nothing.** -/
theorem Idle.matchLimits (h : L₀.Idle o b) (hwf : L₀.WellFormed) (hfree : ∀ x, o ∉ L₀.queue x) :
    Unmoved L₀ (L₀.matchLimits o (L₀.levels b)).1 := by
  -- the levels still to come are as they were
  have hlevel : ∀ L l rest p, (L.WellFormed ∧ Unmoved L₀ L ∧ (l :: rest) ⊆ L₀.levels b ∧
        (l :: rest).Nodup ∧ ∀ k ∈ l :: rest, L.limit k = L₀.limit k ∧ L.queue k = L₀.queue k) →
      L.skips o l = false → OrderBook.calculateCrossPrice (L.order o) (L.limit l) = some p →
      ((L.processLimitOrder l o p).setMarketPrice p).WellFormed ∧
      Unmoved L₀ ((L.processLimitOrder l o p).setMarketPrice p) ∧ rest ⊆ L₀.levels b ∧ rest.Nodup ∧
      ∀ k ∈ rest, ((L.processLimitOrder l o p).setMarketPrice p).limit k = L₀.limit k ∧
        ((L.processLimitOrder l o p).setMarketPrice p).queue k = L₀.queue k := by
    rintro L l rest p ⟨hL, hun, hsub, hnd, hsame⟩ hskip hcross
    obtain ⟨hlimit, -⟩ := hsame l (by simp)
    have hfree' : ∀ x, o ∉ L.queue x := fun x hx => hfree x ((hun.frame.queue x).mem hx)
    have hskip₀ : L₀.skips o l = false := by
      rw [← hskip, skips, skips, qty, qty, hun.order, hlimit]
    rw [hun.order, hlimit] at hcross
    obtain ⟨hun', hwf'⟩ := processOrders_invariant (l := l) (p := p) (J := Unmoved L₀)
      (fun L' c hL' hJ hc hpos => by
        have hc₀ : c ∈ L₀.queue l := (hJ.frame.queue l).mem hc
        have hco : c ≠ o := fun he => hfree l (he ▸ hc₀)
        refine hJ.fillOrder hL' hc hco (moved_eq_zero ?_ hpos)
        rw [hJ.order]
        rw [qty, hJ.order] at hpos
        exact h hpos l (hsub (by simp)) (accepts_of_crossPrice hcross) hskip₀ c hc₀)
      hL hfree' hun
    obtain ⟨hl, hnd'⟩ := List.nodup_cons.mp hnd
    refine ⟨{ hwf' with }, ⟨hun'.frame.trans (.setMarketPrice _ p), hun'.order, hun'.executions,
      hun'.queue, hun'.limit⟩, fun x hx => hsub (by simp [hx]), hnd', fun k hk => ?_⟩
    have hkl : k ≠ l := fun he => hl (he ▸ hk)
    obtain ⟨h₁, h₂⟩ := processLimitOrder_other (p := p) hL hfree' hkl
    obtain ⟨h₃, h₄⟩ := hsame k (by simp [hk])
    exact ⟨h₁.trans h₃, h₂.trans h₄⟩
  rcases matchLimits_rule (o := o)
    (P := fun L rest => L.WellFormed ∧ Unmoved L₀ L ∧ rest ⊆ L₀.levels b ∧ rest.Nodup ∧
      ∀ k ∈ rest, L.limit k = L₀.limit k ∧ L.queue k = L₀.queue k)
    (Q := Unmoved L₀)
    (fun L l rest hP _ => ⟨hP.1, hP.2.1, fun x hx => hP.2.2.1 (by simp [hx]),
      (List.nodup_cons.mp hP.2.2.2.1).2, fun k hk => hP.2.2.2.2 k (by simp [hk])⟩)
    (fun L l rest p hP hs hcross _ => (hlevel L l rest p hP hs hcross).2.1)
    (fun L l rest p hP hs hcross _ => hlevel L l rest p hP hs hcross)
    L₀ (L₀.levels b) ⟨hwf, .refl L₀, List.Subset.refl _, hwf.levels_nodup, fun _ _ => ⟨rfl, rfl⟩⟩ with
    ⟨-, hun⟩ | ⟨-, rest, ⟨-, hun, -⟩, -⟩
  · exact hun
  · exact hun

/-- **A new order that finds nothing** changes no quantity and adds nothing to the
history. -/
theorem Idle.matched {a : OrderArgs} (h : (L.activate a).Idle L.nextOrder !a.toData.isBuy)
    (hwf : L.WellFormed) : Unmoved (L.activate a) (L.matched a).1 :=
  h.matchLimits (hwf.activate a) (hwf.fresh_activate a).queue

end Ledger

/-- The two ways to say that a new order finds nothing. -/
theorem Refines.idle {s : OrderBook} {L : Ledger} (h : Refines s L) {a : OrderArgs}
    (hf : s.FindsNothing a) (hp : (L.receive a).isParked L.nextOrder = false) :
    (L.activate a).Idle L.nextOrder !a.toData.isBuy := by
  intro hpos l hl haccept hskip c hc
  have hpark : (a.toData.hasParam .stop && a.toData.isDormant s.marketPrice) = false := by
    rw [← hp, Ledger.isParked, Ledger.receive_order_new, h.marketPrice]
    rfl
  rw [Ledger.qty, Ledger.activate_order_new, OrderData.activated_currentQty] at hpos
  rw [Ledger.skips, Ledger.qty, Ledger.activate_order_new, OrderData.activated_currentQty] at hskip
  rw [Ledger.activate_order_new] at haccept ⊢
  rw [Ledger.activate_order (h.wf.queue_lt l c hc), ← h.order c]
  rcases hf with hf | hf | hf
  · exact absurd hf (by simp [hpark])
  · exact absurd hpos (not_lt.mpr hf)
  · refine hf _ l _ c (h.levels _).keys hl ?_ (fun haon => ?_) (h.ordersAt l) hc
    · rw [h.limit l]
      exact haccept
    · rw [haon, Bool.true_and, decide_eq_false_iff_not, not_lt] at hskip
      have hvol : (s.limit l).activeVolume = (L.limit l).activeVolume :=
        congrArg LimitData.activeVolume (h.limit l)
      rw [hvol]
      exact hskip

/-- In an empty book every order finds nothing. -/
theorem findsNothing_empty (instrument : String) (marketPrice : ℚ) (a : OrderArgs) :
    (OrderBook.empty instrument marketPrice).FindsNothing a := by
  refine Or.inr (Or.inr fun levels l queue c hk hl => ?_)
  have hnil := ((refines_empty instrument marketPrice).levels !a.toData.isBuy).keys
  rw [hk, Except.ok.injEq] at hnil
  rw [hnil] at hl
  exact absurd hl (by simp [Ledger.empty])

end LimitOrderBook
