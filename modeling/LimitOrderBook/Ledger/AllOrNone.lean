import LimitOrderBook.Ledger.Arrivals
import LimitOrderBook.Ledger.Idle
import LimitOrderBook.Ledger.Quantities
import LimitOrderBook.Ledger.Reach
import Mathlib.Algebra.Order.BigOperators.Group.List

/-!
# All-or-nothing orders

An order with the flag AON is tried at the levels whose volume is enough and whose price it
accepts (`LimitOrderBook.Ledger.tries`), one after the other. A trial succeeds when a single
order of the level has enough left; otherwise it does nothing but set the market price. So
either the order is filled, by one resting order, or the ledger is as before up to the market
price (`LimitOrderBook.Ledger.WellFormed.matchLimits_filled`,
`LimitOrderBook.Ledger.matchLimits_unfilled`).

That a level is not passed over although one of its orders has enough is because its volume
is never less than what rests there (`LimitOrderBook.Ledger.VolumeCovers`).
-/

namespace LimitOrderBook

open OrderBook (Request)

/-! ### Prices -/

theorem calculateCrossPrice_isSome {x : OrderData} {l : LimitData} :
    (OrderBook.calculateCrossPrice x l).isSome = true ↔ x.accepts l := by
  rw [← not_iff_not, Bool.not_eq_true, Option.isSome_eq_false_iff, Option.isNone_iff_eq_none,
    calculateCrossPrice_eq_none, outOfReach, OrderData.accepts]
  cases x.isBuy <;> simp

/-- What is left of an all-or-nothing order after the orders of a level: nothing if one of
them has enough, and all of it otherwise. -/
theorem remaining_allOrNone {q : ℚ} (hq : 0 < q) (cs : List (ℕ × ℚ)) :
    remaining true q cs = if ∃ c ∈ cs, q ≤ c.2 then 0 else q := by
  induction cs with
  | nil => simp [remaining]
  | cons c cs ih =>
    rw [remaining, if_pos hq, taken]
    by_cases hc : q ≤ c.2
    · have hzero : remaining true (q - q) cs = 0 := by
        rw [sub_self]
        cases cs <;> simp [remaining]
      rw [if_pos hc, hzero, if_pos ⟨c, by simp, hc⟩]
    · rw [if_neg hc, if_pos rfl, sub_zero, ih]
      exact if_congr (by simp [not_le.mp hc]) rfl rfl

namespace Ledger

variable {L L' : Ledger} {o c l : ℕ} {p : ℚ}

/-! ### Trying a level -/

/-- The order `o` is tried at the level `l`: it does not pass it over, and accepts its
price. -/
def tries (L : Ledger) (o l : ℕ) : Bool :=
  !L.skips o l && (OrderBook.calculateCrossPrice (L.order o) (L.limit l)).isSome

/-- The price that trying the levels of a list leaves behind. -/
def triedPrice (L : Ledger) (o : ℕ) (ls : List ℕ) : ℚ :=
  ((ls.filter (L.tries o)).getLast?.bind fun l =>
    OrderBook.calculateCrossPrice (L.order o) (L.limit l)).getD L.marketPrice

theorem moveQty_zero (L : Ledger) (c o : ℕ) : L.moveQty c o 0 = L := by
  have hself : ∀ x, { L.order x with currentQty := L.qty x - 0 } = L.order x := fun x => by
    rw [sub_zero, qty]
  rw [moveQty, hself, hself, Function.update_eq_self, Function.update_eq_self]

/-- An order of a level that has something left, but not enough. -/
theorem WellFormed.fillOrder_unmoved (h : L.WellFormed) (hc : c ∈ L.queue l) (hco : c ≠ o)
    (hleft : L.qty c ≠ 0) (hmoved : L.moved c o = 0) : L.fillOrder c o p = L := by
  have hresolve : L.resolveOrders c o p = L := by
    rw [resolveOrders_eq hco, hmoved, if_neg (lt_irrefl 0), moveQty_zero]
  rw [h.fillOrder_eq hc, hresolve, if_neg hleft]

/-- **A level at which no order has enough** is left as it is. -/
theorem WellFormed.processLimitOrder_unfilled (h : L.WellFormed)
    (haon : (L.order o).hasParam .aon = true)
    (hsmall : ∀ c ∈ L.queue l, c ≠ o ∧ L.qty c ≠ 0 ∧ L.qty c < L.qty o) :
    L.processLimitOrder l o p = L := by
  have hloop : ∀ rest, rest ⊆ L.queue l → processOrders o p L rest = L := by
    intro rest
    induction rest with
    | nil => exact fun _ => rfl
    | cons c rest ih =>
      intro hsub
      have hc : c ∈ L.queue l := hsub (by simp)
      obtain ⟨hco, hleft, hlt⟩ := hsmall c hc
      have hmoved : L.moved c o = 0 := by
        rw [moved, if_neg (not_le.mpr hlt), if_pos haon]
      rw [processOrders, h.fillOrder_unmoved hc hco hleft hmoved,
        ih fun x hx => hsub (List.mem_cons_of_mem _ hx), ite_self]
  exact hloop _ (List.Subset.refl _)

/-- **A level at which an order has enough** fills the incoming one. -/
theorem WellFormed.processLimitOrder_filled (h : L.WellFormed) (ho : ∀ x, o ∉ L.queue x)
    (haon : (L.order o).hasParam .aon = true) (hpos : 0 < L.qty o) (hc : c ∈ L.queue l)
    (hbig : L.qty o ≤ L.qty c) : (L.processLimitOrder l o p).qty o = 0 := by
  rw [(h.processLimitOrder_eq ho).1, haon, remaining_allOrNone hpos]
  exact if_pos ⟨(c, L.qty c), List.mem_map.mpr ⟨c, hc, rfl⟩, hbig⟩

/-! ### Trying all levels -/

/-- The levels of the other side after one whose price is not acceptable are not tried. -/
theorem filter_tries_of_none {ls : List ℕ}
    (hsorted : SortedKeys (L.limitLess (!(L.order o).isBuy)) (l :: ls))
    (hnone : OrderBook.calculateCrossPrice (L.order o) (L.limit l) = none) :
    (l :: ls).filter (L.tries o) = [] := by
  refine List.filter_eq_nil_iff.mpr fun k hk htries => ?_
  have hk : OrderBook.calculateCrossPrice (L.order o) (L.limit k) = none := by
    rcases List.mem_cons.mp hk with rfl | hk
    · exact hnone
    · exact crossPrice_eq_none_of_limitLess hnone ((List.pairwise_cons.mp hsorted).1 k hk)
  rw [tries, hk] at htries
  exact absurd htries (by simp)

/-- **An order that finds no order with enough** at the levels where it is tried leaves the
ledger as it is, up to the market price. -/
theorem WellFormed.matchLimits_unfilled (h : L.WellFormed)
    (haon : (L.order o).hasParam .aon = true) {ls : List ℕ}
    (hsorted : SortedKeys (L.limitLess (!(L.order o).isBuy)) ls) (hpos : 0 < L.qty o)
    (hsmall : ∀ l ∈ ls, L.tries o l = true →
      ∀ c ∈ L.queue l, c ≠ o ∧ L.qty c ≠ 0 ∧ L.qty c < L.qty o) :
    L.matchLimits o ls = (L.setMarketPrice (L.triedPrice o ls), false) := by
  induction ls generalizing L with
  | nil => rfl
  | cons l ls ih =>
    have hsorted' := (List.pairwise_cons.mp hsorted).2
    have hsmall' : ∀ k ∈ ls, L.tries o k = true →
        ∀ c ∈ L.queue k, c ≠ o ∧ L.qty c ≠ 0 ∧ L.qty c < L.qty o := fun k hk =>
      hsmall k (List.mem_cons_of_mem _ hk)
    rw [matchLimits]
    split
    · next hskip =>
      have hfilter : (l :: ls).filter (L.tries o) = ls.filter (L.tries o) :=
        List.filter_cons_of_neg (by simp [tries, hskip])
      rw [ih h haon hsorted' hpos hsmall', triedPrice, triedPrice, hfilter]
    · next hskip =>
      rcases hcross : OrderBook.calculateCrossPrice (L.order o) (L.limit l) with _ | p
      · rw [triedPrice, filter_tries_of_none hsorted hcross]
        rfl
      · have htries : L.tries o l = true := by simp [tries, hcross, hskip]
        have hlevel := h.processLimitOrder_unfilled (p := p) haon (hsmall l (by simp) htries)
        have hne : (L.setMarketPrice p).qty o ≠ 0 := hpos.ne'
        -- the ledger is as before, so the other levels are tried as they would have been
        have hrest := ih (L := L.setMarketPrice p) { h with } haon hsorted' hpos hsmall'
        dsimp only
        rw [hlevel, if_neg hne, hrest]
        have hprice : (L.setMarketPrice p).triedPrice o ls = L.triedPrice o (l :: ls) := by
          rw [triedPrice, triedPrice, List.filter_cons_of_pos htries]
          rcases List.eq_nil_or_concat (ls.filter (L.tries o)) with hnil | ⟨ks, k, hk⟩
          · have hnil' : ls.filter ((L.setMarketPrice p).tries o) = [] := hnil
            rw [hnil, hnil']
            simp [hcross]
          · have hk' : ls.filter ((L.setMarketPrice p).tries o) = ks.concat k := hk
            have hmem : k ∈ ls.filter (L.tries o) := by simp [hk]
            have hsome : (OrderBook.calculateCrossPrice (L.order o) (L.limit k)).isSome = true := by
              have ht := (List.mem_filter.mp hmem).2
              rw [tries, Bool.and_eq_true] at ht
              exact ht.2
            obtain ⟨v, hv⟩ := Option.isSome_iff_exists.mp hsome
            rw [hk, hk', List.concat_eq_append, ← List.cons_append, List.getLast?_concat,
              List.getLast?_concat]
            simp [hv]
        rw [hprice]
        rfl

/-- **An order that finds one with enough** is filled. -/
theorem WellFormed.matchLimits_filled (h : L.WellFormed) (ho : ∀ x, o ∉ L.queue x)
    (haon : (L.order o).hasParam .aon = true) {ls : List ℕ}
    (hsorted : SortedKeys (L.limitLess (!(L.order o).isBuy)) ls) (hpos : 0 < L.qty o)
    (hleft : ∀ l ∈ ls, ∀ c ∈ L.queue l, L.qty c ≠ 0) (hl : l ∈ ls) (htries : L.tries o l = true)
    (hc : c ∈ L.queue l) (hbig : L.qty o ≤ L.qty c) : (L.matchLimits o ls).2 = true := by
  induction ls generalizing L with
  | nil => exact absurd hl (by simp)
  | cons k ls ih =>
    have hsorted' := (List.pairwise_cons.mp hsorted).2
    have hleft' : ∀ l ∈ ls, ∀ c ∈ L.queue l, L.qty c ≠ 0 := fun l hl =>
      hleft l (List.mem_cons_of_mem _ hl)
    rw [matchLimits]
    split
    · next hskip =>
      have hlk : l ≠ k := by
        rintro rfl
        rw [tries, hskip] at htries
        exact absurd htries (by simp)
      exact ih h ho haon hsorted' hpos hleft' ((List.mem_cons.mp hl).resolve_left hlk) htries hc hbig
    · next hskip =>
      rcases hcross : OrderBook.calculateCrossPrice (L.order o) (L.limit k) with _ | p
      · have hnil := filter_tries_of_none hsorted hcross
        exact absurd (List.mem_filter.mpr ⟨hl, htries⟩) (by simp [hnil])
      · dsimp only
        split
        · rfl
        · next hne =>
          -- no order of this level has enough
          have hsmall : ∀ x ∈ L.queue k, x ≠ o ∧ L.qty x ≠ 0 ∧ L.qty x < L.qty o := by
            refine fun x hx => ⟨fun he => ho k (he ▸ hx), hleft k (by simp) x hx, ?_⟩
            exact not_le.mp fun hle =>
              hne (h.processLimitOrder_filled (p := p) ho haon hpos hx hle)
          have hlk : l ≠ k := by
            rintro rfl
            exact absurd hbig (not_le.mpr (hsmall c hc).2.2)
          rw [h.processLimitOrder_unfilled haon hsmall]
          exact ih (L := L.setMarketPrice p) { h with } ho haon hsorted' hpos hleft'
            ((List.mem_cons.mp hl).resolve_left hlk) htries hc hbig

/-! ### The volume of a level -/

/-- **The volume of a level covers what rests there.** -/
def VolumeCovers (L : Ledger) : Prop :=
  ∀ b, ∀ l ∈ L.levels b, ((L.queue l).map L.qty).sum ≤ (L.limit l).activeVolume

namespace VolumeCovers

variable (h : L.VolumeCovers)

include h

/-- The volumes stay when no order in a queue gets more. -/
theorem mono (hlevels : L'.levels = L.levels) (hlimit : L'.limit = L.limit)
    (hqueue : L'.queue = L.queue) (hqty : ∀ l, ∀ x ∈ L.queue l, L'.qty x ≤ L.qty x) :
    L'.VolumeCovers := by
  intro b l hl
  rw [hlevels] at hl
  rw [hlimit, hqueue]
  exact (List.sum_le_sum fun x hx => hqty l x hx).trans (h b l hl)

/-- An order leaves its queue; the volume goes down by what is left of it. -/
theorem displace (hc : c ∈ L.queue l) : (L.displace c l).VolumeCovers := by
  intro b k hk
  have hqty : (L.displace c l).qty = L.qty := rfl
  rw [hqty, displace_queue, displace_limit]
  by_cases hkl : k = l
  · subst hkl
    rw [Function.update_self, Function.update_self]
    have hsum := List.sum_map_erase L.qty hc
    have hcover := h b k hk
    refine le_trans ?_ (le_max_right 0 ((L.limit k).activeVolume - L.qty c))
    linarith
  · rw [Function.update_of_ne hkl, Function.update_of_ne hkl]
    exact h b k hk

theorem fillOrder (hwf : L.WellFormed) (hc : c ∈ L.queue l) (hco : c ≠ o)
    (ho : ∀ x, o ∉ L.queue x) (hmoved : 0 ≤ L.moved c o) : (L.fillOrder c o p).VolumeCovers := by
  have hresolve : (L.resolveOrders c o p).VolumeCovers := by
    have hqty : ∀ x, (L.resolveOrders c o p).qty x = (L.moveQty c o (L.moved c o)).qty x := fun x => by
      rw [resolveOrders_eq hco]
      split <;> rfl
    refine h.mono (MatchFrame.resolveOrders L c o p).levels ?_ (resolveOrders_queue L c o p)
      fun k x hx => ?_
    · rw [resolveOrders_eq hco]
      split <;> rfl
    · have hxo : x ≠ o := fun he => ho k (he ▸ hx)
      rw [hqty, moveQty_qty hco, if_neg hxo]
      split
      · next hxc =>
        rw [hxc]
        exact sub_le_self _ hmoved
      · exact le_rfl
  rw [hwf.fillOrder_eq hc]
  split
  · refine hresolve.displace ?_
    rwa [resolveOrders_queue]
  · exact hresolve

/-- Matching a new order. -/
theorem matched (hwf : L.WellFormed) (hpos : L.Positive) {a : OrderArgs} (ha : 0 < a.qty) :
    (L.matched a).1.VolumeCovers := by
  have hactivate : (L.activate a).VolumeCovers := h.mono rfl rfl rfl fun l x hx => by
    rw [qty, activate_order (hwf.queue_lt l x hx)]
    rfl
  have hfree := (hwf.fresh_activate a).queue
  have hstart : Traded (L.activate a) (L.activate a) L.nextOrder (!a.toData.isBuy) :=
    Traded.refl (hwf.activate a) (hpos.activate hwf a) (by rw [activate_qty_new]; exact ha.le)
  refine (matchLimits_invariant (J := fun L' => L'.VolumeCovers ∧
      Traded (L.activate a) L' L.nextOrder (!a.toData.isBuy))
    (fun L' l c p hl _ hwf' hJ hc hleft => ?_)
    (fun L' p hJ => ⟨hJ.1, hJ.2.setMarketPrice p⟩) (hwf.activate a) hfree
    ⟨hactivate, hstart⟩).1.1
  have hfree' := hJ.2.not_mem_queue hfree
  have hco : c ≠ L.nextOrder := fun he => hfree' l (he ▸ hc)
  exact ⟨hJ.1.fillOrder hwf' hc hco hfree' (moved_nonneg (hJ.2.positive l c hc) hleft),
    hJ.2.fillOrder (hwf.activate a) hfree hl hc hleft⟩

theorem restOrder (hwf : L.WellFormed) (o : ℕ) : (L.restOrder o).VolumeCovers := by
  obtain ⟨l, hl, -, -⟩ := hwf.restOrder o
  intro b k hk
  rcases hl.volume_sub hk with ⟨d, hold, heq⟩ | heq
  · rw [← sub_nonneg, heq, sub_nonneg]
    exact h d k hold
  · exact heq.ge

theorem cancel (o : ℕ) : (L.updateData o .cancel).VolumeCovers :=
  h.mono rfl rfl rfl fun _ x _ => (qty_cancel x).le

theorem cancelOrder (ht : L.Tidy) (id : String) : (L.cancelOrder id).1.VolumeCovers := by
  rcases ht.wf.cancelOrder_cases id with ⟨-, he⟩ | ⟨e, -, -, he⟩ | ⟨e, l, hlook, -, hpar, he⟩ <;>
    rw [he]
  · exact h
  · exact h.cancel e
  · exact (h.cancel e).displace (ht.mem_queue_of_entry hlook hpar)

/-- **The volumes cover what rests** in every run. -/
theorem step (ht : L.Tidy) (hpos : L.Positive) {r : Request} (hr : r.Sound) :
    (L.step r).1.VolumeCovers := by
  cases r with
  | add now a =>
    have hM := h.matched ht.wf hpos hr
    rw [step_add]
    split
    · obtain ⟨dates, hdates⟩ := (L.receive a).parkOrder_eq L.nextOrder
      rw [hdates]
      refine h.mono rfl rfl rfl fun l x hx => ?_
      exact (congrArg OrderData.currentQty (receive_order (ht.wf.queue_lt l x hx) a)).le
    · rw [settle]
      split
      · exact hM
      · split
        · exact hM.cancel _
        · exact hM.restOrder (ht.wf.matched a) _
  | modify a => exact absurd hr (by simp [Request.Sound])
  | cancel id => exact h.cancelOrder ht id
  | checkDate now =>
    exact (checkDateOrders_rule (J := fun L => L.Tidy ∧ L.VolumeCovers)
      (fun L' o hJ _ _ => ⟨hJ.1.cancelOrder _, hJ.2.cancelOrder hJ.1 _⟩)
      (fun L' o hJ => ⟨{ hJ.1 with wf := hJ.1.wf.eraseDate }, hJ.2⟩) ⟨ht, h⟩).2

end VolumeCovers

/-! ### A new all-or-nothing order -/

/-- A resting order of the other side has enough for the new order `a`, at a price that it
accepts. -/
def Fillable (L : Ledger) (a : OrderArgs) : Prop :=
  ∃ l ∈ L.levels (!a.toData.isBuy), a.toData.accepts (L.limit l) ∧
    ∃ c ∈ L.queue l, a.qty ≤ L.qty c

theorem VolumeCovers.le_activeVolume (h : L.VolumeCovers) (hpos : L.Positive) {b : Bool}
    (hl : l ∈ L.levels b) (hc : c ∈ L.queue l) : L.qty c ≤ (L.limit l).activeVolume :=
  (hpos.qty_le_sum hc).trans (h b l hl)

section Matched

variable {a : OrderArgs} (h : L.WellFormed) (hpos : L.Positive)
  (hstop : a.toData.hasParam .stop = false) (haon : a.toData.hasParam .aon = true) (ha : 0 < a.qty)

include h hpos hstop haon ha

/-- **If an order has enough** for a new all-or-nothing order, it is filled. -/
theorem Fillable.matched (hfill : L.Fillable a) (hcov : L.VolumeCovers) :
    (L.matched a).2 = true := by
  obtain ⟨l, hl, haccept, c, hc, hbig⟩ := hfill
  have hnew := L.activate_order_of_not_stop hstop
  have hold : ∀ l, ∀ x ∈ L.queue l, (L.activate a).qty x = L.qty x := fun l x hx => by
    rw [qty, activate_order (h.queue_lt l x hx), qty]
  have hqty := activate_qty_new L a
  refine (h.activate a).matchLimits_filled (h.fresh_activate a).queue (by rw [hnew, haon])
    ?_ (by rwa [hqty]) (fun k _ x hx => ?_) hl ?_ hc ?_
  · rw [hnew]
    exact h.levels_sorted _
  · rw [hold k x hx]
    exact (hpos k x hx).ne'
  · have hvol : a.qty ≤ ((L.activate a).limit l).activeVolume :=
      hbig.trans (hcov.le_activeVolume hpos hl hc)
    rw [tries, skips, hnew, hqty, haon, Bool.and_eq_true]
    exact ⟨by simpa using hvol, calculateCrossPrice_isSome.mpr haccept⟩
  · rw [hqty, hold l c hc]
    exact hbig

/-- **If no order has enough** for it, matching only sets the market price. -/
theorem WellFormed.matched_unfilled (hfill : ¬ L.Fillable a) :
    L.matched a = ((L.activate a).setMarketPrice ((L.activate a).triedPrice L.nextOrder
      (L.levels !a.toData.isBuy)), false) := by
  have hnew := L.activate_order_of_not_stop hstop
  have hqty := activate_qty_new L a
  refine (h.activate a).matchLimits_unfilled (by rw [hnew, haon]) ?_ (by rwa [hqty])
    fun l hl htries c hc => ?_
  · rw [hnew]
    exact h.levels_sorted _
  · have hold : (L.activate a).qty c = L.qty c := by
      rw [qty, activate_order (h.queue_lt l c hc), qty]
    rw [tries, Bool.and_eq_true, hnew] at htries
    refine ⟨ne_of_lt (h.queue_lt l c hc), ?_, ?_⟩
    · rw [hold]
      exact (hpos l c hc).ne'
    · rw [hold, hqty]
      exact not_le.mp fun hbig =>
        hfill ⟨l, hl, calculateCrossPrice_isSome.mp htries.2, c, hc, hbig⟩

end Matched

end Ledger

end LimitOrderBook
