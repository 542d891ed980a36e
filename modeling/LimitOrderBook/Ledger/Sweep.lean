import LimitOrderBook.Ledger.Arrivals
import LimitOrderBook.Ledger.Quantities
import Mathlib.Algebra.Order.BigOperators.Group.List

/-!
# Sweeping the other side

An order that is not all-or-nothing takes what there is, order after order and level after
level, until it is filled or comes to a price that it does not accept. At any time the orders
of the other side, in the order in which they are listed, fall into those that are used up and
those that are as they were, with at most one between them that has lost a part
(`LimitOrderBook.Ledger.Swept`). What the order has taken in the end is the smaller of its
quantity and of what rests at the prices that it accepts
(`LimitOrderBook.Ledger.Swept.taken_eq_min`).
-/

namespace LimitOrderBook

namespace Ledger

variable {L₀ L : Ledger} {o c l : ℕ} {b : Bool} {p : ℚ} {rest : List ℕ}

/-- The order `x` rests at a price that the order `o` accepts. -/
def Offers (L : Ledger) (o x : ℕ) : Prop :=
  ∃ l, x ∈ L.queue l ∧ (OrderBook.calculateCrossPrice (L.order o) (L.limit l)).isSome = true

/-- **How far the order `o` has come** on the side `b`: the orders before `rest` are used up,
those of `rest` are as they were, but for the first one if `o` is filled. -/
structure Swept (L₀ L : Ledger) (o : ℕ) (b : Bool) (rest : List ℕ) : Prop where
  traded : Traded L₀ L o b
  done : ∃ done, L₀.resting b = done ++ rest ∧ ∀ x ∈ done, L.qty x = 0 ∧ L₀.Offers o x
  tail : ∀ x ∈ rest.tail, L.qty x = L₀.qty x
  head : ∀ x ∈ rest, L.qty x ≠ L₀.qty x → L.qty o = 0 ∧ L₀.Offers o x

namespace Swept

/-- At the start nothing is used up. -/
theorem start (h : Traded L₀ L₀ o b) : Swept L₀ L₀ o b (L₀.resting b) :=
  ⟨h, ⟨[], rfl, by simp⟩, fun _ _ => rfl, fun _ _ hne => absurd rfl hne⟩

theorem setMarketPrice (h : Swept L₀ L o b rest) (p : ℚ) :
    Swept L₀ (L.setMarketPrice p) o b rest :=
  { h with traded := h.traded.setMarketPrice p }

section Loops

variable (h₀ : L₀.WellFormed) (hfree : ∀ x, o ∉ L₀.queue x)
  (haon : (L₀.order o).hasParam .aon = false)

include h₀ hfree haon

/-- **One order of a level**: it is used up, or it fills the incoming one. -/
theorem fillOrder (h : Swept L₀ L o b (c :: rest)) (hl : l ∈ L₀.levels b) (hc : c ∈ L.queue l)
    (hoffer : L₀.Offers o c) (ho : 0 < L.qty o) :
    (0 < (L.fillOrder c o p).qty o ∧ L.qty c = L.moved c o ∧
        Swept L₀ (L.fillOrder c o p) o b rest) ∨
      ((L.fillOrder c o p).qty o = 0 ∧ Swept L₀ (L.fillOrder c o p) o b (c :: rest)) := by
  obtain ⟨done, hsplit, hdone⟩ := h.done
  have hT := h.traded.fillOrder (p := p) h₀ hfree hl hc ho
  have hco : c ≠ o := fun he => h.traded.not_mem_queue hfree l (he ▸ hc)
  have hqty := h.traded.wf.qty_fillOrder (p := p) hc hco
  have hnd := h₀.resting_nodup (b := b)
  rw [hsplit] at hnd
  obtain ⟨-, hnd', hapart⟩ := List.nodup_append.mp hnd
  have hcrest : c ∉ rest := (List.nodup_cons.mp hnd').1
  have hmem : ∀ x ∈ done ++ c :: rest, x ≠ o := fun x hx he => by
    rw [← hsplit] at hx
    obtain ⟨k, -, hk⟩ := mem_resting.mp hx
    exact hfree k (he ▸ hk)
  -- the other orders are as before
  have hother : ∀ x ∈ done ++ c :: rest, x ≠ c → (L.fillOrder c o p).qty x = L.qty x :=
    fun x hx hxc => by rw [hqty, if_neg (hmem x hx), if_neg hxc]
  have hself : (L.fillOrder c o p).qty c = L.qty c - L.moved c o := by
    rw [hqty, if_neg hco, if_pos rfl]
  have hino : (L.fillOrder c o p).qty o = L.qty o - L.moved c o := by rw [hqty, if_pos rfl]
  have hdone' : ∀ x ∈ done, (L.fillOrder c o p).qty x = 0 ∧ L₀.Offers o x := fun x hx => by
    have hxc : x ≠ c := fun he => hapart x hx c (by simp) he
    rw [hother x (by simp [hx]) hxc]
    exact hdone x hx
  have hrest : ∀ x ∈ rest, (L.fillOrder c o p).qty x = L₀.qty x := fun x hx => by
    have hxc : x ≠ c := fun he => hcrest (he ▸ hx)
    rw [hother x (by simp [hx]) hxc]
    exact h.tail x hx
  by_cases hge : L.qty c ≥ L.qty o
  · -- the incoming order is filled
    have hmoved : L.moved c o = L.qty o := by rw [moved, if_pos hge]
    have hzero : (L.fillOrder c o p).qty o = 0 := by rw [hino, hmoved, sub_self]
    refine Or.inr ⟨hzero, hT, ⟨done, hsplit, hdone'⟩, hrest, fun x hx hne => ⟨hzero, ?_⟩⟩
    rcases List.mem_cons.mp hx with rfl | hx
    · exact hoffer
    · exact absurd (hrest x hx) hne
  · -- the order of the level is used up
    have hmoved : L.moved c o = L.qty c := by
      rw [moved, if_neg hge, h.traded.frame.hasParam, haon, if_neg (by simp)]
    have hpos : 0 < (L.fillOrder c o p).qty o := by
      rw [hino, hmoved]
      exact sub_pos.mpr (not_le.mp hge)
    refine Or.inl ⟨hpos, hmoved.symm, hT, ⟨done ++ [c], by simp [hsplit], fun x hx => ?_⟩,
      fun x hx => hrest x (List.mem_of_mem_tail hx), fun x hx hne => absurd (hrest x hx) hne⟩
    rcases List.mem_append.mp hx with hx | hx
    · exact hdone' x hx
    · rw [List.mem_singleton.mp hx, hself, hmoved, sub_self]
      exact ⟨rfl, hoffer⟩

/-- **The orders of a level.** -/
theorem processOrders {xs later : List ℕ} (h : Swept L₀ L o b (xs ++ later))
    (hl : l ∈ L₀.levels b) (hq : L.queue l = xs) (hoffer : ∀ x ∈ xs, L₀.Offers o x)
    (ho : 0 < L.qty o) : ∃ rest, Swept L₀ (processOrders o p L xs) o b rest ∧
      (0 < (processOrders o p L xs).qty o → rest = later) := by
  induction xs generalizing L with
  | nil => exact ⟨later, h, fun _ => rfl⟩
  | cons c xs ih =>
    have hc : c ∈ L.queue l := by simp [hq]
    have hco : c ≠ o := fun he => h.traded.not_mem_queue hfree l (he ▸ hc)
    rw [Ledger.processOrders, if_pos ho]
    rcases h.fillOrder h₀ hfree haon hl hc (hoffer c (by simp)) ho (p := p) with
      ⟨hpos, hmoved, hswept⟩ | ⟨hzero, hswept⟩
    · refine ih hswept ?_ (fun x hx => hoffer x (List.mem_cons_of_mem _ hx)) hpos
      have hq' : L.queue l = [] ++ c :: xs := hq
      rw [h.traded.wf.queue_fillOrder hco hq', if_pos hmoved, Function.update_self]
      rfl
    · -- nothing is left, so the loop stops
      have hstop : Ledger.processOrders o p (L.fillOrder c o p) xs = L.fillOrder c o p := by
        cases xs with
        | nil => rfl
        | cons x xs => rw [Ledger.processOrders, if_neg (by simp [hzero])]
      rw [hstop]
      exact ⟨_, hswept, fun hpos => absurd hzero hpos.ne'⟩

/-- **The levels.** If something is left of the order, it has come to a price that it does
not accept. -/
theorem matchLimits {ls : List ℕ} (h : Swept L₀ L o b (ls.flatMap L₀.queue))
    (hb : b = !(L₀.order o).isBuy) (hls : ls ⊆ L₀.levels b)
    (hsorted : SortedKeys (L₀.limitLess b) ls) (hq : ∀ l ∈ ls, L.queue l = L₀.queue l)
    (ho : 0 < L.qty o) : ∃ rest, Swept L₀ (L.matchLimits o ls).1 o b rest ∧
      (0 < (L.matchLimits o ls).1.qty o → ∀ x ∈ rest, ¬ L₀.Offers o x) := by
  induction ls generalizing L with
  | nil => exact ⟨[], h, fun _ => by simp⟩
  | cons l ls ih =>
    have hskip : L.skips o l = false := by
      rw [skips, h.traded.frame.hasParam, haon, Bool.false_and]
    have hcross₀ := h.traded.frame.crossPrice o l
    rw [Ledger.matchLimits, if_neg (by simp [hskip])]
    rcases hcross : OrderBook.calculateCrossPrice (L.order o) (L.limit l) with _ | p
    · -- no level from here on has a price that is accepted
      refine ⟨_, h, fun _ x hx hoffer => ?_⟩
      obtain ⟨k, hk, hxk⟩ := List.mem_flatMap.mp hx
      obtain ⟨k', hxk', hsome⟩ := hoffer
      rw [h₀.queue_unique hxk hxk'] at hsome
      have hnone : OrderBook.calculateCrossPrice (L₀.order o) (L₀.limit k) = none := by
        rcases List.mem_cons.mp hk with rfl | hk
        · exact hcross₀.symm.trans hcross
        · refine crossPrice_eq_none_of_limitLess (hcross₀.symm.trans hcross) ?_
          rw [← hb]
          exact (List.pairwise_cons.mp hsorted).1 k hk
      rw [hnone] at hsome
      exact absurd hsome (by simp)
    · have hl : l ∈ L₀.levels b := hls (by simp)
      have hsome : (OrderBook.calculateCrossPrice (L₀.order o) (L₀.limit l)).isSome = true := by
        rw [← hcross₀, hcross]
        rfl
      rw [List.flatMap_cons, ← hq l (by simp)] at h
      have hlevel : ∃ rest, Swept L₀ (L.processLimitOrder l o p) o b rest ∧
          (0 < (L.processLimitOrder l o p).qty o → rest = ls.flatMap L₀.queue) :=
        h.processOrders h₀ hfree haon hl rfl (fun x hx => ⟨l, hq l (by simp) ▸ hx, hsome⟩) ho
      obtain ⟨rest, hswept, hrest⟩ := hlevel
      dsimp only
      split
      · next hzero =>
        exact ⟨rest, hswept.setMarketPrice p, fun hpos => absurd hzero hpos.ne'⟩
      · next hne =>
        have hpos : 0 < (L.processLimitOrder l o p).qty o :=
          lt_of_le_of_ne hswept.traded.nonneg (Ne.symm hne)
        rw [hrest hpos] at hswept
        refine ih (hswept.setMarketPrice p) (fun x hx => hls (List.mem_cons_of_mem _ hx))
          (List.pairwise_cons.mp hsorted).2 (fun k hk => ?_) hpos
        have hkl : k ≠ l := by
          rintro rfl
          have hlt := (List.pairwise_cons.mp hsorted).1 k hk
          rw [(L₀.limitLess_strictWeak b).irrefl] at hlt
          exact absurd hlt (by simp)
        exact ((processLimitOrder_other h.traded.wf (h.traded.not_mem_queue hfree) hkl).2).trans
          (hq k (List.mem_cons_of_mem _ hk))

end Loops

/-! ### What has been taken -/

variable (h : Swept L₀ L o b rest)

include h

/-- An order that has lost something was offered. -/
theorem offers_of_ne {x : ℕ} (hx : x ∈ L₀.resting b) (hne : L.qty x ≠ L₀.qty x) :
    L₀.Offers o x := by
  obtain ⟨done, hsplit, hdone⟩ := h.done
  rw [hsplit] at hx
  rcases List.mem_append.mp hx with hx | hx
  · exact (hdone x hx).2
  · exact (h.head x hx hne).2

/-- No order has less than nothing. -/
theorem qty_nonneg {x : ℕ} (hx : x ∈ L₀.resting b) : 0 ≤ L.qty x := by
  obtain ⟨l, -, hl⟩ := mem_resting.mp hx
  by_cases hx' : x ∈ L.queue l
  · exact (h.traded.positive l x hx').le
  · exact (h.traded.left l x hl hx').ge

/-- **What the order has taken** is the smaller of its quantity and of what was offered. -/
theorem taken_eq_min (hend : 0 < L.qty o → ∀ x ∈ rest, ¬ L₀.Offers o x) (offered : ℕ → Bool)
    (hoffered : ∀ x ∈ L₀.resting b, offered x = true ↔ L₀.Offers o x) :
    L₀.qty o - L.qty o =
      min (L₀.qty o) (((L₀.resting b).filter offered).map L₀.qty).sum := by
  have hmem : ∀ x ∈ (L₀.resting b).filter offered, x ∈ L₀.resting b ∧ L₀.Offers o x :=
    fun x hx => ⟨(List.mem_filter.mp hx).1,
      (hoffered x (List.mem_filter.mp hx).1).mp (List.mem_filter.mp hx).2⟩
  -- all that was taken was taken from what was offered
  have hlost : L₀.qty o - L.qty o =
      (((L₀.resting b).filter offered).map fun x => L₀.qty x - L.qty x).sum := by
    have hall : ((L₀.resting b).map L₀.qty).sum =
        ((L₀.resting b).map fun x => L₀.qty x - L.qty x).sum + ((L₀.resting b).map L.qty).sum := by
      rw [← List.sum_map_add]
      simp
    have hrest : (((L₀.resting b).filter fun x => ¬ offered x = true).map
        fun x => L₀.qty x - L.qty x).sum = 0 := by
      refine List.sum_eq_zero fun v hv => ?_
      obtain ⟨x, hx, rfl⟩ := List.mem_map.mp hv
      obtain ⟨hx, hno⟩ := List.mem_filter.mp hx
      by_contra hne
      refine of_decide_eq_true hno ((hoffered x hx).mpr (h.offers_of_ne hx fun he => hne ?_))
      rw [he, sub_self]
    have hparts := List.sum_map_filter_add_sum_map_filter_not (fun x => offered x = true)
      (fun x => L₀.qty x - L.qty x) (L₀.resting b)
    simp only [Bool.decide_eq_true] at hparts
    have hbalance := h.traded.balance
    linarith
  rcases h.traded.nonneg.eq_or_lt with hzero | hpos
  · -- the order is filled
    have hle : (((L₀.resting b).filter offered).map fun x => L₀.qty x - L.qty x).sum ≤
        (((L₀.resting b).filter offered).map L₀.qty).sum :=
      List.sum_le_sum fun x hx => sub_le_self _ (h.qty_nonneg (hmem x hx).1)
    rw [← hzero, sub_zero] at hlost ⊢
    rw [← hlost] at hle
    exact (min_eq_left hle).symm
  · -- everything offered is used up
    have hused : (((L₀.resting b).filter offered).map fun x => L₀.qty x - L.qty x) =
        ((L₀.resting b).filter offered).map L₀.qty := by
      refine List.map_congr_left fun x hx => ?_
      obtain ⟨hx, hoffer⟩ := hmem x hx
      obtain ⟨done, hsplit, hdone⟩ := h.done
      rw [hsplit] at hx
      rcases List.mem_append.mp hx with hx | hx
      · rw [(hdone x hx).1, sub_zero]
      · exact absurd hoffer (hend hpos x hx)
    rw [hused] at hlost
    rw [← hlost]
    exact (min_eq_right (sub_le_self _ hpos.le)).symm

/-- **Best first**: an order that stands before one that has lost something is used up, if the
order of the side says which of the two stands first. -/
theorem used_up {R : ℕ → ℕ → Prop} (hR : (L₀.resting b).Pairwise R) {x y : ℕ}
    (hx : x ∈ L₀.resting b) (hy : y ∈ L₀.resting b) (hxy : x ≠ y) (hyx : ¬ R y x)
    (hne : L.qty y ≠ L₀.qty y) : L.qty x = 0 := by
  obtain ⟨done, hsplit, hdone⟩ := h.done
  rw [hsplit] at hR hx hy
  obtain ⟨-, hrest, hcross⟩ := List.pairwise_append.mp hR
  rcases List.mem_append.mp hx with hx | hx
  · exact (hdone x hx).1
  · -- `x` is not before the place, so it does not stand before `y`
    rcases List.mem_append.mp hy with hy | hy
    · exact absurd (hcross y hy x hx) hyx
    · obtain ⟨c, later, rfl⟩ := List.exists_cons_of_ne_nil (List.ne_nil_of_mem hy)
      rcases List.mem_cons.mp hy with rfl | hy
      · have hx := (List.mem_cons.mp hx).resolve_left hxy
        exact absurd ((List.pairwise_cons.mp hrest).1 x hx) hyx
      · exact absurd (h.tail y hy) hne

end Swept

/-! ### A new order -/

/-- **A new order that is not all-or-nothing** sweeps the other side. -/
theorem Positive.matched_swept (h : L.Positive) (hwf : L.WellFormed) {a : OrderArgs}
    (ha : 0 < a.qty) (haon : a.toData.activated.hasParam .aon = false) :
    ∃ rest, Swept (L.activate a) (L.matched a).1 L.nextOrder (!a.toData.isBuy) rest ∧
      (0 < (L.matched a).1.qty L.nextOrder →
        ∀ x ∈ rest, ¬ (L.activate a).Offers L.nextOrder x) := by
  have hnew := activate_order_new L a
  have hqty := activate_qty_new L a
  have hwf' := hwf.activate a
  have hstart : Traded (L.activate a) (L.activate a) L.nextOrder (!a.toData.isBuy) :=
    Traded.refl hwf' (h.activate hwf a) (by rw [hqty]; exact ha.le)
  refine (Swept.start hstart).matchLimits hwf' (hwf.fresh_activate a).queue (by rw [hnew, haon])
    (by rw [hnew, OrderData.activated_isBuy]) (List.Subset.refl _) (hwf'.levels_sorted _)
    (fun _ _ => rfl) (by rw [hqty]; exact ha)

end Ledger

end LimitOrderBook
