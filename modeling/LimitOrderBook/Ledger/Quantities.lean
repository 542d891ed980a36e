import LimitOrderBook.Ledger.Tidy
import Mathlib.Algebra.BigOperators.Group.List.Basic
import Mathlib.Algebra.Order.BigOperators.Group.List
import Mathlib.Tactic.Linarith
import Mathlib.Tactic.Ring

/-!
# Quantities

When every resting order has a positive quantity, matching only moves quantities:
what the incoming order loses, the orders on the opposite side lose
(`LimitOrderBook.Ledger.Traded`), and an order leaves its queue exactly when
nothing remains of it. An order that is not all-or-nothing empties every level it
passes (`LimitOrderBook.Ledger.Traded.empties`).
-/

namespace LimitOrderBook

open OrderBook (Request)

namespace Ledger

variable {L L₀ : Ledger} {c o l : ℕ} {b : Bool} {p : ℚ}

/-- Every resting order has something left. -/
def Positive (L : Ledger) : Prop := ∀ l, ∀ o ∈ L.queue l, 0 < L.qty o

/-- What is left of a resting order is part of what rests at its level. -/
theorem Positive.qty_le_sum (h : L.Positive) (hc : c ∈ L.queue l) :
    L.qty c ≤ ((L.queue l).map L.qty).sum := by
  refine List.single_le_sum (fun q hq => ?_) _ (List.mem_map_of_mem hc)
  obtain ⟨x, hx, rfl⟩ := List.mem_map.mp hq
  exact (h l x hx).le

/-- **An order that comes to rest** is added to the volume of its level as it is to the queue:
the two differ as before, or not at all if the level is new. -/
theorem Placed.volume_sub {L' : Ledger} (h : Placed L L' o l b) {k : ℕ} {d : Bool}
    (hk : k ∈ L'.levels d) :
    (∃ e, k ∈ L.levels e ∧ (L'.limit k).activeVolume - ((L'.queue k).map L'.qty).sum =
      (L.limit k).activeVolume - ((L.queue k).map L.qty).sum) ∨
    (L'.limit k).activeVolume = ((L'.queue k).map L'.qty).sum := by
  have hqty : L'.qty = L.qty := funext h.qty
  rw [hqty, h.queue]
  by_cases hkl : k = l
  · subst hkl
    rw [Function.update_self, h.volume_self, List.map_append, List.sum_append, List.map_singleton,
      List.sum_singleton]
    rcases h.old_or_new with hold | ⟨hnew, hempty⟩
    · rw [if_pos hold]
      exact Or.inl ⟨b, hold, by ring⟩
    · rw [if_neg (hnew b), hempty]
      exact Or.inr (by simp)
  · have hk : k ∈ L.levels d := ((h.levels d k).mp hk).resolve_left fun he => hkl he.1
    rw [Function.update_of_ne hkl, h.volume d k hk hkl]
    exact Or.inl ⟨d, hk, rfl⟩

theorem moved_nonneg (hc : 0 < L.qty c) (ho : 0 < L.qty o) : 0 ≤ L.moved c o := by
  rw [moved]
  split
  · exact ho.le
  · split
    · exact le_rfl
    · exact hc.le

theorem moved_le_left (hc : 0 < L.qty c) : L.moved c o ≤ L.qty c := by
  rw [moved]
  split
  · next h => exact h
  · split
    · exact hc.le
    · exact le_rfl

theorem moved_le_right (ho : 0 < L.qty o) : L.moved c o ≤ L.qty o := by
  rw [moved]
  split
  · exact le_rfl
  · next h =>
    split
    · exact ho.le
    · exact (not_le.mp h).le

/-- Lowering the quantity of one member lowers the sum. -/
theorem sum_map_sub {xs : List ℕ} (hnd : xs.Nodup) (hc : c ∈ xs) {f g : ℕ → ℚ} {v : ℚ}
    (hgc : g c = f c - v) (hg : ∀ x ∈ xs, x ≠ c → g x = f x) :
    (xs.map g).sum = (xs.map f).sum - v := by
  rw [← List.sum_map_erase g hc, ← List.sum_map_erase f hc, hgc]
  have hrest : (xs.erase c).map g = (xs.erase c).map f := by
    refine List.map_congr_left fun x hx => ?_
    exact hg x (List.mem_of_mem_erase hx) fun he => hnd.not_mem_erase (he ▸ hx)
  rw [hrest]
  ring

/-- **Matching the order `o` against orders on the side `b`** has led from `L₀` to
`L`. -/
structure Traded (L₀ L : Ledger) (o : ℕ) (b : Bool) : Prop where
  frame : MatchFrame L₀ L
  wf : L.WellFormed
  positive : L.Positive
  nonneg : 0 ≤ L.qty o
  left : ∀ l, ∀ x ∈ L₀.queue l, x ∉ L.queue l → L.qty x = 0
  unchanged : ∀ x, x ≠ o → x ∉ L₀.resting b → L.qty x = L₀.qty x
  balance : L.qty o - ((L₀.resting b).map L.qty).sum = L₀.qty o - ((L₀.resting b).map L₀.qty).sum

namespace Traded

theorem refl (hwf : L.WellFormed) (hpos : L.Positive) (ho : 0 ≤ L.qty o) : Traded L L o b where
  frame := .refl L
  wf := hwf
  positive := hpos
  nonneg := ho
  left := fun _ _ hx hx' => absurd hx hx'
  unchanged := fun _ _ _ => rfl
  balance := rfl

variable (h : Traded L₀ L o b)

include h

theorem setMarketPrice (p : ℚ) : Traded L₀ (L.setMarketPrice p) o b :=
  { h with frame := h.frame.trans (.setMarketPrice L p), wf := { h.wf with } }

/-- One order of a level of the side. -/
theorem fillOrder (h₀ : L₀.WellFormed) (hfree : ∀ x, o ∉ L₀.queue x) (hl : l ∈ L₀.levels b)
    (hc : c ∈ L.queue l) (ho : 0 < L.qty o) : Traded L₀ (L.fillOrder c o p) o b := by
  have hframe := MatchFrame.fillOrder L c o p
  have hc₀ : c ∈ L₀.queue l := (h.frame.queue l).mem hc
  have hco : c ≠ o := fun he => hfree l (he ▸ hc₀)
  have hcpos : 0 < L.qty c := h.positive l c hc
  have hqty : ∀ x, (L.fillOrder c o p).qty x = if x = o then L.qty o - L.moved c o
      else if x = c then L.qty c - L.moved c o else L.qty x := h.wf.qty_fillOrder hc hco
  obtain ⟨xs, ys, hq⟩ := List.append_of_mem hc
  have hqueue := h.wf.queue_fillOrder (p := p) hco hq
  have hcr : c ∈ L₀.resting b := mem_resting.mpr ⟨l, hl, hc₀⟩
  have hor : o ∉ L₀.resting b := fun hr => by
    obtain ⟨x, -, hx⟩ := mem_resting.mp hr
    exact hfree x hx
  refine ⟨h.frame.trans hframe, h.wf.fillOrder, fun x y hy => ?_, ?_, fun x y hy hy' => ?_,
    fun x hx hxr => ?_, ?_⟩
  · -- what is still in a queue
    have hy₀ : y ∈ L.queue x := (hframe.queue x).mem hy
    have hyo : y ≠ o := fun he => hfree x (he ▸ (h.frame.queue x).mem hy₀)
    rw [hqty, if_neg hyo]
    by_cases hyc : y = c
    · subst hyc
      rw [if_pos rfl]
      refine sub_pos.mpr (lt_of_le_of_ne (moved_le_left hcpos) fun he => ?_)
      rw [hqueue, if_pos he.symm] at hy
      have hxl : x = l := h.wf.queue_unique hc hy₀
      subst hxl
      rw [Function.update_self] at hy
      have hnd := h.wf.queue_nodup x
      rw [hq] at hnd
      exact (List.nodup_middle.mp hnd).notMem hy
    · rw [if_neg hyc]
      exact h.positive x y hy₀
  · rw [hqty, if_pos rfl]
    exact sub_nonneg.mpr (moved_le_right ho)
  · -- what has left its queue
    have hyo : y ≠ o := fun he => hfree x (he ▸ hy)
    rw [hqty, if_neg hyo]
    by_cases hyq : y ∈ L.queue x
    · have hyc : y = c := by
        by_contra hyc
        refine hy' ?_
        rw [hqueue]
        split
        · by_cases hxl : x = l
          · subst hxl
            rw [hq] at hyq
            rw [Function.update_self]
            simpa [hyc] using hyq
          · rwa [Function.update_of_ne hxl]
        · exact hyq
      subst hyc
      rw [if_pos rfl]
      by_contra hne
      rw [hqueue, if_neg fun he => hne (sub_eq_zero.mpr he)] at hy'
      exact hy' hyq
    · have hyc : y ≠ c := by
        rintro rfl
        exact hyq (h₀.queue_unique hc₀ hy ▸ hc)
      rw [if_neg hyc]
      exact h.left x y hy hyq
  · have hxc : x ≠ c := fun he => hxr (he ▸ hcr)
    rw [hqty, if_neg hx, if_neg hxc]
    exact h.unchanged x hx hxr
  · have hsum := sum_map_sub (h₀.resting_nodup (b := b)) hcr (f := L.qty)
      (g := (L.fillOrder c o p).qty) (v := L.moved c o)
      (by rw [hqty, if_neg hco, if_pos rfl])
      (fun x hx hxc => by
        have hxo : x ≠ o := fun he => hor (he ▸ hx)
        rw [hqty, if_neg hxo, if_neg hxc])
    rw [hsum, hqty, if_pos rfl, ← h.balance]
    ring

theorem not_mem_queue (hfree : ∀ x, o ∉ L₀.queue x) (x : ℕ) : o ∉ L.queue x := fun hx =>
  hfree x ((h.frame.queue x).mem hx)

/-- One level. -/
theorem processLimitOrder (h₀ : L₀.WellFormed) (hfree : ∀ x, o ∉ L₀.queue x)
    (hl : l ∈ L₀.levels b) : Traded L₀ (L.processLimitOrder l o p) o b :=
  (processOrders_invariant (J := fun L => Traded L₀ L o b)
    (fun _ _ _ hJ hc hpos => hJ.fillOrder h₀ hfree hl hc hpos) h.wf
    (h.not_mem_queue hfree) h).1

/-- **A level that an order passes is empty**, unless the order is all-or-nothing. -/
theorem empties (h₀ : L₀.WellFormed) (hfree : ∀ x, o ∉ L₀.queue x) (hl : l ∈ L₀.levels b)
    (haon : (L₀.order o).hasParam .aon = false)
    (hleft : 0 < (L.processLimitOrder l o p).qty o) : (L.processLimitOrder l o p).queue l = [] := by
  -- as long as something is left of the order, it is at the head of the queue
  obtain ⟨rest, ⟨-, hrest⟩, hexit⟩ := processOrders_rule (o := o) (p := p) (P := fun L rest =>
      Traded L₀ L o b ∧ (0 < L.qty o → L.queue l = rest))
    (fun L c rest => by
      rintro ⟨hL, hhead⟩ hpos
      have hq : L.queue l = [] ++ c :: rest := hhead hpos
      have hc : c ∈ L.queue l := by simp [hq]
      have hco : c ≠ o := fun he => hL.not_mem_queue hfree l (he ▸ hc)
      refine ⟨hL.fillOrder h₀ hfree hl hc hpos, fun hpos' => ?_⟩
      rw [hL.wf.qty_fillOrder hc hco, if_pos rfl] at hpos'
      have hmoved : L.qty c = L.moved c o := by
        rw [moved] at hpos' ⊢
        split at hpos'
        · exact absurd hpos' (by simp)
        · next hlt => rw [if_neg hlt, hL.frame.hasParam, haon, if_neg (by simp)]
      rw [hL.wf.queue_fillOrder hco hq, if_pos hmoved]
      simp)
    L (L.queue l) ⟨h, fun _ => rfl⟩
  rcases hexit with rfl | hexit
  · exact hrest hleft
  · exact absurd hleft hexit

/-- **Matching**: either the incoming order is filled, or something is left of it
and the loop has stopped in front of the levels `rest`. -/
theorem matchLimits (h₀ : L₀.WellFormed) (hfree : ∀ x, o ∉ L₀.queue x) (ho : 0 < L.qty o)
    {ls : List ℕ} (hls : ls ⊆ L₀.levels b) :
    Traded L₀ (L.matchLimits o ls).1 o b ∧
      ((L.matchLimits o ls).2 = true ∧ (L.matchLimits o ls).1.qty o = 0 ∨
        (L.matchLimits o ls).2 = false ∧ 0 < (L.matchLimits o ls).1.qty o) := by
  rcases matchLimits_rule (o := o)
    (P := fun L rest => Traded L₀ L o b ∧ 0 < L.qty o ∧ rest ⊆ L₀.levels b)
    (Q := fun L => Traded L₀ L o b ∧ L.qty o = 0)
    (fun L l rest hP _ => ⟨hP.1, hP.2.1, fun x hx => hP.2.2 (by simp [hx])⟩)
    (fun L l rest p hP _ _ hzero => by
      have hL := hP.1.processLimitOrder (p := p) h₀ hfree (hP.2.2 (by simp : l ∈ l :: rest))
      exact ⟨hL.setMarketPrice p, hzero⟩)
    (fun L l rest p hP _ _ hzero => by
      have hL := hP.1.processLimitOrder (p := p) h₀ hfree (hP.2.2 (by simp : l ∈ l :: rest))
      exact ⟨hL.setMarketPrice p, lt_of_le_of_ne hL.nonneg (Ne.symm hzero),
        fun x hx => hP.2.2 (by simp [hx])⟩)
    L ls ⟨h, ho, hls⟩ with ⟨hf, hL, hzero⟩ | ⟨hf, rest, ⟨hL, hpos, -⟩, -⟩
  · exact ⟨hL, Or.inl ⟨hf, hzero⟩⟩
  · exact ⟨hL, Or.inr ⟨hf, hpos⟩⟩

end Traded

/-! ### Requests with positive quantities -/

theorem activate_qty_new (L : Ledger) (a : OrderArgs) : (L.activate a).qty L.nextOrder = a.qty := by
  rw [qty, activate_order_new]
  simp [OrderArgs.toData]

theorem Positive.activate (h : L.Positive) (hwf : L.WellFormed) (a : OrderArgs) :
    (L.activate a).Positive := by
  intro l x hx
  rw [qty, activate_order (hwf.queue_lt l x hx)]
  exact h l x hx

/-- **What `match_order` does with a new order.** -/
theorem Positive.matched (h : L.Positive) (hwf : L.WellFormed) {a : OrderArgs} (ha : 0 < a.qty) :
    Traded (L.activate a) (L.matched a).1 L.nextOrder (!a.toData.isBuy) ∧
      ((L.matched a).2 = true ∧ (L.matched a).1.qty L.nextOrder = 0 ∨
        (L.matched a).2 = false ∧ 0 < (L.matched a).1.qty L.nextOrder) := by
  have hpos : 0 < (L.activate a).qty L.nextOrder := by
    rw [activate_qty_new]
    exact ha
  exact (Traded.refl (hwf.activate a) (h.activate hwf a) hpos.le).matchLimits (hwf.activate a)
    (hwf.fresh_activate a).queue hpos (List.Subset.refl _)

/-- **The ways `add_order` ends for an order that is not parked**: it is filled, or refused
with something left, or comes to rest with something left. -/
theorem Positive.step_add_cases (h : L.Positive) (hwf : L.WellFormed) (now : ℤ) {a : OrderArgs}
    (ha : 0 < a.qty) (hp : (L.receive a).isParked L.nextOrder = false) :
    (L.step (.add now a) = ((L.matched a).1, some .matched) ∧ (L.matched a).2 = true ∧
        (L.matched a).1.qty L.nextOrder = 0) ∨
      ((L.matched a).2 = false ∧ 0 < (L.matched a).1.qty L.nextOrder ∧
        if a.toData.activated.hasParam .fok = true then L.step (.add now a) =
          ((L.matched a).1.updateData L.nextOrder .cancel, some .notMatched)
        else L.step (.add now a) = ((L.matched a).1.restOrder L.nextOrder, some .accepted)) := by
  obtain ⟨htraded, hend⟩ := h.matched hwf ha
  have hfok : ((L.matched a).1.order L.nextOrder).hasParam .fok =
      a.toData.activated.hasParam .fok := by
    rw [htraded.frame.hasParam, activate_order_new]
  rw [step_add, if_neg (by simp [hp]), settle, hfok]
  rcases hend with ⟨hfilled, hzero⟩ | ⟨hfilled, hleft⟩
  · rw [if_pos hfilled]
    exact Or.inl ⟨rfl, hfilled, hzero⟩
  · rw [if_neg (by simp [hfilled])]
    refine Or.inr ⟨hfilled, hleft, ?_⟩
    split <;> rfl

theorem Positive.cancelOrder (h : L.Positive) (hwf : L.WellFormed) (id : String) :
    (L.cancelOrder id).1.Positive := by
  intro l x hx
  rw [cancelOrder_qty]
  exact h l x ((hwf.queue_cancelOrder id l).mem hx)

/-- **Resting orders have positive quantities** in every run. -/
theorem Positive.step (h : L.Positive) (hwf : L.WellFormed) {r : Request} (hr : r.Sound) :
    (L.step r).1.Positive := by
  cases r with
  | add now a =>
    have hr : 0 < a.qty := hr
    obtain ⟨htraded, hend⟩ := h.matched hwf hr
    rw [step_add]
    split
    · intro l x hx
      obtain ⟨dates, hdates⟩ := (L.receive a).parkOrder_eq L.nextOrder
      rw [hdates] at hx ⊢
      have hx : x ∈ L.queue l := hx
      have hqty : (L.receive a).qty x = L.qty x :=
        congrArg OrderData.currentQty (receive_order (hwf.queue_lt l x hx) a)
      exact hqty.symm ▸ h l x hx
    · rw [settle]
      split
      · exact htraded.positive
      · next hfilled =>
        split
        · intro l x hx
          rw [qty_cancel]
          exact htraded.positive l x hx
        · obtain ⟨l, hl, -, -⟩ := htraded.wf.restOrder L.nextOrder
          intro x y hy
          rw [hl.qty]
          rcases hl.mem_queue.mp hy with ⟨rfl, rfl⟩ | hy
          · exact (hend.resolve_left fun hf => hfilled hf.1).2
          · exact htraded.positive x y hy
  | modify a => exact absurd hr (by simp [Request.Sound])
  | cancel id => exact h.cancelOrder hwf id
  | checkDate now =>
    exact (checkDateOrders_rule (J := fun L => L.WellFormed ∧ L.Positive)
      (fun L' o hJ _ _ => ⟨hJ.1.cancelOrder _, hJ.2.cancelOrder hJ.1 _⟩)
      (fun L' o hJ => ⟨hJ.1.eraseDate, hJ.2⟩) ⟨hwf, h⟩).2

end Ledger

/-- **A run of sound requests**, read as a ledger. -/
theorem exists_sound_run (instrument : String) (marketPrice : ℚ) {rs : List Request}
    (hrs : ∀ r ∈ rs, r.Sound) :
    ∃ s answers L, runAll OrderBook.step (.empty instrument marketPrice) rs = .ok (s, answers) ∧
      Refines s L ∧ L.Tidy ∧ L.Positive :=
  (refines_empty instrument marketPrice).run_invariant
    (J := fun L => L.Tidy ∧ L.Positive)
    (fun _ _ _ _ hJ hr => ⟨hJ.1.step hr.keepsOrders, hJ.2.step hJ.1.wf hr⟩)
    ⟨Ledger.tidy_empty instrument marketPrice, fun _ _ ho => absurd ho (by simp [Ledger.empty])⟩
    (meets_of_forall hrs _)

end LimitOrderBook
