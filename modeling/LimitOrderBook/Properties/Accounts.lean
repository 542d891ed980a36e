import LimitOrderBook.Ledger.Arrivals
import LimitOrderBook.Ledger.Recovered
import LimitOrderBook.Ledger.Register
import Mathlib.Tactic.Ring

/-!
# The accounts of a book

Over a whole run – restart, new orders of any kind, orders that replace others, cancellations,
expiries – what is missing from an order is what its executions have taken, no more and no less
(`LimitOrderBook.fills_accounted`). An execution takes the same positive quantity from two
different orders.

The ids may repeat, and so may everything else. Only the signs of the quantities matter: with a
negative one `resolve_orders` gives to an order what it takes from the other, and enqueues no
trade for it.
-/

namespace LimitOrderBook

open OrderBook (Request)

/-- What the executions of a list have taken from an order. -/
def takenBy (es : List Execution) (o : ℕ) : ℚ :=
  ((es.filter fun e => e.incoming = o ∨ e.resting = o).map Execution.volume).sum

theorem takenBy_concat (es : List Execution) (e : Execution) (o : ℕ) : takenBy (es ++ [e]) o =
    takenBy es o + if e.incoming = o ∨ e.resting = o then e.volume else 0 := by
  rw [takenBy, takenBy, List.filter_append, List.map_append, List.sum_append]
  by_cases h : e.incoming = o ∨ e.resting = o
  · simp [h]
  · simp [h]

/-- An order that no execution is about. -/
theorem takenBy_eq_zero {es : List Execution} {o : ℕ}
    (h : ∀ e ∈ es, e.incoming ≠ o ∧ e.resting ≠ o) : takenBy es o = 0 := by
  have hnone : (es.filter fun e => e.incoming = o ∨ e.resting = o) = [] := by
    refine List.filter_eq_nil_iff.mpr fun e he => ?_
    simpa using h e he
  rw [takenBy, hnone]
  rfl

/-- The quantity with which an order came to the book: what was left of it in the repository, or
all of it. -/
def startQty (repository : List OrderData) (o : ℕ) (x : OrderData) : ℚ :=
  (repository[o]?.map OrderData.currentQty).getD x.qty

/-- The orders of a request have no negative quantity. -/
def OrderBook.Request.Nonneg : Request → Prop
  | .add _ a => 0 ≤ a.qty
  | .modify a => 0 ≤ a.qty
  | _ => True

/-- **What is missing from an order is what its executions have taken**, and each of them has taken
a positive quantity from two different orders. -/
structure OrderBook.Balanced (repository : List OrderData) (s : OrderBook) : Prop where
  account : ∀ o < s.nextOrder, startQty repository o (s.order o).toOrderData -
    (s.order o).currentQty = takenBy s.executions o
  nonneg : ∀ o < s.nextOrder, 0 ≤ (s.order o).currentQty
  execution : ∀ e ∈ s.executions, 0 < e.volume ∧ e.incoming ≠ e.resting ∧
    e.incoming < s.nextOrder ∧ e.resting < s.nextOrder

namespace Ledger

variable {L L' : Ledger} {rs : List OrderData} {o c : ℕ}

/-- The same in a ledger. -/
structure Balanced (rs : List OrderData) (L : Ledger) : Prop where
  account : ∀ o < L.nextOrder, startQty rs o (L.order o) - L.qty o = takenBy L.executions o
  nonneg : ∀ o < L.nextOrder, 0 ≤ L.qty o
  execution : ∀ e ∈ L.executions, 0 < e.volume ∧ e.incoming ≠ e.resting ∧
    e.incoming < L.nextOrder ∧ e.resting < L.nextOrder

/-- Activating an order changes its type and its flags. -/
theorem Still.activated (L : Ledger) (o : ℕ) : Still L (L.updateData o .activated) where
  keeps := L.keeps_updateData o .activated
  qty := fun x => by
    rw [Ledger.qty, Ledger.qty]
    by_cases hx : x = o
    · subst hx
      rw [updateData_order, Function.update_self, OrderData.activated_currentQty]
    · rw [updateData_order, Function.update_of_ne hx]
  nextOrder := rfl
  marketPrice := rfl
  executions := rfl
  tradeQueue := rfl

namespace Balanced

variable (h : L.Balanced rs)

include h

/-- Nothing is traded. -/
theorem of_still (hs : Still L L') : L'.Balanced rs where
  account := fun o ho => by
    rw [hs.nextOrder] at ho
    rw [startQty, (hs.keeps o).qty, hs.qty, hs.executions]
    exact h.account o ho
  nonneg := fun o ho => by
    rw [hs.nextOrder] at ho
    rw [hs.qty]
    exact h.nonneg o ho
  execution := by
    rw [hs.nextOrder, hs.executions]
    exact h.execution

/-- A new order. -/
theorem allocOrder {x : OrderData} (hlen : rs.length ≤ L.nextOrder) (hx : x.currentQty = x.qty)
    (hpos : 0 ≤ x.qty) : (L.allocOrder x).Balanced rs := by
  have hold : ∀ {p}, p < L.nextOrder → (L.allocOrder x).order p = L.order p := fun hp =>
    allocOrder_order_old hp x
  have hnew := L.allocOrder_order_new x
  refine ⟨fun p hp => ?_, fun p hp => ?_, fun e he => ?_⟩
  · rcases Nat.lt_succ_iff_lt_or_eq.mp hp with hp | rfl
    · rw [qty, hold hp]
      exact h.account p hp
    · have hnone : takenBy L.executions L.nextOrder = 0 := takenBy_eq_zero fun e he => by
        obtain ⟨-, -, h₁, h₂⟩ := h.execution e he
        exact ⟨h₁.ne, h₂.ne⟩
      rw [startQty, List.getElem?_eq_none hlen, qty, hnew, allocOrder_executions, hnone, hx]
      simp
  · rcases Nat.lt_succ_iff_lt_or_eq.mp hp with hp | rfl
    · rw [qty, hold hp]
      exact h.nonneg p hp
    · rw [qty, hnew, hx]
      exact hpos
  · obtain ⟨hvol, hne, h₁, h₂⟩ := h.execution e he
    exact ⟨hvol, hne, Nat.lt_succ_of_lt h₁, Nat.lt_succ_of_lt h₂⟩

/-- One call of `resolve_orders`, and what follows it. -/
theorem fillOrder {p : ℚ} (hwf : L.WellFormed) (hc : c ∈ L.queue l) (hne : c ≠ o)
    (ho : o < L.nextOrder) (hpos : 0 < L.qty o) : (L.fillOrder c o p).Balanced rs := by
  have hframe : MatchFrame L (L.fillOrder c o p) := .fillOrder L c o p
  have hclt := hwf.queue_lt l c hc
  have hcq := h.nonneg c hclt
  have hmoved : 0 ≤ L.moved c o ∧ L.moved c o ≤ L.qty c ∧ L.moved c o ≤ L.qty o := by
    rw [moved]
    split
    · next hge => exact ⟨hpos.le, hge, le_rfl⟩
    · next hge =>
      split
      · exact ⟨le_rfl, hcq, hpos.le⟩
      · exact ⟨hcq, le_rfl, (not_le.mp hge).le⟩
  refine ⟨fun x hx => ?_, fun x hx => ?_, fun e he => ?_⟩
  · rw [hframe.nextOrder] at hx
    have hstart : startQty rs x ((L.fillOrder c o p).order x) = startQty rs x (L.order x) := by
      rw [startQty, (hframe.keeps x).qty, startQty]
    have hlog : takenBy (L.fillOrder c o p).executions x =
        takenBy L.executions x + if x = o ∨ x = c then L.moved c o else 0 := by
      rw [hwf.executions_fillOrder hc hne]
      split
      · simp only [takenBy_concat, eq_comm]
      · next hzero =>
        have hzero : L.moved c o = 0 := le_antisymm (not_lt.mp hzero) hmoved.1
        simp [hzero]
    have hold := h.account x hx
    rw [hstart, hwf.qty_fillOrder hc hne, hlog, ← hold]
    -- `x` is the incoming order, the resting one or neither
    by_cases hxo : x = o
    · subst hxo
      simp only [true_or, if_true]
      ring
    · by_cases hxc : x = c
      · subst hxc
        simp only [hxo, if_false, if_true, or_true]
        ring
      · simp [hxo, hxc]
  · rw [hframe.nextOrder] at hx
    rw [hwf.qty_fillOrder hc hne]
    split
    · exact sub_nonneg.mpr hmoved.2.2
    · split
      · exact sub_nonneg.mpr hmoved.2.1
      · exact h.nonneg x hx
  · rw [hframe.nextOrder]
    rw [hwf.executions_fillOrder hc hne] at he
    split at he
    · next hvol =>
      rcases List.mem_append.mp he with he | he
      · exact h.execution e he
      · obtain rfl := List.mem_singleton.mp he
        exact ⟨hvol, hne.symm, ho, hclt⟩
    · exact h.execution e he

/-- A whole call of `match_order`. -/
theorem matchLimits {ls : List ℕ} (hwf : L.WellFormed) (hfree : ∀ x, o ∉ L.queue x)
    (ho : o < L.nextOrder) : (L.matchLimits o ls).1.Balanced rs := by
  have hfill : ∀ L' l c p, L'.WellFormed → L'.Balanced rs ∧ MatchFrame L L' → c ∈ L'.queue l →
      0 < L'.qty o → (L'.fillOrder c o p).Balanced rs ∧ MatchFrame L (L'.fillOrder c o p) := by
    rintro L' l c p hwf' ⟨hbal, hframe⟩ hc hpos
    have hne : c ≠ o := by
      rintro rfl
      exact hfree l ((hframe.queue l).mem hc)
    have ho' : o < L'.nextOrder := hframe.nextOrder ▸ ho
    exact ⟨hbal.fillOrder hwf' hc hne ho' hpos, hframe.trans (.fillOrder L' c o p)⟩
  exact (matchLimits_invariant (J := fun L' => L'.Balanced rs ∧ MatchFrame L L')
    (fun L' l c p _ _ hwf' hJ hc hpos => hfill L' l c p hwf' hJ hc hpos)
    (fun L' p hJ => ⟨{ hJ.1 with }, hJ.2.trans (.setMarketPrice L' p)⟩) hwf hfree ⟨h, .refl L⟩).1.1

/-- A new order that is to be matched. -/
theorem activate {a : OrderArgs} (hlen : rs.length ≤ L.nextOrder) (hpos : 0 ≤ a.qty) :
    (L.activate a).Balanced rs := by
  have hnew : (L.allocOrder a.toData).Balanced rs := h.allocOrder hlen rfl hpos
  exact hnew.of_still ((Still.enqueueOrder _ _).trans (Still.activated (L.receive a) L.nextOrder))

/-- **Every request.** -/
theorem step (hwf : L.WellFormed) (hlen : rs.length ≤ L.nextOrder) {r : Request} (hr : r.Nonneg) :
    (L.step r).1.Balanced rs := by
  cases r with
  | add now a =>
    rw [step_add]
    split
    · have hnew : (L.allocOrder a.toData).Balanced rs := h.allocOrder hlen rfl hr
      exact hnew.of_still
        ((Still.enqueueOrder _ _).trans (Still.parkOrder (L.receive a) L.nextOrder))
    · have hfresh := hwf.fresh_activate a
      have hmatched : (L.matched a).1.Balanced rs :=
        (h.activate hlen hr).matchLimits (hwf.activate a) hfresh.queue hfresh.lt
      exact hmatched.of_still (Still.settle _ _ _)
  | modify a =>
    have hnew : (L.allocOrder a.toData).Balanced rs := h.allocOrder hlen rfl hr
    exact hnew.of_still (Still.modifyOrder _ L.nextOrder)
  | cancel id => exact h.of_still (Still.cancelOrder L id)
  | checkDate now => exact h.of_still (Still.checkDateOrders L now)

end Balanced

/-- What the constructor builds. -/
theorem balanced_recover (instrument : String) (marketPrice : ℚ) {repository : List OrderData}
    (hrep : ∀ x ∈ repository, 0 ≤ x.currentQty) :
    ((empty instrument marketPrice).recover repository).Balanced repository := by
  have hlog : ∀ (rest : List OrderData) (L : Ledger),
      (L.recover rest).executions = L.executions := by
    intro rest
    induction rest with
    | nil => exact fun _ => rfl
    | cons x rest ih =>
      intro L
      rw [recover, ih, (Still.recoverOrder _ L.nextOrder).executions, allocOrder_executions]
  have hrec := recovered_new instrument marketPrice repository
  have hat : ∀ o < ((empty instrument marketPrice).recover repository).nextOrder,
      ∃ x, repository[o]? = some x ∧
        ((empty instrument marketPrice).recover repository).order o = x := by
    intro o ho
    rw [hrec.nextOrder] at ho
    exact ⟨repository[o], List.getElem?_eq_getElem ho, hrec.order o _ (List.getElem?_eq_getElem ho)⟩
  refine ⟨fun o ho => ?_, fun o ho => ?_, fun e he => ?_⟩
  · obtain ⟨x, hx, ho⟩ := hat o ho
    rw [startQty, hx, qty, ho, hlog]
    exact sub_self _
  · obtain ⟨x, hx, ho⟩ := hat o ho
    rw [qty, ho]
    exact hrep x (List.mem_of_getElem? hx)
  · rw [hlog] at he
    exact absurd he List.not_mem_nil

end Ledger

end LimitOrderBook
