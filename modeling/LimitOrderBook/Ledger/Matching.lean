import LimitOrderBook.Ledger.WellFormed

/-!
# Matching in a ledger

One call of `resolve_orders` takes the same quantity from both orders
(`LimitOrderBook.Ledger.moved`, `LimitOrderBook.Ledger.resolveOrders_eq`): what the
three branches do is said once, and everything later goes through it. The loops
over the orders of a level and over the levels then come with invariant rules
(`LimitOrderBook.Ledger.processOrders_invariant`,
`LimitOrderBook.Ledger.matchLimits_invariant`).
-/

namespace LimitOrderBook

/-- An order with another remaining quantity. -/
def OrderData.withQty (x : OrderData) (q : ℚ) : OrderData := { x with currentQty := q }

/-- The price `q` is not acceptable to an order at the price `p`. -/
def outOfReach (isBuy : Bool) (p q : ℚ) : Prop := if isBuy then p < q else q < p

theorem calculateCrossPrice_eq_none {o : OrderData} {l : LimitData} :
    OrderBook.calculateCrossPrice o l = none ↔ outOfReach o.isBuy o.price l.price := by
  rw [OrderBook.calculateCrossPrice, outOfReach]
  cases o.isBuy <;> cases o.type <;> simp

namespace Ledger

variable {L : Ledger} {c o l : ℕ} {p : ℚ}

/-! ### One resting order -/

/-- The quantity that `resolve_orders` takes from the order `c` of a queue and the
incoming order `o`. -/
def moved (L : Ledger) (c o : ℕ) : ℚ :=
  if L.qty c ≥ L.qty o then L.qty o else if (L.order o).hasParam .aon then 0 else L.qty c

/-- Take a quantity from both orders. -/
@[simps]
def moveQty (L : Ledger) (c o : ℕ) (v : ℚ) : Ledger :=
  { L with
    order := Function.update
      (Function.update L.order c { L.order c with currentQty := L.qty c - v }) o
      { L.order o with currentQty := L.qty o - v } }

theorem exchange_eq (L : Ledger) (c o : ℕ) : L.exchange c o = L.moveQty c o (L.moved c o) := by
  have hext : ∀ f : ℕ → OrderData, f = (L.moveQty c o (L.moved c o)).order →
      { L with order := f } = L.moveQty c o (L.moved c o) := by
    rintro f rfl
    rfl
  rw [exchange]
  split
  · -- the incoming order is filled
    next hge =>
    refine hext _ (funext fun x => ?_)
    by_cases hx : x = o
    · subst hx
      by_cases hc : x = c
      · subst hc
        simp [moved, OrderData.fill]
      · simp [moved, hge, hc, OrderData.fill]
    · by_cases hc : x = c
      · subst hc
        simp [moved, hge, hx]
      · simp [hx, hc]
  · next hge =>
    have hco : c ≠ o := by
      rintro rfl
      exact hge le_rfl
    split
    · -- the resting order is filled
      next haon =>
      have haon : (L.order o).hasParam .aon = false := by simpa using haon
      refine hext _ (funext fun x => ?_)
      by_cases hx : x = o
      · subst hx
        simp [moved, hge, haon, Ne.symm hco]
      · by_cases hc : x = c
        · subst hc
          simp [moved, hge, haon, hx, OrderData.fill]
        · simp [hx, hc]
    · -- nothing happens
      next haon =>
      have haon : (L.order o).hasParam .aon = true := by simpa using haon
      have hzero : L.moved c o = 0 := by simp [moved, hge, haon]
      refine hext L.order (funext fun x => ?_)
      by_cases hx : x = o
      · subst hx
        simp [hzero, qty]
      · by_cases hc : x = c
        · subst hc
          simp [hzero, hx, qty]
        · simp [hx, hc]

theorem moveQty_qty (hc : c ≠ o) (v : ℚ) (x : ℕ) : (L.moveQty c o v).qty x =
    if x = o then L.qty o - v else if x = c then L.qty c - v else L.qty x := by
  by_cases hx : x = o
  · subst hx
    simp [qty]
  · by_cases hxc : x = c
    · subst hxc
      simp [qty, hx]
    · simp [qty, hx, hxc]

/-- **What `resolve_orders` does**: it takes the same quantity from both orders. -/
theorem resolveOrders_eq (hc : c ≠ o) : L.resolveOrders c o p =
    if 0 < L.moved c o then (L.moveQty c o (L.moved c o)).logExecution ⟨o, c, L.moved c o, p⟩
    else L.moveQty c o (L.moved c o) := by
  have ho : L.qty o - (L.moveQty c o (L.moved c o)).qty o = L.moved c o := by
    simp [moveQty_qty hc]
  have hcc : L.qty c - (L.moveQty c o (L.moved c o)).qty c = L.moved c o := by
    simp [moveQty_qty hc, hc]
  simp only [resolveOrders, exchange_eq, recordExecution, ho, hcc, and_true]

theorem resolveOrders_queue (L : Ledger) (c o : ℕ) (p : ℚ) :
    (L.resolveOrders c o p).queue = L.queue := by
  simp only [resolveOrders, exchange_eq, recordExecution]
  split <;> rfl

theorem resolveOrders_limit (L : Ledger) (c o : ℕ) (p : ℚ) :
    (L.resolveOrders c o p).limit = L.limit := by
  simp only [resolveOrders, exchange_eq, recordExecution]
  split <;> rfl

theorem isFullfilled_iff : (L.order o).isFullfilled = true ↔ L.qty o = 0 := by
  simp [OrderData.isFullfilled, qty]

/-- What matching leaves alone: of an order only the remaining quantity changes,
and orders only leave queues and the index. -/
structure MatchFrame (L L' : Ledger) : Prop where
  instrument : L'.instrument = L.instrument
  nextOrder : L'.nextOrder = L.nextOrder
  nextLimit : L'.nextLimit = L.nextLimit
  levels : L'.levels = L.levels
  parent : L'.parent = L.parent
  stops : L'.stops = L.stops
  dates : L'.dates = L.dates
  orderQueue : L'.orderQueue = L.orderQueue
  tradeQueue : L'.tradeQueue = L.tradeQueue
  order : ∀ x, L'.order x = (L.order x).withQty (L'.qty x)
  price : ∀ l, (L'.limit l).price = (L.limit l).price
  queue : ∀ l, (L'.queue l).Sublist (L.queue l)
  entry : ∀ id x, L'.orders.lookup id = some x → L.orders.lookup id = some x

namespace MatchFrame

theorem refl (L : Ledger) : MatchFrame L L where
  instrument := rfl
  nextOrder := rfl
  nextLimit := rfl
  levels := rfl
  parent := rfl
  stops := rfl
  dates := rfl
  orderQueue := rfl
  tradeQueue := rfl
  order := fun _ => rfl
  price := fun _ => rfl
  queue := fun _ => List.Sublist.refl _
  entry := fun _ _ => id

variable {L₁ L₂ L₃ : Ledger}

theorem trans (h : MatchFrame L₁ L₂) (h' : MatchFrame L₂ L₃) : MatchFrame L₁ L₃ where
  instrument := h'.instrument.trans h.instrument
  nextOrder := h'.nextOrder.trans h.nextOrder
  nextLimit := h'.nextLimit.trans h.nextLimit
  levels := h'.levels.trans h.levels
  parent := h'.parent.trans h.parent
  stops := h'.stops.trans h.stops
  dates := h'.dates.trans h.dates
  orderQueue := h'.orderQueue.trans h.orderQueue
  tradeQueue := h'.tradeQueue.trans h.tradeQueue
  order := fun x => by
    rw [h'.order x, h.order x]
    rfl
  price := fun l => (h'.price l).trans (h.price l)
  queue := fun l => (h'.queue l).trans (h.queue l)
  entry := fun id x hx => h.entry id x (h'.entry id x hx)

theorem keeps (h : MatchFrame L₁ L₂) (x : ℕ) : (L₂.order x).Keeps (L₁.order x) := by
  rw [h.order x]
  exact .setQty _ _

theorem hasParam (h : MatchFrame L₁ L₂) (x : ℕ) (q : OrderParams) :
    (L₂.order x).hasParam q = (L₁.order x).hasParam q := by
  rw [h.order x]
  rfl

theorem moveQty (c o : ℕ) (v : ℚ) : MatchFrame L (L.moveQty c o v) :=
  { refl L with
    order := fun x => by
      by_cases hx : x = o
      · subst hx
        simp [qty, OrderData.withQty]
      · by_cases hc : x = c
        · subst hc
          simp [qty, hx, OrderData.withQty]
        · simp [qty, hx, hc, OrderData.withQty] }

theorem resolveOrders (L : Ledger) (c o : ℕ) (p : ℚ) : MatchFrame L (L.resolveOrders c o p) := by
  have hmove : MatchFrame L (L.moveQty c o (L.moved c o)) := moveQty c o _
  simp only [Ledger.resolveOrders, exchange_eq, recordExecution]
  split
  · exact { hmove with }
  · exact hmove

theorem displace (L : Ledger) (c l : ℕ) : MatchFrame L (L.displace c l) :=
  { refl L with
    price := fun x => by
      by_cases hx : x = l
      · subst hx
        simp [LimitData.decreaseVolume, LimitData.decreaseNumberOfOrders]
      · simp [hx]
    queue := fun x => by
      by_cases hx : x = l
      · subst hx
        simpa using List.erase_sublist
      · simp [hx]
    entry := fun _ _ hx => lookup_of_erase hx }

theorem removeFilled (L : Ledger) (c : ℕ) : MatchFrame L (L.removeFilled c) := by
  rw [Ledger.removeFilled, removeLimitOrder]
  split
  · split
    · exact refl L
    · exact displace L c _
  · exact refl L

theorem fillOrder (L : Ledger) (c o : ℕ) (p : ℚ) : MatchFrame L (L.fillOrder c o p) :=
  (resolveOrders L c o p).trans (removeFilled _ c)

theorem setMarketPrice (L : Ledger) (p : ℚ) : MatchFrame L (L.setMarketPrice p) := { refl L with }

theorem processOrders (L : Ledger) (rest : List ℕ) : MatchFrame L (processOrders o p L rest) := by
  induction rest generalizing L with
  | nil => exact refl L
  | cons c rest ih =>
    rw [Ledger.processOrders]
    split
    · exact (fillOrder L c o p).trans (ih _)
    · exact refl L

theorem matchLimits (L : Ledger) (ls : List ℕ) : MatchFrame L (matchLimits o L ls).1 := by
  induction ls generalizing L with
  | nil => exact refl L
  | cons l ls ih =>
    rw [Ledger.matchLimits]
    split
    · exact ih L
    · split
      · exact refl L
      · next p _ =>
        have hframe : MatchFrame L ((L.processLimitOrder l o p).setMarketPrice p) :=
          (processOrders L _).trans (setMarketPrice _ p)
        dsimp only
        split
        · exact hframe
        · exact hframe.trans (ih _)

end MatchFrame

/-! ### The loops -/

namespace WellFormed

variable (h : L.WellFormed)

include h

theorem exchange : (L.exchange c o).WellFormed := by
  have hset : ∀ q : ℚ, ∀ x : OrderData, OrderData.Keeps { x with currentQty := q } x := fun q x =>
    .setQty x q
  rw [Ledger.exchange]
  split
  · exact (h.updateData (hset _)).updateData (hset 0)
  · split
    · exact (h.updateData (hset _)).updateData (hset 0)
    · exact h

theorem resolveOrders : (L.resolveOrders c o p).WellFormed := by
  simp only [Ledger.resolveOrders, recordExecution]
  split
  · exact { h.exchange with }
  · exact h.exchange

theorem fillOrder : (L.fillOrder c o p).WellFormed := by
  rw [Ledger.fillOrder, removeFilled]
  split
  · exact h.resolveOrders.removeLimitOrder
  · exact h.resolveOrders

end WellFormed

theorem resolveOrders_orders (L : Ledger) (c o : ℕ) (p : ℚ) :
    (L.resolveOrders c o p).orders = L.orders := by
  simp only [resolveOrders, exchange_eq, recordExecution]
  split <;> rfl

/-- **The body of the loop** takes the same quantity from both orders; the order of
the queue leaves it when nothing remains of it. -/
theorem WellFormed.fillOrder_eq (h : L.WellFormed) (hc : c ∈ L.queue l) : L.fillOrder c o p =
    if (L.resolveOrders c o p).qty c = 0 then (L.resolveOrders c o p).displace c l
    else L.resolveOrders c o p := by
  have hp : L.parent c = some l := h.queue_parent l c hc
  have hremove : (L.resolveOrders c o p).removeLimitOrder c =
      (L.resolveOrders c o p).displace c l := by
    rw [Ledger.removeLimitOrder, (MatchFrame.resolveOrders L c o p).parent, hp]
  rw [Ledger.fillOrder, removeFilled, hremove]
  by_cases hzero : (L.resolveOrders c o p).qty c = 0
  · rw [if_pos hzero, if_pos (isFullfilled_iff.mpr hzero)]
  · rw [if_neg hzero, if_neg fun hf => hzero (isFullfilled_iff.mp hf)]

theorem WellFormed.qty_fillOrder (h : L.WellFormed) (hc : c ∈ L.queue l) (hco : c ≠ o) (x : ℕ) :
    (L.fillOrder c o p).qty x = if x = o then L.qty o - L.moved c o
      else if x = c then L.qty c - L.moved c o else L.qty x := by
  rw [← moveQty_qty hco, h.fillOrder_eq hc, resolveOrders_eq hco]
  split <;> split <;> rfl

/-- The history grows when a positive quantity is taken. -/
theorem WellFormed.executions_fillOrder (h : L.WellFormed) (hc : c ∈ L.queue l) (hco : c ≠ o) :
    (L.fillOrder c o p).executions =
      if 0 < L.moved c o then L.executions ++ [⟨o, c, L.moved c o, p⟩] else L.executions := by
  rw [h.fillOrder_eq hc, resolveOrders_eq hco]
  by_cases hpos : 0 < L.moved c o
  · rw [if_pos hpos, if_pos hpos]
    split <;> rfl
  · rw [if_neg hpos, if_neg hpos]
    split <;> rfl

theorem WellFormed.queue_fillOrder (h : L.WellFormed) {xs rest : List ℕ} (hco : c ≠ o)
    (hq : L.queue l = xs ++ c :: rest) : (L.fillOrder c o p).queue =
      if L.qty c = L.moved c o then Function.update L.queue l (xs ++ rest) else L.queue := by
  have hnd := h.queue_nodup l
  have hcx : c ∉ xs := by
    rw [hq] at hnd
    exact fun hc => (List.nodup_append.mp hnd).2.2 c hc c (by simp) rfl
  have herase : (xs ++ c :: rest).erase c = xs ++ rest := by
    rw [List.erase_append_right _ hcx, List.erase_cons_head]
  have hqty : (L.resolveOrders c o p).qty c = L.qty c - L.moved c o := by
    have hmove := moveQty_qty (L := L) hco (L.moved c o) c
    rw [if_neg hco, if_pos rfl] at hmove
    rw [resolveOrders_eq hco, ← hmove]
    split <;> rfl
  rw [h.fillOrder_eq (l := l) (by simp [hq]), hqty]
  by_cases hzero : L.qty c = L.moved c o
  · rw [if_pos (sub_eq_zero.mpr hzero), if_pos hzero]
    funext x
    rw [displace_queue, resolveOrders_queue, hq, herase]
  · rw [if_neg (sub_ne_zero.mpr hzero), if_neg hzero, resolveOrders_queue]

/-- What is left of the queue after the current order is its end. -/
theorem WellFormed.queue_fillOrder_suffix (h : L.WellFormed) {xs rest : List ℕ} (hco : c ≠ o)
    (hq : L.queue l = xs ++ c :: rest) :
    ∃ ys, (L.fillOrder c o p).queue l = ys ++ rest := by
  rw [h.queue_fillOrder hco hq]
  split
  · exact ⟨xs, by simp⟩
  · exact ⟨xs ++ [c], by simp [hq]⟩

/-- **The rule for the loop over the orders of a level**: what holds of the ledger
and the orders still to come is kept by the body; the loop ends when there are no
more orders or nothing is left of the incoming one. -/
theorem processOrders_rule {P : Ledger → List ℕ → Prop}
    (hbody : ∀ L c rest, P L (c :: rest) → 0 < L.qty o → P (L.fillOrder c o p) rest) :
    ∀ (L : Ledger) (rest : List ℕ), P L rest → ∃ rest', P (processOrders o p L rest) rest' ∧
      (rest' = [] ∨ ¬ 0 < (processOrders o p L rest).qty o) := by
  intro L rest
  induction rest generalizing L with
  | nil => exact fun hP => ⟨[], hP, Or.inl rfl⟩
  | cons c rest ih =>
    intro hP
    rw [processOrders]
    split
    · next hpos => exact ih _ (hbody L c rest hP hpos)
    · next hpos => exact ⟨c :: rest, hP, Or.inr hpos⟩

/-- **An invariant of the body** is one of the loop. -/
theorem processOrders_invariant {J : Ledger → Prop}
    (hfill : ∀ L c, L.WellFormed → J L → c ∈ L.queue l → 0 < L.qty o → J (L.fillOrder c o p))
    (hwf : L.WellFormed) (ho : ∀ x, o ∉ L.queue x) (hJ : J L) :
    J (L.processLimitOrder l o p) ∧ (L.processLimitOrder l o p).WellFormed := by
  obtain ⟨_, ⟨hwf', -, -, hJ'⟩, -⟩ := processOrders_rule (o := o) (p := p) (P := fun L rest =>
      L.WellFormed ∧ (∀ x, o ∉ L.queue x) ∧ (∃ xs, L.queue l = xs ++ rest) ∧ J L)
    (fun L c rest => by
      rintro ⟨hwf, ho, ⟨xs, hq⟩, hJ⟩ hpos
      have hc : c ∈ L.queue l := by simp [hq]
      have hco : c ≠ o := fun he => ho l (he ▸ hc)
      refine ⟨hwf.fillOrder, fun x hx => ?_, hwf.queue_fillOrder_suffix hco hq, hfill L c hwf hJ hc hpos⟩
      exact ho x (((MatchFrame.fillOrder L c o p).queue x).mem hx))
    L (L.queue l) ⟨hwf, ho, ⟨[], rfl⟩, hJ⟩
  exact ⟨hJ', hwf'⟩

/-- Matching at one level does not touch the other levels. -/
theorem processLimitOrder_other (hwf : L.WellFormed) (ho : ∀ x, o ∉ L.queue x) {k : ℕ} (hk : k ≠ l) :
    (L.processLimitOrder l o p).limit k = L.limit k ∧
      (L.processLimitOrder l o p).queue k = L.queue k := by
  refine (processOrders_invariant (J := fun L' => L'.limit k = L.limit k ∧ L'.queue k = L.queue k)
    (fun L' c hwf' hJ hc _ => ?_) hwf ho ⟨rfl, rfl⟩).1
  rw [hwf'.fillOrder_eq hc]
  split
  · rw [displace_limit, displace_queue, Function.update_of_ne hk, Function.update_of_ne hk,
      resolveOrders_limit, resolveOrders_queue]
    exact hJ
  · rw [resolveOrders_limit, resolveOrders_queue]
    exact hJ

/-- **The rule for the loop over the levels**: `P` holds of the ledger and the levels
still to come as long as something is left of the incoming order, `Q` when it has
just been filled; the loop ends when there are no more levels or at the first one
whose price is not acceptable. -/
theorem matchLimits_rule {P : Ledger → List ℕ → Prop} {Q : Ledger → Prop}
    (hskip : ∀ L l rest, P L (l :: rest) → L.skips o l = true → P L rest)
    (hfull : ∀ L l rest p, P L (l :: rest) → L.skips o l = false →
      OrderBook.calculateCrossPrice (L.order o) (L.limit l) = some p →
      (L.processLimitOrder l o p).qty o = 0 → Q ((L.processLimitOrder l o p).setMarketPrice p))
    (hpart : ∀ L l rest p, P L (l :: rest) → L.skips o l = false →
      OrderBook.calculateCrossPrice (L.order o) (L.limit l) = some p →
      (L.processLimitOrder l o p).qty o ≠ 0 →
      P ((L.processLimitOrder l o p).setMarketPrice p) rest) :
    ∀ (L : Ledger) (ls : List ℕ), P L ls →
      ((matchLimits o L ls).2 = true ∧ Q (matchLimits o L ls).1) ∨
      ((matchLimits o L ls).2 = false ∧ ∃ rest, P (matchLimits o L ls).1 rest ∧
        ∀ l, rest.head? = some l →
          OrderBook.calculateCrossPrice ((matchLimits o L ls).1.order o)
            ((matchLimits o L ls).1.limit l) = none) := by
  intro L ls
  induction ls generalizing L with
  | nil => exact fun hP => Or.inr ⟨rfl, [], hP, by simp⟩
  | cons l ls ih =>
    intro hP
    rw [matchLimits]
    split
    · next hs => exact ih _ (hskip L l ls hP hs)
    · next hs =>
      have hs : L.skips o l = false := by simpa using hs
      split
      · next hcross => exact Or.inr ⟨rfl, l :: ls, hP, by simpa using hcross⟩
      · next p hcross =>
        dsimp only
        split
        · next hzero => exact Or.inl ⟨rfl, hfull L l ls p hP hs hcross hzero⟩
        · next hzero => exact ih _ (hpart L l ls p hP hs hcross hzero)

/-- Levels behind one that is out of reach are out of reach. -/
theorem outOfReach_of_limitLess {buy : Bool} {p : ℚ} {l k : ℕ}
    (hl : outOfReach buy p (L.limit l).price) (hlk : L.limitLess (!buy) l k = true) :
    outOfReach buy p (L.limit k).price := by
  cases buy with
  | false =>
    have hlk : (L.limit k).price < (L.limit l).price := by
      simpa [limitLess, limitComparator] using hlk
    exact hlk.trans hl
  | true =>
    have hlk : (L.limit l).price < (L.limit k).price := by
      simpa [limitLess, limitComparator] using hlk
    exact lt_trans hl hlk

theorem crossPrice_eq_none_of_limitLess {x : OrderData} {l k : ℕ}
    (hl : OrderBook.calculateCrossPrice x (L.limit l) = none)
    (hlk : L.limitLess (!x.isBuy) l k = true) :
    OrderBook.calculateCrossPrice x (L.limit k) = none :=
  calculateCrossPrice_eq_none.mpr
    (outOfReach_of_limitLess (calculateCrossPrice_eq_none.mp hl) hlk)

/-- Matching does not change the cross prices. -/
theorem MatchFrame.crossPrice {L' : Ledger} (h : MatchFrame L L') (o l : ℕ) :
    OrderBook.calculateCrossPrice (L'.order o) (L'.limit l) =
      OrderBook.calculateCrossPrice (L.order o) (L.limit l) := by
  simp only [OrderBook.calculateCrossPrice, (h.keeps o).isBuy, (h.keeps o).price, (h.keeps o).type,
    h.price l]

/-- **An invariant of the body of the inner loop**, and of a change of the market
price, is one of matching. -/
theorem matchLimits_invariant {J : Ledger → Prop} {ls : List ℕ}
    (hfill : ∀ L l c p, l ∈ ls → OrderBook.calculateCrossPrice (L.order o) (L.limit l) = some p →
      L.WellFormed → J L → c ∈ L.queue l → 0 < L.qty o → J (L.fillOrder c o p))
    (hprice : ∀ L p, J L → J (L.setMarketPrice p))
    (hwf : L.WellFormed) (ho : ∀ x, o ∉ L.queue x) (hJ : J L) :
    J (L.matchLimits o ls).1 ∧ (L.matchLimits o ls).1.WellFormed := by
  have hlevel : ∀ L l rest p, (L.WellFormed ∧ (∀ x, o ∉ L.queue x) ∧ (l :: rest) ⊆ ls ∧ J L) →
      OrderBook.calculateCrossPrice (L.order o) (L.limit l) = some p →
      ((L.processLimitOrder l o p).setMarketPrice p).WellFormed ∧
      (∀ x, o ∉ ((L.processLimitOrder l o p).setMarketPrice p).queue x) ∧ rest ⊆ ls ∧
      J ((L.processLimitOrder l o p).setMarketPrice p) := by
    rintro L l rest p ⟨hwf, ho, hsub, hJ⟩ hcross
    obtain ⟨⟨hJ', -⟩, hwf'⟩ := processOrders_invariant (l := l) (p := p)
      (J := fun L' => J L' ∧ MatchFrame L L')
      (fun L' c hwf hJ hc hpos => by
        refine ⟨hfill L' l c p (hsub (by simp)) ?_ hwf hJ.1 hc hpos, hJ.2.trans (.fillOrder L' c o p)⟩
        rw [hJ.2.crossPrice, hcross])
      hwf ho ⟨hJ, .refl L⟩
    refine ⟨{ hwf' with }, fun x hx => ho x ?_, fun x hx => hsub (by simp [hx]), hprice _ p hJ'⟩
    exact ((MatchFrame.processOrders (o := o) (p := p) L (L.queue l)).queue x).mem hx
  rcases matchLimits_rule (o := o) (P := fun L rest =>
      L.WellFormed ∧ (∀ x, o ∉ L.queue x) ∧ rest ⊆ ls ∧ J L) (Q := fun L => L.WellFormed ∧ J L)
    (fun L l rest hP _ => ⟨hP.1, hP.2.1, fun x hx => hP.2.2.1 (by simp [hx]), hP.2.2.2⟩)
    (fun L l rest p hP _ hcross _ =>
      ⟨(hlevel L l rest p hP hcross).1, (hlevel L l rest p hP hcross).2.2.2⟩)
    (fun L l rest p hP _ hcross _ => hlevel L l rest p hP hcross)
    L ls ⟨hwf, ho, List.Subset.refl ls, hJ⟩ with
    ⟨-, hwf', hJ'⟩ | ⟨-, rest, ⟨hwf', -, -, hJ'⟩, -⟩
  · exact ⟨hJ', hwf'⟩
  · exact ⟨hJ', hwf'⟩

end Ledger

end LimitOrderBook
