import LimitOrderBook.OrderBook.Reach
import LimitOrderBook.Ledger.Effects
import LimitOrderBook.Ledger.Matching

/-!
# What matching does to quantities

The two loops of matching computed: at a level they leave
`LimitOrderBook.staying` of its orders and `LimitOrderBook.remaining` of the incoming
one, and they come to the levels that `LimitOrderBook.reached` lists
(`LimitOrderBook.Ledger.WellFormed.matchLimits_reached`). No quantity has to be
positive for this.
-/

namespace LimitOrderBook

namespace Ledger

variable {L L' : Ledger} {c o l k : ℕ} {p d : ℚ}

/-- The orders of a level, with what is left of them. -/
def holding (L : Ledger) (l : ℕ) : List (ℕ × ℚ) := (L.queue l).map fun c => (c, L.qty c)

/-- The price of the last execution. -/
def lastPrice (L : Ledger) (d : ℚ) : ℚ := (L.executions.getLast?.map Execution.price).getD d

theorem moved_eq_taken (L : Ledger) (c o : ℕ) :
    L.moved c o = taken ((L.order o).hasParam .aon) (L.qty o) (L.qty c) := rfl

/-! ### One level -/

/-- **The loop over the orders of a level**, from an order in the middle of the queue
on. -/
theorem WellFormed.processOrders_eq {xs rest : List ℕ} (h : L.WellFormed)
    (ho : ∀ x, o ∉ L.queue x) (hq : L.queue l = xs ++ rest) :
    (processOrders o p L rest).qty o =
        remaining ((L.order o).hasParam .aon) (L.qty o) (rest.map fun c => (c, L.qty c)) ∧
      (processOrders o p L rest).holding l = xs.map (fun c => (c, L.qty c)) ++
        staying ((L.order o).hasParam .aon) (L.qty o) (rest.map fun c => (c, L.qty c)) ∧
      ∃ es, (processOrders o p L rest).executions = L.executions ++ es ∧
        (es = [] ↔ tradesAt ((L.order o).hasParam .aon) (L.qty o)
          (rest.map fun c => (c, L.qty c)) = false) ∧ ∀ e ∈ es, e.price = p := by
  induction rest generalizing L xs with
  | nil =>
    exact ⟨rfl, by simp [processOrders, holding, hq, staying], [],
      by simp [processOrders, tradesAt]⟩
  | cons c rest ih =>
    rw [processOrders, List.map_cons, remaining, staying, tradesAt]
    by_cases hpos : 0 < L.qty o
    · have hc : c ∈ L.queue l := by simp [hq]
      have hco : c ≠ o := fun he => ho l (he ▸ hc)
      have hnd : (xs ++ c :: rest).Nodup := hq ▸ h.queue_nodup l
      have hqty := h.qty_fillOrder (p := p) hc hco
      have hqueue : (L.fillOrder c o p).queue l =
          (if L.qty c = L.moved c o then xs else xs ++ [c]) ++ rest := by
        rw [h.queue_fillOrder hco hq]
        split
        · rw [Function.update_self]
        · rw [hq, List.append_cons]
      have haon : ((L.fillOrder c o p).order o).hasParam .aon = (L.order o).hasParam .aon :=
        (MatchFrame.fillOrder L c o p).hasParam o .aon
      have ho' : ∀ x, o ∉ (L.fillOrder c o p).queue x := fun x hx =>
        ho x (((MatchFrame.fillOrder L c o p).queue x).mem hx)
      -- the other orders of the queue are as before
      have hsame : ∀ x, x ∈ xs ∨ x ∈ rest → (L.fillOrder c o p).qty x = L.qty x := by
        intro x hx
        have hxo : x ≠ o := by
          rintro rfl
          exact ho l (by rw [hq]; rcases hx with hx | hx <;> simp [hx])
        have hxc : x ≠ c := by
          rintro rfl
          have hnot := (List.nodup_middle.mp hnd).notMem
          exact hnot (List.mem_append.mpr hx)
        rw [hqty, if_neg hxo, if_neg hxc]
      obtain ⟨ih₁, ih₂, ih₃⟩ := ih h.fillOrder ho' hqueue
      have hrest : (rest.map fun c' => (c', (L.fillOrder c o p).qty c')) =
          rest.map fun c' => (c', L.qty c') :=
        List.map_congr_left fun x hx => by rw [hsame x (Or.inr hx)]
      have hxs : (xs.map fun c' => (c', (L.fillOrder c o p).qty c')) =
          xs.map fun c' => (c', L.qty c') :=
        List.map_congr_left fun x hx => by rw [hsame x (Or.inl hx)]
      have hself : (L.fillOrder c o p).qty c = L.qty c - L.moved c o := by
        rw [hqty, if_neg hco, if_pos rfl]
      have hino : (L.fillOrder c o p).qty o = L.qty o - L.moved c o := by rw [hqty, if_pos rfl]
      rw [haon, hrest, hino] at ih₁ ih₂ ih₃
      rw [if_pos hpos, if_pos hpos, if_pos hpos, ← moved_eq_taken]
      refine ⟨ih₁, ih₂.trans ?_, ?_⟩
      · by_cases hfull : L.qty c = L.moved c o
        · rw [if_pos hfull, if_pos hfull, hxs]
        · rw [if_neg hfull, if_neg hfull, List.map_append, hxs, List.map_singleton, hself,
            List.append_assoc, List.singleton_append]
      · obtain ⟨es, hes, hnil, hprice⟩ := ih₃
        rw [h.executions_fillOrder hc hco] at hes
        by_cases hm : 0 < L.moved c o
        · rw [if_pos hm, List.append_assoc] at hes
          refine ⟨_, hes, by simp [hpos, hm], fun e he => ?_⟩
          rcases List.mem_append.mp he with he | he
          · rw [List.mem_singleton.mp he]
          · exact hprice e he
        · rw [if_neg hm] at hes
          exact ⟨es, hes, hnil.trans (by simp [hpos, hm]), hprice⟩
    · rw [if_neg hpos, if_neg hpos, if_neg hpos]
      refine ⟨rfl, ?_, [], by simp, by simp [hpos], by simp⟩
      rw [holding, hq, List.map_append, List.map_cons]

/-- **One level.** -/
theorem WellFormed.processLimitOrder_eq (h : L.WellFormed) (ho : ∀ x, o ∉ L.queue x) :
    (L.processLimitOrder l o p).qty o =
        remaining ((L.order o).hasParam .aon) (L.qty o) (L.holding l) ∧
      (L.processLimitOrder l o p).holding l =
        staying ((L.order o).hasParam .aon) (L.qty o) (L.holding l) ∧
      ∃ es, (L.processLimitOrder l o p).executions = L.executions ++ es ∧
        (es = [] ↔ tradesAt ((L.order o).hasParam .aon) (L.qty o) (L.holding l) = false) ∧
        ∀ e ∈ es, e.price = p :=
  h.processOrders_eq ho (List.nil_append _).symm

/-- The orders of the other levels keep their quantities. -/
theorem WellFormed.holding_processLimitOrder (h : L.WellFormed) (ho : ∀ x, o ∉ L.queue x)
    (hk : k ≠ l) : (L.processLimitOrder l o p).holding k = L.holding k := by
  have hqty : ∀ x ∈ L.queue k, (L.processLimitOrder l o p).qty x = L.qty x := by
    intro x hx
    have hxo : x ≠ o := fun he => ho k (he ▸ hx)
    refine (processOrders_invariant (J := fun L' => MatchFrame L L' ∧ L'.qty x = L.qty x)
      (fun L' c hwf hJ hc _ => ⟨hJ.1.trans (.fillOrder L' c o p), ?_⟩) h ho ⟨.refl L, rfl⟩).1.2
    have hc₀ : c ∈ L.queue l := (hJ.1.queue l).mem hc
    have hco : c ≠ o := fun he => ho l (he ▸ hc₀)
    have hxc : x ≠ c := by
      rintro rfl
      exact hk (h.queue_unique hc₀ hx)
    rw [hwf.qty_fillOrder hc hco, if_neg hxo, if_neg hxc]
    exact hJ.2
  rw [holding, (processLimitOrder_other h ho hk).2, holding]
  exact List.map_congr_left fun x hx => by rw [hqty x hx]

/-! ### All levels -/

/-- What the levels to come are to matching depends on themselves alone. -/
theorem reached_congr {x y : OrderData} {limit limit' : ℕ → LimitData}
    {hold hold' : ℕ → List (ℕ × ℚ)} {ls : List ℕ}
    (hx : ∀ l, OrderBook.calculateCrossPrice x l = OrderBook.calculateCrossPrice y l)
    (haon : x.hasParam .aon = y.hasParam .aon)
    (hl : ∀ l ∈ ls, limit l = limit' l ∧ hold l = hold' l) (q : ℚ) :
    reached x limit hold q ls = reached y limit' hold' q ls := by
  induction ls generalizing q with
  | nil => rfl
  | cons l ls ih =>
    obtain ⟨h₁, h₂⟩ := hl l (by simp)
    have ih' := fun q => ih (fun k hk => hl k (List.mem_cons_of_mem _ hk)) q
    rw [reached, reached, h₁, h₂, haon, hx, ih', ih']

/-- An order comes to levels of the list only. -/
theorem mem_of_mem_reached {x : OrderData} {limit : ℕ → LimitData} {hold : ℕ → List (ℕ × ℚ)}
    {ls : List ℕ} {q : ℚ} {r : ℕ × ℚ} (hr : r ∈ reached x limit hold q ls) :
    r.1 ∈ ls ∧ (OrderBook.calculateCrossPrice x (limit r.1)).isSome = true := by
  induction ls generalizing q with
  | nil => exact absurd hr (by simp [reached])
  | cons l ls ih =>
    rw [reached] at hr
    split at hr
    · exact (ih hr).imp_left (List.mem_cons_of_mem _)
    · split at hr
      · exact absurd hr (by simp)
      · next hcross =>
        rcases List.mem_cons.mp hr with rfl | hr
        · exact ⟨by simp, by simpa [Option.isSome_iff_ne_none] using hcross⟩
        · split at hr
          · exact absurd hr (by simp)
          · exact (ih hr).imp_left (List.mem_cons_of_mem _)

theorem priceAfter_congr {x y : OrderData} {limit limit' : ℕ → LimitData}
    (h : ∀ l, OrderBook.calculateCrossPrice x (limit l) = OrderBook.calculateCrossPrice y (limit' l))
    (price : ℚ) (rs : List (ℕ × ℚ)) : priceAfter x limit price rs = priceAfter y limit' price rs := by
  simp only [priceAfter, h]

/-- **What matching the order `o` does** when it comes to the levels `rs`: `L` is the
ledger before, `L'` the one after, and `filled` the answer. -/
structure Reaches (L L' : Ledger) (filled : Bool) (o : ℕ) (rs : List (ℕ × ℚ)) : Prop where
  marketPrice : L'.marketPrice = priceAfter (L.order o) L.limit L.marketPrice rs
  lastPrice : ∀ d, L'.lastPrice d = priceAfter (L.order o) L.limit (L.lastPrice d)
    (rs.filter fun r => tradesAt ((L.order o).hasParam .aon) r.2 (L.holding r.1))
  executions : ∃ es, L'.executions = L.executions ++ es ∧
    (es = [] ↔ ∀ r ∈ rs, tradesAt ((L.order o).hasParam .aon) r.2 (L.holding r.1) = false)
  visited : ∀ r ∈ rs, L'.holding r.1 = staying ((L.order o).hasParam .aon) r.2 (L.holding r.1)
  other : ∀ l, (∀ r ∈ rs, r.1 ≠ l) → L'.holding l = L.holding l
  filled : filled = true ↔ ∃ r ∈ rs, remaining ((L.order o).hasParam .aon) r.2 (L.holding r.1) = 0

theorem Reaches.none (L : Ledger) (o : ℕ) : Reaches L L false o [] :=
  ⟨rfl, fun _ => rfl, ⟨[], by simp⟩, by simp, fun _ _ => rfl, by simp⟩

/-- The price of the last execution after some more at the price `p`. -/
theorem lastPrice_append {es : List Execution} (h : L'.executions = L.executions ++ es)
    (hp : ∀ e ∈ es, e.price = p) (d : ℚ) : L'.lastPrice d = if es = [] then L.lastPrice d else p := by
  rcases List.eq_nil_or_concat es with rfl | ⟨es, e, rfl⟩
  · rw [lastPrice, h, List.append_nil, if_pos rfl, lastPrice]
  · rw [lastPrice, h, List.concat_eq_append, ← List.append_assoc, List.getLast?_concat,
      if_neg (by simp)]
    exact hp e (by simp)

/-- One level at which the order is not turned away. -/
theorem WellFormed.reaches_processLimitOrder (h : L.WellFormed) (ho : ∀ x, o ∉ L.queue x)
    (hcross : OrderBook.calculateCrossPrice (L.order o) (L.limit l) = some p) :
    Reaches L ((L.processLimitOrder l o p).setMarketPrice p)
      ((L.processLimitOrder l o p).qty o = 0) o [(l, L.qty o)] := by
  obtain ⟨hqty, hhold, es, hes, hnil, hprice⟩ := h.processLimitOrder_eq (l := l) (p := p) ho
  refine ⟨?_, fun d => ?_, ⟨es, hes, by simpa using hnil⟩, fun r hr => ?_, fun k hk => ?_, ?_⟩
  · simp [priceAfter, hcross]
  · have hlast : ((L.processLimitOrder l o p).setMarketPrice p).lastPrice d = _ :=
      lastPrice_append hes hprice d
    rw [hlast, List.filter_cons]
    by_cases htrade : tradesAt ((L.order o).hasParam .aon) (L.qty o) (L.holding l) = true
    · rw [if_pos htrade, if_neg fun he => by simp [hnil.mp he] at htrade]
      simp [priceAfter, hcross]
    · rw [if_neg htrade, if_pos (hnil.mpr (Bool.eq_false_iff.mpr htrade))]
      rfl
  · rw [List.mem_singleton.mp hr]
    exact hhold
  · exact h.holding_processLimitOrder ho fun he => hk (l, L.qty o) (by simp) he.symm
  · rw [hqty]
    simp

/-- Visiting levels without being filled, and then others. -/
theorem Reaches.trans {L₁ L₂ : Ledger} {rs rs' : List (ℕ × ℚ)} {filled : Bool}
    (h : Reaches L L₁ false o rs) (h' : Reaches L₁ L₂ filled o rs') (hframe : MatchFrame L L₁)
    (hdisj : ∀ r ∈ rs, ∀ r' ∈ rs', r.1 ≠ r'.1) : Reaches L L₂ filled o (rs ++ rs') := by
  have haon : (L₁.order o).hasParam .aon = (L.order o).hasParam .aon := hframe.hasParam o .aon
  have hprice := priceAfter_congr (hframe.crossPrice o)
  have hhold : ∀ r ∈ rs', L₁.holding r.1 = L.holding r.1 := fun r hr =>
    h.other r.1 fun r' hr' => hdisj r' hr' r hr
  refine ⟨?_, fun d => ?_, ?_, fun r hr => ?_, fun l hl => ?_, ?_⟩
  · rw [h'.marketPrice, hprice, h.marketPrice, priceAfter, priceAfter, priceAfter, List.foldl_append]
  · have hfilter : (rs'.filter fun r => tradesAt ((L₁.order o).hasParam .aon) r.2 (L₁.holding r.1)) =
        rs'.filter fun r => tradesAt ((L.order o).hasParam .aon) r.2 (L.holding r.1) :=
      List.filter_congr fun r hr => by rw [haon, hhold r hr]
    rw [h'.lastPrice, hprice, h.lastPrice, hfilter, List.filter_append, priceAfter, priceAfter,
      priceAfter, List.foldl_append]
  · obtain ⟨es, hes, hnil⟩ := h.executions
    obtain ⟨es', hes', hnil'⟩ := h'.executions
    refine ⟨es ++ es', by rw [hes', hes, List.append_assoc], ?_⟩
    rw [List.append_eq_nil_iff, hnil, hnil', List.forall_mem_append]
    exact and_congr_right fun _ => forall₂_congr fun r hr => by rw [haon, hhold r hr]
  · rcases List.mem_append.mp hr with hr | hr
    · rw [h'.other r.1 fun r' hr' he => hdisj r hr r' hr' he.symm]
      exact h.visited r hr
    · rw [h'.visited r hr, haon, hhold r hr]
  · rw [h'.other l fun r hr => hl r (List.mem_append_right _ hr)]
    exact h.other l fun r hr => hl r (List.mem_append_left _ hr)
  · have hnot : ¬ ∃ r ∈ rs, remaining ((L.order o).hasParam .aon) r.2 (L.holding r.1) = 0 :=
      fun he => absurd (h.filled.mpr he) (by simp)
    rw [h'.filled]
    constructor
    · rintro ⟨r, hr, hzero⟩
      rw [haon, hhold r hr] at hzero
      exact ⟨r, List.mem_append_right _ hr, hzero⟩
    · rintro ⟨r, hr, hzero⟩
      have hr' := (List.mem_append.mp hr).resolve_left fun hr => hnot ⟨r, hr, hzero⟩
      rw [← hhold r hr', ← haon] at hzero
      exact ⟨r, hr', hzero⟩

/-- **The loop over the levels** comes to those that `LimitOrderBook.reached` lists. -/
theorem WellFormed.matchLimits_reached {ls : List ℕ} (h : L.WellFormed)
    (ho : ∀ x, o ∉ L.queue x) (hnd : ls.Nodup) :
    Reaches L (L.matchLimits o ls).1 (L.matchLimits o ls).2 o
      (reached (L.order o) L.limit L.holding (L.qty o) ls) := by
  induction ls generalizing L with
  | nil => exact Reaches.none L o
  | cons l ls ih =>
    obtain ⟨hl, hnd⟩ := List.nodup_cons.mp hnd
    rw [matchLimits, skips, reached]
    split
    · exact ih h ho hnd
    rcases hcross : OrderBook.calculateCrossPrice (L.order o) (L.limit l) with _ | p
    · exact Reaches.none L o
    have hframe : MatchFrame L ((L.processLimitOrder l o p).setMarketPrice p) :=
      (MatchFrame.processOrders L _).trans (.setMarketPrice _ p)
    have hone := h.reaches_processLimitOrder ho hcross
    -- what comes after this level is as it was before it
    have hleft : ((L.processLimitOrder l o p).setMarketPrice p).qty o =
        remaining ((L.order o).hasParam .aon) (L.qty o) (L.holding l) :=
      (h.processLimitOrder_eq (p := p) ho).1
    rw [if_neg (by simp)]
    dsimp only
    rw [hleft]
    split
    · next hzero =>
      have hzero : (L.processLimitOrder l o p).qty o = 0 := hleft.trans hzero
      rwa [decide_eq_true hzero] at hone
    · next hzero =>
      have hne : (L.processLimitOrder l o p).qty o ≠ 0 := fun he => hzero (hleft.symm.trans he)
      have hwf : ((L.processLimitOrder l o p).setMarketPrice p).WellFormed :=
        { (processOrders_invariant (J := fun _ => True) (fun _ _ _ _ _ _ => trivial) h ho
            trivial).2 with }
      have htail := ih hwf (fun x hx => ho x ((hframe.queue x).mem hx)) hnd
      have hsame : reached (((L.processLimitOrder l o p).setMarketPrice p).order o)
          ((L.processLimitOrder l o p).setMarketPrice p).limit
          ((L.processLimitOrder l o p).setMarketPrice p).holding
          (((L.processLimitOrder l o p).setMarketPrice p).qty o) ls =
          reached (L.order o) L.limit L.holding
            (remaining ((L.order o).hasParam .aon) (L.qty o) (L.holding l)) ls := by
        rw [hleft]
        refine reached_congr (fun k => ?_) (hframe.hasParam o .aon) (fun k hk => ?_) _
        · simp only [OrderBook.calculateCrossPrice, (hframe.keeps o).isBuy, (hframe.keeps o).price,
            (hframe.keeps o).type]
        · have hkl : k ≠ l := fun he => hl (he ▸ hk)
          exact ⟨(processLimitOrder_other h ho hkl).1, h.holding_processLimitOrder ho hkl⟩
      rw [hsame] at htail
      rw [decide_eq_false hne] at hone
      refine hone.trans htail hframe fun r hr r' hr' he => ?_
      have hmem := (mem_of_mem_reached hr').1
      rw [List.mem_singleton.mp hr] at he
      rw [← he] at hmem
      exact hl hmem

/-! ### A new order -/

/-- The levels that a new order comes to, if it is not parked. -/
def reaches (L : Ledger) (a : OrderArgs) : List (ℕ × ℚ) :=
  reached a.toData.activated L.limit L.holding a.qty (L.levels !a.toData.isBuy)

theorem WellFormed.holding_activate (h : L.WellFormed) (a : OrderArgs) :
    (L.activate a).holding = L.holding := by
  funext l
  refine List.map_congr_left fun x hx => ?_
  rw [qty, activate_order (h.queue_lt l x hx)]
  rfl

/-- **What matching does with a new order**, computed from the ledger before. -/
structure Matched (L : Ledger) (a : OrderArgs) : Prop where
  marketPrice : (L.matched a).1.marketPrice =
    priceAfter a.toData.activated L.limit L.marketPrice (L.reaches a)
  lastPrice : ∀ d, (L.matched a).1.lastPrice d =
    priceAfter a.toData.activated L.limit (L.lastPrice d) ((L.reaches a).filter fun r =>
      tradesAt (a.toData.activated.hasParam .aon) r.2 (L.holding r.1))
  executions : ∃ es, (L.matched a).1.executions = L.executions ++ es ∧ (es = [] ↔
    ∀ r ∈ L.reaches a, tradesAt (a.toData.activated.hasParam .aon) r.2 (L.holding r.1) = false)
  visited : ∀ r ∈ L.reaches a, (L.matched a).1.holding r.1 =
    staying (a.toData.activated.hasParam .aon) r.2 (L.holding r.1)
  other : ∀ l, (∀ r ∈ L.reaches a, r.1 ≠ l) → (L.matched a).1.holding l = L.holding l
  filled : (L.matched a).2 = true ↔ ∃ r ∈ L.reaches a,
    remaining (a.toData.activated.hasParam .aon) r.2 (L.holding r.1) = 0

theorem WellFormed.matched_reaches (h : L.WellFormed) (a : OrderArgs) : Matched L a := by
  have hreach := (h.activate a).matchLimits_reached (h.fresh_activate a).queue
    (h.levels_nodup (b := !a.toData.isBuy))
  have hqty : (L.activate a).qty L.nextOrder = a.qty := by
    rw [qty, activate_order_new, OrderData.activated_currentQty]
    rfl
  rw [hqty, activate_order_new, h.holding_activate] at hreach
  obtain ⟨h₁, h₂, h₃, h₄, h₅, h₆⟩ := hreach
  simp only [activate_order_new, h.holding_activate] at h₁ h₂ h₃ h₄ h₅ h₆
  exact ⟨h₁, h₂, h₃, h₄, h₅, h₆⟩

end Ledger

namespace Refines

variable {s : OrderBook} {L : Ledger} (h : Refines s L)

include h

theorem holding : s.holding = L.holding := by
  funext l
  rw [OrderBook.holding, h.ordersAt, Ledger.holding]
  exact List.map_congr_left fun x _ => by rw [h.qty]

theorem limit_eq : (fun l => (s.limit l).toLimitData) = L.limit := funext h.limit

theorem reaches (a : OrderArgs) : s.reaches a = L.reaches a := by
  rw [OrderBook.reaches, h.limit_eq, h.holding, (h.levels _).keys]
  rfl

theorem priceAfterMatching (a : OrderArgs) (rs : List (ℕ × ℚ)) : s.priceAfterMatching a rs =
    priceAfter a.toData.activated L.limit L.marketPrice rs := by
  rw [OrderBook.priceAfterMatching, h.limit_eq, h.marketPrice]

theorem parks (a : OrderArgs) : s.parks a = (L.receive a).isParked L.nextOrder := by
  rw [OrderBook.parks, Ledger.isParked, Ledger.receive_order_new, h.marketPrice]
  rfl

end Refines

end LimitOrderBook
