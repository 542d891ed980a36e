import LimitOrderBook.Ledger.Quantities
import LimitOrderBook.Lib.PriceTime
import LimitOrderBook.Properties.Index
import LimitOrderBook.Properties.Recovery

/-!
# The book and a price-time engine

A book that gets limit orders that are neither stop orders nor all-or-none, and
cancellations, cannot be told from the plainest engine that matches by price, then by time
(`LimitOrderBook.PriceTime.Engine`): after every request the answer, both sides, what is left
of a new order and the size are the same (`LimitOrderBook.answers_eq_engine`).

The orders of a side, level by level, are the quotes of the engine
(`LimitOrderBook.Ledger.Mirrors`). The levels that stay in the trees without an order do not
show in this, and what stops the book at a level stops the engine at its first quote.
-/

namespace LimitOrderBook

open OrderBook (Request)
open PriceTime

/-- What can be seen of a request: the status, what is left of a new order, the ids and
quantities of both sides, and the size. -/
structure Answer where
  status : Option OrderStatus
  left : Option ℚ
  bids : List (String × ℚ)
  asks : List (String × ℚ)
  size : ℕ
  deriving DecidableEq

/-- A limit order that is neither a stop order nor all-or-none, or a cancellation. -/
def OrderBook.Request.Plain : Request → Prop
  | .add _ a => a.type = .limit ∧ 0 < a.qty ∧ a.toData.hasParam .stop = false ∧
      a.toData.hasParam .aon = false
  | .cancel _ => True
  | _ => False

namespace OrderBook

/-- The ids of some orders, with what is left of them. -/
def shown (s : OrderBook) (os : List ℕ) : List (String × ℚ) :=
  os.map fun o => ((s.order o).id, (s.order o).currentQty)

/-- One request, and what can be seen of it. -/
def observe (s : OrderBook) (r : Request) : Except Fault (OrderBook × Answer) := do
  let (s', status) ← s.step r
  let bids ← s'.getBids
  let asks ← s'.getAsks
  let left := r.newOrder.map fun _ => (s'.order s.nextOrder).currentQty
  .ok (s', ⟨status, left, s'.shown bids, s'.shown asks, s'.size⟩)

end OrderBook

namespace PriceTime.Engine

/-- What can be seen of the engine. -/
def answer (e : Engine String ℚ) (status : Option OrderStatus) (left : Option ℚ) : Answer where
  status := status
  left := left
  bids := e.bids.map fun x => (x.id, x.qty)
  asks := e.asks.map fun x => (x.id, x.qty)
  size := e.bids.length + e.asks.length

/-- The engine on the requests of a book. -/
def step (e : Engine String ℚ) : Request → Engine String ℚ × Answer
  | .add _ a =>
    let immediate := a.toData.hasParam .ioc
    let r := e.add a.toData.isBuy immediate ⟨a.id, a.price, a.qty⟩
    let status := if r.2 = 0 then OrderStatus.matched
      else if immediate then .notMatched else .accepted
    (r.1, r.1.answer (some status) (some r.2))
  | .cancel id =>
    (e.cancel id, (e.cancel id).answer (some (if e.has id then .cancelled else .notFound)) none)
  | _ => (e, e.answer none none)

/-- The answers to some requests. -/
def answers : Engine String ℚ → List Request → List Answer
  | _, [] => []
  | e, r :: rs => (e.step r).2 :: answers (e.step r).1 rs

end PriceTime.Engine

/-! ### A level -/

section Level

variable {buys : Bool} {limit p q : ℚ} {id : ℕ → String}

/-- The orders of a level as quotes. -/
def quoted (id : ℕ → String) (p : ℚ) (cs : List (ℕ × ℚ)) : List (Quote String ℚ) :=
  cs.map fun c => ⟨id c.1, p, c.2⟩

theorem taken_eq_min {v : ℚ} : taken false q v = min q v := by
  simp [taken, min_def]

/-- An order that is filled takes nothing. -/
theorem filled_level (hq : ¬ 0 < q) (cs : List (ℕ × ℚ)) :
    remaining false q cs = q ∧ staying false q cs = cs := by
  cases cs with
  | nil => exact ⟨rfl, rfl⟩
  | cons c cs =>
    rw [remaining, staying, if_neg hq, if_neg hq]
    exact ⟨rfl, rfl⟩

/-- **The quotes of a level**, if its price is accepted, and those behind them. -/
theorem execute_level {cs : List (ℕ × ℚ)} {rest : List (Quote String ℚ)}
    (hp : Accepts buys limit p) : execute buys limit q (quoted id p cs ++ rest) =
      ((execute buys limit (remaining false q cs) rest).1, quoted id p (staying false q cs) ++
        (execute buys limit (remaining false q cs) rest).2) := by
  induction cs generalizing q with
  | nil => rfl
  | cons c cs ih =>
    by_cases hpos : 0 < q
    · rw [quoted, List.map_cons, List.cons_append, execute, remaining, staying, taken_eq_min,
        if_pos ⟨hpos, hp⟩, if_pos hpos, if_pos hpos]
      dsimp only
      split
      · exact ih
      · next hne =>
        -- the incoming order is filled by this one
        have hmin : min q c.2 = q := (min_choice q c.2).resolve_right fun he => hne he.symm
        have hzero : ¬ (0 : ℚ) < 0 := lt_irrefl 0
        obtain ⟨hrem, hstay⟩ := filled_level hzero cs
        rw [hmin, sub_self, hrem, hstay, execute_of_not_lt hzero]
        rfl
    · obtain ⟨hrem, hstay⟩ := filled_level hpos (c :: cs)
      rw [hrem, hstay, execute_of_not_lt hpos, execute_of_not_lt hpos]

end Level

/-- A limit order crosses a level exactly if it accepts its price. -/
theorem crosses_iff {x : OrderData} (hx : x.type = .limit) (l : LimitData) :
    (OrderBook.calculateCrossPrice x l).isSome = true ↔ Accepts x.isBuy x.price l.price := by
  rw [OrderBook.calculateCrossPrice, hx, Accepts]
  cases x.isBuy <;> simp

namespace Ledger

variable {L L' : Ledger} {o : ℕ} {ls : List ℕ}

/-- The orders of some levels as quotes. -/
def offers (L : Ledger) (ls : List ℕ) : List (Quote String ℚ) :=
  ls.flatMap fun l => quoted (fun c => (L.order c).id) (L.limit l).price (L.holding l)

/-- Levels that nothing happens to. -/
theorem offers_congr (hid : ∀ l ∈ ls, ∀ c ∈ L.queue l, (L'.order c).id = (L.order c).id)
    (hprice : ∀ l, (L'.limit l).price = (L.limit l).price)
    (hhold : ∀ l ∈ ls, L'.holding l = L.holding l) : L'.offers ls = L.offers ls := by
  refine List.flatMap_congr fun l hl => ?_
  rw [hhold l hl, hprice, quoted, quoted, holding, List.map_map, List.map_map]
  exact List.map_congr_left fun c hc => by simp [hid l hl c hc]

/-- **The loop over the levels** is the engine on their quotes. -/
theorem WellFormed.matchLimits_execute (h : L.WellFormed) (ho : ∀ x, o ∉ L.queue x) (hnd : ls.Nodup)
    (hlimit : (L.order o).type = .limit) (haon : (L.order o).hasParam .aon = false)
    (hq : L.qty o ≠ 0) (hsorted : ls.Pairwise fun k l =>
      Ahead (!(L.order o).isBuy) (L.limit k).price (L.limit l).price) :
    ((L.matchLimits o ls).1.qty o, (L.matchLimits o ls).1.offers ls) =
        execute (L.order o).isBuy (L.order o).price (L.qty o) (L.offers ls) ∧
      ((L.matchLimits o ls).2 = true ↔ (L.matchLimits o ls).1.qty o = 0) := by
  induction ls generalizing L with
  | nil => exact ⟨rfl, iff_of_false (by simp [Ledger.matchLimits]) hq⟩
  | cons l ls ih =>
    obtain ⟨hl, hnd⟩ := List.nodup_cons.mp hnd
    obtain ⟨hbehind, hsorted⟩ := List.pairwise_cons.mp hsorted
    have hskip : L.skips o l = false := by rw [skips, haon, Bool.false_and]
    rw [Ledger.matchLimits, hskip, if_neg (by simp)]
    rcases hcross : OrderBook.calculateCrossPrice (L.order o) (L.limit l) with _ | p
    · -- the price of this level is not accepted, nor is that of any other one
      have hno : ¬ Accepts (L.order o).isBuy (L.order o).price (L.limit l).price := fun ha => by
        have hsome := (crosses_iff hlimit (L.limit l)).mpr ha
        rw [hcross] at hsome
        exact absurd hsome (by simp)
      refine ⟨(execute_of_not_accepts fun x hx => ?_).symm, iff_of_false (by simp) hq⟩
      obtain ⟨k, hk, hx⟩ := List.mem_flatMap.mp hx
      obtain ⟨c, -, rfl⟩ := List.mem_map.mp hx
      rcases List.mem_cons.mp hk with rfl | hk
      · exact hno
      · exact fun ha => hno (ha.of_ahead (hbehind k hk))
    · have hyes : Accepts (L.order o).isBuy (L.order o).price (L.limit l).price :=
        (crosses_iff hlimit (L.limit l)).mp (by rw [hcross]; rfl)
      obtain ⟨L₁, hL₁⟩ : ∃ L₁, L₁ = (L.processLimitOrder l o p).setMarketPrice p := ⟨_, rfl⟩
      have hframe : MatchFrame L L₁ := by
        rw [hL₁]
        exact (MatchFrame.processOrders L _).trans (.setMarketPrice _ p)
      have hwf : L₁.WellFormed := by
        rw [hL₁]
        exact { (processOrders_invariant (J := fun _ => True) (fun _ _ _ _ _ _ => trivial) h ho
          trivial).2 with }
      obtain ⟨hleft, hstay, -⟩ := h.processLimitOrder_eq (l := l) (p := p) ho
      rw [haon] at hleft hstay
      have hleft₁ : L₁.qty o = remaining false (L.qty o) (L.holding l) := by
        rw [hL₁]
        exact hleft
      have hstay₁ : L₁.holding l = staying false (L.qty o) (L.holding l) := by
        rw [hL₁]
        exact hstay
      have hrest : L₁.offers ls = L.offers ls := by
        refine offers_congr (fun _ _ c _ => (hframe.keeps c).id) hframe.price fun k hk => ?_
        rw [hL₁]
        exact h.holding_processLimitOrder ho fun he => hl (he ▸ hk)
      -- what has become of this level when later ones have been visited
      have hcons : ∀ M : Ledger, M.offers (l :: ls) = quoted (fun c => (M.order c).id)
          (M.limit l).price (M.holding l) ++ M.offers ls := fun _ => List.flatMap_cons
      have hsplit : ∀ M, MatchFrame L M → M.holding l = L₁.holding l → M.offers (l :: ls) =
          quoted (fun c => (L.order c).id) (L.limit l).price (L₁.holding l) ++ M.offers ls := by
        intro M hM hhold
        have hids : (fun c => (M.order c).id) = fun c => (L.order c).id :=
          funext fun c => (hM.keeps c).id
        rw [hcons, hhold, hM.price, hids]
      rw [hcons L, execute_level hyes, ← hleft₁, ← hstay₁, ← hrest]
      dsimp only
      rw [← hL₁]
      split
      · next hzero =>
        rw [hzero, execute_of_not_lt (lt_irrefl 0), hsplit L₁ hframe rfl]
        exact ⟨rfl, iff_of_true rfl rfl⟩
      · next hne =>
        have ho₁ : ∀ x, o ∉ L₁.queue x := fun x hx => ho x ((hframe.queue x).mem hx)
        have hkeep := hframe.keeps o
        have hlater := ih hwf ho₁ hnd (hkeep.type.trans hlimit)
          ((hframe.hasParam o .aon).trans haon) hne (by
            simp only [hkeep.isBuy, hframe.price]
            exact hsorted)
        rw [hkeep.isBuy, hkeep.price] at hlater
        have hhold : (L₁.matchLimits o ls).1.holding l = L₁.holding l :=
          (hwf.matchLimits_reached ho₁ hnd).other l fun r hr he =>
            hl (he ▸ (mem_of_mem_reached hr).1)
        rw [hsplit _ (hframe.trans (.matchLimits _ _)) hhold, ← hlater.1]
        exact ⟨rfl, hlater.2⟩

/-! ### A side -/

/-- The resting orders of a side as quotes. -/
def quotes (L : Ledger) (b : Bool) : List (Quote String ℚ) :=
  (L.resting b).map fun o => ⟨(L.order o).id, (L.order o).price, L.qty o⟩

theorem InPlace.quotes_eq_offers (h : L.InPlace) (b : Bool) :
    L.quotes b = L.offers (L.levels b) := by
  rw [quotes, resting, List.map_flatMap]
  refine List.flatMap_congr fun l _ => ?_
  rw [quoted, holding, List.map_map]
  exact List.map_congr_left fun o ho => by simp [h.price l o ho]

theorem quotes_cancel (L : Ledger) (o : ℕ) (b : Bool) :
    (L.updateData o .cancel).quotes b = L.quotes b := by
  refine List.map_congr_left fun x _ => ?_
  have hkeep := keeps_updateData L o .cancel x
  rw [hkeep.id, hkeep.price, qty_cancel]

/-- The levels of a side are in the order of their prices. -/
theorem WellFormed.levels_ahead (h : L.WellFormed) (b : Bool) :
    (L.levels b).Pairwise fun k l => Ahead b (L.limit k).price (L.limit l).price := by
  refine (h.levels_sorted b).imp fun {k l} hkl => ?_
  cases b with
  | false => simpa [Ahead, limitLess, limitComparator] using hkl
  | true => simpa [Ahead, limitLess, limitComparator] using hkl

/-- Before another one in the order of prices, then numbers. -/
def Before (L : Ledger) (b : Bool) (o o' : ℕ) : Prop :=
  Ahead b (L.order o).price (L.order o').price ∨ (L.order o).price = (L.order o').price ∧ o < o'

theorem Before.asymm {b : Bool} {o o' : ℕ} (h : L.Before b o o') : ¬ L.Before b o' o := by
  rintro (h' | ⟨he, hlt'⟩) <;> rcases h with h | ⟨he', hlt⟩
  · exact (h.trans h').irrefl
  · exact Ahead.irrefl (he' ▸ h')
  · exact Ahead.irrefl (he ▸ h)
  · exact lt_asymm hlt hlt'

theorem InPlace.resting_before (h : L.InPlace) (hsorted : ∀ l, (L.queue l).Pairwise (· < ·))
    (b : Bool) : (L.resting b).Pairwise (L.Before b) :=
  h.resting_pairwise fun l _ => hsorted l

/-- **An order that comes to rest** comes after all those of its side that are not behind it. -/
theorem Placed.resting {o l : ℕ} {b : Bool} (hl : Placed L L' o l b) (h : L.InPlace)
    (h' : L'.InPlace) (hb : (L.order o).isBuy = b) (hsorted : ∀ l, (L.queue l).Pairwise (· < ·))
    (hsorted' : ∀ l, (L'.queue l).Pairwise (· < ·)) (hlast : ∀ l, ∀ x ∈ L.queue l, x < o) :
    L'.resting b = (L.resting b).orderedInsert
        (fun x y => Ahead b (L.order x).price (L.order y).price) o ∧
      L'.resting (!b) = L.resting !b := by
  have hbefore : ∀ c, L'.Before c = L.Before c := fun c => by
    funext x y
    rw [Before, Before, hl.order]
  have hmem : ∀ c x, x ∈ L'.resting c ↔ x = o ∧ b = c ∨ x ∈ L.resting c := fun c x => by
    rw [h'.mem_resting_iff, h.mem_resting_iff, hl.order]
    simp only [hl.mem_queue, exists_or, and_or_left]
    refine or_congr_left ⟨?_, ?_⟩
    · rintro ⟨hc, l, rfl, -⟩
      exact ⟨rfl, hb.symm.trans hc⟩
    · rintro ⟨rfl, rfl⟩
      exact ⟨hb, l, rfl, rfl⟩
  constructor
  · refine eq_of_pairwise (fun x y => Before.asymm) (h'.resting_before hsorted' b) ?_ fun x => ?_
    · rw [hbefore]
      refine pairwise_orderedInsert (h.resting_before hsorted b) fun x hx => ?_
      obtain ⟨-, k, hk⟩ := h.mem_resting_iff.mp hx
      exact hlast k x hk
    · rw [hmem, List.mem_orderedInsert]
      simp
  · refine eq_of_pairwise (fun x y => Before.asymm) (h'.resting_before hsorted' !b) ?_ fun x => ?_
    · rw [hbefore]
      exact h.resting_before hsorted !b
    · rw [hmem]
      simp

/-- The orders that come to rest in a queue, as quotes. -/
theorem Placed.quotes {o l : ℕ} {b : Bool} (hl : Placed L L' o l b) (h : L.InPlace)
    (h' : L'.InPlace) (hb : (L.order o).isBuy = b) (hsorted : ∀ l, (L.queue l).Pairwise (· < ·))
    (hsorted' : ∀ l, (L'.queue l).Pairwise (· < ·)) (hlast : ∀ l, ∀ x ∈ L.queue l, x < o) :
    L'.quotes b = (L.quotes b).orderedInsert (fun x y => Ahead b x.price y.price)
        ⟨(L.order o).id, (L.order o).price, L.qty o⟩ ∧
      L'.quotes (!b) = L.quotes !b := by
  obtain ⟨hside, hother⟩ := hl.resting h h' hb hsorted hsorted' hlast
  have hquote : ∀ os : List ℕ, (os.map fun x => (⟨(L'.order x).id, (L'.order x).price,
      L'.qty x⟩ : Quote String ℚ)) = os.map fun x => ⟨(L.order x).id, (L.order x).price, L.qty x⟩ :=
    fun os => List.map_congr_left fun x _ => by rw [hl.order, hl.qty]
  rw [Ledger.quotes, Ledger.quotes, Ledger.quotes, Ledger.quotes, hquote, hquote, hside, hother]
  exact ⟨List.map_orderedInsert _ _ _ _ _ (fun _ _ => Iff.rfl) fun _ _ => Iff.rfl, rfl⟩

/-! ### The ledger and the engine -/

/-- **The engine has the quotes of the ledger**, if orders with the ids of a list are still to
come. -/
structure Mirrors (L : Ledger) (e : Engine String ℚ) (ids : List String) : Prop where
  indexed : L.Indexed
  unused : L.Unused ids
  positive : L.Positive
  numbered : ∃ as, L.Numbered as
  plain : ∀ o < L.nextOrder, (L.order o).hasParam .stop = false
  side : ∀ b, e.side b = L.quotes b

namespace Mirrors

variable {e : Engine String ℚ} {ids : List String} (h : L.Mirrors e ids)

include h

theorem sorted (l : ℕ) : (L.queue l).Pairwise (· < ·) := by
  obtain ⟨as, has⟩ := h.numbered
  exact has.sorted l

/-- What can be seen of the ledger. -/
theorem answer (status : Option OrderStatus) (left : Option ℚ) : e.answer status left =
    ⟨status, left, (L.resting true).map fun o => ((L.order o).id, L.qty o),
      (L.resting false).map fun o => ((L.order o).id, L.qty o), L.orders.keys.length⟩ := by
  have hbids : e.bids = L.quotes true := h.side true
  have hasks : e.asks = L.quotes false := h.side false
  rw [Engine.answer, hbids, hasks, h.indexed.keys_length, live, h.indexed.stops, h.indexed.stops]
  simp [quotes, Function.comp_def]

/-! ### Matching -/

/-- What matching makes of the quotes. -/
theorem matched {a : OrderArgs} (ha : Request.Plain (.add 0 a)) :
    (∀ l, ((L.matched a).1.queue l).Pairwise (· < ·)) ∧
    (L.matched a).1.quotes a.toData.isBuy = L.quotes a.toData.isBuy ∧
    ((L.matched a).1.qty L.nextOrder, (L.matched a).1.quotes !a.toData.isBuy) =
      execute a.toData.isBuy a.price a.qty (L.quotes !a.toData.isBuy) ∧
    ((L.matched a).2 = true ↔ (L.matched a).1.qty L.nextOrder = 0) := by
  obtain ⟨hlimit, hqty, hstop, haon⟩ := ha
  have hwf := h.indexed.tidy.wf
  have hin := h.indexed.tidy.inPlace
  have hframe : MatchFrame (L.activate a) (L.matched a).1 := .matchLimits _ _
  have hact : a.toData.activated = a.toData := by
    rw [OrderData.activated, hstop, Bool.false_and, if_neg (by simp)]
  have hnew : (L.activate a).order L.nextOrder = a.toData := by rw [activate_order_new, hact]
  have hold : ∀ ls, (L.activate a).offers ls = L.offers ls := fun ls =>
    offers_congr (fun l _ c hc => by rw [activate_order (hwf.queue_lt l c hc)]) (fun _ => rfl)
      fun l _ => by rw [hwf.holding_activate]
  have hM : (L.matched a).1.InPlace := hin.matched a
  have hlevels : (L.matched a).1.levels = L.levels := hframe.levels
  have hexec := (hwf.activate a).matchLimits_execute (hwf.fresh_activate a).queue
    (hwf.levels_nodup (b := !a.toData.isBuy)) (by rw [hnew]; exact hlimit)
    (by rw [hnew]; exact haon) (by rw [activate_qty_new]; exact ne_of_gt hqty)
    (by rw [hnew]; exact hwf.levels_ahead _)
  rw [hnew, hold, activate_qty_new, ← hin.quotes_eq_offers] at hexec
  have hopposite : (L.matched a).1.quotes (!a.toData.isBuy) =
      (L.matched a).1.offers (L.levels !a.toData.isBuy) := by
    rw [hM.quotes_eq_offers, hlevels]
  refine ⟨fun l => (h.sorted l).sublist (hframe.queue l), ?_, ?_, hexec.2⟩
  · -- matching does not come to the levels of the order's own side
    rw [hM.quotes_eq_offers, hin.quotes_eq_offers, hlevels, ← hold]
    refine offers_congr (fun l _ c _ => (hframe.keeps c).id) hframe.price fun l hl => ?_
    rw [(hwf.matched_reaches a).other l fun r hr he => ?_, hwf.holding_activate]
    have hr' := (mem_of_mem_reached hr).1
    rw [he] at hr'
    have hside := side_unique hin.disjoint hl hr'
    cases a.toData.isBuy <;> exact absurd hside (by simp)
  · rw [hopposite]
    exact hexec.1

/-- **A new order** is what it is for the engine. -/
theorem add {a : OrderArgs} (ha : Request.Plain (.add 0 a)) (now : ℤ)
    (hin : (L.step (.add now a)).1.InPlace)
    (hsorted : ∀ l, ((L.step (.add now a)).1.queue l).Pairwise (· < ·)) :
    (∀ b, (e.step (.add now a)).1.side b = (L.step (.add now a)).1.quotes b) ∧
    (e.step (.add now a)).2 = (e.step (.add now a)).1.answer (L.step (.add now a)).2
      (some ((L.step (.add now a)).1.qty L.nextOrder)) ∧
    ((L.step (.add now a)).1.order L.nextOrder).hasParam .stop = false := by
  obtain ⟨hqueue, hown, hexec, hfilled⟩ := h.matched ha
  obtain ⟨-, -, hstop, haon⟩ := ha
  have hwf := h.indexed.tidy.wf
  have hframe : MatchFrame (L.activate a) (L.matched a).1 := .matchLimits _ _
  have hpark := L.isParked_of_not_stop hstop
  have hnew := L.activate_order_of_not_stop hstop
  have hflags : ∀ q, ((L.matched a).1.order L.nextOrder).hasParam q = a.toData.hasParam q :=
    fun q => by rw [hframe.hasParam, hnew]
  have hfok : a.toData.hasParam .fok = a.toData.hasParam .ioc := by
    rw [OrderData.hasParam_fok, haon, Bool.false_or]
  -- the engine after the trades
  obtain ⟨e₁, he₁⟩ : ∃ e₁, e₁ = e.withSide ((L.matched a).1.quotes !a.toData.isBuy)
    !a.toData.isBuy := ⟨_, rfl⟩
  have hside₁ : ∀ b, e₁.side b = (L.matched a).1.quotes b := by
    intro b
    rw [he₁]
    rcases Bool.eq_or_eq_not b a.toData.isBuy with rfl | rfl
    · rw [Engine.side_withSide_not, h.side, hown]
    · rw [Engine.side_withSide]
  have hadd : e.add a.toData.isBuy (a.toData.hasParam .ioc) ⟨a.id, a.price, a.qty⟩ =
      (if (L.matched a).1.qty L.nextOrder = 0 ∨ a.toData.hasParam .ioc = true then e₁
        else e₁.insert a.toData.isBuy ⟨a.id, a.price, (L.matched a).1.qty L.nextOrder⟩,
        (L.matched a).1.qty L.nextOrder) := by
    rw [Engine.add, h.side, ← hexec, he₁]
  have hsettle : L.step (.add now a) =
      (((L.matched a).1.settle L.nextOrder (L.matched a).2).1,
        some ((L.matched a).1.settle L.nextOrder (L.matched a).2).2) := by
    rw [step_add, hpark, if_neg (by simp)]
  by_cases hm : (L.matched a).2 = true
  · have hzero := hfilled.mp hm
    have hstep : L.step (.add now a) = ((L.matched a).1, some .matched) := by
      rw [hsettle, Ledger.settle, if_pos hm]
    have hengine : e.step (.add now a) = (e₁, e₁.answer (some .matched) (some 0)) := by
      simp only [Engine.step, hadd, hzero, true_or, if_true]
    rw [hstep, hengine]
    exact ⟨hside₁, by rw [hzero], (hflags .stop).trans hstop⟩
  have hne : (L.matched a).1.qty L.nextOrder ≠ 0 := fun hc => hm (hfilled.mpr hc)
  by_cases hioc : a.toData.hasParam .ioc = true
  · have hstep : L.step (.add now a) =
        ((L.matched a).1.updateData L.nextOrder .cancel, some .notMatched) := by
      rw [hsettle, Ledger.settle, if_neg hm, hflags, hfok, if_pos hioc]
    have hengine : e.step (.add now a) = (e₁, e₁.answer (some .notMatched)
        (some ((L.matched a).1.qty L.nextOrder))) := by
      simp only [Engine.step, hadd]
      simp only [hne, hioc, or_true, if_true, if_false]
    rw [hstep, hengine]
    refine ⟨fun b => (hside₁ b).trans (quotes_cancel _ _ b).symm, by rw [qty_cancel], ?_⟩
    rw [updateData_order, Function.update_self]
    exact (hflags .stop).trans hstop
  · have hstep : L.step (.add now a) = ((L.matched a).1.restOrder L.nextOrder, some .accepted) := by
      rw [hsettle, Ledger.settle, if_neg hm, hflags, hfok, if_neg hioc]
    have hengine : e.step (.add now a) = (e₁.insert a.toData.isBuy
        ⟨a.id, a.price, (L.matched a).1.qty L.nextOrder⟩, (e₁.insert a.toData.isBuy
          ⟨a.id, a.price, (L.matched a).1.qty L.nextOrder⟩).answer (some .accepted)
            (some ((L.matched a).1.qty L.nextOrder))) := by
      simp only [Engine.step, hadd]
      simp only [hne, hioc, or_false, if_false, Bool.false_eq_true]
    rw [hstep] at hin hsorted
    have hM : (L.matched a).1.InPlace := h.indexed.tidy.inPlace.matched a
    obtain ⟨l, hl, -, -⟩ := hM.wf.restOrder L.nextOrder
    have hkeep := hframe.keeps L.nextOrder
    rw [hnew] at hkeep
    obtain ⟨hsame, hother⟩ := hl.quotes hM hin rfl hqueue hsorted fun l x hx =>
      h.indexed.tidy.wf.queue_lt l x ((hframe.queue l).mem hx)
    rw [hstep, hengine]
    refine ⟨fun b => ?_, by rw [hl.qty], ?_⟩
    · rw [hkeep.isBuy] at hsame hother
      rcases Bool.eq_or_eq_not b a.toData.isBuy with rfl | rfl
      · rw [Engine.insert, Engine.side_withSide, hside₁, hsame, hkeep.id, hkeep.price]
        rfl
      · rw [Engine.insert, Engine.side_not_withSide, hside₁, hother]
    · rw [hl.order]
      exact (hflags .stop).trans hstop

/-- **A cancellation** is what it is for the engine. -/
theorem cancel (id : String) :
    (∀ b, (e.cancel id).side b = (L.cancelOrder id).1.quotes b) ∧
      (L.cancelOrder id).2 = if e.has id then .cancelled else .notFound := by
  have hin := h.indexed.tidy.inPlace
  have hquote : ∀ b, ∀ x ∈ e.side b, ∃ o, (o ∈ L.resting b ∧ L.orders.lookup x.id = some o) ∧
      x = ⟨(L.order o).id, (L.order o).price, L.qty o⟩ := by
    intro b x hx
    rw [h.side] at hx
    obtain ⟨o, ho, rfl⟩ := List.mem_map.mp hx
    obtain ⟨-, l, hl⟩ := hin.mem_resting_iff.mp ho
    exact ⟨o, ⟨ho, h.indexed.indexed l o hl⟩, rfl⟩
  rcases hin.wf.cancelOrder_cases id with ⟨hnone, heq⟩ | ⟨x, hx, hs, -⟩ | ⟨x, l, hx, -, hp, heq⟩
  · have hno : ∀ b, ∀ x ∈ e.side b, x.id ≠ id := by
      rintro b x hx rfl
      obtain ⟨o, ⟨-, hlook⟩, -⟩ := hquote b x hx
      exact absurd (hnone.symm.trans hlook) (by simp)
    have hhas : e.has id = false := by
      rw [← Bool.not_eq_true, Engine.has_iff]
      rintro ⟨b, x, hx, hid⟩
      exact hno b x hx hid
    rw [heq, hhas, if_neg (by simp)]
    refine ⟨fun b => ?_, rfl⟩
    rw [Engine.side_cancel, List.filter_eq_self.mpr fun x hx => by simpa using hno b x hx, h.side]
  · exact absurd (hs.symm.trans (h.plain x (hin.wf.entry_lt id x hx))) (by simp)
  · obtain ⟨k, hk⟩ := h.indexed.tidy.entry id x hx
    obtain rfl : k = l := Option.some.inj ((hin.wf.queue_parent k x hk).symm.trans hp)
    have hid : (L.order x).id = id := hin.wf.entry_id id x hx
    have hrest : x ∈ L.resting (L.order x).isBuy := hin.mem_resting_iff.mpr ⟨rfl, k, hk⟩
    have hhas : e.has id = true := by
      refine (Engine.has_iff e id).mpr ⟨(L.order x).isBuy,
        ⟨(L.order x).id, (L.order x).price, L.qty x⟩, ?_, hid⟩
      rw [h.side]
      exact List.mem_map_of_mem hrest
    rw [heq, hhas, if_pos rfl]
    refine ⟨fun b => ?_, rfl⟩
    have hwf : (L.updateData x .cancel).WellFormed := hin.wf.updateData .cancel
    have herase : (((L.updateData x .cancel).displace x k).enqueueOrder x).quotes b =
        ((L.updateData x .cancel).quotes b).filter (·.id ≠ id) := by
      change (((L.updateData x .cancel).displace x k).resting b).map (fun o =>
        (⟨((L.updateData x .cancel).order o).id, ((L.updateData x .cancel).order o).price,
          (L.updateData x .cancel).qty o⟩ : Quote String ℚ)) = _
      rw [hwf.resting_displace hk, hwf.resting_nodup.erase_eq_filter, quotes, List.filter_map]
      refine congrArg (List.map _) (List.filter_congr fun o ho => ?_)
      -- only the order that leaves has the id
      obtain ⟨-, j, hj⟩ := hin.mem_resting_iff.mp (show o ∈ L.resting b from ho)
      have hlook := h.indexed.indexed j o hj
      have hiff : ((L.updateData x .cancel).order o).id ≠ id ↔ o ≠ x := by
        rw [(keeps_updateData L x .cancel o).id]
        refine not_congr ⟨fun he => ?_, fun he => he ▸ hid⟩
        rw [he] at hlook
        exact Option.some.inj (hlook.symm.trans hx)
      exact Bool.eq_iff_iff.mpr (bne_iff_ne.trans (hiff.symm.trans decide_eq_true_iff.symm))
    rw [Engine.side_cancel, h.side, herase, quotes_cancel]

omit h in
/-- **Every request** is what it is for the engine. -/
theorem step {s : OrderBook} {r : Request} {rs : List Request}
    (h : L.Mirrors e (OrderBook.addedIds (r :: rs))) (hs : Refines s L) (hr : r.Plain)
    (hids : (OrderBook.addedIds (r :: rs)).Nodup) :
    (L.step r).1.Mirrors (e.step r).1 (OrderBook.addedIds rs) ∧
      (e.step r).2 = (e.step r).1.answer (L.step r).2
        (r.newOrder.map fun _ => (L.step r).1.qty L.nextOrder) := by
  have hwf := h.indexed.tidy.wf
  have hkeeps : r.keepsOrders = true := by
    cases r with
    | modify a => exact absurd hr (by simp [OrderBook.Request.Plain])
    | _ => rfl
  have hsound : r.Sound := by
    cases r with
    | add now a => exact hr.2.1
    | modify a => exact absurd hr (by simp [OrderBook.Request.Plain])
    | _ => trivial
  have hindex : s.keepsIndex r := by
    cases r with
    | add now a =>
      refine ⟨?_, trivial, trivial⟩
      rw [OrderBook.parksNothing, hr.2.2.1, Bool.false_and]
    | cancel id =>
      refine ⟨trivial, trivial, fun o ho => ?_⟩
      rw [hs.orders] at ho
      have hplain := h.plain o (hwf.entry_lt id o ho)
      rwa [← hs.order o] at hplain
    | modify a => exact absurd hr (by simp [OrderBook.Request.Plain])
    | checkDate now => exact absurd hr (by simp [OrderBook.Request.Plain])
  obtain ⟨hI, hU⟩ := h.indexed.step hs hindex hids h.unused
  have hpos := h.positive.step hwf hsound
  obtain ⟨as, has⟩ := h.numbered
  have hnum := has.step hwf hkeeps
  have hold : ∀ o < L.nextOrder, ((L.step r).1.order o).hasParam .stop = false := fun o ho => by
    rw [hasParam_step hkeeps ho]
    exact h.plain o ho
  cases r with
  | add now a =>
    obtain ⟨hside, hanswer, hnew⟩ := h.add hr now hI.tidy.inPlace hnum.sorted
    refine ⟨⟨hI, hU, hpos, ⟨_, hnum⟩, fun o ho => ?_, hside⟩, hanswer⟩
    rw [(hwf.stepFrame hkeeps).nextOrder] at ho
    rcases Nat.lt_succ_iff_lt_or_eq.mp ho with ho | rfl
    · exact hold o ho
    · exact hnew
  | cancel id =>
    obtain ⟨hside, hstatus⟩ := h.cancel id
    refine ⟨⟨hI, hU, hpos, ⟨_, hnum⟩, fun o ho => ?_, hside⟩, ?_⟩
    · rw [(hwf.stepFrame hkeeps).nextOrder] at ho
      exact hold o ho
    · change (e.cancel id).answer _ none = (e.cancel id).answer (some (L.cancelOrder id).2) none
      rw [hstatus]
  | modify a => exact absurd hr (by simp [OrderBook.Request.Plain])
  | checkDate now => exact absurd hr (by simp [OrderBook.Request.Plain])

end Mirrors

theorem mirrors_empty (instrument : String) (marketPrice : ℚ) (ids : List String) :
    (empty instrument marketPrice).Mirrors ⟨[], []⟩ ids where
  indexed := indexed_empty instrument marketPrice
  unused := by simp [Unused, empty]
  positive := by simp [Positive, empty]
  numbered := ⟨[], numbered_empty instrument marketPrice⟩
  plain := by simp [empty]
  side := fun b => by cases b <;> rfl

end Ledger

/-- What can be seen of a request, on a ledger that mirrors an engine afterwards. -/
theorem Refines.observe {s : OrderBook} {L : Ledger} {e : Engine String ℚ} {ids : List String}
    {r : Request} (hs : Refines s L) (h : (L.step r).1.Mirrors e ids) :
    ∃ s', s.observe r = .ok (s', e.answer (L.step r).2
        (r.newOrder.map fun _ => (L.step r).1.qty L.nextOrder)) ∧
      Refines s' (L.step r).1 := by
  obtain ⟨s', hs', h'⟩ := hs.step r
  refine ⟨s', ?_, h'⟩
  have hshown : ∀ os, s'.shown os = os.map fun o => (((L.step r).1.order o).id,
      (L.step r).1.qty o) := fun os =>
    List.map_congr_left fun o _ => by rw [h'.qty, congrArg OrderData.id (h'.order o)]
  rw [OrderBook.observe, hs', ok_bind]
  dsimp only
  rw [OrderBook.getBids, OrderBook.getAsks, h'.getOrders, h'.getOrders, ok_bind, ok_bind, hshown,
    hshown, h'.size, hs.nextOrder, h'.qty, h.answer]

/-- **The book cannot be told from the engine** by adding plain limit orders with distinct ids
and cancelling orders. -/
theorem answers_eq_engine (instrument : String) (marketPrice : ℚ) {rs : List Request}
    (hrs : ∀ r ∈ rs, r.Plain) (hids : (OrderBook.addedIds rs).Nodup) :
    ∃ s, runAll OrderBook.observe (.empty instrument marketPrice) rs =
      .ok (s, Engine.answers ⟨[], []⟩ rs) := by
  have hrun : ∀ (rs : List Request) (s : OrderBook) (L : Ledger) (e : Engine String ℚ),
      (∀ r ∈ rs, r.Plain) → (OrderBook.addedIds rs).Nodup → Refines s L →
      L.Mirrors e (OrderBook.addedIds rs) → ∃ s', runAll OrderBook.observe s rs =
        .ok (s', e.answers rs) := by
    intro rs
    induction rs with
    | nil => exact fun s L e _ _ _ _ => ⟨s, rfl⟩
    | cons r rs ih =>
      intro s L e hrs hids hs h
      obtain ⟨h', hanswer⟩ := h.step hs (hrs r (by simp)) hids
      obtain ⟨s₁, hs₁, href⟩ := hs.observe h'
      obtain ⟨s', hs'⟩ := ih s₁ _ _ (fun x hx => hrs x (List.mem_cons_of_mem r hx))
        (hids.sublist ((List.sublist_cons_self r rs).filterMap _)) href h'
      rw [← hanswer] at hs₁
      exact ⟨s', runAll_cons hs₁ hs'⟩
  exact hrun rs _ _ _ hrs hids (refines_empty instrument marketPrice)
    (Ledger.mirrors_empty instrument marketPrice _)

/-- Two bids with the same price, an offer that takes the first of them and some of the second,
and a cancellation. -/
theorem answers_eq_engine_four : ∃ s, runAll OrderBook.observe (.empty "X" 10)
      [.add 0 (.limit "a" .buy 5 10), .add 0 (.limit "b" .buy 5 10 .gtd),
        .add 0 (.limit "c" .sell 7 9 .ioc), .cancel "b"] =
    .ok (s, Engine.answers ⟨[], []⟩
      [.add 0 (.limit "a" .buy 5 10), .add 0 (.limit "b" .buy 5 10 .gtd),
        .add 0 (.limit "c" .sell 7 9 .ioc), .cancel "b"]) :=
  answers_eq_engine "X" 10 (by simp [OrderBook.Request.Plain, OrderArgs.limit]; decide) (by decide)

end LimitOrderBook
