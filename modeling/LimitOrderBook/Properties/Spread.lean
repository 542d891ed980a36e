import LimitOrderBook.Ledger.Arrivals
import LimitOrderBook.Ledger.Tidy

/-!
# The spread

`get_spread` reads the best ask at the first level of the asks, which ascend, and the
best bid at the last level of the bids, which descend: that is the lowest of them. While
all orders rest, it is right exactly when all bids have one price
(`LimitOrderBook.spreadCorrect_iff`).
-/

namespace LimitOrderBook

open OrderBook (Request)

/-- Every order that was added rests. -/
def AllResting (s : OrderBook) : Prop :=
  ∀ o < s.nextOrder, ∃ b orders, s.getOrders b = .ok orders ∧ o ∈ orders

/-- **The spread is correct**: it has the highest price of the bids and the lowest one of
the asks, and `-1` for a side without orders. -/
def SpreadCorrect (s : OrderBook) : Prop :=
  ∃ spread bids asks, s.getSpread = .ok spread ∧ s.getBids = .ok bids ∧ s.getAsks = .ok asks ∧
    (bids = [] → spread.bestBidPrice = -1) ∧
    (bids ≠ [] → (∃ o ∈ bids, (s.order o).price = spread.bestBidPrice) ∧
      ∀ o ∈ bids, (s.order o).price ≤ spread.bestBidPrice) ∧
    (asks = [] → spread.bestAskPrice = -1) ∧
    (asks ≠ [] → (∃ o ∈ asks, (s.order o).price = spread.bestAskPrice) ∧
      ∀ o ∈ asks, spread.bestAskPrice ≤ (s.order o).price)

namespace Ledger

variable {L : Ledger} {as : List OrderArgs} {b : Bool} {l : ℕ}

/-- Every level has the price of an order that was added to its side. -/
def Priced (L : Ledger) (as : List OrderArgs) : Prop :=
  ∀ b, ∀ l ∈ L.levels b, ∃ a ∈ as, a.toData.isBuy = b ∧ a.price = (L.limit l).price

theorem Priced.step {r : Request} (h : L.Priced as) (hwf : L.WellFormed)
    (hr : r.keepsOrders = true) : (L.step r).1.Priced (as ++ r.newOrder.toList) := by
  intro b l hl
  rcases (hwf.stepFrame hr).levels b l hl with ⟨hl, hp⟩ | ⟨a, ha, hb, hp⟩
  · obtain ⟨a, ha, hb, hpa⟩ := h b l hl
    exact ⟨a, List.mem_append_left _ ha, hb, hpa.trans hp.symm⟩
  · exact ⟨a, List.mem_append_right _ (by simp [ha]), hb, hp⟩

/-- **A ledger in which all orders rest**: the prices of the orders that were added to a
side are those of its resting orders and those of its levels. -/
structure Resting (L : Ledger) (as : List OrderArgs) : Prop where
  tidy : L.Tidy
  numbered : L.Numbered as
  priced : L.Priced as
  rests : ∀ o < L.nextOrder, ∃ b, o ∈ L.resting b

namespace Resting

variable (h : L.Resting as)

include h

theorem exists_resting {a : OrderArgs} (ha : a ∈ as) (hb : a.toData.isBuy = b) :
    ∃ o ∈ L.resting b, (L.order o).price = a.price := by
  obtain ⟨o, ho⟩ := List.mem_iff_getElem?.mp ha
  obtain ⟨hlt, -⟩ := List.getElem?_eq_some_iff.mp ho
  have hkeep := h.numbered.keeps o a ho
  obtain ⟨c, hc⟩ := h.rests o (h.numbered.nextOrder ▸ hlt)
  obtain ⟨hside, -⟩ := h.tidy.inPlace.mem_resting_iff.mp hc
  obtain rfl : c = b := by rw [← hside, hkeep.isBuy, hb]
  exact ⟨o, hc, hkeep.price⟩

theorem exists_level {o : ℕ} (ho : o ∈ L.resting b) :
    ∃ l ∈ L.levels b, (L.order o).price = (L.limit l).price := by
  obtain ⟨l, hl, hol⟩ := mem_resting.mp ho
  exact ⟨l, hl, h.tidy.price l o hol⟩

theorem exists_added {o : ℕ} (ho : o ∈ L.resting b) :
    ∃ a ∈ as, a.toData.isBuy = b ∧ (L.order o).price = a.price := by
  obtain ⟨l, hl, hol⟩ := mem_resting.mp ho
  obtain ⟨a, ha, hkeep⟩ := h.numbered.exists_added (h.tidy.wf.queue_lt l o hol)
  exact ⟨a, ha, hkeep.isBuy.symm.trans (h.tidy.inPlace.isBuy_eq hl hol), hkeep.price⟩

theorem exists_of_level (hl : l ∈ L.levels b) :
    ∃ o ∈ L.resting b, (L.order o).price = (L.limit l).price := by
  obtain ⟨a, ha, hb, hp⟩ := h.priced b l hl
  obtain ⟨o, ho, hop⟩ := h.exists_resting ha hb
  exact ⟨o, ho, hop.trans hp⟩

theorem resting_eq_nil : L.resting b = [] ↔ L.levels b = [] := by
  constructor
  · intro hr
    refine List.eq_nil_iff_forall_not_mem.mpr fun l hl => ?_
    obtain ⟨o, ho, -⟩ := h.exists_of_level hl
    simp [hr] at ho
  · intro hl
    rw [resting, hl, List.flatMap_nil]

/-- The first ask level has the lowest price. -/
theorem best_ask {ls : List ℕ} (hl : L.levels false = l :: ls) {o : ℕ} (ho : o ∈ L.resting false) :
    (L.limit l).price ≤ (L.order o).price := by
  obtain ⟨k, hk, hp⟩ := h.exists_level ho
  have hsorted := h.tidy.wf.levels_sorted false
  rw [hl] at hk hsorted
  rw [hp]
  rcases List.mem_cons.mp hk with rfl | hk
  · exact le_rfl
  · have hlt := (List.pairwise_cons.mp hsorted).1 k hk
    have hlt : (L.limit l).price < (L.limit k).price := by
      simpa [limitLess, limitComparator] using hlt
    exact hlt.le

/-- The last bid level has the lowest price. -/
theorem lowest_bid {ls : List ℕ} (hl : L.levels true = ls ++ [l]) {o : ℕ}
    (ho : o ∈ L.resting true) : (L.limit l).price ≤ (L.order o).price := by
  obtain ⟨k, hk, hp⟩ := h.exists_level ho
  have hsorted := h.tidy.wf.levels_sorted true
  rw [hl] at hk hsorted
  rw [hp]
  rcases List.mem_append.mp hk with hk | hk
  · have hlt := (List.pairwise_append.mp hsorted).2.2 k hk l (by simp)
    have hlt : (L.limit l).price < (L.limit k).price := by
      simpa [limitLess, limitComparator] using hlt
    exact hlt.le
  · rw [List.mem_singleton.mp hk]

end Resting

end Ledger

/-- **When all orders rest, the spread is correct** exactly when all orders to buy have the
same price. -/
theorem Refines.spreadCorrect {s : OrderBook} {L : Ledger} {as : List OrderArgs} (h : Refines s L)
    (hr : L.Resting as) : SpreadCorrect s ↔
      ∀ a ∈ as, ∀ a' ∈ as, a.side = .buy → a'.side = .buy → a.price = a'.price := by
  have hbuy : ∀ a : OrderArgs, a.toData.isBuy = true ↔ a.side = .buy := fun a => decide_eq_true_iff
  have hprice : ∀ o, (s.order o).price = (L.order o).price := fun o =>
    congrArg OrderData.price (h.order o)
  constructor
  · rintro ⟨spread, bids, asks, hspread, hbids, -, -, hbest, -, -⟩ a ha a' ha' hb hb'
    have hbids : bids = L.resting true := Except.ok.inj (hbids.symm.trans (h.getOrders true))
    obtain ⟨o, ho, hop⟩ := hr.exists_resting ha ((hbuy a).mpr hb)
    obtain ⟨o', ho', hop'⟩ := hr.exists_resting ha' ((hbuy a').mpr hb')
    have hne : L.levels true ≠ [] := fun hnil => by
      rw [hr.resting_eq_nil.mpr hnil] at ho
      exact absurd ho (by simp)
    obtain ⟨ls, l, hl⟩ := (List.eq_nil_or_concat (L.levels true)).resolve_left hne
    rw [List.concat_eq_append] at hl
    -- the lowest price is the highest one
    have hbid : spread.bestBidPrice = (L.limit l).price := by
      rw [h.getSpread_eq, Except.ok.injEq] at hspread
      rw [← hspread, hl, List.getLast?_concat]
      rfl
    obtain ⟨-, hmax⟩ := hbest (by rw [hbids]; exact List.ne_nil_of_mem ho)
    have heq : ∀ x ∈ L.resting true, (L.order x).price = (L.limit l).price := fun x hx =>
      le_antisymm (by rw [← hbid, ← hprice]; exact hmax x (hbids ▸ hx)) (hr.lowest_bid hl hx)
    rw [← hop, ← hop', heq o ho, heq o' ho']
  · intro hone
    refine ⟨_, _, _, h.getSpread_eq, h.getOrders true, h.getOrders false, fun hnil => ?_,
      fun hne => ?_, fun hnil => ?_, fun hne => ?_⟩
    · rw [hr.resting_eq_nil] at hnil
      simp [hnil]
    · rw [ne_eq, hr.resting_eq_nil] at hne
      obtain ⟨ls, l, hl⟩ := (List.eq_nil_or_concat (L.levels true)).resolve_left hne
      rw [List.concat_eq_append] at hl
      have hmem : l ∈ L.levels true := by simp [hl]
      simp only [hl, List.getLast?_concat, Option.map_some, Option.getD_some, hprice]
      refine ⟨hr.exists_of_level hmem, fun o ho => ?_⟩
      obtain ⟨a, ha, hb, hp⟩ := hr.priced true l hmem
      obtain ⟨a', ha', hb', hp'⟩ := hr.exists_added ho
      rw [← hp, hp', hone a' ha' a ha ((hbuy a').mp hb') ((hbuy a).mp hb)]
    · rw [hr.resting_eq_nil] at hnil
      simp [hnil]
    · rw [ne_eq, hr.resting_eq_nil] at hne
      obtain ⟨l, ls, hl⟩ := List.exists_cons_of_ne_nil hne
      have hmem : l ∈ L.levels false := by simp [hl]
      simp only [hl, List.head?_cons, Option.map_some, Option.getD_some, hprice]
      exact ⟨hr.exists_of_level hmem, fun o ho => hr.best_ask hl ho⟩

/-- **The spread is correct exactly when all orders to buy have one price**, in every run of
new orders that all rest at its end. -/
theorem spreadCorrect_iff (instrument : String) (marketPrice : ℚ) {rs : List Request}
    (hadd : ∀ r ∈ rs, r.newOrder.isSome = true) {s : OrderBook}
    {answers : List (Option OrderStatus)}
    (hrun : runAll OrderBook.step (.empty instrument marketPrice) rs = .ok (s, answers))
    (hrest : AllResting s) : SpreadCorrect s ↔
      ∀ a ∈ OrderBook.newOrders rs, ∀ a' ∈ OrderBook.newOrders rs,
        a.side = .buy → a'.side = .buy → a.price = a'.price := by
  obtain ⟨s', answers', L, hrun', hL, ht, as, hnum, hpriced, has⟩ :=
    (refines_empty instrument marketPrice).run_rule
    (J := fun L rest => L.Tidy ∧ ∃ as, L.Numbered as ∧ L.Priced as ∧
      OrderBook.newOrders rs = as ++ OrderBook.newOrders rest)
    (fun _ L r rest _ hJ hr => by
      obtain ⟨ht, as, hnum, hpriced, has⟩ := hJ
      have hkeep : r.keepsOrders = true := by
        cases r with
        | modify a => exact absurd hr (by simp [Request.newOrder])
        | _ => rfl
      refine ⟨ht.step hkeep, _, hnum.step ht.wf hkeep, hpriced.step ht.wf hkeep, ?_⟩
      rw [has, List.append_assoc]
      refine congrArg (as ++ ·) ?_
      rw [OrderBook.newOrders, OrderBook.newOrders, List.filterMap_cons]
      cases r.newOrder <;> rfl)
    ⟨Ledger.tidy_empty instrument marketPrice, [], Ledger.numbered_empty instrument marketPrice,
      by simp [Ledger.Priced, Ledger.empty], rfl⟩
    (meets_of_forall hadd _)
  obtain ⟨rfl, -⟩ : s' = s ∧ answers' = answers := by simpa [hrun'] using hrun
  have hall : OrderBook.newOrders rs = as := has.trans (List.append_nil as)
  rw [hall]
  refine hL.spreadCorrect ⟨ht, hnum, hpriced, fun o ho => ?_⟩
  obtain ⟨b, orders, hget, hmem⟩ := hrest o (hL.nextOrder ▸ ho)
  rw [hL.getOrders, Except.ok.injEq] at hget
  exact ⟨b, hget ▸ hmem⟩

/-- A bid and an ask that do not meet. -/
theorem spreadCorrect_iff_two : ∃ s answers, runAll OrderBook.step (.empty "X" 10)
      [.add 0 (.limit "b" .buy 7 10), .add 0 (.limit "a" .sell 7 11)] = .ok (s, answers) ∧
    (SpreadCorrect s ↔ ∀ a ∈ OrderBook.newOrders
        [.add 0 (.limit "b" .buy 7 10), .add 0 (.limit "a" .sell 7 11)],
      ∀ a' ∈ OrderBook.newOrders [.add 0 (.limit "b" .buy 7 10), .add 0 (.limit "a" .sell 7 11)],
        a.side = .buy → a'.side = .buy → a.price = a'.price) := by
  obtain ⟨⟨s, answers⟩, hrun, hs⟩ := exists_ok_of_map (f := fun r =>
      (r.1.nextOrder, r.1.getBids.toOption, r.1.getAsks.toOption))
    (b := (2, some [0], some [1])) (show (runAll OrderBook.step (.empty "X" 10)
      [.add 0 (.limit "b" .buy 7 10), .add 0 (.limit "a" .sell 7 11)]).toOption.map _ = _ by
      decide +kernel)
  simp only [Prod.mk.injEq] at hs
  obtain ⟨hn, hbids, hasks⟩ := hs
  refine ⟨s, answers, hrun, spreadCorrect_iff "X" 10 (by decide) hrun fun o ho => ?_⟩
  rcases hb : s.getBids with _ | bids
  · simp [hb, Except.toOption] at hbids
  rcases ha : s.getAsks with _ | asks
  · simp [ha, Except.toOption] at hasks
  rw [hb] at hbids
  rw [ha] at hasks
  obtain rfl | rfl : o = 0 ∨ o = 1 := by omega
  · exact ⟨true, bids, hb, by simp [Option.some.inj hbids]⟩
  · exact ⟨false, asks, ha, by simp [Option.some.inj hasks]⟩

/-- Of two bids the spread has the lower one. -/
theorem spread_lowest_bid : ∃ s answers, runAll OrderBook.step (.empty "X" 10)
      [.add 0 (.limit "b" .buy 7 10), .add 0 (.limit "c" .buy 7 9)] = .ok (s, answers) ∧
    AllResting s ∧ s.executions = [] ∧ ¬ SpreadCorrect s := by
  obtain ⟨⟨s, answers⟩, hrun, hs⟩ := exists_ok_of_map (f := fun r =>
      (r.1.nextOrder, r.1.getBids.toOption, r.1.executions,
        r.1.getSpread.toOption.map Spread.bestBidPrice, (r.1.order 0).price))
    (b := (2, some [0, 1], [], some 9, 10)) (show (runAll OrderBook.step (.empty "X" 10)
      [.add 0 (.limit "b" .buy 7 10), .add 0 (.limit "c" .buy 7 9)]).toOption.map _ = _ by
      decide +kernel)
  simp only [Prod.mk.injEq] at hs
  obtain ⟨hn, hbids, hexec, hspread, hprice⟩ := hs
  rcases hb : s.getBids with _ | bids
  · simp [hb, Except.toOption] at hbids
  rw [hb] at hbids
  obtain rfl : bids = [0, 1] := Option.some.inj hbids
  refine ⟨s, answers, hrun, fun o ho => ⟨true, _, hb, ?_⟩, hexec, ?_⟩
  · simp only [List.mem_cons, List.not_mem_nil, or_false]
    omega
  · rintro ⟨spread, bids, asks, hsp, hbids', -, -, hbest, -, -⟩
    rw [hb, Except.ok.injEq] at hbids'
    rw [hsp] at hspread
    have hle := (hbest (by simp [← hbids'])).2 0 (by simp [← hbids'])
    rw [hprice, Option.some.inj hspread] at hle
    exact absurd hle (by decide)

end LimitOrderBook
