import LimitOrderBook.Ledger.Reach
import LimitOrderBook.Ledger.Arrivals
import LimitOrderBook.Ledger.Tidy

/-!
# Empty levels

A level whose last order is gone stays in its tree: the clean-up of `match_order` runs
before there is anything to clean up, and `remove_limit_order` does not touch the tree.
So the levels all have orders exactly as long as no request takes the last order of a
level (`LimitOrderBook.levelsOccupied_iff`).
-/

namespace LimitOrderBook

open OrderBook (Request)

/-- **Every level has an order**, and the snapshot lists exactly the prices at which an
order rests. -/
structure LevelsOccupied (s : OrderBook) : Prop where
  level : ∀ b, ∃ levels, (s.limits b).keys = .ok levels ∧
    ∀ l ∈ levels, ∃ queue, s.ordersAt l = .ok queue ∧ queue ≠ []
  snapshot : ∀ b, ∃ rows orders, s.getSnapshotLimits b = .ok rows ∧ s.getOrders b = .ok orders ∧
    ∀ p, (∃ row ∈ rows, row.price = p) ↔ ∃ o ∈ orders, (s.order o).price = p

/-- A request cancels the order `e` and takes it out of its queue. -/
def OrderBook.takesOut (s : OrderBook) (e : ℕ) : Request → Prop
  | .cancel id => s.orders.lookup id = some e ∧ (s.order e).hasParam .stop = false
  | .checkDate now => ∃ dates, s.dateOrders.keys = .ok dates ∧
      ∃ o ∈ dates.takeWhile (fun o => (s.order o).isDue (now + 3600)),
        s.orders.lookup (s.order o).id = some e ∧ (s.order e).hasParam .stop = false
  | _ => False

/-- A request leaves an order in every level: a new order does not take all orders of a
level that it comes to, and no level loses all orders to a cancellation. -/
def OrderBook.keepsLevels (s : OrderBook) : Request → Prop
  | .add _ a => s.parks a = true ∨ ∀ r ∈ s.reaches a,
      staying (a.toData.activated.hasParam .aon) r.2 (s.holding r.1) ≠ []
  | r => ∀ b levels l queue, (s.limits b).keys = .ok levels → l ∈ levels →
      s.ordersAt l = .ok queue → ∃ c ∈ queue, ¬ s.takesOut c r

namespace Ledger

variable {L L' : Ledger} {o l x : ℕ} {b : Bool}

/-- Every level of the ledger has an order. -/
def Occupied (L : Ledger) : Prop := ∀ b, ∀ l ∈ L.levels b, L.queue l ≠ []

theorem holding_eq_nil : L.holding l = [] ↔ L.queue l = [] := List.map_eq_nil_iff

namespace Tidy

variable (h : L.Tidy)

include h

/-! ### Cancelling -/

theorem mem_queue_cancelOrder {id : String} : x ∈ (L.cancelOrder id).1.queue l ↔
    x ∈ L.queue l ∧ ¬ (L.orders.lookup id = some x ∧ (L.order x).hasParam .stop = false) := by
  rcases h.wf.cancelOrder_cases id with ⟨hlook, he⟩ | ⟨e, hlook, hstop, he⟩ |
    ⟨e, k, hlook, hstop, hpar, he⟩ <;> rw [he, hlook]
  · simp
  · refine (and_iff_left ?_).symm
    rintro ⟨hx, hno⟩
    rw [Option.some.inj hx, hno] at hstop
    exact absurd hstop (by simp)
  · have hmem : e ∈ (L.updateData e .cancel).queue k := h.mem_queue_of_entry hlook hpar
    refine ((h.cancel e).wf.mem_queue_displace hmem).trans (and_congr_right fun _ => ?_)
    constructor
    · rintro hne ⟨hx, -⟩
      exact hne (Option.some.inj hx).symm
    · rintro hnot rfl
      exact hnot ⟨rfl, hstop⟩

theorem mem_queue_checkDateOrders {now : ℤ} : x ∈ (L.checkDateOrders now).queue l ↔
    x ∈ L.queue l ∧ ¬ ∃ o ∈ L.dueOrders now, L.orders.lookup (L.order o).id = some x ∧
      (L.order x).hasParam .stop = false := by
  refine (checkDateOrders_done (J := fun done L' => L'.Tidy ∧
      (∀ x, (L'.order x).hasParam .stop = (L.order x).hasParam .stop) ∧
      (∀ id x, L'.orders.lookup id = some x ↔
        L.orders.lookup id = some x ∧ ∀ o ∈ done, id ≠ (L.order o).id) ∧
      ∀ l x, x ∈ L'.queue l ↔ x ∈ L.queue l ∧ ¬ ∃ o ∈ done,
        L.orders.lookup (L.order o).id = some x ∧ (L.order x).hasParam .stop = false)
    (fun done o L' hJ _ _ => ?_) (fun done L' o hJ => ?_) ⟨h, by simp, by simp, by simp⟩).2.2.2 l x
  · obtain ⟨ht, hstop, hentry, hqueue⟩ := hJ
    refine ⟨ht.cancelOrder _, fun x => ?_, fun id x => ?_, fun l x => ?_⟩
    · rw [cancelOrder_hasParam, hstop]
    · rw [ht.wf.lookup_cancelOrder_iff, hentry]
      simp only [List.mem_append, List.mem_singleton, or_imp, forall_and, forall_eq, and_assoc]
    · rw [ht.mem_queue_cancelOrder, hqueue, hentry, hstop]
      simp only [List.mem_append, List.mem_singleton]
      -- an entry that is gone was that of an order already taken out
      constructor
      · rintro ⟨⟨hx, hdone⟩, hnot⟩
        refine ⟨hx, ?_⟩
        rintro ⟨o', ho' | rfl, hlook, hno⟩
        · exact hdone ⟨o', ho', hlook, hno⟩
        · refine hnot ⟨⟨hlook, fun y hy he => hdone ⟨y, hy, ?_, hno⟩⟩, hno⟩
          rw [← he]
          exact hlook
      · rintro ⟨hx, hnot⟩
        refine ⟨⟨hx, ?_⟩, ?_⟩
        · rintro ⟨o', ho', htake⟩
          exact hnot ⟨o', Or.inl ho', htake⟩
        · rintro ⟨⟨hlook, -⟩, hno⟩
          exact hnot ⟨o, Or.inr rfl, hlook, hno⟩
  · exact ⟨{ hJ.1 with wf := hJ.1.wf.eraseDate }, hJ.2⟩

/-! ### New orders -/

/-- Matching empties no level exactly if an order stays at each one that it comes to. -/
theorem occupied_matched (hocc : L.Occupied) (a : OrderArgs) : (L.matched a).1.Occupied ↔
    ∀ r ∈ L.reaches a, staying (a.toData.activated.hasParam .aon) r.2 (L.holding r.1) ≠ [] := by
  have hframe : MatchFrame (L.activate a) (L.matched a).1 := .matchLimits _ _
  have hlevels : (L.matched a).1.levels = L.levels := hframe.levels
  have hmatch := h.wf.matched_reaches a
  constructor
  · intro hM r hr hnil
    obtain ⟨hl, -⟩ := mem_of_mem_reached hr
    refine hM _ r.1 (by rwa [hlevels]) (holding_eq_nil.mp ?_)
    rw [hmatch.visited r hr, hnil]
  · intro hstay b l hl hnil
    rw [hlevels] at hl
    by_cases hr : ∃ r ∈ L.reaches a, r.1 = l
    · obtain ⟨r, hr, rfl⟩ := hr
      refine hstay r hr ?_
      rw [← hmatch.visited r hr]
      exact holding_eq_nil.mpr hnil
    · refine hocc b l hl (holding_eq_nil.mp ?_)
      rw [← hmatch.other l fun r hr' he => hr ⟨r, hr', he⟩]
      exact holding_eq_nil.mpr hnil

/-- A new order that comes to rest fills no level of the other side. -/
theorem occupied_settle {filled : Bool}
    (hown : ∀ l ∈ L.levels (L.order o).isBuy, L.queue l ≠ []) :
    (L.settle o filled).1.Occupied ↔ L.Occupied := by
  have hrest : (L.restOrder o).Occupied ↔ L.Occupied := by
    obtain ⟨k, hk, -, -⟩ := h.wf.restOrder o
    have hmem : ∀ x, (L.restOrder o).queue x = [] ↔ L.queue x = [] ∧ x ≠ k := by
      intro x
      rw [hk.queue]
      by_cases hx : x = k
      · subst hx
        simp
      · simp [hx]
    constructor
    · intro hocc b l hl hnil
      refine hocc b l ((hk.levels b l).mpr (Or.inr hl)) ((hmem l).mpr ⟨hnil, ?_⟩)
      rintro rfl
      -- the level of the order is on its own side
      obtain rfl : b = (L.order o).isBuy := by
        rcases hk.old_or_new with hold | ⟨hnew, -⟩
        · exact side_unique h.disjoint hl hold
        · exact absurd hl (hnew b)
      exact hown l hl hnil
    · intro hocc b l hl hnil
      obtain ⟨hnil, hne⟩ := (hmem l).mp hnil
      rcases (hk.levels b l).mp hl with ⟨he, -⟩ | hl
      · exact hne he
      · exact hocc b l hl hnil
  rw [Ledger.settle]
  split
  · exact Iff.rfl
  · split
    · exact Iff.rfl
    · exact hrest

end Tidy

end Ledger

/-- What the occupied levels of a ledger mean for the book. -/
theorem Refines.levelsOccupied {s : OrderBook} {L : Ledger} (h : Refines s L) (ht : L.Tidy) :
    LevelsOccupied s ↔ L.Occupied := by
  constructor
  · rintro ⟨hlevel, -⟩ b l hl
    obtain ⟨levels, hkeys, hq⟩ := hlevel b
    rw [(h.levels b).keys, Except.ok.injEq] at hkeys
    obtain ⟨queue, hat, hne⟩ := hq l (hkeys ▸ hl)
    rw [h.ordersAt, Except.ok.injEq] at hat
    rwa [hat]
  · intro hocc
    refine ⟨fun b => ⟨_, (h.levels b).keys, fun l hl => ⟨_, h.ordersAt l, hocc b l hl⟩⟩,
      fun b => ⟨_, _, h.getSnapshotLimits b, h.getOrders b, fun p => ?_⟩⟩
    have hprice : ∀ o, (s.order o).price = (L.order o).price := fun o =>
      congrArg OrderData.price (h.order o)
    constructor
    · rintro ⟨row, hrow, rfl⟩
      obtain ⟨l, hl, rfl⟩ := List.mem_map.mp hrow
      obtain ⟨o, ho⟩ := List.exists_mem_of_ne_nil _ (hocc b l hl)
      refine ⟨o, Ledger.mem_resting.mpr ⟨l, hl, ho⟩, ?_⟩
      rw [hprice, ht.price l o ho]
    · rintro ⟨o, ho, rfl⟩
      obtain ⟨l, hl, hol⟩ := Ledger.mem_resting.mp ho
      refine ⟨_, List.mem_map.mpr ⟨l, hl, rfl⟩, ?_⟩
      rw [hprice, ht.price l o hol]

/-- What a cancellation or a check of dates keeps in every level. -/
theorem Refines.keepsLevels_iff {s : OrderBook} {L : Ledger} {r : Request} (h : Refines s L) :
    (∀ b levels l queue, (s.limits b).keys = .ok levels → l ∈ levels →
        s.ordersAt l = .ok queue → ∃ c ∈ queue, ¬ s.takesOut c r) ↔
      ∀ b, ∀ l ∈ L.levels b, ∃ c ∈ L.queue l, ¬ s.takesOut c r := by
  constructor
  · exact fun hk b l hl => hk b _ l _ (h.levels b).keys hl (h.ordersAt l)
  · intro hk b levels l queue hkeys hl hat
    rw [(h.levels b).keys, Except.ok.injEq] at hkeys
    rw [h.ordersAt, Except.ok.injEq] at hat
    exact hat ▸ hk b l (hkeys ▸ hl)

/-- Which levels a request leaves occupied that only takes orders out of queues. -/
theorem Ledger.occupied_iff_of_mem_queue {L L' : Ledger} {P : ℕ → Prop}
    (hlev : L'.levels = L.levels) (hq : ∀ l x, x ∈ L'.queue l ↔ x ∈ L.queue l ∧ ¬ P x) :
    L'.Occupied ↔ ∀ b, ∀ l ∈ L.levels b, ∃ c ∈ L.queue l, ¬ P c := by
  rw [Ledger.Occupied, hlev]
  refine forall_congr' fun b => forall₂_congr fun l _ => ?_
  constructor
  · intro hne
    obtain ⟨c, hc⟩ := List.exists_mem_of_ne_nil _ hne
    exact ⟨c, (hq l c).mp hc⟩
  · rintro ⟨c, hc⟩
    exact List.ne_nil_of_mem ((hq l c).mpr hc)

/-- **One request** keeps the levels occupied exactly under the condition. -/
theorem Refines.occupied_step {s : OrderBook} {L : Ledger} {r : Request} (h : Refines s L)
    (ht : L.Tidy) (hr : r.keepsOrders = true) (hocc : L.Occupied) :
    (L.step r).1.Occupied ↔ s.keepsLevels r := by
  cases r with
  | add now a =>
    rw [OrderBook.keepsLevels, h.parks, h.reaches, h.holding, Ledger.step_add]
    by_cases hpark : (L.receive a).isParked L.nextOrder = true
    · obtain ⟨dates, hdates⟩ := (L.receive a).parkOrder_eq L.nextOrder
      rw [if_pos hpark, hdates]
      exact ⟨fun _ => Or.inl hpark, fun _ => hocc⟩
    · have hframe : Ledger.MatchFrame (L.activate a) (L.matched a).1 := .matchLimits _ _
      have hmatch := ht.wf.matched_reaches a
      rw [if_neg hpark, or_iff_right hpark, ← ht.occupied_matched hocc a]
      refine (ht.matched a).occupied_settle fun l hl hnil => ?_
      -- the order has only come to levels of the other side
      rw [hframe.levels, (hframe.keeps _).isBuy, Ledger.activate_order_new,
        OrderData.activated_isBuy] at hl
      refine hocc _ l hl (Ledger.holding_eq_nil.mp ?_)
      rw [← hmatch.other l fun r hr he => ?_, Ledger.holding_eq_nil, hnil]
      have hside := Ledger.side_unique ht.disjoint hl (he ▸ (Ledger.mem_of_mem_reached hr).1)
      cases hb : a.toData.isBuy <;> simp [hb] at hside
  | modify a => exact absurd hr (by simp [Request.keepsOrders])
  | cancel id =>
    refine (Ledger.occupied_iff_of_mem_queue (P := fun x => s.takesOut x (.cancel id))
      (ht.wf.levels_cancelOrder id).1 fun l x => ?_).trans h.keepsLevels_iff.symm
    rw [OrderBook.takesOut, h.orders, h.order x]
    exact ht.mem_queue_cancelOrder
  | checkDate now =>
    refine (Ledger.occupied_iff_of_mem_queue (P := fun x => s.takesOut x (.checkDate now))
      ?_ fun l x => ?_).trans h.keepsLevels_iff.symm
    · exact (Ledger.checkDateOrders_rule (J := fun L' => L'.WellFormed ∧ L'.levels = L.levels)
        (fun L' o hJ _ _ => ⟨hJ.1.cancelOrder _, (hJ.1.levels_cancelOrder _).1.trans hJ.2⟩)
        (fun L' o hJ => ⟨hJ.1.eraseDate, hJ.2⟩) ⟨ht.wf, rfl⟩).2
    · have hlook : ∀ o, s.orders.lookup (s.order o).id = L.orders.lookup (L.order o).id := fun o => by
        rw [h.orders, h.order]
      rw [OrderBook.takesOut, h.dates.keys]
      simp only [h.order, hlook, Except.ok.injEq, exists_eq_left']
      exact ht.mem_queue_checkDateOrders

/-- **Every level has an order throughout a run** exactly if no request takes the last
order of a level: a new order comes to no level from which it takes every order, and no
level loses all its orders to a cancellation or a check of dates. -/
theorem levelsOccupied_iff (instrument : String) (marketPrice : ℚ) {rs : List Request}
    (hrs : ∀ r ∈ rs, r.keepsOrders = true) :
    Throughout OrderBook.step LevelsOccupied (.empty instrument marketPrice) rs ↔
      Meets OrderBook.step OrderBook.keepsLevels (.empty instrument marketPrice) rs := by
  have hL := refines_empty instrument marketPrice
  have ht := Ledger.tidy_empty instrument marketPrice
  refine throughout_iff_meets (I := fun s => ∃ L, Refines s L ∧ L.Tidy)
    (Q := fun r => r.keepsOrders = true) (fun s r hr hI hp => ?_) hrs ⟨_, hL, ht⟩
    ((hL.levelsOccupied ht).mpr (by simp [Ledger.Occupied, Ledger.empty]))
  obtain ⟨L, h, ht⟩ := hI
  obtain ⟨s', hs', h'⟩ := h.step r
  have ht' := ht.step hr
  rw [h.levelsOccupied ht] at hp
  exact ⟨s', _, hs', ⟨_, h', ht'⟩, (h'.levelsOccupied ht').trans (h.occupied_step ht hr hp)⟩

/-- A bid and an ask that do not meet. -/
theorem levelsOccupied_iff_two : Throughout OrderBook.step LevelsOccupied (.empty "X" 10)
      [.add 0 (.limit "b" .buy 7 10), .add 0 (.limit "a" .sell 7 11)] ↔
    Meets OrderBook.step OrderBook.keepsLevels (.empty "X" 10)
      [.add 0 (.limit "b" .buy 7 10), .add 0 (.limit "a" .sell 7 11)] :=
  levelsOccupied_iff "X" 10 (by decide)

/-- Two orders fill each other, and the level of the first one stays without an order. -/
theorem level_without_order : ¬ Throughout OrderBook.step LevelsOccupied (.empty "X" 10)
    [.add 0 (.limit "a" .sell 5 10), .add 0 (.limit "b" .buy 5 10)] := by
  intro h
  obtain ⟨s, answers, hrun, hs⟩ := h _ [] (List.append_nil _).symm
  have hfacts := eq_of_ok_of_map hrun
    (f := fun r => ((r.1.limits false).keys.toOption, (r.1.ordersAt 0).toOption))
    (b := (some [0], some [])) (by decide +kernel)
  obtain ⟨hkeys, hat⟩ := Prod.mk.inj hfacts
  obtain ⟨levels, hl, hlevel⟩ := hs.level false
  rw [hl] at hkeys
  obtain ⟨queue, hq, hne⟩ := hlevel 0 (by simp [Option.some.inj hkeys])
  rw [hq] at hat
  exact hne (Option.some.inj hat)

end LimitOrderBook
