import LimitOrderBook.Ledger.Arrivals
import LimitOrderBook.Ledger.Quantities
import Mathlib.Tactic.NormNum

/-!
# The queues of the levels

In every run of new orders of positive quantity, cancellations and checks of dates,
the links of a level lead along one queue in both directions, from its head to its
tail; the orders of the queue belong to the level, have something left, and stand in
the order in which they were added (`LimitOrderBook.queues_sound`).
-/

namespace LimitOrderBook

open OrderBook (Request)

/-- **The queue of a level**, as its links and its orders show it. -/
structure QueueShape (s : OrderBook) (b : Bool) (l : ℕ) (queue : List ℕ) : Prop where
  walk : s.ordersAt l = .ok queue
  head : (s.limit l).head = queue.head?
  tail : (s.limit l).tail = queue.getLast?
  null : (s.limit l).head = none ↔ (s.limit l).tail = none
  nodup : queue.Nodup
  links : Linked s.next s.prev queue
  inverse : ∀ o ∈ queue, ∀ o' ∈ queue, s.next o = some o' ↔ s.prev o' = some o
  parent : ∀ o ∈ queue, (s.order o).parent = some l
  price : ∀ o ∈ queue, (s.order o).price = (s.limit l).price
  side : ∀ o ∈ queue, (s.order o).side = if b then .buy else .sell
  qty : ∀ o ∈ queue, 0 < (s.order o).currentQty
  arrival : queue.Pairwise (· < ·)

/-- **The levels and their queues are sound** after the requests `rs`: the number of an
order is its place among those that were added, a side has one level for a price, every
level has a queue, and no order is in two of them. -/
structure QueuesSound (rs : List Request) (s : OrderBook) : Prop where
  count : s.nextOrder = (OrderBook.newOrders rs).length
  added : ∀ o a, (OrderBook.newOrders rs)[o]? = some a → (s.order o).Keeps a.toData
  prices : ∀ b, ∃ levels, (s.limits b).keys = .ok levels ∧
    (levels.map fun l => (s.limit l).price).Nodup
  queues : ∀ b levels, (s.limits b).keys = .ok levels → ∀ l ∈ levels, ∃ queue,
    QueueShape s b l queue
  apart : ∀ b b' levels levels' l l' queue queue' o, (s.limits b).keys = .ok levels →
    (s.limits b').keys = .ok levels' → l ∈ levels → l' ∈ levels' →
    s.ordersAt l = .ok queue → s.ordersAt l' = .ok queue' → o ∈ queue → o ∈ queue' →
    b = b' ∧ l = l'

namespace Ledger

variable {L : Ledger} {as : List OrderArgs} {b : Bool}

/-- The levels of a side have different prices. -/
theorem WellFormed.prices_nodup (h : L.WellFormed) :
    ((L.levels b).map fun l => (L.limit l).price).Nodup := by
  refine List.pairwise_map.mpr ((h.levels_sorted b).imp fun {x y} hxy hp => ?_)
  obtain ⟨hxy', -⟩ : Equiv (L.limitLess b) x y := limitLess_equiv.mpr hp
  exact absurd hxy (by simp [hxy'])

end Ledger

/-- **The queue of a level of a tidy ledger**, when the orders were added in the order of
their numbers and are to buy or to sell. -/
theorem Refines.queueShape {s : OrderBook} {L : Ledger} {as : List OrderArgs} {b : Bool} {l : ℕ}
    (h : Refines s L) (ht : L.Tidy) (hpos : L.Positive) (hnum : L.Numbered as)
    (hside : ∀ a ∈ as, a.side ≠ .unkown) (hl : l ∈ L.levels b) :
    QueueShape s b l (L.queue l) where
  walk := h.ordersAt l
  head := h.head l
  tail := h.tail l
  null := by
    rw [h.head, h.tail]
    simp
  nodup := ht.wf.queue_nodup l
  links := h.linked l
  inverse := fun o ho o' ho' => (h.linked l).next_iff_prev ho ho'
  parent := fun o ho => (h.parent o).trans (ht.wf.queue_parent l o ho)
  price := fun o ho => by
    have hlimit : (s.limit l).price = (L.limit l).price := congrArg LimitData.price (h.limit l)
    have horder : (s.order o).price = (L.order o).price := congrArg OrderData.price (h.order o)
    rw [horder, hlimit]
    exact ht.price l o ho
  side := fun o ho => by
    obtain ⟨a, ha, hkeep⟩ := hnum.exists_added (ht.wf.queue_lt l o ho)
    have hbuy : (L.order o).isBuy = b := ht.inPlace.isBuy_eq hl ho
    have horder : (s.order o).side = (L.order o).side := congrArg OrderData.side (h.order o)
    have hknown : (L.order o).side ≠ .unkown := by
      rw [hkeep.side]
      exact hside a ha
    rw [horder, ← hbuy, OrderData.isBuy]
    cases hs : (L.order o).side with
    | unkown => exact absurd hs hknown
    | buy => rfl
    | sell => rfl
  qty := fun o ho => by
    rw [h.qty]
    exact hpos l o ho
  arrival := hnum.sorted l

theorem Refines.queuesSound {s : OrderBook} {L : Ledger} {rs : List Request} (h : Refines s L)
    (ht : L.Tidy) (hpos : L.Positive) (hnum : L.Numbered (OrderBook.newOrders rs))
    (hside : ∀ a ∈ OrderBook.newOrders rs, a.side ≠ .unkown) : QueuesSound rs s where
  count := h.nextOrder.trans hnum.nextOrder
  added := fun o a ha => by
    rw [h.order]
    exact hnum.keeps o a ha
  prices := fun b => by
    refine ⟨_, (h.levels b).keys, ?_⟩
    have hprice : (fun l => (s.limit l).price) = fun l => (L.limit l).price :=
      funext fun l => congrArg LimitData.price (h.limit l)
    rw [hprice]
    exact ht.wf.prices_nodup
  queues := fun b levels hkeys l hl => by
    rw [(h.levels b).keys, Except.ok.injEq] at hkeys
    exact ⟨_, h.queueShape ht hpos hnum hside (hkeys ▸ hl)⟩
  apart := by
    intro b b' levels levels' l l' queue queue' o hkeys hkeys' hl hl' hq hq' ho ho'
    rw [(h.levels b).keys, Except.ok.injEq] at hkeys
    rw [(h.levels b').keys, Except.ok.injEq] at hkeys'
    rw [h.ordersAt, Except.ok.injEq] at hq hq'
    subst hkeys hkeys' hq hq'
    exact ⟨(ht.inPlace.isBuy_eq hl ho).symm.trans (ht.inPlace.isBuy_eq hl' ho'),
      ht.wf.queue_unique ho' ho⟩

/-- **The queues are sound** in every run of new orders of positive quantity that are to
buy or to sell, cancellations and checks of dates. -/
theorem queues_sound (instrument : String) (marketPrice : ℚ) {rs : List Request}
    (hrs : ∀ r ∈ rs, r.Sound) (hside : ∀ a ∈ OrderBook.newOrders rs, a.side ≠ .unkown) :
    ∃ s answers, runAll OrderBook.step (.empty instrument marketPrice) rs = .ok (s, answers) ∧
      QueuesSound rs s := by
  obtain ⟨s, answers, L, hrun, hL, ht, hpos, as, hnum, has⟩ :=
    (refines_empty instrument marketPrice).run_rule
    (J := fun L rest => L.Tidy ∧ L.Positive ∧ ∃ as, L.Numbered as ∧
      OrderBook.newOrders rs = as ++ OrderBook.newOrders rest)
    (fun _ L r rest _ hJ hr => by
      obtain ⟨ht, hpos, as, hnum, has⟩ := hJ
      refine ⟨ht.step hr.keepsOrders, hpos.step ht.wf hr, _, hnum.step ht.wf hr.keepsOrders, ?_⟩
      rw [has, List.append_assoc]
      refine congrArg (as ++ ·) ?_
      rw [OrderBook.newOrders, OrderBook.newOrders, List.filterMap_cons]
      cases r.newOrder <;> rfl)
    ⟨Ledger.tidy_empty instrument marketPrice, fun _ _ ho => absurd ho (by simp [Ledger.empty]),
      [], Ledger.numbered_empty instrument marketPrice, rfl⟩
    (meets_of_forall hrs _)
  refine ⟨s, answers, hrun, hL.queuesSound ht hpos ?_ hside⟩
  have hall : OrderBook.newOrders rs = as := has.trans (List.append_nil as)
  rwa [hall]

/-- A bid that is partly filled by one ask and stands in front of a second bid. -/
theorem queues_sound_three : ∃ s answers, runAll OrderBook.step (.empty "X" 10)
      [.add 0 (.limit "b" .buy 7 10), .add 0 (.limit "c" .buy 2 10),
        .add 0 (.limit "a" .sell 3 10)] = .ok (s, answers) ∧
    QueuesSound [.add 0 (.limit "b" .buy 7 10), .add 0 (.limit "c" .buy 2 10),
      .add 0 (.limit "a" .sell 3 10)] s :=
  queues_sound "X" 10
    (by
      intro r hr
      simp only [List.mem_cons, List.not_mem_nil, or_false] at hr
      rcases hr with rfl | rfl | rfl <;> norm_num [Request.Sound, OrderArgs.limit])
    (by decide)

end LimitOrderBook
