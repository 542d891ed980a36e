import LimitOrderBook.Ledger.Departures
import LimitOrderBook.Ledger.Tidy

/-!
# Modified orders

`modify_order` should put a new order in the place of the old one with its id
(`LimitOrderBook.Replaced`). It never does: the old order loses its entry in the index, as it
does when it is cancelled, and the new one gets none, so that it can be neither modified nor
cancelled (`LimitOrderBook.modifyOrder_never_replaces`).

As far as queues and stop trees go (`LimitOrderBook.TakesPlace`), the new order is right where
it should be exactly if the old one rests, is found by its id and is not a stop order, the new
price is the old one, and the side of the new order has a level of that price
(`LimitOrderBook.modifyOrder_takesPlace_iff`). For the new order goes to the level of the *old*
one, whatever its own price is; if its side has no such level, the level object of the old
order is put into the other tree too, with a queue that is begun anew; and of a stop order,
which is in the index only when it rests, the parked ones are gone over.
-/

namespace LimitOrderBook

open OrderBook (Request)

/-- Where the order `n` is to be: parked on its side if it is a stop order, or in the queue of
the level of its price on its side; and nowhere else. -/
structure OrderBook.InOnePlace (s : OrderBook) (n : ℕ) : Prop where
  stops : ∀ b, ∃ stops, (s.stopOrders b).keys = .ok stops ∧
    (n ∈ stops ↔ (s.order n).hasParam .stop = true ∧ (s.order n).isBuy = b)
  queue : (s.order n).hasParam .stop = true → ∀ k, ∃ queue, s.ordersAt k = .ok queue ∧ n ∉ queue
  level : (s.order n).hasParam .stop = false → ∃ l, (s.limit l).price = (s.order n).price ∧
    (∀ b, ∃ levels, (s.limits b).keys = .ok levels ∧ (l ∈ levels ↔ (s.order n).isBuy = b)) ∧
    ∀ k, ∃ queue, s.ordersAt k = .ok queue ∧ (n ∈ queue ↔ k = l)

/-- **The order `n` takes the place of the order `o`**: `o` is in no queue and not parked, `n`
is where it is to be, and all other orders keep their queues, in the same order, their places
among the parked ones and their quantities. -/
structure TakesPlace (s s' : OrderBook) (o n : ℕ) : Prop where
  gone : (∀ l, ∃ queue, s'.ordersAt l = .ok queue ∧ o ∉ queue) ∧
    ∀ b, ∃ stops, (s'.stopOrders b).keys = .ok stops ∧ o ∉ stops
  placed : s'.InOnePlace n
  queues : ∀ l, ∃ queue queue', s.ordersAt l = .ok queue ∧ s'.ordersAt l = .ok queue' ∧
    queue'.erase n = queue.erase o
  parked : ∀ b, ∃ stops stops', (s.stopOrders b).keys = .ok stops ∧
    (s'.stopOrders b).keys = .ok stops' ∧ stops'.erase n = stops.erase o
  qty : ∀ x < s.nextOrder, x ≠ o → (s'.order x).currentQty = (s.order x).currentQty

/-- **The order `n` replaces the order `o`**: it takes its place, and the index leads to it. -/
structure Replaced (s s' : OrderBook) (o n : ℕ) : Prop extends TakesPlace s s' o n where
  entry : s'.orders.lookup (s'.order n).id = some n

/-- The live order `o` can be found, it is not a stop order, and the new order is for its price,
at which its side has a level. -/
structure OrderBook.KeepsPlace (s : OrderBook) (o : ℕ) (a : OrderArgs) : Prop where
  entry : s.orders.lookup a.id = some o
  stop : (s.order o).hasParam .stop = false
  cancelled : (s.order o).cancelled = false
  fullfilled : (s.order o).isFullfilled = false
  price : a.price = (s.order o).price
  level : ∃ levels, (s.limits a.toData.isBuy).keys = .ok levels ∧
    ∃ l ∈ levels, (s.limit l).price = a.price

namespace Ledger

variable {L L' : Ledger} {o n e l : ℕ} {a : OrderArgs}

/-! ### The index -/

theorem orders_replaceOrder (he : L.parent e = some l) (hid : (L.order e).id = (L.order n).id) :
    (L.replaceOrder e n).orders = L.orders.erase (L.order n).id := by
  rw [replaceOrder]
  split
  · rfl
  · rw [he, removeLimitOrder, he]
    obtain ⟨-, -, -, -, -, -, -, horders⟩ := addLimitOrder_frame (L.displace e l) n l
      (L.order n).isBuy
    exact horders.trans (by rw [displace_orders, hid])

theorem modifyOrder_modified_iff (L : Ledger) (n : ℕ) : (L.modifyOrder n).2 = .modified ↔
    ∃ e, L.orders.lookup (L.order n).id = some e ∧ (L.order e).cancelled = false ∧
      (L.order e).isFullfilled = false := by
  rw [modifyOrder]
  rcases he : L.orders.lookup (L.order n).id with _ | e
  · simp
  · dsimp only
    split
    · next hlive => simpa using hlive
    · next hdead => simpa using hdead

/-- **What `modify_order` answers.** -/
theorem WellFormed.step_modified_iff (h : L.WellFormed) (a : OrderArgs) :
    (L.step (.modify a)).2 = some .modified ↔ ∃ e, L.orders.lookup a.id = some e ∧
      (L.order e).cancelled = false ∧ (L.order e).isFullfilled = false := by
  have hnew : ((L.allocOrder a.toData).order L.nextOrder).id = a.id := by
    rw [allocOrder_order_new]
    rfl
  refine Option.some_inj.trans ((modifyOrder_modified_iff _ _).trans (exists_congr fun e => ?_))
  rw [hnew]
  refine and_congr_right fun he => ?_
  rw [allocOrder_order_old (h.entry_lt _ e he)]

/-- The ledger in which the new order takes the place of the old one: the new order exists, and
the old one is marked. -/
def replacing (L : Ledger) (a : OrderArgs) (e : ℕ) : Ledger :=
  (L.allocOrder a.toData).updateData e .cancel

theorem replacing_order_new (he : e < L.nextOrder) (a : OrderArgs) :
    (L.replacing a e).order L.nextOrder = a.toData := by
  rw [replacing, updateData_order, Function.update_of_ne he.ne', allocOrder_order_new]

theorem replacing_order_old (ho : o < L.nextOrder) (hoe : o ≠ e) (a : OrderArgs) :
    (L.replacing a e).order o = L.order o := by
  rw [replacing, updateData_order, Function.update_of_ne hoe, allocOrder_order_old ho]

theorem replacing_order_marked (he : e < L.nextOrder) (a : OrderArgs) :
    (L.replacing a e).order e = (L.order e).cancel := by
  rw [replacing, updateData_order, Function.update_self, allocOrder_order_old he]

theorem replacing_parent (he : e < L.nextOrder) (a : OrderArgs) :
    (L.replacing a e).parent e = L.parent e :=
  Function.update_of_ne he.ne _ _

theorem WellFormed.replacing (h : L.WellFormed) (a : OrderArgs) (e : ℕ) :
    (L.replacing a e).WellFormed :=
  (h.allocOrder a.toData).updateData .cancel

/-- **A modified order is not in the index**, whatever it was before. -/
theorem WellFormed.lookup_modified (h : L.WellFormed)
    (hmod : (L.step (.modify a)).2 = some .modified) :
    (L.step (.modify a)).1.orders.lookup ((L.step (.modify a)).1.order L.nextOrder).id = none := by
  obtain ⟨e, he, hcan, hful⟩ := (h.step_modified_iff a).mp hmod
  have hlt := h.entry_lt _ e he
  rcases h.step_modify_cases a with ⟨hnone, -⟩ | ⟨e', l, he', hl, -, -, hstep⟩
  · exact absurd ⟨hcan, hful⟩ (hnone e he)
  obtain rfl : e = e' := Option.some.inj (he.symm.trans he')
  have hparent := (replacing_parent hlt a).trans hl
  have hid : ((L.replacing a e).order e).id = ((L.replacing a e).order L.nextOrder).id := by
    rw [replacing_order_marked hlt, replacing_order_new hlt]
    exact h.entry_id _ e he
  have hnew : ((L.step (.modify a)).1.order L.nextOrder).id =
      ((L.replacing a e).order L.nextOrder).id := by
    rw [hstep, enqueueOrder_order, order_replaceOrder]
    rfl
  rw [hnew, hstep, enqueueOrder_orders]
  change ((L.replacing a e).replaceOrder e L.nextOrder).orders.lookup _ = none
  rw [orders_replaceOrder hparent hid, AList.lookup_erase]

/-! ### The place of a modified order -/

/-- Where the order `n` of a ledger is to be. -/
structure InOnePlace (L : Ledger) (n : ℕ) : Prop where
  stops : ∀ b, n ∈ L.stops b ↔ (L.order n).hasParam .stop = true ∧ (L.order n).isBuy = b
  queue : (L.order n).hasParam .stop = true → ∀ k, n ∉ L.queue k
  level : (L.order n).hasParam .stop = false → ∃ l, (L.limit l).price = (L.order n).price ∧
    (∀ b, l ∈ L.levels b ↔ (L.order n).isBuy = b) ∧ ∀ k, n ∈ L.queue k ↔ k = l

/-- The order `n` takes the place of the order `o`, on ledgers. -/
structure TakesPlace (L L' : Ledger) (o n : ℕ) : Prop where
  gone : (∀ l, o ∉ L'.queue l) ∧ ∀ b, o ∉ L'.stops b
  placed : L'.InOnePlace n
  queues : ∀ l, (L'.queue l).erase n = (L.queue l).erase o
  parked : ∀ b, (L'.stops b).erase n = (L.stops b).erase o
  qty : ∀ x < L.nextOrder, x ≠ o → L'.qty x = L.qty x

/-- The ledger with the new order, and the old one out of the queue of its level `l`. -/
def vacated (L : Ledger) (a : OrderArgs) (o l : ℕ) : Ledger := (L.replacing a o).displace o l

theorem vacated_price (L : Ledger) (a : OrderArgs) (o l k : ℕ) :
    ((L.vacated a o l).limit k).price = (L.limit k).price :=
  (MatchFrame.displace (L.replacing a o) o l).price k

theorem WellFormed.vacated (h : L.WellFormed) (a : OrderArgs) (o l : ℕ) :
    (L.vacated a o l).WellFormed :=
  (h.replacing a o).displace

theorem vacated_order_new (ho : o < L.nextOrder) (a : OrderArgs) (l : ℕ) :
    (L.vacated a o l).order L.nextOrder = a.toData :=
  replacing_order_new ho a

theorem vacated_qty {x : ℕ} (hx : x < L.nextOrder) (hxo : x ≠ o) (a : OrderArgs) (l : ℕ) :
    (L.vacated a o l).qty x = L.qty x := by
  rw [vacated, qty, displace_order, replacing_order_old hx hxo, qty]

section Place

variable (h : L.Tidy) (ho : o ∈ L.queue l)

include h ho

theorem vacated_queue (a : OrderArgs) (k : ℕ) : (L.vacated a o l).queue k = (L.queue k).erase o := by
  rw [vacated, (h.wf.replacing a o).queue_displace_filter ho, (h.wf.queue_nodup k).erase_eq_filter]
  rfl

/-- **The new order goes to the level of the old price** if its side has one. -/
theorem takesPlace_of_level {k : ℕ} (hstop : a.toData.hasParam .stop = false)
    (hp : Placed (L.vacated a o l) L' L.nextOrder k a.toData.isBuy)
    (hk : k ∈ L.levels a.toData.isBuy) (hprice : (L'.limit k).price = (L.order o).price) :
    TakesPlace L L' o L.nextOrder ↔ a.price = (L.order o).price := by
  have hlt := h.wf.queue_lt l o ho
  have hqueue := vacated_queue h ho a
  have hnew : L'.order L.nextOrder = a.toData := by
    rw [hp.order, vacated_order_new hlt]
  have hfree : ∀ x, L.nextOrder ∉ L.queue x := fun x hx => lt_irrefl _ (h.wf.queue_lt x _ hx)
  have hmem : ∀ x y, y ∈ L'.queue x ↔ (y = L.nextOrder ∧ x = k) ∨ y ∈ (L.queue x).erase o :=
    fun x y => by rw [hp.mem_queue, hqueue]
  have hin : ∀ x, L.nextOrder ∈ L'.queue x ↔ x = k := fun x => by
    rw [hmem, or_iff_left fun hx => hfree x (List.mem_of_mem_erase hx)]
    simp
  have hstops : L'.stops = L.stops := hp.stops
  have hsfree : ∀ b, L.nextOrder ∉ L.stops b := fun b hb => lt_irrefl _ (h.wf.stops_lt b _ hb)
  constructor
  · intro ht
    obtain ⟨l', hl', -, hat⟩ := ht.placed.level (by rw [hnew, hstop])
    obtain rfl : k = l' := (hat k).mp ((hin k).mpr rfl)
    rw [hnew] at hl'
    exact hl'.symm.trans hprice
  · intro ha
    refine ⟨⟨fun x hx => ?_, fun b hb => ?_⟩, ⟨fun b => ?_, fun hs => ?_, fun _ => ?_⟩, fun x => ?_,
      fun b => ?_, fun x hx hxo => ?_⟩
    · rcases (hmem x o).mp hx with ⟨he, -⟩ | hx
      · exact hlt.ne he
      · exact (h.wf.queue_nodup x).not_mem_erase hx
    · rw [hstops] at hb
      exact h.parked b o hb l ho
    · rw [hstops, hnew, hstop]
      exact iff_of_false (hsfree b) (by simp)
    · rw [hnew, hstop] at hs
      exact absurd hs (by simp)
    · refine ⟨k, ?_, fun b => ?_, hin⟩
      · rw [hprice, hnew]
        exact ha.symm
      · rw [hnew, hp.levels]
        constructor
        · rintro (⟨-, hb⟩ | hb)
          · exact hb.symm
          · exact side_unique h.disjoint hk hb
        · rintro rfl
          exact Or.inl ⟨rfl, rfl⟩
    · rw [hp.queue]
      by_cases hx : x = k
      · subst hx
        rw [Function.update_self, hqueue, List.erase_append_right _ fun hx =>
          hfree x (List.mem_of_mem_erase hx)]
        simp
      · rw [Function.update_of_ne hx, hqueue, List.erase_of_not_mem fun hx =>
          hfree x (List.mem_of_mem_erase hx)]
    · rw [hstops, List.erase_of_not_mem (hsfree b),
        List.erase_of_not_mem fun hb => h.parked b o hb l ho]
    · rw [hp.qty]
      exact vacated_qty hx hxo a l

/-- **The level object of the old order is put into the other tree** if the side of the new
order has no level of the old price. -/
theorem not_takesPlace_of_no_level
    (hnone : ∀ k ∈ L.levels a.toData.isBuy, (L.limit k).price ≠ (L.order o).price)
    (hstop : a.toData.hasParam .stop = false)
    (hL' : L' = ((L.vacated a o l).addLimitOrder L.nextOrder l
      a.toData.isBuy).enqueueOrder L.nextOrder) : ¬ TakesPlace L L' o L.nextOrder := by
  intro ht
  have hwf := h.wf.vacated a o l
  have hlisted := h.listed l o ho
  have hnew : L'.order L.nextOrder = a.toData := by
    rw [hL', enqueueOrder_order, (addLimitOrder_frame (L.vacated a o l) _ _ _).1,
      vacated_order_new (h.wf.queue_lt l o ho)]
  obtain ⟨l', -, hside, hat⟩ := ht.placed.level (by rw [hnew, hstop])
  rw [hnew] at hside
  have hfind : findKey ((L.vacated a o l).limitLess a.toData.isBuy) l
      ((L.vacated a o l).levels a.toData.isBuy) = none := by
    refine (findKey_eq_none (limitLess_strictWeak _ _) (hwf.levels_sorted _)).mpr fun k hk he => ?_
    rw [limitLess_equiv, vacated_price, vacated_price, ← h.price l o ho] at he
    exact hnone k hk he.symm
  have hqueue : L.nextOrder ∈ L'.queue l := by
    rw [hL', enqueueOrder_queue, addLimitOrder, hfind]
    simp
  obtain rfl : l = l' := (hat l).mp hqueue
  -- the level is still in the tree of the side of the old order
  have hold : l ∈ L'.levels (L.order o).isBuy := by
    rw [hL', enqueueOrder_levels]
    exact hwf.levels_addLimitOrder _ hlisted
  have hsame := (hside _).mp hold
  exact hnone l (hsame ▸ hlisted) (h.price l o ho).symm

/-- **What becomes of the places of orders** when an order is modified that the index leads to. -/
theorem takesPlace_iff (hl : L.parent o = some l)
    (hstop : a.toData.hasParam .stop = (L.order o).hasParam .stop)
    (hL' : L' = ((L.replacing a o).replaceOrder o L.nextOrder).enqueueOrder L.nextOrder) :
    TakesPlace L L' o L.nextOrder ↔ (L.order o).hasParam .stop = false ∧
      a.price = (L.order o).price ∧ ∃ k ∈ L.levels a.toData.isBuy, (L.limit k).price = a.price := by
  have hlt := h.wf.queue_lt l o ho
  have hflag : ((L.replacing a o).order o).hasParam .stop = (L.order o).hasParam .stop := by
    rw [replacing_order_marked hlt]
    rfl
  by_cases hs : (L.order o).hasParam .stop = true
  · -- a stop order that rests stays in its queue
    refine iff_of_false (fun ht => ht.gone.1 l ?_) fun hc => absurd (hs.symm.trans hc.1) (by simp)
    rw [hL', replaceOrder, hflag, if_pos hs]
    exact ho
  have hs : (L.order o).hasParam .stop = false := by simpa using hs
  have hparent := (replacing_parent hlt a).trans hl
  have hstep : L' = ((L.vacated a o l).addLimitOrder L.nextOrder l
      a.toData.isBuy).enqueueOrder L.nextOrder := by
    rw [hL', replaceOrder, hflag, if_neg (by simp [hs]), hparent]
    dsimp only
    rw [removeLimitOrder, hparent, replacing_order_new hlt, vacated]
  by_cases hex : ∃ k ∈ L.levels a.toData.isBuy, (L.limit k).price = (L.order o).price
  · obtain ⟨k, hk, hprice⟩ := hex
    have hsame : ((L.vacated a o l).limit k).price = ((L.vacated a o l).limit l).price := by
      rw [vacated_price, vacated_price, hprice, h.price l o ho]
    obtain ⟨hp, hp'⟩ := (h.wf.vacated a o l).addLimitOrder_old L.nextOrder hk hsame
    have hplaced : Placed (L.vacated a o l) L' L.nextOrder k a.toData.isBuy := by
      rw [hstep]
      exact { hp with }
    have hlevel : (L'.limit k).price = (L.order o).price := by
      rw [hstep]
      exact hp'.trans ((vacated_price L a o l l).trans (h.price l o ho).symm)
    rw [takesPlace_of_level h ho (hstop.trans hs) hplaced hk hlevel]
    exact ⟨fun ha => ⟨hs, ha, k, hk, hprice.trans ha.symm⟩, fun hc => hc.2.1⟩
  · push Not at hex
    refine iff_of_false (not_takesPlace_of_no_level h ho hex (hstop.trans hs) hstep) ?_
    rintro ⟨-, ha, k, hk, hprice⟩
    exact hex k hk (hprice.trans ha)

end Place

end Ledger

/-! ### Books -/

namespace Refines

variable {s s' : OrderBook} {L L' : Ledger} {o n : ℕ} {a : OrderArgs}

theorem inOnePlace_iff (h : Refines s L) : s.InOnePlace n ↔ L.InOnePlace n := by
  have hflag : (s.order n).hasParam .stop = (L.order n).hasParam .stop := by rw [← h.order]
  have hside : (s.order n).isBuy = (L.order n).isBuy := by rw [← h.order]
  have hprice : (s.order n).price = (L.order n).price := by rw [← h.order]
  have hlevel : ∀ l, (s.limit l).price = (L.limit l).price := fun l => by rw [← h.limit]
  constructor
  · rintro ⟨hs, hq, hl⟩
    simp only [h.getStopOrders, (h.levels _).keys, h.ordersAt, Except.ok.injEq, exists_eq_left',
      hflag, hside, hprice, hlevel] at hs hq hl
    exact ⟨hs, hq, hl⟩
  · rintro ⟨hs, hq, hl⟩
    constructor
    all_goals
      simp only [h.getStopOrders, (h.levels _).keys, h.ordersAt, Except.ok.injEq, exists_eq_left',
        hflag, hside, hprice, hlevel]
      assumption

theorem takesPlace_iff (h : Refines s L) (h' : Refines s' L') :
    TakesPlace s s' o n ↔ L.TakesPlace L' o n := by
  have hqty : ∀ x, (s.order x).currentQty = L.qty x := h.qty
  have hqty' : ∀ x, (s'.order x).currentQty = L'.qty x := h'.qty
  constructor
  · rintro ⟨hg, hp, hq, hs, hx⟩
    simp only [h.getStopOrders, h'.getStopOrders, h.ordersAt, h'.ordersAt, Except.ok.injEq,
      exists_and_left, exists_eq_left', h.nextOrder, hqty, hqty'] at hg hq hs hx
    exact ⟨hg, h'.inOnePlace_iff.mp hp, hq, hs, hx⟩
  · rintro ⟨hg, hp, hq, hs, hx⟩
    refine ⟨?_, h'.inOnePlace_iff.mpr hp, ?_, ?_, ?_⟩
    all_goals
      simp only [h.getStopOrders, h'.getStopOrders, h.ordersAt, h'.ordersAt, Except.ok.injEq,
        exists_and_left, exists_eq_left', h.nextOrder, hqty, hqty']
      assumption

/-- **One `modify_order`** of a live order. -/
theorem modified_iff {ids : List String} (h : Refines s L) (ht : L.Tidy) (htr : L.Tracked ids)
    (ho : L.Held o) (hid : a.id = (s.order o).id)
    (hstop : a.toData.hasParam .stop = (s.order o).hasParam .stop)
    (h' : Refines s' (L.step (.modify a)).1) :
    ((L.step (.modify a)).2 = some .modified ∧ TakesPlace s s' o L.nextOrder) ↔
      s.KeepsPlace o a := by
  have hdata := h.order o
  have hentry : s.orders.lookup a.id = L.orders.lookup a.id := by rw [h.orders]
  have hlevel : (∃ levels, (s.limits a.toData.isBuy).keys = .ok levels ∧
      ∃ l ∈ levels, (s.limit l).price = a.price) ↔
      ∃ l ∈ L.levels a.toData.isBuy, (L.limit l).price = a.price := by
    have hprice : ∀ l, (s.limit l).price = (L.limit l).price := fun l => by rw [← h.limit]
    simp only [(h.levels _).keys, Except.ok.injEq, exists_eq_left', hprice]
  rw [h.takesPlace_iff h', ht.wf.step_modified_iff]
  constructor
  · rintro ⟨⟨e, he, hcan, hful⟩, hplace⟩
    obtain rfl : e = o := htr.own o ho e (by rw [← hdata, ← hid]; exact he)
    rcases ht.wf.step_modify_cases a with ⟨hnone, -⟩ | ⟨e', l, he', hl, -, -, hstep⟩
    · exact absurd ⟨hcan, hful⟩ (hnone e he)
    obtain rfl : e = e' := Option.some.inj (he.symm.trans he')
    have hmem := ht.mem_queue_of_entry he hl
    rw [← hdata] at hcan hful
    obtain ⟨hs, hp, hk⟩ := (Ledger.takesPlace_iff ht hmem hl (by rw [hstop, ← hdata]) hstep).mp hplace
    rw [← hdata] at hs hp
    exact ⟨hentry.trans he, hs, hcan, hful, hp, hlevel.mpr hk⟩
  · rintro ⟨he, hs, hcan, hful, hp, hk⟩
    rw [hentry] at he
    rw [hdata] at hs hcan hful hp hstop
    refine ⟨⟨o, he, hcan, hful⟩, ?_⟩
    rcases ht.wf.step_modify_cases a with ⟨hnone, -⟩ | ⟨e', l, he', hl, -, -, hstep⟩
    · exact absurd ⟨hcan, hful⟩ (hnone o he)
    obtain rfl : o = e' := Option.some.inj (he.symm.trans he')
    have hmem := ht.mem_queue_of_entry he hl
    exact (Ledger.takesPlace_iff ht hmem hl hstop hstep).mpr ⟨hs, hp, hlevel.mp hk⟩

end Refines

/-- **`modify_order` never replaces an order**: after any run, whatever order is to be replaced
by whatever new one, the request does not fault, and if it answers that the order has been
modified then the index does not lead to the new order. -/
theorem modifyOrder_never_replaces (instrument : String) (marketPrice : ℚ) (rs : List Request) :
    ∃ s answers, runAll OrderBook.step (.empty instrument marketPrice) rs = .ok (s, answers) ∧
      ∀ (o : ℕ) (a : OrderArgs), ∃ s' status, s.step (.modify a) = .ok (s', some status) ∧
        ¬ (status = .modified ∧ Replaced s s' o s.nextOrder) := by
  have hrs : ∀ r ∈ rs, (fun _ : Request => True) r := fun _ _ => trivial
  obtain ⟨s, answers, L, hrun, hL, -⟩ := (refines_empty instrument marketPrice).run_invariant
    (J := fun _ => True) (fun _ _ _ _ _ _ => trivial) trivial (meets_of_forall hrs _)
  refine ⟨s, answers, hrun, fun o a => ?_⟩
  obtain ⟨s', hs', hL'⟩ := hL.step (.modify a)
  refine ⟨s', _, hs', ?_⟩
  rintro ⟨hmod, hrep⟩
  have hnone := hL.wf.lookup_modified (congrArg some hmod)
  have hentry := hrep.entry
  rw [hL.nextOrder, hL'.orders, hL'.order, hnone] at hentry
  exact absurd hentry (by simp)

/-- **A modified order takes the place of the old one** exactly if the old one rests, is found
and is not a stop order, the new price is the old one, and the side of the new order has a level
of that price: after any run of new orders with distinct ids, cancellations and checks of
dates, for every live order and every new one with its id that is a stop order if it is. -/
theorem modifyOrder_takesPlace_iff (instrument : String) (marketPrice : ℚ) {rs : List Request}
    (hrs : ∀ r ∈ rs, r.keepsOrders = true) (hids : (OrderBook.addedIds rs).Nodup) :
    ∃ s answers live, runAll OrderBook.step (.empty instrument marketPrice) rs = .ok (s, answers) ∧
      s.liveOrders = .ok live ∧ ∀ o ∈ live, ∀ a : OrderArgs, a.id = (s.order o).id →
        a.toData.hasParam .stop = (s.order o).hasParam .stop →
        ∃ s' status, s.step (.modify a) = .ok (s', some status) ∧
          (status = .modified ∧ TakesPlace s s' o s.nextOrder ↔ s.KeepsPlace o a) := by
  obtain ⟨s, answers, L, hrun, hL, ht, htr, -⟩ := (refines_empty instrument marketPrice).run_rule
    (J := fun L rest => L.Tidy ∧ L.Tracked (OrderBook.addedIds rest) ∧
      (OrderBook.addedIds rest).Nodup)
    (fun _ _ _ _ _ hJ hr => ⟨hJ.1.step hr, Ledger.Tracked.step_next hr hJ.2⟩)
    ⟨Ledger.tidy_empty instrument marketPrice, Ledger.tracked_empty instrument marketPrice _, hids⟩
    (meets_of_forall hrs _)
  refine ⟨s, answers, L.live, hrun, hL.liveOrders, fun o ho a hid hstop => ?_⟩
  obtain ⟨s', hs', hL'⟩ := hL.step (.modify a)
  refine ⟨s', _, hs', ?_⟩
  rw [hL.nextOrder, ← hL.modified_iff ht htr (Ledger.held_of_mem_live ho) hid hstop hL']
  exact and_congr_left fun _ => Option.some_inj.symm

/-- An ask is modified, and cannot be found any more. -/
theorem modified_not_indexed : ∃ s answers s', runAll OrderBook.step (.empty "X" 10)
      [.add 0 (.limit "a" .sell 5 10)] = .ok (s, answers) ∧ s.liveOrders = .ok [0] ∧
    s.step (.modify (.limit "a" .sell 7 10)) = .ok (s', some .modified) ∧
    ¬ Replaced s s' 0 s.nextOrder := by
  obtain ⟨⟨s, answers⟩, hrun, hs⟩ := exists_ok_of_map (f := fun r =>
      (r.1.liveOrders.toOption, r.1.nextOrder,
        (r.1.step (.modify (.limit "a" .sell 7 10))).toOption.map fun t =>
          (t.2, t.1.orders.lookup (t.1.order 1).id)))
    (b := (some [0], 1, some (some OrderStatus.modified, none)))
    (show (runAll OrderBook.step (.empty "X" 10)
      [.add 0 (.limit "a" .sell 5 10)]).toOption.map _ = _ by decide +kernel)
  simp only [Prod.mk.injEq] at hs
  obtain ⟨horders, hnew, hstep⟩ := hs
  obtain ⟨live, hlive, rfl⟩ := exists_ok_of_map (f := id) (by simpa using horders)
  obtain ⟨⟨s', status⟩, hs', hafter⟩ := exists_ok_of_map hstep
  obtain ⟨rfl, hnone⟩ := Prod.mk.inj hafter
  refine ⟨s, answers, s', hrun, hlive, hs', fun hrep => ?_⟩
  have hentry := hrep.entry
  rw [hnew, hnone] at hentry
  exact absurd hentry (by simp)

end LimitOrderBook
