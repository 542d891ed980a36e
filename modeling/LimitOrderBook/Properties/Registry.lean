import LimitOrderBook.Ledger.Departures

/-!
# The registry of dated orders

`_date_orders` should have exactly the live orders with a date
(`LimitOrderBook.RegistryComplete`). It is keyed by the expire time alone, and only `add_order`
and `check_date_orders` write to it; so it follows what happens to orders exactly as long as
every dated order that leaves the book is one whose place in the registry is taken by the same
request, or that is due and can be cancelled (`LimitOrderBook.registry_iff`).
-/

namespace LimitOrderBook

open OrderBook (Request)

/-- **The registry has exactly the live orders with a date**, each of them once. -/
def RegistryComplete (s : OrderBook) : Prop :=
  ∃ dates live, s.getOrdersWithExperation = .ok dates ∧ s.liveOrders = .ok live ∧ dates.Nodup ∧
    ∀ o, o ∈ dates ↔ o ∈ live ∧ (s.order o).isDated = true

namespace OrderBook

variable (s : OrderBook)

/-- The order `o` is parked on the side of `x`, with the key that `x` has there. -/
def evicts (x : OrderData) (o : ℕ) : Prop :=
  ∃ stops, (s.stopOrders x.isBuy).keys = .ok stops ∧ o ∈ stops ∧ (s.order o).price = x.price ∧
    (s.order o).timestamp = x.timestamp

/-- The new order comes to the level of `o`, which does not stay there. -/
def fills (a : OrderArgs) (o : ℕ) : Prop :=
  ∃ r ∈ s.reaches a, o ∈ (s.holding r.1).map Prod.fst ∧
    o ∉ (staying (a.toData.activated.hasParam .aon) r.2 (s.holding r.1)).map Prod.fst

/-- A modified order takes over the queue with `o` in it: it is put at the level of `e`, and
there is no level with that price on its side. -/
def takesOver (e : ℕ) (isBuy : Bool) (o : ℕ) : Prop :=
  ∃ l levels queue, (s.order e).parent = some l ∧ (s.limits isBuy).keys = .ok levels ∧
    s.ordersAt l = .ok queue ∧ o ∈ queue ∧ ∀ k ∈ levels, (s.limit k).price ≠ (s.limit l).price

/-- **The registry follows the request**: of the dated orders exactly those leave the book in an
`add_order` whose place in the registry the new order takes; none leaves it in a `cancel_order`
or a `modify_order`, which puts in no dated order; and none that is due is a stop order. -/
def keepsRegistry : Request → Prop
  | .add _ a => ∀ dates, s.dateOrders.keys = .ok dates → ∀ o ∈ dates,
      ((if s.parks a then s.evicts a.toData o else s.fills a o) ↔
        s.stays a = true ∧ a.toData.isDated = true ∧ (s.order o).expireTime = a.expireTime)
  | .modify a => ∀ e, s.orders.lookup a.id = some e → (s.order e).cancelled = false →
      (s.order e).isFullfilled = false → a.toData.isDated = false ∧
        ∀ dates, s.dateOrders.keys = .ok dates → ∀ o ∈ dates,
          ¬ if (s.order e).hasParam .stop then s.evicts a.toData o
            else o = e ∨ s.takesOver e a.toData.isBuy o
  | .cancel id => ∀ e, s.orders.lookup id = some e →
      ∀ dates, s.dateOrders.keys = .ok dates → ∀ o ∈ dates,
        ¬ if (s.order e).hasParam .stop then s.evicts (s.order e).toOrderData o else o = e
  | .checkDate now => ∀ dates, s.dateOrders.keys = .ok dates →
      ∀ o ∈ dates.takeWhile (fun o => (s.order o).isDue (now + 3600)),
        (s.order o).hasParam .stop = false

end OrderBook

namespace Ledger

variable {L L' : Ledger} {ids : List String} {o n e l : ℕ}

/-- The registry of a ledger has exactly the orders with a date that are held. -/
def Registered (L : Ledger) : Prop :=
  ∀ o, o ∈ L.dates ↔ L.Held o ∧ (L.order o).isDated = true

/-- **What a request does to the registry and to the orders that are held**, when the orders
`out` leave the book, the orders `lost` leave the registry, and `n` may be new in both. -/
theorem Registered.iff {out lost : ℕ → Prop} {placed entered : Prop} (hR : L.Registered)
    (hn : ¬ L.Held n) (hdated : ∀ o, L.Held o → (L'.order o).isDated = (L.order o).isDated)
    (hheld : ∀ o, L'.Held o ↔ (L.Held o ∧ ¬ out o) ∨ (o = n ∧ placed))
    (hdates : ∀ o, o ∈ L'.dates ↔ (o ∈ L.dates ∧ ¬ lost o) ∨ (o = n ∧ entered)) :
    L'.Registered ↔ (∀ o ∈ L.dates, (out o ↔ lost o)) ∧
      (entered ↔ placed ∧ (L'.order n).isDated = true) := by
  have hnd : n ∉ L.dates := fun hd => hn ((hR n).mp hd).1
  constructor
  · refine fun hR' => ⟨fun o ho => ?_, ?_⟩
    · have hne : o ≠ n := fun he => hnd (he ▸ ho)
      obtain ⟨hheldo, hdatedo⟩ := (hR o).mp ho
      have hiff := hR' o
      rw [hdates, hheld, hdated o hheldo] at hiff
      simp only [ho, hne, hheldo, hdatedo, true_and, false_and, or_false, and_true] at hiff
      exact (not_iff_not.mp hiff).symm
    · have hiff := hR' n
      rw [hdates, hheld] at hiff
      simpa [hn, hnd] using hiff
  · rintro ⟨hout, hnew⟩ o
    rw [hdates, hheld]
    by_cases ho : o = n
    · subst ho
      simpa [hn, hnd] using hnew
    · simp only [ho, false_and, or_false]
      by_cases hheldo : L.Held o
      · rw [hdated o hheldo, hR o]
        constructor
        · rintro ⟨⟨-, hd⟩, hlost⟩
          exact ⟨⟨hheldo, fun hc => hlost ((hout o ((hR o).mpr ⟨hheldo, hd⟩)).mp hc)⟩, hd⟩
        · rintro ⟨⟨-, hno⟩, hd⟩
          exact ⟨⟨hheldo, hd⟩, fun hc => hno ((hout o ((hR o).mpr ⟨hheldo, hd⟩)).mpr hc)⟩
      · exact iff_of_false (fun hc => hheldo ((hR o).mp hc.1).1) fun hc => hheldo hc.1.1

/-- What is in the registry after a request that puts in no dated order. -/
theorem registered_of_same (hwf : L.WellFormed) (hR : L.Registered) {out : ℕ → Prop}
    (hdated : ∀ o, L.Held o → (L'.order o).isDated = (L.order o).isDated)
    (hheld : ∀ o, L'.Held o ↔ L.Held o ∧ ¬ out o) (hdates : L'.dates = L.dates) :
    L'.Registered ↔ ∀ o ∈ L.dates, ¬ out o := by
  have hn := hwf.not_held_nextOrder
  have hiff := @Registered.iff L L' _ out (fun _ => False) False False hR hn hdated
    (fun o => by rw [hheld, and_false, or_false]) fun o => by
      rw [hdates, not_false_eq_true, and_true, and_false, or_false]
  simpa using hiff

namespace Tracked

variable (h : L.Tracked ids)

include h

/-! ### Orders that are added, cancelled or modified -/

theorem registered_add (hR : L.Registered) (a : OrderArgs) (now : ℤ) {placed : Prop}
    (hplaced : placed ↔ (L.receive a).isParked L.nextOrder = true ∨
      a.toData.activated.hasParam .fok = false ∧ (L.matched a).2 = false) :
    (L.step (.add now a)).1.Registered ↔ ∀ o ∈ L.dates,
      ((if (L.receive a).isParked L.nextOrder then L.Evicts a.toData o else L.Fills a o) ↔
        placed ∧ a.toData.isDated = true ∧ (L.order o).expireTime = a.expireTime) := by
  have hn := h.wf.not_held_nextOrder
  obtain ⟨hheld, hdates, hnew⟩ := h.add_effect a now hplaced
  rw [hR.iff hn (fun o ho => ?_) hheld hdates, and_iff_left_iff_imp]
  · refine fun _ => and_congr_right fun hp => ?_
    rw [hnew hp]
  · exact h.wf.isDated_step rfl ho

theorem registered_cancel (hR : L.Registered) (id : String) :
    (L.step (.cancel id)).1.Registered ↔ ∀ e, L.orders.lookup id = some e → ∀ o ∈ L.dates,
      ¬ if (L.order e).hasParam .stop then L.Evicts (L.order e) o else o = e := by
  have hdated : ∀ o, L.Held o → ((L.cancelOrder id).1.order o).isDated = (L.order o).isDated :=
    fun o ho => h.wf.isDated_step (r := .cancel id) rfl ho
  rcases he : L.orders.lookup id with _ | e
  · have hsame : (L.cancelOrder id).1 = L := by
      rw [Ledger.cancelOrder, he]
    change (L.cancelOrder id).1.Registered ↔ _
    rw [hsame]
    simpa using hR
  · refine (registered_of_same h.wf hR hdated (fun o => h.held_cancelOrder he)
      (dates_cancelOrder h.wf id)).trans ?_
    simp only [Option.some.injEq, forall_eq']

/-- A modified order has not been in the registry, and is not put into it. -/
theorem registered_modify (hR : L.Registered) (a : OrderArgs) :
    (L.step (.modify a)).1.Registered ↔ ∀ e, L.orders.lookup a.id = some e →
      (L.order e).cancelled = false → (L.order e).isFullfilled = false →
      a.toData.isDated = false ∧ ∀ o ∈ L.dates, ¬ if (L.order e).hasParam .stop then
        L.Evicts a.toData o else o = e ∨ ∃ l, L.parent e = some l ∧
          L.TakesOver l a.toData.isBuy o := by
  have hn := h.wf.not_held_nextOrder
  rcases h.wf.step_modify_cases a with ⟨hlive, hsame⟩ | ⟨e, l, he, hl, hcan, hful, heq⟩
  · rw [hsame]
    refine iff_of_true (fun o => (hR o).trans (and_congr_right fun ho => ?_)) ?_
    · rw [allocOrder_order_old (ho.lt h.wf)]
    · exact fun e he hcan hful => absurd ⟨hcan, hful⟩ (hlive e he)
  · obtain ⟨hheld, hdates, hold, hnew, -⟩ := h.modify_effect he hl heq
    have hiff := @Registered.iff L _ _ _ (fun _ => False) True False hR hn hold
      (fun o => by rw [hheld, and_true]) fun o => by simp [hdates]
    rw [hiff, hnew]
    simp only [he, hl, hcan, hful, Option.some.injEq, forall_eq', iff_false, false_iff,
      exists_eq_left', true_and, Bool.not_eq_true, forall_true_left, and_comm]

/-! ### Orders that are due -/

/-- The entries that are left lead to the same orders. -/
theorem due_entry {now : ℤ} (hR : L.Registered) (ho : o ∈ L.dueOrders now)
    (hentry : ∀ id e, L'.orders.lookup id = some e → L.orders.lookup id = some e)
    (he : L'.orders.lookup (L.order o).id = some e) : e = o :=
  h.own o ((hR o).mp (mem_dates_of_due ho)).1 e (hentry _ e he)

/-- **No stop order is due**: the orders that are leave the book. -/
theorem held_checkDateOrders {now : ℤ} (hR : L.Registered)
    (hstop : ∀ o ∈ L.dueOrders now, (L.order o).hasParam .stop = false) :
    (L.checkDateOrders now).Held o ↔ L.Held o ∧ o ∉ L.dueOrders now := by
  refine (checkDateOrders_done (J := fun done L' => L'.Tracked ids ∧
      (∀ x q, (L'.order x).hasParam q = (L.order x).hasParam q) ∧
      (∀ x, (L'.order x).id = (L.order x).id) ∧
      (∀ id e, L'.orders.lookup id = some e → L.orders.lookup id = some e) ∧
      ∀ x, L'.Held x ↔ L.Held x ∧ x ∉ done)
    (fun done d L' hJ hd _ => ?_) (fun done L' d hJ => ?_)
    ⟨h, fun _ _ => rfl, fun _ => rfl, fun _ _ => id, by simp⟩).2.2.2.2 o
  · obtain ⟨ht, hflags, hids, hentry, hheld⟩ := hJ
    have hdated := ((hR d).mp (mem_dates_of_due hd)).2
    refine ⟨ht.cancelOrder _, fun x q => ?_, fun x => ?_, fun id e he => ?_, fun x => ?_⟩
    · rw [cancelOrder_hasParam, hflags]
    · rw [cancelOrder_id, hids]
    · exact hentry id e (ht.wf.lookup_cancelOrder he)
    · have hgoal : (L'.cancelOrder (L.order d).id).1.Held x ↔ L'.Held x ∧ x ≠ d := by
        rcases he : L'.orders.lookup (L.order d).id with _ | e
        · -- an order without an entry is not in the book any more
          have hgone : ¬ L'.Held d := by
            rintro (⟨l, hl⟩ | ⟨b, hb⟩)
            · have hentry' := ht.indexed l d hl
                (by rwa [isDated_of_hasParam fun q => hflags d q]) (by rw [hflags, hstop d hd])
              rw [hids, he] at hentry'
              exact absurd hentry' (by simp)
            · have hs := ht.parked b d hb (by rwa [isDated_of_hasParam fun q => hflags d q])
              rw [hflags, hstop d hd] at hs
              exact absurd hs (by simp)
          have hsame : (L'.cancelOrder (L.order d).id).1 = L' := by
            rw [Ledger.cancelOrder, he]
          rw [hsame]
          refine (and_iff_left_of_imp ?_).symm
          rintro hx rfl
          exact hgone hx
        · obtain rfl := h.due_entry hR hd hentry he
          rw [ht.held_cancelOrder he, hflags, hstop e hd]
          simp
      rw [hgoal, hheld, List.mem_append, List.mem_singleton, not_or, and_assoc]
  · exact ⟨hJ.1.eraseDate d, hJ.2⟩

/-- **A stop order is due**: it stays in the book. -/
theorem held_of_due_stop {now : ℤ} (hR : L.Registered)
    (hstop : ∃ o ∈ L.dueOrders now, (L.order o).hasParam .stop = true) :
    ∃ o ∈ L.dueOrders now, (L.checkDateOrders now).Held o := by
  by_cases hrest : ∃ o ∈ L.dueOrders now, (L.order o).hasParam .stop = true ∧ ∃ l, o ∈ L.queue l
  · obtain ⟨o, ho, hs, l, hl⟩ := hrest
    refine ⟨o, ho, Or.inl ⟨l, ?_⟩⟩
    refine (checkDateOrders_rule (J := fun L' => L'.Tracked ids ∧
        (L'.order o).hasParam .stop = true ∧ o ∈ L'.queue l)
      (fun L' d hJ _ _ => ?_) (fun L' d hJ => ⟨hJ.1.eraseDate d, hJ.2⟩) ⟨h, hs, hl⟩).2.2
    obtain ⟨ht, hs', hl'⟩ := hJ
    refine ⟨ht.cancelOrder _, by rwa [cancelOrder_hasParam], ?_⟩
    rcases ht.wf.cancelOrder_cases (L.order d).id with ⟨-, he⟩ | ⟨e, -, -, he⟩ |
      ⟨e, k, -, hno, -, he⟩ <;> rw [he]
    · exact hl'
    · exact hl'
    · -- an order that leaves its queue is not a stop order
      have hoe : o ≠ e := by
        rintro rfl
        exact absurd (hs'.symm.trans hno) (by simp)
      rw [enqueueOrder_queue, displace_queue]
      by_cases hk : l = k
      · subst hk
        rw [Function.update_self]
        exact (List.mem_erase_of_ne hoe).mpr hl'
      · rwa [Function.update_of_ne hk]
  · -- the stop orders that are due are parked, and the others leave them alone
    obtain ⟨o, ho, hs⟩ := hstop
    have hin : ∀ d ∈ L.dueOrders now, (L.order d).hasParam .stop = true → ∃ b, d ∈ L.stops b := by
      intro d hd hs
      rcases ((hR d).mp (mem_dates_of_due hd)).1 with hq | hb
      · exact absurd ⟨d, hd, hs, hq⟩ hrest
      · exact hb
    obtain ⟨b, hb⟩ := hin o ho hs
    refine ⟨o, ho, Or.inr ⟨b, ?_⟩⟩
    have hstops : (L.checkDateOrders now).stops = L.stops := by
      refine (checkDateOrders_rule (J := fun L' => L'.WellFormed ∧ L'.stops = L.stops ∧
          (∀ x, (L'.order x).hasParam .stop = (L.order x).hasParam .stop) ∧
          ∀ id e, L'.orders.lookup id = some e → L.orders.lookup id = some e)
        (fun L' d hJ hd _ => ?_) (fun L' d hJ => ⟨hJ.1.eraseDate, hJ.2⟩)
        ⟨h.wf, rfl, fun _ => rfl, fun _ _ => id⟩).2.1
      obtain ⟨hwf, hst, hflags, hentry⟩ := hJ
      refine ⟨hwf.cancelOrder _, ?_, fun x => by rw [cancelOrder_hasParam, hflags],
        fun id e he => hentry id e (hwf.lookup_cancelOrder he)⟩
      rcases hwf.cancelOrder_cases (L.order d).id with ⟨-, he⟩ | ⟨e, hlook, hse, he⟩ |
        ⟨e, k, -, -, -, he⟩ <;> rw [he]
      · exact hst
      · obtain rfl := h.due_entry hR hd hentry hlook
        rw [hflags] at hse
        obtain ⟨c, hc⟩ := hin e hd hse
        exact absurd hc (h.entry _ e (hentry _ e hlook) c)
      · exact hst
    rwa [hstops]

theorem registered_checkDate (hR : L.Registered) (now : ℤ) :
    (L.step (.checkDate now)).1.Registered ↔
      ∀ o ∈ L.dueOrders now, (L.order o).hasParam .stop = false := by
  have hdated : ∀ o, L.Held o →
      ((L.checkDateOrders now).order o).isDated = (L.order o).isDated := fun o ho =>
    h.wf.isDated_step (r := .checkDate now) rfl ho
  change (L.checkDateOrders now).Registered ↔ _
  constructor
  · intro hR'
    by_contra hstop
    push Not at hstop
    obtain ⟨o, ho, hs⟩ := hstop
    obtain ⟨x, hx, hheld⟩ := h.held_of_due_stop hR ⟨o, ho, by simpa using hs⟩
    have hxR := (hR x).mp (mem_dates_of_due hx)
    have hmem := (hR' x).mpr ⟨hheld, (hdated x hxR.1).trans hxR.2⟩
    exact ((mem_dates_checkDateOrders h.wf now).mp hmem).2 hx
  · intro hstop
    have hn := h.wf.not_held_nextOrder
    refine (@Registered.iff L _ _ (fun o => o ∈ L.dueOrders now) (fun o => o ∈ L.dueOrders now)
      False False hR hn hdated (fun o => ?_) fun o => ?_).mpr (by simp)
    · rw [h.held_checkDateOrders hR hstop, and_false, or_false]
    · rw [mem_dates_checkDateOrders h.wf, and_false, or_false]

end Tracked

end Ledger

namespace Refines

variable {s : OrderBook} {L : Ledger} {ids : List String} (h : Refines s L)

include h

theorem evicts_iff {x : OrderData} {o : ℕ} : s.evicts x o ↔ L.Evicts x o := by
  have hprice := congrArg OrderData.price (h.order o)
  have htime := congrArg OrderData.timestamp (h.order o)
  simp only [OrderBook.evicts, h.getStopOrders, Except.ok.injEq, exists_eq_left', Ledger.Evicts,
    ← hprice, ← htime]

theorem fills_iff {a : OrderArgs} {o : ℕ} : s.fills a o ↔ L.Fills a o := by
  rw [OrderBook.fills, Ledger.Fills, h.reaches, h.holding]

theorem takesOver_iff {e o : ℕ} {b : Bool} : s.takesOver e b o ↔
    ∃ l, L.parent e = some l ∧ L.TakesOver l b o := by
  have hprice : ∀ l, (s.limit l).price = (L.limit l).price := fun l =>
    congrArg LimitData.price (h.limit l)
  simp only [OrderBook.takesOver, h.parent, (h.levels b).keys, h.ordersAt, Except.ok.injEq, hprice,
    Ledger.TakesOver]
  constructor
  · rintro ⟨l, -, -, hl, rfl, rfl, ho, hno⟩
    exact ⟨l, hl, ho, hno⟩
  · rintro ⟨l, hl, ho, hno⟩
    exact ⟨l, _, _, hl, rfl, rfl, ho, hno⟩

/-- The registry of a book, on its ledger. -/
theorem registryComplete_iff (hlisted : ∀ l, ∀ o ∈ L.queue l, ∃ b, l ∈ L.levels b) :
    RegistryComplete s ↔ L.Registered := by
  have hdated : ∀ o, (s.order o).isDated = (L.order o).isDated := fun o =>
    congrArg OrderData.isDated (h.order o)
  have hnd : L.dates.Nodup := h.wf.dates_sorted.nodup L.dateLess_strictWeak
  have hheld : ∀ o, o ∈ L.live ↔ L.Held o := fun o => Ledger.held_iff_of_listed hlisted
  simp only [RegistryComplete, OrderBook.getOrdersWithExperation, h.dates.keys, h.liveOrders,
    Except.ok.injEq, exists_and_left, exists_eq_left', hdated, hheld, hnd, true_and]
  rfl

/-- **One request**: the registry follows it exactly under the condition. -/
theorem registered_step {r : Request} (ht : L.Tracked ids) (hR : L.Registered) :
    (L.step r).1.Registered ↔ s.keepsRegistry r := by
  have hprice := fun o => congrArg OrderData.expireTime (h.order o)
  cases r with
  | add now a =>
    refine (ht.registered_add hR a now (h.stays_iff a)).trans ?_
    simp only [OrderBook.keepsRegistry, h.dates.keys, Except.ok.injEq, forall_eq', h.parks,
      h.evicts_iff, h.fills_iff, hprice]
  | modify a =>
    refine (ht.registered_modify hR a).trans ?_
    simp only [OrderBook.keepsRegistry, h.dates.keys, Except.ok.injEq, forall_eq', h.orders,
      h.evicts_iff, h.takesOver_iff, h.order]
  | cancel id =>
    refine (ht.registered_cancel hR id).trans ?_
    simp only [OrderBook.keepsRegistry, h.dates.keys, Except.ok.injEq, forall_eq', h.orders,
      h.evicts_iff, h.order]
  | checkDate now =>
    refine (ht.registered_checkDate hR now).trans ?_
    simp only [OrderBook.keepsRegistry, h.dates.keys, Except.ok.injEq, forall_eq', h.order]
    rfl

end Refines

/-- **The registry has exactly the live orders with a date throughout a run** exactly if every
request is one that it follows. -/
theorem registry_iff (instrument : String) (marketPrice : ℚ) {rs : List Request}
    (hids : (OrderBook.addedIds rs).Nodup) :
    Throughout OrderBook.step RegistryComplete (.empty instrument marketPrice) rs ↔
      Meets OrderBook.step OrderBook.keepsRegistry (.empty instrument marketPrice) rs := by
  have hL := refines_empty instrument marketPrice
  have ht := Ledger.tracked_empty instrument marketPrice (OrderBook.addedIds rs)
  refine throughout_iff_meets_of_rest (I := fun s rs => ∃ L, Refines s L ∧
    L.Tracked (OrderBook.addedIds rs) ∧ (OrderBook.addedIds rs).Nodup) ?_ ?_ ?_
    ⟨_, hL, ht, hids⟩ ((hL.registryComplete_iff ht.listed).mpr ?_)
  · rintro s r rs ⟨L, h, ht, hnd⟩ hR hc
    obtain ⟨s', hs', h'⟩ := h.step r
    refine ⟨s', _, hs', (h'.registryComplete_iff (ht.listed_step hnd)).mpr ?_⟩
    exact (h.registered_step ht ((h.registryComplete_iff ht.listed).mp hR)).mpr hc
  · rintro s r rs s' answer ⟨L, h, ht, hnd⟩ hR hs' hR'
    obtain ⟨s₁, hs₁, h'⟩ := h.step r
    obtain ⟨rfl, -⟩ : s₁ = s' ∧ (L.step r).2 = answer := by simpa [hs₁] using hs'
    have hreg := (h.registryComplete_iff ht.listed).mp hR
    have hreg' := (h'.registryComplete_iff (ht.listed_step hnd)).mp hR'
    refine ⟨_, h', ht.step hnd ?_, hnd.sublist ((List.sublist_cons_self r rs).filterMap _)⟩
    rintro a e rfl he hcan hful
    exact ((ht.registered_modify hreg a).mp hreg' e he hcan hful).1
  · rintro s r rs s' answer ⟨L, h, ht, hnd⟩ hR hs' hR'
    obtain ⟨s₁, hs₁, h'⟩ := h.step r
    obtain ⟨rfl, -⟩ : s₁ = s' ∧ (L.step r).2 = answer := by simpa [hs₁] using hs'
    exact (h.registered_step ht ((h.registryComplete_iff ht.listed).mp hR)).mp
      ((h'.registryComplete_iff (ht.listed_step hnd)).mp hR')
  · intro o
    simp [Ledger.empty, Ledger.Held]

/-- A bid that is good until the third hour, and is cancelled when it is due. -/
theorem registry_iff_two : Throughout OrderBook.step RegistryComplete (.empty "X" 10)
      [.add 0 { OrderArgs.limit "a" .buy 5 10 .gtd with expireTime := 7200 }, .checkDate 7200] ↔
    Meets OrderBook.step OrderBook.keepsRegistry (.empty "X" 10)
      [.add 0 { OrderArgs.limit "a" .buy 5 10 .gtd with expireTime := 7200 }, .checkDate 7200] :=
  registry_iff "X" 10 (by decide)

/-- An order that is filled stays in the registry. -/
theorem registry_of_filled : ¬ Throughout OrderBook.step RegistryComplete (.empty "X" 10)
    [.add 0 { OrderArgs.limit "a" .buy 5 10 .gtd with expireTime := 7200 },
      .add 0 (OrderArgs.limit "b" .sell 5 10 .gtc)] := by
  intro h
  obtain ⟨s, answers, hrun, dates, live, hdates, hlive, -, hiff⟩ := h _ [] (List.append_nil _).symm
  have hfacts := eq_of_ok_of_map hrun
    (f := fun r => (r.1.getOrdersWithExperation.toOption, r.1.liveOrders.toOption))
    (b := (some [0], some [])) (by decide +kernel)
  simp only [Prod.mk.injEq, hdates, hlive] at hfacts
  have hmem := (hiff 0).mp (by rw [Option.some.inj hfacts.1]; simp)
  rw [Option.some.inj hfacts.2] at hmem
  exact absurd hmem.1 (by simp)

end LimitOrderBook
