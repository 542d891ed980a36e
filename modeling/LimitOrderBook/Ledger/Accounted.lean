import LimitOrderBook.Ledger.Outgoing
import LimitOrderBook.Ledger.Recovered

/-!
# Orders and ids

`modify_order` puts a new order with the id of an old one into the book, and a store that is
keyed by ids cannot tell the two apart. What keeps them apart is their age: among the orders
with an id that the repository knows of – recovered ones, and those that have been handed to
it – the youngest stands for the id (`LimitOrderBook.Ledger.Stands`). Only such orders are in
queues, parked or in the index, and those in queues and the parked ones are neither cancelled
nor filled (`LimitOrderBook.Ledger.Accounted`).

Adding keeps this when the id is new and the quantity positive, cancelling and modifying when
they find no stop order in the index.
-/

namespace LimitOrderBook

open OrderBook (Request)

namespace Ledger

variable {recovered : ℕ} {L L' : Ledger} {o n l : ℕ} {b : Bool}

/-- The order is in a queue, or parked. -/
def Held (L : Ledger) (o : ℕ) : Prop := (∃ l, o ∈ L.queue l) ∨ ∃ b, o ∈ L.stops b

theorem held_of_mem_live (h : o ∈ L.live) : L.Held o := by
  refine (mem_live.mp h).imp_left ?_
  rintro ⟨b, hb⟩
  obtain ⟨l, -, hl⟩ := mem_resting.mp hb
  exact ⟨l, hl⟩

/-- The order was recovered, or has been handed to the repository. -/
def Known (recovered : ℕ) (L : Ledger) (o : ℕ) : Prop := o < recovered ∨ o ∈ L.orderQueue

/-- **The order stands for its id**: it is the youngest of those with this id. -/
structure Stands (recovered : ℕ) (L : Ledger) (o : ℕ) : Prop where
  known : Known recovered L o
  youngest : ∀ p, Known recovered L p → (L.order p).id = (L.order o).id → p ≤ o

/-- **Whatever is in the book stands for its id.** The first `recovered` orders are those of
the constructor. -/
structure Accounted (recovered : ℕ) (L : Ledger) : Prop where
  wf : L.WellFormed
  le : recovered ≤ L.nextOrder
  handed : ∀ o ∈ L.orderQueue, recovered ≤ o ∧ o < L.nextOrder
  ascending : L.orderQueue.Pairwise fun o p => (L.order o).id = (L.order p).id → o ≤ p
  apart : ∀ l b o, o ∈ L.queue l → o ∉ L.stops b
  parked : ∀ b, ∀ o ∈ L.stops b, (L.order o).hasParam .stop = true
  stands : ∀ o, L.Held o → Stands recovered L o
  alive : ∀ o, L.Held o → (L.order o).cancelled = false ∧ L.qty o ≠ 0
  entry : ∀ id e, L.orders.lookup id = some e → Stands recovered L e ∧ e ∈ L.orderQueue

theorem Stands.eq_of_id (h : Stands recovered L o) (h' : Stands recovered L n)
    (hid : (L.order o).id = (L.order n).id) : o = n :=
  le_antisymm (h'.youngest o h.known hid) (h.youngest n h'.known hid.symm)

/-- Nothing but the new order gets into a queue. -/
theorem mem_queue_addLimitOrder {limit x : ℕ} (hx : x ∈ (L.addLimitOrder n limit b).queue l) :
    x = n ∨ x ∈ L.queue l := by
  rw [Ledger.addLimitOrder] at hx
  split at hx
  · next k _ =>
    rw [place_queue] at hx
    by_cases hl : l = k
    · subst hl
      rw [Function.update_self, List.mem_append, List.mem_singleton] at hx
      exact hx.symm
    · rw [Function.update_of_ne hl] at hx
      exact Or.inr hx
  · rw [place_queue] at hx
    by_cases hl : l = limit
    · subst hl
      rw [Function.update_self, List.mem_singleton] at hx
      exact Or.inl hx
    · rw [Function.update_of_ne hl] at hx
      exact Or.inr hx

theorem replaceOrder_orderQueue (L : Ledger) (e n : ℕ) :
    (L.replaceOrder e n).orderQueue = L.orderQueue := by
  rw [replaceOrder]
  split
  · rfl
  · split
    · rfl
    · rw [addLimitOrder_orderQueue, removeLimitOrder]
      split <;> rfl

theorem addLimitOrder_enqueueOrder (L : Ledger) (n limit : ℕ) (b : Bool) :
    (L.addLimitOrder n limit b).enqueueOrder n = (L.enqueueOrder n).addLimitOrder n limit b := by
  have hless : (L.enqueueOrder n).limitLess b = L.limitLess b := rfl
  rw [Ledger.addLimitOrder, Ledger.addLimitOrder, hless, enqueueOrder_levels]
  split <;> rfl

/-- As long as matching says that the order is not filled, something is left of it. -/
theorem qty_matchLimits_ne {ls : List ℕ} (ho : L.qty o ≠ 0) (hf : (L.matchLimits o ls).2 = false) :
    (L.matchLimits o ls).1.qty o ≠ 0 := by
  rcases matchLimits_rule (o := o) (P := fun L _ => L.qty o ≠ 0) (Q := fun _ => True)
    (fun _ _ _ hP _ => hP) (fun _ _ _ _ _ _ _ _ => trivial) (fun _ _ _ _ _ _ _ hne => hne)
    L ls ho with ⟨ht, -⟩ | ⟨-, _, hne, -⟩
  · exact absurd ht (by simp [hf])
  · exact hne

/-- What stands for an id is told from the ids and the queue. -/
theorem Stands.congr (h : Stands recovered L o) (hid : ∀ x, (L'.order x).id = (L.order x).id)
    (hq : L'.orderQueue = L.orderQueue) : Stands recovered L' o where
  known := by
    rw [Known, hq]
    exact h.known
  youngest := fun p hp he => by
    rw [Known, hq] at hp
    rw [hid, hid] at he
    exact h.youngest p hp he

namespace Accounted

variable (h : Accounted recovered L)

include h

theorem known_lt (ho : Known recovered L o) : o < L.nextOrder :=
  ho.elim (fun ho => ho.trans_le h.le) fun ho => (h.handed o ho).2

/-! ### What leaves the ledger accounted for -/

/-- Orders that are held keep their marks and quantities, and nothing new is held. -/
theorem of_held (hwf : L'.WellFormed) (hn : L'.nextOrder = L.nextOrder)
    (hq : L'.orderQueue = L.orderQueue) (hkeep : ∀ x, (L'.order x).Keeps (L.order x))
    (hqueue : ∀ l x, x ∈ L'.queue l → x ∈ L.queue l) (hstops : ∀ b, L'.stops b = L.stops b)
    (hparam : ∀ b, ∀ x ∈ L.stops b, (L'.order x).hasParam .stop = (L.order x).hasParam .stop)
    (halive : ∀ x, L'.Held x → (L'.order x).cancelled = (L.order x).cancelled ∧ L'.qty x ≠ 0)
    (hentry : ∀ id x, L'.orders.lookup id = some x → L.orders.lookup id = some x) :
    Accounted recovered L' := by
  have hid : ∀ x, (L'.order x).id = (L.order x).id := fun x => (hkeep x).id
  have hheld : ∀ x, L'.Held x → L.Held x := by
    rintro x (⟨l, hl⟩ | ⟨b, hb⟩)
    · exact Or.inl ⟨l, hqueue l x hl⟩
    · rw [hstops] at hb
      exact Or.inr ⟨b, hb⟩
  refine
    { wf := hwf
      le := hn ▸ h.le
      handed := by
        rw [hq, hn]
        exact h.handed
      ascending := by
        rw [hq]
        refine h.ascending.imp fun {x y} hxy he => hxy ?_
        rwa [hid, hid] at he
      apart := fun l b x hx => by
        rw [hstops]
        exact h.apart l b x (hqueue l x hx)
      parked := fun b x hx => by
        rw [hstops] at hx
        rw [hparam b x hx]
        exact h.parked b x hx
      stands := fun x hx => (h.stands x (hheld x hx)).congr hid hq
      alive := fun x hx => ⟨?_, (halive x hx).2⟩
      entry := fun id e he => ?_ }
  · rw [(halive x hx).1]
    exact (h.alive x (hheld x hx)).1
  · obtain ⟨hstands, hmem⟩ := h.entry id e (hentry id e he)
    exact ⟨hstands.congr hid hq, hq ▸ hmem⟩

/-- An order that is nowhere in the book can change. -/
theorem updateData (hf : L.Fresh o) {f : OrderData → OrderData} (hkeep : ∀ x, (f x).Keeps x) :
    Accounted recovered (L.updateData o f) := by
  have hold : ∀ x, x ≠ o → (L.updateData o f).order x = L.order x := fun x hx =>
    Function.update_of_ne hx _ _
  have hne : ∀ x, L.Held x → x ≠ o := by
    rintro x (⟨l, hl⟩ | ⟨b, hb⟩) rfl
    · exact hf.queue l hl
    · exact hf.stops b hb
  refine h.of_held (h.wf.updateData hkeep) rfl rfl (L.keeps_updateData o hkeep)
    (fun _ _ => id) (fun _ => rfl) (fun b x hx => ?_) (fun x hx => ?_) fun _ _ => id
  · rw [hold x (hne x (Or.inr ⟨b, hx⟩))]
  · rw [qty, hold x (hne x hx)]
    exact ⟨rfl, (h.alive x hx).2⟩

/-- Trading with an order of a queue. -/
theorem fillOrder {c : ℕ} {p : ℚ} (hf : L.Fresh o) (hc : c ∈ L.queue l) :
    Accounted recovered (L.fillOrder c o p) := by
  have hframe := MatchFrame.fillOrder L c o p
  have hco : c ≠ o := by
    rintro rfl
    exact hf.queue l hc
  have hqty := h.wf.qty_fillOrder (p := p) hc hco
  obtain ⟨xs, ys, hq⟩ := List.append_of_mem hc
  refine h.of_held h.wf.fillOrder hframe.nextOrder hframe.orderQueue hframe.keeps
    (fun k x hx => (hframe.queue k).mem hx) (fun b => congrFun hframe.stops b)
    (fun b x _ => hframe.hasParam x _) (fun x hx => ⟨?_, ?_⟩) hframe.entry
  · rw [hframe.order x]
    rfl
  · have hxo : x ≠ o := by
      rintro rfl
      rcases hx with ⟨k, hk⟩ | ⟨b, hb⟩
      · exact hf.queue k ((hframe.queue k).mem hk)
      · rw [hframe.stops] at hb
        exact hf.stops b hb
    rw [hqty, if_neg hxo]
    by_cases hxc : x = c
    · -- what is filled has left its queue, and a parked order is in none
      subst hxc
      rw [if_pos rfl]
      intro hzero
      have hqueue := h.wf.queue_fillOrder (p := p) hco hq
      rw [if_pos (sub_eq_zero.mp hzero)] at hqueue
      rcases hx with ⟨k, hk⟩ | ⟨b, hb⟩
      · obtain rfl : k = l := h.wf.queue_unique hc ((hframe.queue k).mem hk)
        rw [hqueue, Function.update_self] at hk
        have hnd := h.wf.queue_nodup k
        rw [hq] at hnd
        exact (List.nodup_middle.mp hnd).notMem hk
      · rw [hframe.stops] at hb
        exact h.apart l b x hc hb
    · rw [if_neg hxc]
      refine (h.alive x (hx.imp ?_ ?_)).2
      · rintro ⟨k, hk⟩
        exact ⟨k, (hframe.queue k).mem hk⟩
      · rintro ⟨b, hb⟩
        rw [hframe.stops] at hb
        exact ⟨b, hb⟩

theorem setMarketPrice (p : ℚ) : Accounted recovered (L.setMarketPrice p) :=
  h.of_held { h.wf with } rfl rfl (fun _ => .refl _) (fun _ _ => id) (fun _ => rfl)
    (fun _ _ _ => rfl) (fun x hx => ⟨rfl, (h.alive x hx).2⟩) fun _ _ => id

theorem matchLimits (hf : L.Fresh o) (ls : List ℕ) :
    Accounted recovered (L.matchLimits o ls).1 := by
  refine (matchLimits_invariant (J := fun L' => Accounted recovered L' ∧ L'.Fresh o)
    (fun L' l c p _ _ _ hJ hc _ => ?_) (fun L' p hJ => ?_) h.wf hf.queue ⟨h, hf⟩).1.1
  · exact ⟨hJ.1.fillOrder hJ.2 hc, hJ.2.of_frame (.fillOrder L' c o p)⟩
  · exact ⟨hJ.1.setMarketPrice p, hJ.2.of_frame (.setMarketPrice L' p)⟩

/-- An order that is in the index, but not a stop order, is marked and taken out. -/
theorem displace {id : String} {e : ℕ} (he : L.orders.lookup id = some e)
    (hstop : (L.order e).hasParam .stop = false) (hp : L.parent e = some l) :
    Accounted recovered ((L.updateData e .cancel).displace e l) ∧
      ¬ ((L.updateData e .cancel).displace e l).Held e := by
  have hwf := h.wf.updateData (o := e) (f := .cancel) .cancel
  have hold : ∀ x, x ≠ e → (L.updateData e .cancel).order x = L.order x := fun x hx =>
    Function.update_of_ne hx _ _
  have hqueue : ∀ k x, x ∈ ((L.updateData e .cancel).displace e l).queue k →
      x ∈ L.queue k ∧ x ≠ e := by
    intro k x hx
    by_cases hmem : e ∈ L.queue l
    · exact (hwf.mem_queue_displace hmem).mp hx
    · have hx' : x ∈ L.queue k := ((MatchFrame.displace (L.updateData e .cancel) e l).queue k).mem hx
      refine ⟨hx', ?_⟩
      rintro rfl
      have hparent := h.wf.queue_parent k x hx'
      rw [hp, Option.some.injEq] at hparent
      exact hmem (hparent ▸ hx')
  have hstops : ∀ b, ∀ x ∈ L.stops b, x ≠ e := by
    rintro b x hx rfl
    exact absurd (h.parked b x hx) (by simp [hstop])
  refine ⟨h.of_held hwf.displace rfl rfl (L.keeps_updateData e .cancel)
    (fun k x hx => (hqueue k x hx).1) (fun _ => rfl) (fun b x hx => ?_) (fun x hx => ?_)
    fun _ _ => lookup_of_erase, ?_⟩
  · exact congrArg (OrderData.hasParam · .stop) (hold x (hstops b x hx))
  · have hheld : L.Held x ∧ x ≠ e := by
      rcases hx with ⟨k, hk⟩ | ⟨b, hb⟩
      · exact ⟨Or.inl ⟨k, (hqueue k x hk).1⟩, (hqueue k x hk).2⟩
      · exact ⟨Or.inr ⟨b, hb⟩, hstops b x hb⟩
    have horder : ((L.updateData e .cancel).displace e l).order x = L.order x := hold x hheld.2
    rw [qty, horder]
    exact ⟨rfl, (h.alive x hheld.1).2⟩
  · rintro (⟨k, hk⟩ | ⟨b, hb⟩)
    · exact (hqueue k e hk).2 rfl
    · exact hstops b e hb rfl

/-! ### Handing over -/

/-- An order that stands for its id is handed over again. -/
theorem enqueueOrder (ho : Stands recovered L o) (hmem : o ∈ L.orderQueue) :
    Accounted recovered (L.enqueueOrder o) := by
  have hknown : ∀ x, Known recovered (L.enqueueOrder o) x ↔ Known recovered L x := by
    intro x
    rw [Known, Known, enqueueOrder_orderQueue, List.mem_append, List.mem_singleton]
    refine or_congr_right ⟨?_, Or.inl⟩
    rintro (hx | rfl)
    · exact hx
    · exact hmem
  have hstands : ∀ x, Stands recovered L x → Stands recovered (L.enqueueOrder o) x := fun x hx =>
    ⟨(hknown x).mpr hx.known, fun p hp => hx.youngest p ((hknown p).mp hp)⟩
  refine
    { h with
      wf := { h.wf with }
      handed := fun x hx => ?_
      ascending := ?_
      stands := fun x hx => hstands x (h.stands x hx)
      entry := fun id e he => ?_ }
  · rcases List.mem_append.mp hx with hx | hx
    · exact h.handed x hx
    · exact List.mem_singleton.mp hx ▸ h.handed o hmem
  · refine List.pairwise_append.mpr ⟨h.ascending, List.pairwise_singleton _ _, fun x hx y hy => ?_⟩
    rw [List.mem_singleton.mp hy]
    exact ho.youngest x (Or.inr hx)
  · obtain ⟨he', hmem'⟩ := h.entry id e he
    exact ⟨hstands e he', List.mem_append.mpr (Or.inl hmem')⟩

/-- An order that is younger than those that are known is handed over, when nothing in the book
has its id. -/
theorem enqueueNew (hn : n < L.nextOrder) (hnew : ∀ x, Known recovered L x → x < n)
    (hle : recovered ≤ n) (hheld : ∀ x, L.Held x → (L.order x).id ≠ (L.order n).id)
    (hentry : ∀ id e, L.orders.lookup id = some e → (L.order e).id ≠ (L.order n).id) :
    Accounted recovered (L.enqueueOrder n) ∧ Stands recovered (L.enqueueOrder n) n := by
  have hknown : ∀ x, Known recovered (L.enqueueOrder n) x → Known recovered L x ∨ x = n := by
    rintro x (hx | hx)
    · exact Or.inl (Or.inl hx)
    · exact (List.mem_append.mp hx).imp Or.inr List.mem_singleton.mp
  have hstands : ∀ x, Stands recovered L x → (L.order x).id ≠ (L.order n).id →
      Stands recovered (L.enqueueOrder n) x := by
    refine fun x hx hid => ⟨hx.known.imp_right fun hx => List.mem_append.mpr (Or.inl hx), ?_⟩
    intro p hp he
    rcases hknown p hp with hp | rfl
    · exact hx.youngest p hp he
    · exact absurd he.symm hid
  refine ⟨
    { h with
      wf := { h.wf with }
      handed := fun x hx => ?_
      ascending := ?_
      stands := fun x hx => hstands x (h.stands x hx) (hheld x hx)
      entry := fun id e he => ?_ }, Or.inr (by simp), fun p hp _ => ?_⟩
  · rcases List.mem_append.mp hx with hx | hx
    · exact h.handed x hx
    · obtain rfl := List.mem_singleton.mp hx
      exact ⟨hle, hn⟩
  · refine List.pairwise_append.mpr ⟨h.ascending, List.pairwise_singleton _ _, fun x hx y hy _ => ?_⟩
    rw [List.mem_singleton.mp hy]
    exact (hnew x (Or.inr hx)).le
  · obtain ⟨he', hmem⟩ := h.entry id e he
    exact ⟨hstands e he' (hentry id e he), List.mem_append.mpr (Or.inl hmem)⟩
  · exact (hknown p hp).elim (fun hp => (hnew p hp).le) fun hp => hp.le

/-! ### New orders -/

theorem allocOrder (x : OrderData) : Accounted recovered (L.allocOrder x) := by
  have hold : ∀ y, y < L.nextOrder → (L.allocOrder x).order y = L.order y := fun y hy =>
    Function.update_of_ne (ne_of_lt hy) _ _
  have hheld : ∀ y, L.Held y → y < L.nextOrder := by
    rintro y (⟨l, hl⟩ | ⟨b, hb⟩)
    · exact h.wf.queue_lt l y hl
    · exact h.wf.stops_lt b y hb
  have hstands : ∀ y, Stands recovered L y → Stands recovered (L.allocOrder x) y := by
    refine fun y hy => ⟨hy.known, fun p hp he => ?_⟩
    rw [hold p (h.known_lt hp), hold y (h.known_lt hy.known)] at he
    exact hy.youngest p hp he
  refine
    { wf := h.wf.allocOrder x
      le := h.le.trans (Nat.le_succ _)
      handed := fun y hy => ⟨(h.handed y hy).1, Nat.lt_succ_of_lt (h.handed y hy).2⟩
      ascending := ?_
      apart := h.apart
      parked := fun b y hy => ?_
      stands := fun y hy => hstands y (h.stands y hy)
      alive := fun y hy => ?_
      entry := fun id e he => ⟨hstands e (h.entry id e he).1, (h.entry id e he).2⟩ }
  · refine h.ascending.imp_of_mem fun {y z} hy hz hyz he => hyz ?_
    rwa [hold y (h.handed y hy).2, hold z (h.handed z hz).2] at he
  · rw [hold y (h.wf.stops_lt b y hy)]
    exact h.parked b y hy
  · rw [qty, hold y (hheld y hy)]
    exact h.alive y hy

/-- A new order comes to rest. -/
theorem addLimitOrder (hf : L.Fresh n) (hstands : Stands recovered L n)
    (halive : (L.order n).cancelled = false ∧ L.qty n ≠ 0) {limit : ℕ}
    (hwf : (L.addLimitOrder n limit b).WellFormed) :
    Accounted recovered (L.addLimitOrder n limit b) := by
  have hqueue : ∀ l x, x ∈ (L.addLimitOrder n limit b).queue l → x = n ∨ x ∈ L.queue l :=
    fun l x => mem_queue_addLimitOrder
  obtain ⟨horder, hnext, -, -, -, hstops, -, horders⟩ := addLimitOrder_frame L n limit b
  have hq := addLimitOrder_orderQueue L n limit b
  obtain ⟨L', hL'⟩ : ∃ L', L' = L.addLimitOrder n limit b := ⟨_, rfl⟩
  rw [← hL'] at hwf hqueue horder hnext hstops horders hq ⊢
  have hid : ∀ x, (L'.order x).id = (L.order x).id := fun x => by rw [horder]
  have hheld : ∀ x, L'.Held x → x = n ∨ L.Held x := by
    rintro x (⟨l, hl⟩ | ⟨b, hb⟩)
    · exact (hqueue l x hl).imp_right fun hl => Or.inl ⟨l, hl⟩
    · rw [hstops] at hb
      exact Or.inr (Or.inr ⟨b, hb⟩)
  refine
    { wf := hwf
      le := hnext ▸ h.le
      handed := by
        rw [hq, hnext]
        exact h.handed
      ascending := by
        rw [hq, horder]
        exact h.ascending
      apart := fun l b x hx => ?_
      parked := by
        rw [hstops, horder]
        exact h.parked
      stands := fun x hx => ?_
      alive := fun x hx => ?_
      entry := fun id e he => ?_ }
  · rw [hstops]
    rcases hqueue l x hx with rfl | hx
    · exact hf.stops b
    · exact h.apart l b x hx
  · rcases hheld x hx with rfl | hx
    · exact hstands.congr hid hq
    · exact (h.stands x hx).congr hid hq
  · rw [qty, horder]
    rcases hheld x hx with rfl | hx
    · exact halive
    · exact h.alive x hx
  · rw [horders] at he
    rw [hq]
    exact (h.entry id e he).imp_left fun he => he.congr hid hq

theorem insertEntry (hwf : (L.insertEntry n).WellFormed) (hstands : Stands recovered L n)
    (hmem : n ∈ L.orderQueue) : Accounted recovered (L.insertEntry n) := by
  have hcongr : ∀ x, Stands recovered L x → Stands recovered (L.insertEntry n) x := fun x hx =>
    hx.congr (fun _ => rfl) rfl
  refine { h with
    wf := hwf
    stands := fun x hx => hcongr x (h.stands x hx)
    entry := fun id e he => ?_ }
  rw [insertEntry_orders] at he
  by_cases hid : id = (L.order n).id
  · rw [hid, AList.lookup_insert, Option.some.injEq] at he
    exact he ▸ ⟨hcongr n hstands, hmem⟩
  · rw [AList.lookup_insert_ne hid] at he
    exact (h.entry id e he).imp_left (hcongr e)

theorem addDateOrder (hn : n < L.nextOrder) : Accounted recovered (L.addDateOrder n) := by
  have hwf := h.wf.addDateOrder hn
  obtain ⟨dates, hdates⟩ := addDateOrder_frame L n
  rw [hdates] at hwf ⊢
  have hcongr : ∀ x, Stands recovered L x → Stands recovered (L.setDates dates) x := fun x hx =>
    hx.congr (fun _ => rfl) rfl
  exact { h with
    wf := hwf
    stands := fun x hx => hcongr x (h.stands x hx)
    entry := fun id e he => (h.entry id e he).imp_left (hcongr e) }

theorem allocLimit (p : ℚ) : Accounted recovered (L.allocLimit p) := by
  have hqueue : ∀ k x, x ∈ (L.allocLimit p).queue k → x ∈ L.queue k := by
    intro k x hx
    by_cases hk : k = L.nextLimit
    · simp [hk] at hx
    · rwa [allocLimit_queue, Function.update_of_ne hk] at hx
  refine h.of_held (h.wf.allocLimit p) rfl rfl (fun _ => .refl _) hqueue (fun _ => rfl)
    (fun _ _ _ => rfl) (fun x hx => ⟨rfl, (h.alive x (hx.imp_left ?_)).2⟩) fun _ _ => id
  rintro ⟨k, hk⟩
  exact ⟨k, hqueue k x hk⟩

theorem restOrder (hf : L.Fresh n) (hstands : Stands recovered L n) (hmem : n ∈ L.orderQueue)
    (halive : (L.order n).cancelled = false ∧ L.qty n ≠ 0) :
    Accounted recovered (L.restOrder n) := by
  have hf' : (L.allocLimit (L.order n).price).Fresh n := by
    refine { hf with queue := fun k hk => ?_ }
    by_cases hn : k = L.nextLimit
    · simp [hn] at hk
    · rw [allocLimit_queue, Function.update_of_ne hn] at hk
      exact hf.queue k hk
  have hwf := h.wf.addLimitOrder_fresh hf.lt hf.queue (L.order n).price (L.order n).isBuy
  have hacc := (h.allocLimit (L.order n).price).addLimitOrder hf' (hstands.congr (fun _ => rfl) rfl)
    halive hwf
  obtain ⟨k, hk⟩ := mem_addLimitOrder (L.allocLimit (L.order n).price) n L.nextLimit
    (L.order n).isBuy
  have hlt := hwf.queue_lt k n hk
  have hqueue := addLimitOrder_orderQueue (L.allocLimit (L.order n).price) n L.nextLimit
    (L.order n).isBuy
  obtain ⟨horder, -⟩ := addLimitOrder_frame (L.allocLimit (L.order n).price) n L.nextLimit
    (L.order n).isBuy
  refine (hacc.insertEntry (hwf.insertEntry hlt ⟨k, hwf.queue_parent k n hk⟩)
    (hstands.congr (fun x => ?_) hqueue) ?_).addDateOrder hlt
  · rw [horder, allocLimit_order]
  · rw [hqueue]
    exact hmem

theorem parkOrder (hf : L.Fresh n) (hstands : Stands recovered L n)
    (halive : (L.order n).cancelled = false ∧ L.qty n ≠ 0)
    (hstop : (L.order n).hasParam .stop = true) : Accounted recovered (L.parkOrder n) := by
  have hmem : ∀ b x, x ∈ (L.addStopOrder n (L.order n).isBuy).stops b → x = n ∨ x ∈ L.stops b :=
    fun b x hx => (h.wf.mem_addStopOrder hx).imp_left And.left
  have hheld : ∀ x, (L.addStopOrder n (L.order n).isBuy).Held x → x = n ∨ L.Held x := by
    rintro x (hx | ⟨b, hb⟩)
    · exact Or.inr (Or.inl hx)
    · exact (hmem b x hb).imp_right fun hb => Or.inr ⟨b, hb⟩
  have hcongr : ∀ x, Stands recovered L x →
      Stands recovered (L.addStopOrder n (L.order n).isBuy) x := fun x hx =>
    hx.congr (fun _ => rfl) rfl
  refine addDateOrder { h with
    wf := h.wf.addStopOrder hf.lt
    apart := fun l b x hx hs => ?_
    parked := fun b x hx => ?_
    stands := fun x hx => ?_
    alive := fun x hx => ?_
    entry := fun id e he => (h.entry id e he).imp_left (hcongr e) } hf.lt
  · rcases hmem b x hs with rfl | hs
    · exact hf.queue l hx
    · exact h.apart l b x hx hs
  · rcases hmem b x hx with rfl | hx
    · exact hstop
    · exact h.parked b x hx
  · rcases hheld x hx with rfl | hx
    · exact hcongr x hstands
    · exact hcongr x (h.stands x hx)
  · rcases hheld x hx with rfl | hx
    · exact halive
    · exact h.alive x hx

/-! ### Calls -/

/-- A new order is handed over, and nothing has been done with it yet. -/
theorem receive {a : OrderArgs} (hid : ∀ x, Known recovered L x → (L.order x).id ≠ a.id) :
    Accounted recovered (L.receive a) ∧ Stands recovered (L.receive a) L.nextOrder := by
  have hnew : (L.allocOrder a.toData).order L.nextOrder = a.toData := Function.update_self _ _ _
  have hids : ∀ x, Known recovered L x →
      ((L.allocOrder a.toData).order x).id ≠ ((L.allocOrder a.toData).order L.nextOrder).id := by
    intro x hx
    rw [hnew, allocOrder_order, Function.update_of_ne (ne_of_lt (h.known_lt hx))]
    exact hid x hx
  have h₁ := h.allocOrder a.toData
  exact h₁.enqueueNew (Nat.lt_succ_self _) (fun x hx => h.known_lt hx) h.le
    (fun x hx => hids x (h₁.stands x hx).known) fun id e he => hids e (h₁.entry id e he).1.known

/-- **Adding** an order with a new id and a positive quantity. -/
theorem add {a : OrderArgs} (now : ℤ) (hqty : 0 < a.qty)
    (hid : ∀ x, Known recovered L x → (L.order x).id ≠ a.id) :
    Accounted recovered (L.step (.add now a)).1 := by
  obtain ⟨hreceive, hstands⟩ := h.receive hid
  have hfresh := h.wf.fresh_receive a
  have hmem : L.nextOrder ∈ (L.receive a).orderQueue := by simp [Ledger.receive]
  rw [step_add]
  split
  · next hpark =>
    refine hreceive.parkOrder hfresh hstands ?_ (Bool.and_eq_true _ _ ▸ hpark).1
    rw [qty, receive_order_new]
    exact ⟨rfl, hqty.ne'⟩
  · have hframe : MatchFrame (L.activate a) (L.matched a).1 := .matchLimits _ _
    have hactivate : Accounted recovered (L.activate a) := hreceive.updateData hfresh .activated
    have hmatched : Accounted recovered (L.matched a).1 :=
      hactivate.matchLimits (h.wf.fresh_activate a) _
    have hfresh' := (h.wf.fresh_activate a).of_frame hframe
    rw [Ledger.settle]
    split
    · exact hmatched
    · next hfilled =>
      split
      · exact hmatched.updateData hfresh' .cancel
      · refine hmatched.restOrder hfresh' (hstands.congr (fun x => ?_) hframe.orderQueue) ?_ ⟨?_, ?_⟩
        · rw [(hframe.keeps x).id]
          exact ((L.receive a).keeps_updateData L.nextOrder .activated x).id
        · rw [hframe.orderQueue]
          exact hmem
        · rw [hframe.order, activate_order_new]
          exact OrderData.activated_cancelled _
        · refine qty_matchLimits_ne ?_ (Bool.eq_false_iff.mpr hfilled)
          rw [qty, activate_order_new, OrderData.activated_currentQty]
          exact hqty.ne'

/-- **Cancelling** an order that is not a stop order. -/
theorem cancelOrder {id : String}
    (hstop : ∀ e, L.orders.lookup id = some e → (L.order e).hasParam .stop = false) :
    Accounted recovered (L.cancelOrder id).1 := by
  rcases h.wf.cancelOrder_cases id with ⟨-, hc⟩ | ⟨e, he, hs, -⟩ | ⟨e, l, he, -, hp, hc⟩
  · rw [hc]
    exact h
  · exact absurd hs (by simp [hstop e he])
  · rw [hc]
    obtain ⟨hstands, hmem⟩ := h.entry id e he
    refine (h.displace he (hstop e he) hp).1.enqueueOrder (hstands.congr (fun x => ?_) rfl) hmem
    exact (L.keeps_updateData e .cancel x).id

/-- A new order takes the place of the one that the index has for its id. -/
theorem replaceOrder {e : ℕ} (hf : L.Fresh n) (hnew : ∀ x, Known recovered L x → x < n)
    (hle : recovered ≤ n) (halive : (L.order n).cancelled = false ∧ L.qty n ≠ 0)
    (he : L.orders.lookup (L.order n).id = some e) (hstop : (L.order e).hasParam .stop = false) :
    Accounted recovered (((L.updateData e .cancel).replaceOrder e n).enqueueOrder n) := by
  obtain ⟨hstands, hmem⟩ := h.entry _ e he
  have hen : n ≠ e := (hnew e hstands.known).ne'
  obtain ⟨l, hp⟩ := h.wf.entry_parent _ e he
  have hreplace : (L.updateData e .cancel).replaceOrder e n =
      ((L.updateData e .cancel).displace e l).addLimitOrder n l
        ((L.updateData e .cancel).order n).isBuy := by
    have hs : ((L.updateData e .cancel).order e).hasParam .stop = false := by
      rw [updateData_order, Function.update_self]
      exact hstop
    have hp' : (L.updateData e .cancel).parent e = some l := hp
    rw [Ledger.replaceOrder, hs, if_neg (by simp), hp', removeLimitOrder, hp']
  obtain ⟨hdisplace, hgone⟩ := h.displace he hstop hp
  have hmarked : (L.updateData e .cancel).Fresh n := { hf with }
  have hfresh := hmarked.of_frame (.displace _ e l)
  have hdata : ((L.updateData e .cancel).displace e l).order n = L.order n :=
    Function.update_of_ne hen _ _
  have hid : ∀ x, (((L.updateData e .cancel).displace e l).order x).id = (L.order x).id :=
    fun x => (L.keeps_updateData e .cancel x).id
  have hide : (L.order e).id = (L.order n).id := h.wf.entry_id _ e he
  rw [hreplace, addLimitOrder_enqueueOrder]
  -- the old order is gone, so nothing that is left has the id of the new one
  obtain ⟨hacc, hstands'⟩ := hdisplace.enqueueNew hfresh.lt hnew hle
    (fun x hx hxn => by
      have hx' : x = e := (hdisplace.stands x hx).eq_of_id (hstands.congr hid rfl)
        (hxn.trans (by rw [hid, hid, hide]))
      exact hgone (hx' ▸ hx))
    (fun id x hx hxn => by
      rw [hdata, hdisplace.wf.entry_id id x hx] at hxn
      have herase : ((L.updateData e .cancel).displace e l).orders = L.orders.erase (L.order e).id := by
        rw [← hid e]
        rfl
      rw [hxn, ← hide, herase, AList.lookup_erase] at hx
      exact absurd hx (by simp))
  refine hacc.addLimitOrder { hfresh with } hstands' ?_
    (hacc.wf.addLimitOrder hfresh.lt (h.wf.parent_lt e l hp) hfresh.queue)
  have hdata' : (((L.updateData e .cancel).displace e l).enqueueOrder n).order n = L.order n := hdata
  rw [qty, hdata']
  exact halive

/-- **Modifying** to a quantity other than zero an order that is not a stop order. -/
theorem modify {a : OrderArgs} (hentry : ∀ e, L.orders.lookup a.id = some e →
      (L.order e).hasParam .stop = false ∧ a.qty ≠ 0) :
    Accounted recovered (L.step (.modify a)).1 := by
  have h₁ := h.allocOrder a.toData
  have hnew := L.allocOrder_order_new a.toData
  rcases h.wf.step_modify_cases a with ⟨-, heq⟩ | ⟨e, l, he, -, -, -, heq⟩ <;> rw [heq]
  · exact h₁
  · obtain ⟨hs, hqty⟩ := hentry e he
    refine h₁.replaceOrder { h.wf.fresh_receive a with } (fun x hx => h.known_lt hx) h.le ?_ ?_ ?_
    · rw [qty, hnew]
      exact ⟨rfl, hqty⟩
    · rw [hnew]
      exact he
    · rw [allocOrder_order_old (h.wf.entry_lt _ e he)]
      exact hs

/-- **The ids that are known after a call** were known before, or are that of the new order. -/
theorem known_step {r : Request} (hr : ∀ now, r ≠ .checkDate now)
    (ho : Known recovered (L.step r).1 o) :
    (∃ p, Known recovered L p ∧ (L.order p).id = ((L.step r).1.order o).id) ∨
      ∃ a, r.newOrder = some a ∧ ((L.step r).1.order o).id = a.id := by
  have hold : ∀ L' : Ledger, (∀ x < L.nextOrder, (L'.order x).Keeps (L.order x)) →
      Known recovered L o → (L.order o).id = (L'.order o).id := fun L' hkeep ho =>
    (hkeep o (h.known_lt ho)).id.symm
  cases r with
  | add now a =>
    have hf := h.wf.stepFrame (r := .add now a) rfl
    rw [Known, step_add_orderQueue, List.mem_append, List.mem_singleton, ← or_assoc] at ho
    rcases ho with ho | rfl
    · exact Or.inl ⟨o, ho, hold _ hf.keeps ho⟩
    · exact Or.inr ⟨a, rfl, (hf.new a rfl).id⟩
  | modify a =>
    have hnew := L.allocOrder_order_new a.toData
    have hstill : Still (L.allocOrder a.toData) (L.step (.modify a)).1 :=
      .modifyOrder (L.allocOrder a.toData) L.nextOrder
    have hkeep : ∀ x < L.nextOrder, ((L.step (.modify a)).1.order x).Keeps (L.order x) := by
      intro x hx
      have hx' := hstill.keeps x
      rwa [allocOrder_order_old hx] at hx'
    have hqueue : o ∈ (L.step (.modify a)).1.orderQueue → o ∈ L.orderQueue ∨
        o = L.nextOrder ∧ ∃ e, L.orders.lookup a.id = some e := by
      intro hmem
      rcases h.wf.step_modify_cases a with ⟨-, heq⟩ | ⟨e, l, he, -, -, -, heq⟩ <;> rw [heq] at hmem
      · exact Or.inl hmem
      · rw [enqueueOrder_orderQueue, replaceOrder_orderQueue, List.mem_append,
          List.mem_singleton] at hmem
        exact hmem.imp_right fun hmem => ⟨hmem, e, he⟩
    have hcase : Known recovered L o ∨ o = L.nextOrder ∧ ∃ e, L.orders.lookup a.id = some e := by
      rcases ho with ho | ho
      · exact Or.inl (Or.inl ho)
      · exact (hqueue ho).imp_left Or.inr
    rcases hcase with ho | ⟨rfl, e, he⟩
    · exact Or.inl ⟨o, ho, hold _ hkeep ho⟩
    · refine Or.inl ⟨e, (h.entry a.id e he).1.known, ?_⟩
      rw [(hstill.keeps L.nextOrder).id, hnew, h.wf.entry_id a.id e he]
      rfl
  | cancel id =>
    have hkeep := (Still.cancelOrder L id).keeps
    have hknown : Known recovered L o := by
      refine ho.imp_right fun ho => ?_
      change o ∈ (L.cancelOrder id).1.orderQueue at ho
      rw [cancelOrder_orderQueue, List.mem_append, Option.mem_toList] at ho
      exact ho.elim (fun ho => ho) fun ho => (h.entry id o ho).2
    exact Or.inl ⟨o, hknown, hold _ (fun x _ => hkeep x) hknown⟩
  | checkDate now => exact absurd rfl (hr now)

end Accounted

/-- The ledgers of the constructor, over records with different ids that are neither cancelled
nor filled. -/
theorem Recovered.accounted {rs : List OrderData} (h : L.Recovered rs)
    (hids : ∀ o p : ℕ, ∀ x y : OrderData, rs[o]? = some x → rs[p]? = some y → x.id = y.id → o = p)
    (halive : ∀ x ∈ rs, x.cancelled = false ∧ x.isFullfilled = false)
    (hqueue : L.orderQueue = []) : Accounted rs.length L := by
  have hknown : ∀ o, Known rs.length L o ↔ o < rs.length := by
    intro o
    rw [Known, hqueue]
    simp
  have hheld : ∀ o, L.Held o → ∃ x, rs[o]? = some x := by
    rintro o (ho | ⟨b, hb⟩)
    · obtain ⟨x, hx, -⟩ := (h.queue o).mp ho
      exact ⟨x, hx⟩
    · obtain ⟨x, hx, -⟩ := (h.stops b o).mp hb
      exact ⟨x, hx.entry⟩
  refine
    { wf := h.inPlace.wf
      le := h.nextOrder.ge
      handed := by simp [hqueue]
      ascending := by simp [hqueue]
      apart := fun l b o hl hb => ?_
      parked := fun b o ho => ?_
      stands := fun o ho => ⟨?_, fun p hp he => ?_⟩
      alive := fun o ho => ?_
      entry := by simp [h.orders] }
  · obtain ⟨x, hx, hs⟩ := (h.queue o).mp ⟨l, hl⟩
    obtain ⟨y, hy, -⟩ := (h.stops b o).mp hb
    rw [hy.entry, Option.some.injEq] at hx
    exact absurd hy.stop (by simp [hx, hs])
  · obtain ⟨x, hx, -⟩ := (h.stops b o).mp ho
    rw [h.order o x hx.entry]
    exact hx.stop
  · obtain ⟨x, hx⟩ := hheld o ho
    exact (hknown o).mpr (List.getElem?_eq_some_iff.mp hx).1
  · obtain ⟨x, hx⟩ := hheld o ho
    have hy := List.getElem?_eq_getElem ((hknown p).mp hp)
    rw [h.order p _ hy, h.order o x hx] at he
    exact (hids o p x _ hx hy he.symm).ge
  · obtain ⟨x, hx⟩ := hheld o ho
    obtain ⟨hc, hf⟩ := halive x (List.mem_of_getElem? hx)
    rw [qty, h.order o x hx]
    exact ⟨hc, by simpa [OrderData.isFullfilled] using hf⟩

end Ledger

end LimitOrderBook
