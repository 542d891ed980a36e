import LimitOrderBook.Ledger.Accounted

/-!
# Where dated orders are

What relates the orders that are held to the index, in runs in which orders may also be
modified (`LimitOrderBook.Ledger.Tracked`). A modified order has the id of an old one, and may
take the queue of a level from those that are in it; so sides and prices need not be in order,
and an entry may lead to an order that is held nowhere. But an entry never leads to a parked
order, an order that is held is the only one its id can lead to, and a dated order that is
not a stop order can be cancelled as long as it rests.
-/

namespace LimitOrderBook

open OrderBook (Request)

namespace Ledger

variable {L L' : Ledger} {ids : List String} {o n c e l k : ℕ} {b : Bool} {p : ℚ}

/-- **Where orders are**, if orders with the ids of a list are still to come. -/
structure Tracked (L : Ledger) (ids : List String) : Prop where
  wf : L.WellFormed
  listed : ∀ l, ∀ o ∈ L.queue l, ∃ b, l ∈ L.levels b
  apart : ∀ l, ∀ o ∈ L.queue l, ∀ b, o ∉ L.stops b
  sided : ∀ b, ∀ o ∈ L.stops b, (L.order o).isBuy = b
  entry : ∀ id e, L.orders.lookup id = some e → ∀ b, e ∉ L.stops b
  own : ∀ o, L.Held o → ∀ e, L.orders.lookup (L.order o).id = some e → e = o
  indexed : ∀ l, ∀ o ∈ L.queue l, (L.order o).isDated = true → (L.order o).hasParam .stop = false →
    L.orders.lookup (L.order o).id = some o
  parked : ∀ b, ∀ o ∈ L.stops b, (L.order o).isDated = true → (L.order o).hasParam .stop = true
  fresh : ∀ id ∈ ids, L.orders.lookup id = none ∧ ∀ o, L.Held o → (L.order o).id ≠ id

theorem tracked_empty (instrument : String) (marketPrice : ℚ) (ids : List String) :
    (empty instrument marketPrice).Tracked ids where
  wf := wellFormed_empty instrument marketPrice
  listed := by simp [empty]
  apart := by simp [empty]
  sided := by simp [empty]
  entry := by simp [empty]
  own := by simp [empty, Held]
  indexed := by simp [empty]
  parked := by simp [empty]
  fresh := by simp [empty, Held]

theorem Held.lt (h : L.WellFormed) (ho : L.Held o) : o < L.nextOrder := by
  rcases ho with ⟨l, hl⟩ | ⟨b, hb⟩
  · exact h.queue_lt l o hl
  · exact h.stops_lt b o hb

/-- What is held is live, if no queue of a level that is on no side has an order in it. -/
theorem held_iff_of_listed (hlisted : ∀ l, ∀ o ∈ L.queue l, ∃ b, l ∈ L.levels b) :
    o ∈ L.live ↔ L.Held o := by
  refine ⟨held_of_mem_live, fun ho => mem_live.mpr (ho.imp_left ?_)⟩
  rintro ⟨l, hl⟩
  obtain ⟨b, hb⟩ := hlisted l o hl
  exact ⟨b, mem_resting.mpr ⟨l, hb, hl⟩⟩

theorem WellFormed.not_held_nextOrder (h : L.WellFormed) : ¬ L.Held L.nextOrder := fun hn =>
  lt_irrefl _ (hn.lt h)

theorem isDated_of_hasParam {x y : OrderData} (h : ∀ q, x.hasParam q = y.hasParam q) :
    x.isDated = y.isDated := by
  rw [OrderData.isDated, OrderData.isDated, h, h]

/-- An order that is held stays dated, or not, unless orders are modified. -/
theorem WellFormed.isDated_step (h : L.WellFormed) {r : Request} (hr : r.keepsOrders = true)
    (ho : L.Held o) : ((L.step r).1.order o).isDated = (L.order o).isDated :=
  isDated_of_hasParam fun q => hasParam_step hr (ho.lt h) q

/-- The old orders have kept their ids, sides and flags. -/
def SameFlags (L L' : Ledger) : Prop := ∀ x < L.nextOrder, (L'.order x).id = (L.order x).id ∧
  (L'.order x).isBuy = (L.order x).isBuy ∧ ∀ q, (L'.order x).hasParam q = (L.order x).hasParam q

theorem SameFlags.of_eq (h : L'.order = L.order) : SameFlags L L' := fun _ _ => by simp [h]

theorem MatchFrame.sameFlags (h : MatchFrame L L') : SameFlags L L' := fun x _ =>
  ⟨(h.keeps x).id, (h.keeps x).isBuy, h.hasParam x⟩

theorem sameFlags_cancel (L : Ledger) (o : ℕ) : SameFlags L (L.updateData o .cancel) := by
  intro x _
  refine ⟨(keeps_updateData L o .cancel x).id, (keeps_updateData L o .cancel x).isBuy, fun q => ?_⟩
  by_cases hx : x = o
  · rw [hx, updateData_order, Function.update_self]
    rfl
  · rw [updateData_order, Function.update_of_ne hx]

namespace Tracked

variable (h : L.Tracked ids)

include h

/-- Different orders that are held, one of them with an entry, have different ids. -/
theorem id_ne {id : String} (he : L.orders.lookup id = some e) (ho : L.Held o) (hne : o ≠ e) :
    (L.order o).id ≠ id := by
  rintro rfl
  exact hne (h.own o ho e he).symm

/-! ### Orders leave -/

/-- **Nothing new is held**, and the dated orders that rest keep their entries. -/
theorem shrink (hwf : L'.WellFormed) (hsame : SameFlags L L')
    (hqueue : ∀ l, L'.queue l ⊆ L.queue l) (hlevels : ∀ b, L.levels b ⊆ L'.levels b)
    (hstops : ∀ b, L'.stops b ⊆ L.stops b)
    (hentry : ∀ id e, L'.orders.lookup id = some e → L.orders.lookup id = some e)
    (hkeep : ∀ l, ∀ o ∈ L'.queue l, (L.order o).hasParam .stop = false →
      L.orders.lookup (L.order o).id = some o → L'.orders.lookup (L.order o).id = some o) :
    L'.Tracked ids := by
  have hheld : ∀ o, L'.Held o → L.Held o := fun o =>
    Or.imp (fun ⟨l, hl⟩ => ⟨l, hqueue l hl⟩) fun ⟨b, hb⟩ => ⟨b, hstops b hb⟩
  have hlt : ∀ o, L'.Held o → o < L.nextOrder := fun o ho => (hheld o ho).lt h.wf
  refine ⟨hwf, fun l o ho => ?_, fun l o ho b hb => h.apart l o (hqueue l ho) b (hstops b hb),
    fun b o ho => ?_, fun id e he b hb => h.entry id e (hentry id e he) b (hstops b hb),
    fun o ho e he => ?_, fun l o ho hd hs => ?_, fun b o ho hd => ?_, fun id hid => ⟨?_, ?_⟩⟩
  · obtain ⟨b, hb⟩ := h.listed l o (hqueue l ho)
    exact ⟨b, hlevels b hb⟩
  · rw [(hsame o (h.wf.stops_lt b o (hstops b ho))).2.1]
    exact h.sided b o (hstops b ho)
  · rw [(hsame o (hlt o ho)).1] at he
    exact h.own o (hheld o ho) e (hentry _ e he)
  · have hold := hsame o (h.wf.queue_lt l o (hqueue l ho))
    rw [hold.2.2] at hs
    rw [isDated_of_hasParam hold.2.2] at hd
    rw [hold.1]
    exact hkeep l o ho hs (h.indexed l o (hqueue l ho) hd hs)
  · have hold := hsame o (h.wf.stops_lt b o (hstops b ho))
    rw [isDated_of_hasParam hold.2.2] at hd
    rw [hold.2.2]
    exact h.parked b o (hstops b ho) hd
  · rcases he : L'.orders.lookup id with _ | e
    · rfl
    · exact absurd ((h.fresh id hid).1.symm.trans (hentry id e he)) (by simp)
  · intro o ho
    rw [(hsame o (hlt o ho)).1]
    exact (h.fresh id hid).2 o (hheld o ho)

theorem cancel (o : ℕ) : (L.updateData o .cancel).Tracked ids :=
  h.shrink (h.wf.updateData .cancel) (sameFlags_cancel L o) (fun _ => List.Subset.refl _)
    (fun _ => List.Subset.refl _) (fun _ => List.Subset.refl _) (fun _ _ => id)
    fun _ _ _ _ => id

/-- An order leaves its queue, and the index. -/
theorem displace (he : e ∈ L.queue l ∨ ∃ id, L.orders.lookup id = some e)
    (hp : L.parent e = some l) : (L.displace e l).Tracked ids := by
  have hframe := MatchFrame.displace L e l
  refine h.shrink h.wf.displace hframe.sameFlags (fun l => (hframe.queue l).subset)
    (fun _ => List.Subset.refl _) (fun _ => List.Subset.refl _) hframe.entry
    fun x o ho _ hlook => ?_
  -- the order that is left is another one, so it has another id
  have hold := (hframe.queue x).mem ho
  have hoe : o ≠ e := by
    rintro rfl
    obtain rfl : l = x := Option.some.inj (hp.symm.trans (h.wf.queue_parent x o hold))
    rw [displace_queue, Function.update_self] at ho
    exact (h.wf.queue_nodup l).not_mem_erase ho
  have hid : (L.order o).id ≠ (L.order e).id := by
    rcases he with he | ⟨id, he⟩
    · intro hid
      rw [hid] at hlook
      exact hoe (h.own e (Or.inl ⟨l, he⟩) o hlook)
    · rw [h.wf.entry_id id e he]
      exact h.id_ne he (Or.inl ⟨x, hold⟩) hoe
  rw [displace_orders, AList.lookup_erase_ne hid]
  exact hlook

/-- A parked order with the key of another one leaves, and the entry of a stop order. -/
theorem removeStopOrder {id : String} (hn : (L.order n).id = id)
    (he : L.orders.lookup id = some e) (hstop : (L.order e).hasParam .stop = true) :
    (L.removeStopOrder n).Tracked ids := by
  refine h.shrink h.wf.removeStopOrder (.of_eq rfl) (fun _ => List.Subset.refl _)
    (fun _ => List.Subset.refl _) (fun b x hx => ?_) (fun _ _ => lookup_of_erase)
    fun l o ho hs hlook => ?_
  · rw [removeStopOrder_stops] at hx
    by_cases hb : b = (L.order n).isBuy
    · subst hb
      rw [Function.update_self] at hx
      exact ((mem_eraseKey (L.stopLess_strictWeak _) (h.wf.stops_sorted _)).mp hx).1
    · rwa [Function.update_of_ne hb] at hx
  · have hid : (L.order o).id ≠ (L.order n).id := by
      rw [hn]
      rintro rfl
      obtain rfl := Option.some.inj (hlook.symm.trans he)
      exact absurd (hs.symm.trans hstop) (by simp)
    rw [removeStopOrder_orders, AList.lookup_erase_ne hid]
    exact hlook

theorem fillOrder (hc : c ∈ L.queue l) : (L.fillOrder c o p).Tracked ids := by
  have hframe := MatchFrame.resolveOrders L c o p
  have hresolve : (L.resolveOrders c o p).Tracked ids :=
    h.shrink h.wf.resolveOrders hframe.sameFlags (fun l => (hframe.queue l).subset)
      (fun b => by rw [hframe.levels]; exact List.Subset.refl _)
      (fun b => by rw [hframe.stops]; exact List.Subset.refl _) hframe.entry fun _ _ _ _ hlook => by
        rwa [resolveOrders_orders]
  rw [h.wf.fillOrder_eq hc]
  split
  · have hc' : c ∈ (L.resolveOrders c o p).queue l := by rwa [resolveOrders_queue]
    exact hresolve.displace (Or.inl hc') (hresolve.wf.queue_parent l c hc')
  · exact hresolve

theorem matchLimits {ls : List ℕ} (ho : ∀ l, o ∉ L.queue l) :
    (L.matchLimits o ls).1.Tracked ids :=
  (matchLimits_invariant (J := fun L => L.Tracked ids)
    (fun _ _ _ _ _ _ _ hJ hc _ => hJ.fillOrder hc)
    (fun _ _ hJ => { hJ with wf := { hJ.wf with } }) h.wf ho h).1

theorem eraseDate (o : ℕ) : (L.eraseDate o).Tracked ids := { h with wf := h.wf.eraseDate }

theorem cancelOrder (id : String) : (L.cancelOrder id).1.Tracked ids := by
  rcases h.wf.cancelOrder_cases id with ⟨-, he⟩ | ⟨e, hlook, hs, he⟩ | ⟨e, l, hlook, -, hp, he⟩ <;>
    rw [he]
  · exact h
  · have hsame := sameFlags_cancel L e e (h.wf.entry_lt id e hlook)
    have hc := (h.cancel e).removeStopOrder (hsame.1.trans (h.wf.entry_id id e hlook)) hlook
      (hsame.2.2 .stop ▸ hs)
    exact { hc with wf := { hc.wf with } }
  · have hc := (h.cancel e).displace (l := l) (Or.inr ⟨id, hlook⟩) hp
    exact { hc with wf := { hc.wf with } }

theorem checkDateOrders (now : ℤ) : (L.checkDateOrders now).Tracked ids :=
  checkDateOrders_rule (J := fun L => L.Tracked ids) (fun _ _ hJ _ _ => hJ.cancelOrder _)
    (fun _ o hJ => hJ.eraseDate o) h

/-! ### Orders come -/

/-- A new object changes nothing. -/
theorem receive (a : OrderArgs) : (L.receive a).Tracked ids :=
  h.shrink (h.wf.receive a) (fun x hx => by simp [receive_order hx a])
    (fun _ => List.Subset.refl _) (fun _ => List.Subset.refl _) (fun _ => List.Subset.refl _)
    (fun _ _ => id) fun _ _ _ _ => id

theorem activate (a : OrderArgs) : (L.activate a).Tracked ids :=
  h.shrink (h.wf.activate a) (fun x hx => by simp [activate_order hx a])
    (fun _ => List.Subset.refl _) (fun _ => List.Subset.refl _) (fun _ => List.Subset.refl _)
    (fun _ _ => id) fun _ _ _ _ => id

/-- **A new order gets into a queue**, with an entry of its own or without one. -/
theorem place {ids' : List String} (hf : L.Fresh n) (hwf : L'.WellFormed)
    (horder : L'.order = L.order)
    (hqueue : ∀ l, ∀ o ∈ L'.queue l, o ∈ L.queue l ∨ o = n ∧ ∃ b, l ∈ L'.levels b)
    (hlevels : ∀ b, L.levels b ⊆ L'.levels b) (hstops : L'.stops = L.stops)
    (hnone : L.orders.lookup (L.order n).id = none)
    (hold : ∀ id, id ≠ (L.order n).id → L'.orders.lookup id = L.orders.lookup id)
    (hnew : L'.orders.lookup (L.order n).id = none ∧ (L.order n).isDated = false ∨
      L'.orders.lookup (L.order n).id = some n ∧ ∀ o, L.Held o → (L.order o).id ≠ (L.order n).id)
    (hids : ids' ⊆ ids) (hnid : (L.order n).id ∉ ids') : L'.Tracked ids' := by
  have hheld : ∀ o, L'.Held o → L.Held o ∨ o = n := by
    rintro o (⟨l, hl⟩ | ⟨b, hb⟩)
    · exact (hqueue l o hl).imp (fun ho => Or.inl ⟨l, ho⟩) And.left
    · exact Or.inl (Or.inr ⟨b, hstops ▸ hb⟩)
  have hlook : ∀ id e, L'.orders.lookup id = some e →
      L.orders.lookup id = some e ∨ e = n ∧ id = (L.order n).id := by
    intro id e he
    by_cases hid : id = (L.order n).id
    · subst hid
      rcases hnew with ⟨hno, -⟩ | ⟨hn, -⟩
      · exact absurd (hno.symm.trans he) (by simp)
      · exact Or.inr ⟨Option.some.inj (he.symm.trans hn), rfl⟩
    · exact Or.inl ((hold id hid).symm.trans he)
  refine ⟨hwf, fun l o ho => ?_, fun l o ho b hb => ?_, ?_, fun id e he b hb => ?_,
    fun o ho e he => ?_, fun l o ho hd hs => ?_, ?_, fun id hid => ⟨?_, fun o ho => ?_⟩⟩
  · rcases hqueue l o ho with ho | ⟨-, hl⟩
    · obtain ⟨b, hb⟩ := h.listed l o ho
      exact ⟨b, hlevels b hb⟩
    · exact hl
  · rw [hstops] at hb
    rcases hqueue l o ho with ho | ⟨rfl, -⟩
    · exact h.apart l o ho b hb
    · exact hf.stops b hb
  · rw [hstops, horder]
    exact h.sided
  · rw [hstops] at hb
    rcases hlook id e he with he | ⟨rfl, -⟩
    · exact h.entry id e he b hb
    · exact hf.stops b hb
  · rw [horder] at he
    rcases hlook _ e he with hle | ⟨rfl, hid⟩
    · rcases hheld o ho with ho | rfl
      · exact h.own o ho e hle
      · exact absurd (hnone.symm.trans hle) (by simp)
    · rcases hheld o ho with ho | rfl
      · rw [hid] at he
        rcases hnew with ⟨hno, -⟩ | ⟨-, hne⟩
        · exact absurd (hno.symm.trans he) (by simp)
        · exact absurd hid (hne o ho)
      · rfl
  · rw [horder] at hd hs ⊢
    rcases hqueue l o ho with ho | ⟨rfl, -⟩
    · have hentry := h.indexed l o ho hd hs
      rw [hold, hentry]
      intro hid
      rw [hid, hnone] at hentry
      exact absurd hentry (by simp)
    · rcases hnew with ⟨-, hno⟩ | ⟨hn, -⟩
      · exact absurd (hno.symm.trans hd) (by simp)
      · exact hn
  · rw [hstops, horder]
    exact h.parked
  · rw [hold id fun he => hnid (he ▸ hid)]
    exact (h.fresh id (hids hid)).1
  · rw [horder]
    rcases hheld o ho with ho | rfl
    · exact (h.fresh id (hids hid)).2 o ho
    · exact fun he => hnid (he ▸ hid)

/-- **A new order is parked.** -/
theorem park {ids' : List String} (hf : L.Fresh n) (hwf : L'.WellFormed)
    (horder : L'.order = L.order) (hqueue : L'.queue = L.queue) (hlevels : L'.levels = L.levels)
    (hstops : ∀ b, ∀ o ∈ L'.stops b, o ∈ L.stops b ∨ o = n ∧ b = (L.order n).isBuy)
    (horders : L'.orders = L.orders) (hnone : L.orders.lookup (L.order n).id = none)
    (hstop : (L.order n).isDated = true → (L.order n).hasParam .stop = true)
    (hids : ids' ⊆ ids) (hnid : (L.order n).id ∉ ids') : L'.Tracked ids' := by
  have hheld : ∀ o, L'.Held o → L.Held o ∨ o = n := by
    rintro o (⟨l, hl⟩ | ⟨b, hb⟩)
    · exact Or.inl (Or.inl ⟨l, hqueue ▸ hl⟩)
    · exact (hstops b o hb).imp (fun ho => Or.inr ⟨b, ho⟩) And.left
  refine ⟨hwf, ?_, fun l o ho b hb => ?_, fun b o ho => ?_, fun id e he b hb => ?_,
    fun o ho e he => ?_, ?_, fun b o ho hd => ?_, fun id hid => ⟨?_, fun o ho => ?_⟩⟩
  · rw [hqueue, hlevels]
    exact h.listed
  · rw [hqueue] at ho
    rcases hstops b o hb with hb | ⟨rfl, -⟩
    · exact h.apart l o ho b hb
    · exact hf.queue l ho
  · rw [horder]
    rcases hstops b o ho with ho | ⟨rfl, rfl⟩
    · exact h.sided b o ho
    · rfl
  · rw [horders] at he
    rcases hstops b e hb with hb | ⟨rfl, -⟩
    · exact h.entry id e he b hb
    · exact hf.entry id he
  · rw [horder, horders] at he
    rcases hheld o ho with ho | rfl
    · exact h.own o ho e he
    · exact absurd (hnone.symm.trans he) (by simp)
  · rw [hqueue, horder, horders]
    exact h.indexed
  · rw [horder] at hd ⊢
    rcases hstops b o ho with ho | ⟨rfl, -⟩
    · exact h.parked b o ho hd
    · exact hstop hd
  · rw [horders]
    exact (h.fresh id (hids hid)).1
  · rw [horder]
    rcases hheld o ho with ho | rfl
    · exact (h.fresh id (hids hid)).2 o ho
    · exact fun he => hnid (he ▸ hid)

theorem mono {ids' : List String} (hids : ids' ⊆ ids) : L.Tracked ids' :=
  { h with fresh := fun id hid => h.fresh id (hids hid) }

end Tracked

/-- Where `add_limit_order` puts an order there is a level of its side. -/
theorem WellFormed.mem_queue_addLimitOrder (h : L.WellFormed)
    (ho : o ∈ (L.addLimitOrder n k b).queue l) :
    o ∈ L.queue l ∨ o = n ∧ l ∈ (L.addLimitOrder n k b).levels b := by
  have hless := L.limitLess_strictWeak b
  rw [Ledger.addLimitOrder] at ho ⊢
  split at ho
  · next x hx =>
    rw [place_queue] at ho
    by_cases hl : l = x
    · subst hl
      rw [Function.update_self, List.mem_append, List.mem_singleton] at ho
      refine ho.imp_right fun he => ⟨he, ?_⟩
      exact ((findKey_eq_some hless (h.levels_sorted b)).mp hx).1
    · rw [Function.update_of_ne hl] at ho
      exact Or.inl ho
  · next hx =>
    rw [place_queue] at ho
    by_cases hl : l = k
    · subst hl
      rw [Function.update_self, List.mem_singleton] at ho
      refine Or.inr ⟨ho, ?_⟩
      rw [place_levels, openLevel_levels, Function.update_self]
      exact (mem_insertKey hless (h.levels_sorted b)).mpr (Or.inl rfl)
    · rw [Function.update_of_ne hl] at ho
      exact Or.inl ho

/-- No level leaves its side when an order is added. -/
theorem WellFormed.levels_addLimitOrder (h : L.WellFormed) (c : Bool) :
    L.levels c ⊆ (L.addLimitOrder n k b).levels c := by
  have hless := L.limitLess_strictWeak b
  rw [Ledger.addLimitOrder]
  split
  · exact List.Subset.refl _
  · next hx =>
    rw [place_levels, openLevel_levels]
    by_cases hc : c = b
    · subst hc
      rw [Function.update_self]
      exact fun l hl => (mem_insertKey hless (h.levels_sorted c)).mpr
        (Or.inr ⟨hl, (findKey_eq_none hless (h.levels_sorted c)).mp hx l hl⟩)
    · rw [Function.update_of_ne hc]
      exact List.Subset.refl _

namespace Tracked

/-! ### Requests -/

/-- **A new order** has the first of the ids that are to come. -/
theorem add {a : OrderArgs} (h : L.Tracked (a.id :: ids)) (hnd : a.id ∉ ids) (now : ℤ) :
    (L.step (.add now a)).1.Tracked ids := by
  have hids : ids ⊆ a.id :: ids := fun _ => List.mem_cons_of_mem _
  have hnone := (h.fresh a.id (by simp)).1
  have hreceive := h.receive a
  have hf := h.wf.fresh_receive a
  rw [step_add]
  split
  · next hpark =>
    have hwf := hf.wellFormed_parkOrder hreceive.wf
    obtain ⟨dates, hdates⟩ := (L.receive a).parkOrder_eq L.nextOrder
    rw [hdates] at hwf ⊢
    have hid : ((L.receive a).order L.nextOrder).id = a.id := by
      rw [receive_order_new]
      rfl
    rw [isParked, Bool.and_eq_true] at hpark
    exact hreceive.park hf hwf rfl rfl rfl
      (fun b x hx => (hreceive.wf.mem_addStopOrder hx).symm) rfl (hid ▸ hnone)
      (fun _ => hpark.1) hids (hid ▸ hnd)
  · have hframe : MatchFrame (L.activate a) (L.matched a).1 := .matchLimits _ _
    have hm : (L.matched a).1.Tracked (a.id :: ids) :=
      (h.activate a).matchLimits (h.wf.fresh_activate a).queue
    have hfm := (h.wf.fresh_activate a).of_frame hframe
    have hid : ((L.matched a).1.order L.nextOrder).id = a.id := by
      rw [(hframe.keeps _).id, activate_order_new, OrderData.activated_id]
      rfl
    have hnone' : (L.matched a).1.orders.lookup a.id = none := by
      rcases he : (L.matched a).1.orders.lookup a.id with _ | e
      · rfl
      · exact absurd (hnone.symm.trans (hframe.entry _ _ he)) (by simp)
    rw [Ledger.settle]
    split
    · exact hm.mono hids
    · split
      · exact (hm.cancel L.nextOrder).mono hids
      · obtain ⟨l, hl, -, horders⟩ := hm.wf.restOrder L.nextOrder
        rw [hid] at horders
        refine hm.place hfm (hfm.wellFormed_restOrder hm.wf) hl.order (fun x o ho => ?_)
          (fun b x hx => (hl.levels b x).mpr (Or.inr hx)) hl.stops (hid ▸ hnone')
          (fun id hne => ?_) (Or.inr ⟨?_, fun o ho => ?_⟩) hids (hid ▸ hnd)
        · rcases hl.mem_queue.mp ho with ⟨rfl, rfl⟩ | ho
          · exact Or.inr ⟨rfl, _, hl.mem⟩
          · exact Or.inl ho
        · rw [horders, AList.lookup_insert_ne (hid ▸ hne)]
        · rw [horders, hid, AList.lookup_insert]
        · rw [hid]
          exact (hm.fresh a.id (by simp)).2 o ho

/-- The part of `modify_order` that takes the old order out and puts the new one in, if that
has no date. -/
theorem replaceOrder (h : L.Tracked ids) (hf : L.Fresh n)
    (he : L.orders.lookup (L.order n).id = some e) (hdated : (L.order n).isDated = false) :
    (L.replaceOrder e n).Tracked ids := by
  have hnid : (L.order n).id ∉ ids := fun hid =>
    absurd ((h.fresh _ hid).1.symm.trans he) (by simp)
  have herase : (L.orders.erase (L.order n).id).lookup (L.order n).id = none :=
    AList.lookup_erase _ _
  rw [Ledger.replaceOrder]
  split
  · next hstop =>
    have hr := h.removeStopOrder (n := n) rfl he hstop
    have hfr : (L.removeStopOrder n).Fresh n :=
      { hf with
        stops := fun b hb => by
          rw [removeStopOrder_stops] at hb
          by_cases hc : b = (L.order n).isBuy
          · subst hc
            rw [Function.update_self] at hb
            exact hf.stops _
              ((mem_eraseKey (L.stopLess_strictWeak _) (h.wf.stops_sorted _)).mp hb).1
          · rw [Function.update_of_ne hc] at hb
            exact hf.stops b hb
        entry := fun id hid => hf.entry id (lookup_of_erase hid) }
    exact hr.park hfr (hr.wf.addStopOrder hf.lt) rfl rfl rfl
      (fun b x hx => (hr.wf.mem_addStopOrder hx).symm) rfl herase
      (fun hd => absurd (hdated.symm.trans hd) (by simp)) (List.Subset.refl ids) hnid
  · obtain ⟨l, hl⟩ := h.wf.entry_parent _ e he
    have heid : (L.order e).id = (L.order n).id := h.wf.entry_id _ e he
    rw [hl]
    dsimp only
    rw [removeLimitOrder, hl]
    dsimp only
    have hd := h.displace (Or.inr ⟨_, he⟩) hl
    have hframe := MatchFrame.displace L e l
    have hfd := hf.of_frame hframe
    have hwf := hd.wf.addLimitOrder (b := (L.order n).isBuy) hfd.lt (h.wf.parent_lt e l hl)
      hfd.queue
    obtain ⟨horder, -, -, -, -, hstops, -, horders⟩ :=
      addLimitOrder_frame (L.displace e l) n l (L.order n).isBuy
    have hnone : (L.displace e l).orders.lookup ((L.displace e l).order n).id = none := by
      rw [displace_orders, heid]
      exact herase
    refine hd.place hfd hwf horder (fun x o ho => ?_) hd.wf.levels_addLimitOrder hstops hnone
      (fun id _ => by rw [horders]) (Or.inl ⟨by rw [horders, hnone], hdated⟩)
      (List.Subset.refl ids) hnid
    obtain hx | ⟨he, hx⟩ := hd.wf.mem_queue_addLimitOrder ho
    · exact Or.inl hx
    · exact Or.inr ⟨he, _, hx⟩

/-- **A modified order**, if it has no date. -/
theorem modifyOrder (h : L.Tracked ids) (hf : L.Fresh n)
    (hdated : ∀ e, L.orders.lookup (L.order n).id = some e → (L.order e).cancelled = false →
      (L.order e).isFullfilled = false → (L.order n).isDated = false) :
    (L.modifyOrder n).1.Tracked ids := by
  rcases L.modifyOrder_cases n with ⟨-, heq⟩ | ⟨e, he, hcan, hful, heq⟩ <;> rw [heq]
  · exact h
  · have hne : n ≠ e := by
      rintro rfl
      exact hf.entry _ he
    have hn : (L.updateData e .cancel).order n = L.order n := by simp [hne]
    have hr := (h.cancel e).replaceOrder (e := e) { hf with } (hn ▸ he)
      (hn ▸ hdated e he hcan hful)
    exact { hr with wf := { hr.wf with } }

/-- **Every request**, if a modified order has no date. -/
theorem step {r : Request} {rs : List Request} (h : L.Tracked (OrderBook.addedIds (r :: rs)))
    (hnd : (OrderBook.addedIds (r :: rs)).Nodup)
    (hdated : ∀ a e, r = .modify a → L.orders.lookup a.id = some e → (L.order e).cancelled = false →
      (L.order e).isFullfilled = false → a.toData.isDated = false) :
    (L.step r).1.Tracked (OrderBook.addedIds rs) := by
  cases r with
  | add now a => exact h.add (List.nodup_cons.mp hnd).1 now
  | modify a =>
    have halloc : (L.allocOrder a.toData).Tracked (OrderBook.addedIds rs) :=
      { h.receive a with wf := { (h.receive a).wf with } }
    have hnew := L.allocOrder_order_new a.toData
    refine halloc.modifyOrder { h.wf.fresh_receive a with } fun e he hcan hful => ?_
    rw [hnew] at he ⊢
    rw [allocOrder_order_old (h.wf.entry_lt _ e he)] at hcan hful
    exact hdated a e rfl he hcan hful
  | cancel id => exact h.cancelOrder id
  | checkDate now => exact h.checkDateOrders now

/-- Every request that modifies nothing, with the ids that are still to come. -/
theorem step_next {r : Request} {rs : List Request} (hr : r.keepsOrders = true)
    (h : L.Tracked (OrderBook.addedIds (r :: rs)) ∧ (OrderBook.addedIds (r :: rs)).Nodup) :
    (L.step r).1.Tracked (OrderBook.addedIds rs) ∧ (OrderBook.addedIds rs).Nodup := by
  refine ⟨h.1.step h.2 ?_, ?_⟩
  · rintro a e rfl
    exact absurd hr (by simp [Request.keepsOrders])
  · cases r with
    | add now a => exact (List.nodup_cons.mp h.2).2
    | _ => exact h.2

end Tracked

end Ledger

end LimitOrderBook
