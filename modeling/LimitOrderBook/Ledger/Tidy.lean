import LimitOrderBook.Ledger.InPlace

/-!
# Tidy ledgers

Without `modify_order` and without recovered orders, sides and prices are not all that is
in order: no order in a queue asks to be filled at once, none of them is parked, and the
entries of the index lead to orders in queues (`LimitOrderBook.Ledger.Tidy`). Adding, cancelling
and checking dates keep this (`LimitOrderBook.Ledger.Tidy.step`), whatever the
quantities and the flags of the orders are.
-/

namespace LimitOrderBook

open OrderBook (Request)

namespace Ledger

/-- **What holds of a ledger in which no order was ever modified.** -/
structure Tidy (L : Ledger) : Prop where
  wf : L.WellFormed
  disjoint : ∀ l, l ∈ L.levels true → l ∉ L.levels false
  listed : ∀ l o, o ∈ L.queue l → l ∈ L.levels (L.order o).isBuy
  price : ∀ l o, o ∈ L.queue l → (L.order o).price = (L.limit l).price
  stays : ∀ l o, o ∈ L.queue l → (L.order o).hasParam .fok = false
  parked : ∀ b, ∀ o ∈ L.stops b, ∀ l, o ∉ L.queue l
  entry : ∀ id o, L.orders.lookup id = some o → ∃ l, o ∈ L.queue l

theorem tidy_empty (instrument : String) (marketPrice : ℚ) : (empty instrument marketPrice).Tidy :=
  { inPlace_empty instrument marketPrice with
    stays := by simp [empty]
    parked := by simp [empty]
    entry := by simp [empty] }

namespace Tidy

variable {L L' : Ledger} (h : L.Tidy) {o c l : ℕ} {b : Bool}

include h

theorem inPlace : L.InPlace := { h with }

/-- An entry of the index is in the queue of its level. -/
theorem mem_queue_of_entry {id : String} (ho : L.orders.lookup id = some o)
    (hp : L.parent o = some l) : o ∈ L.queue l := by
  obtain ⟨k, hk⟩ := h.entry id o ho
  have hp' := h.wf.queue_parent k o hk
  rw [hp, Option.some.injEq] at hp'
  exact hp' ▸ hk

/-! ### Matching -/

theorem of_frame (hm : MatchFrame L L') (hwf : L'.WellFormed)
    (hentry : ∀ id x, L'.orders.lookup id = some x → ∃ l, x ∈ L'.queue l) : L'.Tidy :=
  { h.inPlace.of_frame hm hwf with
    stays := fun l x hx => by
      rw [hm.hasParam]
      exact h.stays l x ((hm.queue l).mem hx)
    parked := by
      rw [hm.stops]
      exact fun b x hx l hl => h.parked b x hx l ((hm.queue l).mem hl)
    entry := hentry }

theorem displace (c l : ℕ) : (L.displace c l).Tidy := by
  refine h.of_frame (.displace L c l) h.wf.displace fun id x hx => ?_
  have hold := lookup_of_erase hx
  have hne : x ≠ c := by
    rintro rfl
    rw [displace_orders, h.wf.entry_id id x hold, AList.lookup_erase] at hx
    exact absurd hx (by simp)
  obtain ⟨k, hk⟩ := h.entry id x hold
  refine ⟨k, ?_⟩
  rw [displace_queue]
  by_cases hkl : k = l
  · subst hkl
    rw [Function.update_self]
    exact (List.mem_erase_of_ne hne).mpr hk
  · rwa [Function.update_of_ne hkl]

theorem fillOrder {p : ℚ} (hc : c ∈ L.queue l) : (L.fillOrder c o p).Tidy := by
  have hresolve : (L.resolveOrders c o p).Tidy := by
    refine h.of_frame (.resolveOrders L c o p) h.wf.resolveOrders fun id x hx => ?_
    rw [resolveOrders_orders] at hx
    rw [resolveOrders_queue]
    exact h.entry id x hx
  rw [h.wf.fillOrder_eq hc]
  split
  · exact hresolve.displace c l
  · exact hresolve

theorem matchLimits {ls : List ℕ} (ho : ∀ l, o ∉ L.queue l) : (L.matchLimits o ls).1.Tidy :=
  (matchLimits_invariant (J := Tidy) (fun _ _ _ _ _ _ _ hJ hc _ => hJ.fillOrder hc)
    (fun _ _ hJ => { hJ with wf := { hJ.wf with } }) h.wf ho h).1

/-! ### Requests -/

theorem updateData {f : OrderData → OrderData} (hf : ∀ x, (f x).Keeps x)
    (hfok : ∀ l, o ∈ L.queue l → (f (L.order o)).hasParam .fok = (L.order o).hasParam .fok) :
    (L.updateData o f).Tidy := by
  refine { h.inPlace.updateData hf, h with stays := fun l x hx => ?_ }
  by_cases hxo : x = o
  · subst hxo
    rw [updateData_order, Function.update_self, hfok l hx]
    exact h.stays l x hx
  · rw [updateData_order, Function.update_of_ne hxo]
    exact h.stays l x hx

theorem receive (a : OrderArgs) : (L.receive a).Tidy := by
  refine { h.inPlace.receive a, h with stays := fun l x hx => ?_ }
  rw [receive_order (h.wf.queue_lt l x hx) a]
  exact h.stays l x hx

theorem activate (a : OrderArgs) : (L.activate a).Tidy :=
  (h.receive a).updateData .activated fun l hl => absurd hl ((h.wf.fresh_receive a).queue l)

theorem matched (a : OrderArgs) : (L.matched a).1.Tidy :=
  (h.activate a).matchLimits (h.wf.fresh_activate a).queue

theorem parkOrder (hf : L.Fresh o) : (L.parkOrder o).Tidy := by
  have hs := h.inPlace.parkOrder hf
  obtain ⟨dates, hdates⟩ := L.parkOrder_eq o
  rw [hdates] at hs ⊢
  refine { hs, h with parked := fun b x hx l hl => ?_ }
  rcases h.wf.mem_addStopOrder hx with ⟨rfl, -⟩ | hx
  · exact hf.queue l hl
  · exact h.parked b x hx l hl

theorem restOrder (hf : L.Fresh o) (hfok : (L.order o).hasParam .fok = false) :
    (L.restOrder o).Tidy := by
  obtain ⟨l, hl, hprice, horders⟩ := h.wf.restOrder o
  refine
    { h.inPlace.restOrder hf with
      stays := fun x y hy => ?_
      parked := fun b y hy x hx => ?_
      entry := fun id y hy => ?_ }
  · rw [hl.order]
    rcases hl.mem_queue.mp hy with ⟨rfl, rfl⟩ | hy
    · exact hfok
    · exact h.stays x y hy
  · rw [hl.stops] at hy
    rcases hl.mem_queue.mp hx with ⟨rfl, rfl⟩ | hx
    · exact hf.stops b hy
    · exact h.parked b y hy x hx
  · rw [horders] at hy
    by_cases hid : id = (L.order o).id
    · subst hid
      rw [AList.lookup_insert, Option.some.injEq] at hy
      subst hy
      exact ⟨l, hl.mem_queue.mpr (Or.inl ⟨rfl, rfl⟩)⟩
    · rw [AList.lookup_insert_ne hid] at hy
      obtain ⟨x, hx⟩ := h.entry id y hy
      exact ⟨x, hl.mem_queue.mpr (Or.inr hx)⟩

theorem cancel (o : ℕ) : (L.updateData o .cancel).Tidy :=
  h.updateData .cancel fun _ _ => rfl

theorem settle (hf : L.Fresh o) (filled : Bool) : (L.settle o filled).1.Tidy := by
  rw [Ledger.settle]
  split
  · exact h
  · split
    · exact h.cancel o
    · next hfok => exact h.restOrder hf (by simpa using hfok)

theorem cancelOrder (id : String) : (L.cancelOrder id).1.Tidy := by
  rcases h.wf.cancelOrder_cases id with ⟨-, he⟩ | ⟨e, -, -, he⟩ | ⟨e, l, -, -, -, he⟩ <;> rw [he]
  · exact h
  · have hc := h.cancel e
    refine
      { hc with
        wf := { hc.wf.removeStopOrder (o := e) with }
        parked := fun b x hx => hc.parked b x ?_
        entry := fun id x hx => hc.entry id x (lookup_of_erase hx) }
    rw [enqueueOrder_stops, removeStopOrder_stops] at hx
    by_cases hb : b = ((L.updateData e .cancel).order e).isBuy
    · subst hb
      rw [Function.update_self] at hx
      exact ((mem_eraseKey ((L.updateData e .cancel).stopLess_strictWeak _)
        (hc.wf.stops_sorted _)).mp hx).1
    · rwa [Function.update_of_ne hb] at hx
  · have hc := (h.cancel e).displace e l
    exact { hc with wf := { hc.wf with } }

theorem checkDateOrders (now : ℤ) : (L.checkDateOrders now).Tidy :=
  checkDateOrders_rule (J := Tidy) (fun _ _ hJ _ _ => hJ.cancelOrder _)
    (fun _ _ hJ => { hJ with wf := hJ.wf.eraseDate }) h

/-- **Tidiness is kept** by adding, cancelling and checking dates. -/
theorem step {r : Request} (hr : r.keepsOrders = true) : (L.step r).1.Tidy := by
  cases r with
  | add now a =>
    rw [step_add]
    split
    · exact (h.receive a).parkOrder (h.wf.fresh_receive a)
    · exact (h.matched a).settle ((h.wf.fresh_activate a).of_frame (.matchLimits _ _)) _
  | modify a => exact absurd hr (by simp [Request.keepsOrders])
  | cancel id => exact h.cancelOrder id
  | checkDate now => exact h.checkDateOrders now

end Tidy

end Ledger

end LimitOrderBook
