import LimitOrderBook.Ledger.Tidy

/-!
# The index

`_orders` should have one entry for each live order. Only `add_order` enters orders
into it, and only those that come to rest: parked, recovered and modified orders are
missing, and a stop order that rests loses its entry without leaving its queue when
it is cancelled. Where none of these happens the index is complete
(`LimitOrderBook.index_complete`).
-/

namespace LimitOrderBook

open OrderBook (Request)

/-- **The index has exactly one entry for each live order**, so that each of them can
be cancelled and the size of the book is their number. -/
structure IndexComplete (s : OrderBook) (live : List ℕ) : Prop where
  entries : ∀ id o, s.orders.lookup id = some o ↔ o ∈ live ∧ (s.order o).id = id
  cancels : ∀ o ∈ live, ∃ s', s.cancelOrder (s.order o).id = .ok (s', .cancelled)
  size : s.size = live.length

/-- The condition on a request: it parks nothing, it modifies nothing, and it cancels
no stop order. -/
def OrderBook.keepsIndex (s : OrderBook) (r : Request) : Prop :=
  s.parksNothing r ∧ s.modifiesNothing r ∧ s.cancelsNoStop r

namespace Ledger

/-- Nothing is parked, and every resting order has its entry. -/
structure Indexed (L : Ledger) : Prop where
  tidy : L.Tidy
  stops : ∀ b, L.stops b = []
  indexed : ∀ l, ∀ o ∈ L.queue l, L.orders.lookup (L.order o).id = some o

namespace Indexed

variable {L : Ledger} (h : L.Indexed) {o c l : ℕ}

include h

theorem mem_live_iff : o ∈ L.live ↔ ∃ l, o ∈ L.queue l := by
  rw [mem_live]
  constructor
  · rintro (⟨b, hb⟩ | ⟨b, hb⟩)
    · exact (h.tidy.inPlace.mem_resting_iff.mp hb).2
    · rw [h.stops] at hb
      exact absurd hb (by simp)
  · exact fun hl => Or.inl ⟨_, h.tidy.inPlace.mem_resting_iff.mpr ⟨rfl, hl⟩⟩

theorem lookup_iff {id : String} :
    L.orders.lookup id = some o ↔ o ∈ L.live ∧ (L.order o).id = id := by
  rw [h.mem_live_iff]
  constructor
  · exact fun ho => ⟨h.tidy.entry id o ho, h.tidy.wf.entry_id id o ho⟩
  · rintro ⟨⟨l, hl⟩, rfl⟩
    exact h.indexed l o hl

theorem live_nodup : L.live.Nodup := by
  rw [live, h.stops, h.stops, List.append_nil, List.append_nil]
  refine List.Nodup.append h.tidy.wf.resting_nodup h.tidy.wf.resting_nodup fun x hx hx' => ?_
  have h₁ := (h.tidy.inPlace.mem_resting_iff.mp hx).1
  rw [(h.tidy.inPlace.mem_resting_iff.mp hx').1] at h₁
  exact absurd h₁ (by simp)

/-- The index has as many entries as there are live orders. -/
theorem keys_length : L.orders.keys.length = L.live.length := by
  have hinj : (L.live.map fun o => (L.order o).id).Nodup := by
    refine h.live_nodup.map_on fun x hx y hy hxy => ?_
    have h₁ := h.lookup_iff.mpr ⟨hx, rfl⟩
    have h₂ := h.lookup_iff.mpr ⟨hy, hxy.symm⟩
    exact Option.some.inj (h₁.symm.trans h₂)
  have hmem : ∀ id, id ∈ L.orders.keys ↔ id ∈ L.live.map fun o => (L.order o).id := by
    intro id
    rw [← AList.mem_keys, ← AList.lookup_isSome, Option.isSome_iff_exists, List.mem_map]
    exact exists_congr fun o => h.lookup_iff
  have hnd : L.orders.keys.Nodup := L.orders.nodupKeys
  have hperm := (List.perm_ext_iff_of_nodup hnd hinj).mpr hmem
  rw [hperm.length_eq, List.length_map]

/-! ### Requests -/

theorem displace (e l : ℕ) (he : e ∈ L.queue l) : (L.displace e l).Indexed := by
  refine ⟨h.tidy.displace e l, h.stops, fun x y hy => ?_⟩
  obtain ⟨hy', hye⟩ := (h.tidy.wf.mem_queue_displace he).mp hy
  have hid : (L.order y).id ≠ (L.order e).id := fun hid => by
    have h₁ := h.indexed x y hy'
    rw [hid, h.indexed l e he, Option.some.injEq] at h₁
    exact hye h₁.symm
  rw [displace_order, displace_orders, AList.lookup_erase_ne hid]
  exact h.indexed x y hy'

theorem fillOrder {p : ℚ} (hc : c ∈ L.queue l) : (L.fillOrder c o p).Indexed := by
  have hframe := MatchFrame.resolveOrders L c o p
  have hresolve : (L.resolveOrders c o p).Indexed := by
    refine ⟨?_, by rw [hframe.stops]; exact h.stops, fun x y hy => ?_⟩
    · refine h.tidy.of_frame hframe h.tidy.wf.resolveOrders fun id x hx => ?_
      rw [resolveOrders_orders] at hx
      rw [resolveOrders_queue]
      exact h.tidy.entry id x hx
    · rw [resolveOrders_queue] at hy
      rw [resolveOrders_orders, (hframe.keeps y).id]
      exact h.indexed x y hy
  rw [h.tidy.wf.fillOrder_eq hc]
  split
  · refine hresolve.displace c l ?_
    rw [resolveOrders_queue]
    exact hc
  · exact hresolve

theorem matchLimits {ls : List ℕ} (ho : ∀ l, o ∉ L.queue l) : (L.matchLimits o ls).1.Indexed :=
  (matchLimits_invariant (J := Indexed) (fun _ _ _ _ _ _ _ hJ hc _ => hJ.fillOrder hc)
    (fun _ _ hJ => { hJ with tidy := { hJ.tidy with wf := { hJ.tidy.wf with } } }) h.tidy.wf ho h).1

theorem cancel (o : ℕ) : (L.updateData o .cancel).Indexed := by
  refine ⟨h.tidy.cancel o, h.stops, fun x y hy => ?_⟩
  rw [(keeps_updateData L o .cancel y).id]
  exact h.indexed x y hy

theorem activate (a : OrderArgs) : (L.activate a).Indexed := by
  refine ⟨h.tidy.activate a, h.stops, fun x y hy => ?_⟩
  rw [activate_order (h.tidy.wf.queue_lt x y hy)]
  exact h.indexed x y hy

/-- A new order comes to rest; no resting order has its id. -/
theorem restOrder (hf : L.Fresh o) (hfok : (L.order o).hasParam .fok = false)
    (hid : ∀ l, ∀ x ∈ L.queue l, (L.order x).id ≠ (L.order o).id) : (L.restOrder o).Indexed := by
  obtain ⟨l, hl, -, horders⟩ := h.tidy.wf.restOrder o
  refine ⟨h.tidy.restOrder hf hfok, by rw [hl.stops]; exact h.stops, fun x y hy => ?_⟩
  rw [horders, hl.order]
  rcases hl.mem_queue.mp hy with ⟨rfl, -⟩ | hy
  · exact AList.lookup_insert _
  · rw [AList.lookup_insert_ne (hid x y hy)]
    exact h.indexed x y hy

theorem cancelOrder {id : String}
    (hstop : ∀ e, L.orders.lookup id = some e → (L.order e).hasParam .stop = false) :
    (L.cancelOrder id).1.Indexed := by
  rcases h.tidy.wf.cancelOrder_cases id with ⟨-, he⟩ | ⟨e, hlook, hs, -⟩ |
    ⟨e, l, hlook, -, hpar, he⟩
  · rw [he]
    exact h
  · exact absurd hs (by simp [hstop e hlook])
  · have hc := (h.cancel e).displace e l (h.tidy.mem_queue_of_entry hlook hpar)
    rw [he]
    exact { hc with tidy := { hc.tidy with wf := { hc.tidy.wf with } } }

theorem checkDateOrders {now : ℤ}
    (hstop : ∀ o ∈ L.dueOrders now, ∀ e, L.orders.lookup (L.order o).id = some e →
      (L.order e).hasParam .stop = false) : (L.checkDateOrders now).Indexed := by
  refine (checkDateOrders_rule (J := fun L' => L'.Indexed ∧ ∀ o ∈ L.dueOrders now, ∀ e,
    L'.orders.lookup (L.order o).id = some e → (L'.order e).hasParam .stop = false)
    (fun L' o hJ ho _ => ⟨hJ.1.cancelOrder (hJ.2 o ho), fun x hx e he => ?_⟩)
    (fun L' o hJ => ⟨{ hJ.1 with tidy := { hJ.1.tidy with wf := hJ.1.tidy.wf.eraseDate } }, hJ.2⟩)
    ⟨h, hstop⟩).1
  rw [cancelOrder_hasParam]
  exact hJ.2 x hx e (hJ.1.tidy.wf.lookup_cancelOrder he)

/-- A `modify_order` that finds no live order only leaves a new object behind. -/
theorem modifyNothing {a : OrderArgs}
    (hnone : ∀ e, L.orders.lookup a.id = some e →
      (L.order e).cancelled = true ∨ (L.order e).isFullfilled = true) :
    (L.step (.modify a)).1.Indexed ∧ (L.step (.modify a)).1.queue = L.queue ∧
      ∀ l, ∀ x ∈ L.queue l, (L.step (.modify a)).1.order x = L.order x := by
  have hstep : (L.step (.modify a)).1 = L.allocOrder a.toData := by
    rcases h.tidy.wf.step_modify_cases a with ⟨-, heq⟩ | ⟨e, l, he, -, hcan, hful, -⟩
    · exact heq
    · rcases hnone e he with hd | hd
      · exact absurd (hcan.symm.trans hd) (by simp)
      · exact absurd (hful.symm.trans hd) (by simp)
  rw [hstep]
  have hq : ∀ l, ∀ x ∈ L.queue l, (L.allocOrder a.toData).order x = L.order x := fun l x hx =>
    allocOrder_order_old (h.tidy.wf.queue_lt l x hx) a.toData
  refine ⟨⟨?_, h.stops, fun l x hx => ?_⟩, rfl, hq⟩
  · refine
      { h.tidy with
        wf := h.tidy.wf.allocOrder _
        listed := fun l x hx => ?_
        price := fun l x hx => ?_
        stays := fun l x hx => ?_ }
    · rw [hq l x hx]
      exact h.tidy.listed l x hx
    · rw [hq l x hx]
      exact h.tidy.price l x hx
    · rw [hq l x hx]
      exact h.tidy.stays l x hx
  · rw [hq l x hx]
    exact h.indexed l x hx

end Indexed

/-- No resting order has one of the ids. -/
def Unused (L : Ledger) (ids : List String) : Prop := ∀ l, ∀ o ∈ L.queue l, (L.order o).id ∉ ids

/-- **The index stays complete**, and the ids of the orders still to come stay
unused. -/
theorem Indexed.step {L : Ledger} (h : L.Indexed) {s : OrderBook} (hs : Refines s L) {r : Request}
    {rs : List Request} (hr : s.keepsIndex r) (hids : (OrderBook.addedIds (r :: rs)).Nodup)
    (hunused : L.Unused (OrderBook.addedIds (r :: rs))) :
    (L.step r).1.Indexed ∧ (L.step r).1.Unused (OrderBook.addedIds rs) := by
  obtain ⟨hpark, hmodify, hcancel⟩ := hr
  cases r with
  | add now a =>
    rw [OrderBook.addedIds_cons_add] at hids hunused
    obtain ⟨hnew, -⟩ := List.nodup_cons.mp hids
    have hp : (L.receive a).isParked L.nextOrder = false := by
      rw [isParked, receive_order_new, ← hpark, hs.marketPrice]
      rfl
    have hfresh := h.tidy.wf.fresh_activate a
    have hframe : MatchFrame (L.activate a) (L.matched a).1 := .matchLimits _ _
    have hM : (L.matched a).1.Indexed := (h.activate a).matchLimits hfresh.queue
    have hid : ((L.matched a).1.order L.nextOrder).id = a.id := by
      rw [(hframe.keeps _).id, activate_order_new, OrderData.activated_id]
      rfl
    have hold : ∀ l, ∀ x ∈ (L.matched a).1.queue l,
        ((L.matched a).1.order x).id ∉ a.id :: OrderBook.addedIds rs := by
      intro l x hx
      have hx : x ∈ L.queue l := (hframe.queue l).mem hx
      rw [(hframe.keeps x).id, activate_order (h.tidy.wf.queue_lt l x hx)]
      exact hunused l x hx
    have htail : (L.matched a).1.Unused (OrderBook.addedIds rs) := fun l x hx hmem =>
      hold l x hx (List.mem_cons_of_mem _ hmem)
    rw [step_add, if_neg (by simp [hp]), settle]
    split
    · exact ⟨hM, htail⟩
    · split
      · refine ⟨hM.cancel _, fun l x hx => ?_⟩
        rw [(keeps_updateData _ _ .cancel x).id]
        exact htail l x hx
      · next hfok =>
        have hfok : ((L.matched a).1.order L.nextOrder).hasParam .fok = false := by simpa using hfok
        refine ⟨hM.restOrder (hfresh.of_frame hframe) hfok fun l x hx hxid => ?_, fun l x hx => ?_⟩
        · rw [hid] at hxid
          exact hold l x hx (by simp [hxid])
        · obtain ⟨k, hk, -, -⟩ := hM.tidy.wf.restOrder L.nextOrder
          rw [hk.order]
          rcases hk.mem_queue.mp hx with ⟨rfl, -⟩ | hx
          · rw [hid]
            exact hnew
          · exact htail l x hx
  | modify a =>
    obtain ⟨hI, hqueue, horder⟩ := h.modifyNothing (a := a) fun e he => by
      rw [← hs.order e]
      exact hmodify e (hs.orders ▸ he)
    refine ⟨hI, fun l x hx => ?_⟩
    rw [hqueue] at hx
    rw [horder l x hx]
    exact hunused l x hx
  | cancel id =>
    refine ⟨h.cancelOrder fun e he => ?_, fun l x hx => ?_⟩
    · rw [← hs.order e]
      exact hcancel e (hs.orders ▸ he)
    · change ((L.cancelOrder id).1.order x).id ∉ _
      rw [cancelOrder_id]
      exact hunused l x ((h.tidy.wf.queue_cancelOrder id l).mem hx)
  | checkDate now =>
    have hdue : ∀ o ∈ L.dueOrders now, ∀ e, L.orders.lookup (L.order o).id = some e →
        (L.order e).hasParam .stop = false := by
      intro o ho e he
      rw [← hs.order e]
      exact hs.due_entry hcancel ho he
    refine ⟨h.checkDateOrders hdue, ?_⟩
    exact (checkDateOrders_rule (J := fun L => L.WellFormed ∧ L.Unused (OrderBook.addedIds rs))
      (fun L' o hJ _ _ => ⟨hJ.1.cancelOrder _, fun l x hx => by
        rw [cancelOrder_id]
        exact hJ.2 l x ((hJ.1.queue_cancelOrder _ l).mem hx)⟩)
      (fun L' o hJ => ⟨hJ.1.eraseDate, hJ.2⟩) ⟨h.tidy.wf, hunused⟩).2

theorem indexed_empty (instrument : String) (marketPrice : ℚ) :
    (empty instrument marketPrice).Indexed :=
  ⟨tidy_empty instrument marketPrice, fun _ => rfl, by simp [empty]⟩

end Ledger

/-- **The index is complete** in every run over an empty repository, with distinct ids,
in which no order is parked or modified and no stop order is cancelled. -/
theorem index_complete (instrument : String) (marketPrice : ℚ) {rs : List Request}
    (hids : (OrderBook.addedIds rs).Nodup)
    (hrs : Meets OrderBook.step OrderBook.keepsIndex (.empty instrument marketPrice) rs) :
    ∃ s answers live, runAll OrderBook.step (.empty instrument marketPrice) rs = .ok (s, answers) ∧
      s.liveOrders = .ok live ∧ IndexComplete s live := by
  obtain ⟨s, answers, L, hrun, hL, h, -⟩ := (refines_empty instrument marketPrice).run_rule
    (J := fun L rs => L.Indexed ∧ (OrderBook.addedIds rs).Nodup ∧ L.Unused (OrderBook.addedIds rs))
    (fun s L r rs hs hJ hr => by
      obtain ⟨hI, hU⟩ := hJ.1.step hs hr hJ.2.1 hJ.2.2
      refine ⟨hI, ?_, hU⟩
      cases r with
      | add now a => exact (List.nodup_cons.mp hJ.2.1).2
      | _ => exact hJ.2.1)
    ⟨Ledger.indexed_empty instrument marketPrice, hids, by simp [Ledger.Unused, Ledger.empty]⟩ hrs
  have hid : ∀ o, (s.order o).id = (L.order o).id := fun o => congrArg OrderData.id (hL.order o)
  refine ⟨s, answers, _, hrun, hL.liveOrders, fun id o => ?_, fun o ho => ?_, ?_⟩
  · rw [hL.orders, hid]
    exact h.lookup_iff
  · obtain ⟨s', hs', -⟩ := hL.cancelOrder (s.order o).id
    refine ⟨s', hs'.trans ?_⟩
    have hlook := h.lookup_iff.mpr ⟨ho, rfl⟩
    rcases h.tidy.wf.cancelOrder_cases (L.order o).id with ⟨hnone, -⟩ | ⟨e, -, -, he⟩ |
      ⟨e, l, -, -, -, he⟩
    · exact absurd hlook (by simp [hnone])
    · rw [hid, he]
    · rw [hid, he]
  · rw [hL.size]
    exact h.keys_length

/-- A bid that comes to rest and is cancelled. -/
theorem index_complete_cancel : (OrderBook.addedIds
      [.add 0 (.limit "b" .buy 7 10), .cancel "b"]).Nodup ∧
    ∃ s answers live, runAll OrderBook.step (.empty "X" 10)
      [.add 0 (.limit "b" .buy 7 10), .cancel "b"] = .ok (s, answers) ∧
      s.liveOrders = .ok live ∧ IndexComplete s live := by
  refine ⟨by decide, index_complete "X" 10 (by decide)
    ⟨⟨by rw [OrderBook.parksNothing]; decide, trivial, trivial⟩, fun s answer hs =>
      ⟨⟨trivial, trivial, fun e he => ?_⟩, fun _ _ _ => trivial⟩⟩⟩
  have hfacts := eq_of_ok_of_map hs
    (f := fun r => (r.1.orders.lookup "b", (r.1.order 0).hasParam .stop))
    (b := (some 0, false)) (by decide +kernel)
  obtain ⟨hlook, hstop⟩ := Prod.mk.inj hfacts
  obtain rfl : e = 0 := Option.some.inj (he.symm.trans hlook)
  exact hstop

/-- A parked stop order is live, but has no entry. -/
theorem index_misses_stop : ∃ s answers live, runAll OrderBook.step (.empty "X" 10)
      [.add 0 { OrderArgs.limit "a" .buy 5 10 .stop with stopPrice := 5 }] = .ok (s, answers) ∧
    s.liveOrders = .ok live ∧ ¬ IndexComplete s live := by
  obtain ⟨⟨s, answers⟩, hrun, hs⟩ := exists_ok_of_map (f := fun r =>
      (r.1.liveOrders.toOption, r.1.orders.lookup "a", (r.1.order 0).id))
    (b := (some [0], none, "a")) (show (runAll OrderBook.step (.empty "X" 10)
      [.add 0 { OrderArgs.limit "a" .buy 5 10 .stop with stopPrice := 5 }]).toOption.map _ = _ by
      decide +kernel)
  simp only [Prod.mk.injEq] at hs
  obtain ⟨hlive, hlook, hid⟩ := hs
  rcases hl : s.liveOrders with _ | live
  · rw [hl] at hlive
    exact absurd hlive (by simp [Except.toOption])
  · rw [hl] at hlive
    obtain rfl : live = [0] := Option.some.inj hlive
    refine ⟨s, answers, [0], hrun, hl, fun h => ?_⟩
    have hentry := (h.entries "a" 0).mpr ⟨by simp, hid⟩
    exact absurd hentry (by simp [hlook])

end LimitOrderBook
