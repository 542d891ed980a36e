import LimitOrderBook.Ledger.Accounted
import LimitOrderBook.Persistence.Drain
import Mathlib.Data.Nat.Find

/-!
# The store agrees with the book

When no call is in progress and every handle has been taken, the store should hold one record
for each live order, with what remains of it, and none for a filled or cancelled one. What
`add_order` writes to the orders it matches breaks this: their handles are not put into the
queue again, and the new order is put into it before it is matched. The store agrees with the
book as long as every write to an order is seen by a handle that is taken later
(`LimitOrderBook.persistence_converges`).

The invariant speaks of the store as it will be when the handles that wait have been taken. For
every order that stands for its id, this store says what the order says now, or the call in
progress has still to hand over an order with its id (`LimitOrderBook.Persistence.Sound`).
-/

namespace LimitOrderBook

open OrderBook (Call Request)

/-- What the store will hold for two orders that look the same to the thread of the
repository. -/
theorem OrderStore.outcome_qty {x y : OrderData} (h : x.visible = y.visible) :
    (outcome x).map OrderData.currentQty = (outcome y).map OrderData.currentQty := by
  obtain ⟨hc, hq⟩ := Prod.mk.inj h
  rw [outcome, outcome, hc, OrderData.isFullfilled, OrderData.isFullfilled, hq]
  split
  · rfl
  · exact congrArg some hq

/-- Which orders stand for their ids is told by the book as by the ledger. -/
theorem Refines.stands_iff {recovered : ℕ} {s : OrderBook} {L : Ledger} (h : Refines s L) {o : ℕ} :
    L.Stands recovered o ↔ s.Stands recovered o := by
  have hknown : ∀ x, Ledger.Known recovered L x ↔ s.Known recovered x := fun x => by
    rw [Ledger.Known, OrderBook.Known, h.orderQueue]
  have hid : ∀ x, (L.order x).id = (s.order x).id := fun x =>
    (congrArg OrderData.id (h.order x)).symm
  constructor
  · rintro ⟨h₁, h₂⟩
    refine ⟨(hknown o).mp h₁, fun p hp he => h₂ p ((hknown p).mpr hp) ?_⟩
    rw [hid, hid, he]
  · rintro ⟨h₁, h₂⟩
    refine ⟨(hknown o).mpr h₁, fun p hp he => h₂ p ((hknown p).mp hp) ?_⟩
    rw [← hid, ← hid, he]

namespace Persistence

variable {P : Persistence} {recovered : ℕ} {ids : List String} {o : ℕ}

/-- What the store will hold for the id of the order is what the order says now. -/
def Agrees (P : Persistence) (o : ℕ) : Prop :=
  ((P.book.drain P.waiting P.store).get (P.book.order o).id).map OrderData.currentQty =
    (OrderStore.outcome (P.book.order o).toOrderData).map OrderData.currentQty

/-- **The invariant**; `ids` are those of the orders that have still to be added. -/
structure Sound (recovered : ℕ) (ids : List String) (P : Persistence) : Prop where
  returns : ∃ L, Refines P.target L ∧ L.Accounted recovered ∧
    ∀ o, L.Known recovered o → (L.order o).id ∉ ids
  goes : OrderBook.Goes P.book P.rest P.target
  handled : P.handled ≤ P.book.orderQueue.length
  le : recovered ≤ P.book.nextOrder
  handed : ∀ o ∈ P.book.orderQueue, o < P.book.nextOrder
  records : ∀ x ∈ P.store.records, ∃ o, P.book.Known recovered o ∧ (P.book.order o).id = x.id
  agrees : ∀ o, P.book.Stands recovered o → P.Agrees o ∨ P.Follows o

namespace Sound

theorem mono {ids' : List String} (h : P.Sound recovered ids) (hsub : ids' ⊆ ids) :
    P.Sound recovered ids' := by
  obtain ⟨L, hL, hacc, hids⟩ := h.returns
  exact { h with returns := ⟨L, hL, hacc, fun o ho hmem => hids o ho (hsub hmem)⟩ }

variable (h : P.Sound recovered ids)

include h

theorem logged_target : P.target.Logged recovered := by
  obtain ⟨L, hL, hacc, -⟩ := h.returns
  refine ⟨?_, ?_, ?_⟩
  · rw [hL.nextOrder]
    exact hacc.le
  · rw [hL.nextOrder, hL.orderQueue]
    exact hacc.handed
  · rw [hL.orderQueue]
    refine hacc.ascending.imp fun {x y} hxy he => hxy ?_
    rw [← hL.order, ← hL.order]
    exact he

theorem logged : P.book.Logged recovered := h.logged_target.of_later h.goes.later h.le h.handed

/-! ### Steps -/

/-- A call begins. -/
theorem call {c : Call} {ids' : List String} (hidle : P.Idle) (hc : P.book.leavesLive c)
    (hadd : ∀ now a, c = .add now a → 0 < a.qty ∧ a.id ∈ ids ∧ a.id ∉ ids') (hsub : ids' ⊆ ids) :
    ∃ ms, P.book.callStates c = .ok ms ∧ { P with rest := ms }.Sound recovered ids' := by
  have htarget : P.target = P.book := by
    rw [target, hidle]
    rfl
  obtain ⟨L, hL, hacc, hids⟩ := h.returns
  rw [htarget] at hL
  obtain ⟨s', hs', hL'⟩ := hL.step c.request
  obtain ⟨ms, hms, hgoes⟩ := OrderBook.callStates_spec hs' fun id e he => by
    rw [hL.orders] at he
    rw [hL.nextOrder]
    exact hL.wf.entry_lt id e he
  have htarget' : { P with rest := ms }.target = s' := hgoes.getLastD
  refine ⟨ms, hms,
    { h with returns := ⟨_, htarget' ▸ hL', ?_, fun o ho hmem => ?_⟩, goes := ?_, agrees := ?_ }⟩
  · -- the ledger that the call returns is accounted for
    have hentry : ∀ id e, L.orders.lookup id = some e → P.book.orders.lookup id = some e ∧
        (L.order e).hasParam .stop = (P.book.order e).hasParam .stop := by
      intro id e he
      rw [hL.orders, ← hL.order]
      exact ⟨he, rfl⟩
    cases c with
    | add now a =>
      obtain ⟨hqty, hid, -⟩ := hadd now a rfl
      exact hacc.add now hqty fun x hx he => hids x hx (he ▸ hid)
    | modify a =>
      refine hacc.modify fun e he => ?_
      obtain ⟨he', hs⟩ := hentry a.id e he
      rw [hs]
      exact hc e he'
    | cancel id =>
      refine hacc.cancelOrder fun e he => ?_
      obtain ⟨he', hs⟩ := hentry id e he
      rw [hs]
      exact hc e he'
  · have hnodate : ∀ now, c.request ≠ .checkDate now := fun now => by
      cases c <;> simp [Call.request]
    rcases hacc.known_step hnodate ho with ⟨p, hp, hid⟩ | ⟨a, ha, hid⟩
    · exact hids p hp (hid ▸ hsub hmem)
    · rw [hid] at hmem
      cases c with
      | add now a' =>
        obtain rfl : a' = a := Option.some.inj ha
        exact (hadd now a' rfl).2.2 hmem
      | modify a' => exact absurd ha (by simp [Call.request, Request.newOrder])
      | cancel id => exact absurd ha (by simp [Call.request, Request.newOrder])
  · exact htarget' ▸ hgoes
  · intro o ho
    refine Or.inl ((h.agrees o ho).resolve_right ?_)
    rintro ⟨p, hp, -⟩
    rw [htarget, List.drop_length] at hp
    exact absurd hp (by simp)

/-- The call in progress goes on. -/
theorem go {s : OrderBook} {rest : List OrderBook} (hrest : P.rest = s :: rest)
    (hc : ∀ o < P.book.nextOrder, (s.order o).visible ≠ (P.book.order o).visible →
      o ∈ P.waiting ∨ P.Follows o) :
    { P with book := s, rest := rest }.Sound recovered ids := by
  obtain ⟨hlater, hgoes⟩ : OrderBook.Later P.book s ∧ OrderBook.Goes s rest P.target := by
    have hgoes := h.goes
    rw [hrest] at hgoes
    cases hgoes with
    | next hlater hgoes => exact ⟨hlater, hgoes⟩
  have htarget : { P with book := s, rest := rest }.target = P.target := by
    rw [target, target, hrest, List.getLastD_cons]
  obtain ⟨new, hnew, hlt⟩ := hlater.orderQueue
  have hwaiting : s.orderQueue.drop P.handled = P.waiting ++ new := by
    rw [hnew, List.drop_append_of_le_length h.handled]
    rfl
  have hlogged := h.logged
  have hle := h.le.trans hlater.nextOrder
  have hhanded : ∀ o ∈ s.orderQueue, o < s.nextOrder := by
    intro o ho
    rw [hnew] at ho
    rcases List.mem_append.mp ho with ho | ho
    · exact (h.handed o ho).trans_le hlater.nextOrder
    · exact hlt o ho
  have hlogged' : s.Logged recovered := h.logged_target.of_later hgoes.later hle hhanded
  refine
    { returns := htarget ▸ h.returns
      goes := htarget ▸ hgoes
      handled := by
        rw [hnew, List.length_append]
        exact h.handled.trans (Nat.le_add_right _ _)
      le := hle
      handed := hhanded
      records := fun x hx => ?_
      agrees := fun o ho => ?_ }
  · obtain ⟨o, ho, hid⟩ := h.records x hx
    exact ⟨o, hlater.known ho, (hlater.id o (hlogged.known_lt ho)).trans hid⟩
  rcases hlogged'.stands_cases ho P.handled with ⟨-, hget⟩ | hnone
  · exact Or.inl (congrArg (Option.map OrderData.currentQty) (hget P.store))
  -- no handle with the id of the order waits: the order is known already, and the store holds
  -- for its id what it will hold
  have hold : P.book.Stands recovered o := by
    have hknown : P.book.Known recovered o := by
      refine ho.known.imp_right fun hmem => ?_
      rw [hnew] at hmem
      refine (List.mem_append.mp hmem).resolve_right fun hmem => hnone o ?_ rfl
      rw [hwaiting]
      exact List.mem_append.mpr (Or.inr hmem)
    refine ⟨hknown, fun p hp he => ho.youngest p (hlater.known hp) ?_⟩
    rw [hlater.id p (hlogged.known_lt hp), hlater.id o (hlogged.known_lt hknown)]
    exact he
  have hlto := hlogged.known_lt hold.known
  have hid : (s.order o).id = (P.book.order o).id := hlater.id o hlto
  have hstore : (P.book.drain P.waiting P.store).get (P.book.order o).id =
      (s.drain (s.orderQueue.drop P.handled) P.store).get (s.order o).id := by
    rw [OrderBook.get_drain_of_ne hnone, hid, OrderBook.get_drain_of_ne fun p hp => ?_]
    have hmem : p ∈ s.orderQueue.drop P.handled := by
      rw [hwaiting]
      exact List.mem_append.mpr (Or.inl hp)
    rw [← hlater.id p (h.handed p (List.mem_of_mem_drop hp)), ← hid]
    exact hnone p hmem
  have hfollows : P.Follows o → { P with book := s, rest := rest }.Follows o := by
    rintro ⟨p, hp, he⟩
    have hsplit : P.target.orderQueue.drop P.book.orderQueue.length =
        new ++ P.target.orderQueue.drop s.orderQueue.length := by
      obtain ⟨later, hl, -⟩ := hgoes.later.orderQueue
      rw [hl, List.drop_left, hnew, List.append_assoc, List.drop_left]
    rw [hsplit] at hp
    rcases List.mem_append.mp hp with hp | hp
    · refine absurd ?_ (hnone p (by rw [hwaiting]; exact List.mem_append.mpr (Or.inr hp)))
      rw [← hgoes.later.id p (hlt p hp), hid]
      exact he
    · exact ⟨p, htarget.symm ▸ hp, by rw [htarget, hid, he]⟩
  by_cases hvis : (s.order o).visible = (P.book.order o).visible
  · refine (h.agrees o hold).imp (fun hagrees => ?_) hfollows
    rw [Agrees, hstore] at hagrees
    exact hagrees.trans (OrderStore.outcome_qty hvis).symm
  · refine Or.inr (hfollows ((hc o hlto hvis).resolve_left fun hwait => ?_))
    refine hnone o ?_ rfl
    rw [hwaiting]
    exact List.mem_append.mpr (Or.inl hwait)

/-- The thread of the repository takes a handle. -/
theorem pop (ho : P.book.orderQueue[P.handled]? = some o) :
    { P with
      handled := P.handled + 1
      store := P.store.processMessage (P.book.order o).toOrderData }.Sound recovered ids := by
  obtain ⟨hlt, hget⟩ := List.getElem?_eq_some_iff.mp ho
  have hmem : o ∈ P.book.orderQueue := List.mem_of_getElem? ho
  have hwaiting : P.waiting = o :: P.book.orderQueue.drop (P.handled + 1) := by
    rw [waiting, List.drop_eq_getElem_cons hlt, hget]
  refine { h with handled := hlt, records := fun x hx => ?_, agrees := fun p hp => ?_ }
  · rcases OrderStore.mem_processMessage hx with rfl | hx
    · exact ⟨o, Or.inr hmem, rfl⟩
    · exact h.records x hx
  · refine (h.agrees p hp).imp_left fun hagrees => ?_
    rw [Agrees, hwaiting, OrderBook.drain_cons] at hagrees
    exact hagrees

/-- **When everything has been done, the store agrees with the book.** -/
theorem converged (hidle : P.Idle) (hdrained : P.Drained) :
    OrderBook.Converged recovered P.book P.store := by
  have htarget : P.target = P.book := by
    rw [target, hidle]
    rfl
  have hget : ∀ o, P.book.Stands recovered o → (P.store.get (P.book.order o).id).map
      OrderData.currentQty =
        (OrderStore.outcome (P.book.order o).toOrderData).map OrderData.currentQty := by
    intro o ho
    have hnone : ¬ P.Follows o := by
      rintro ⟨p, hp, -⟩
      rw [htarget, List.drop_length] at hp
      exact absurd hp (by simp)
    have hagrees := (h.agrees o ho).resolve_right hnone
    rw [Agrees, waiting, hdrained, List.drop_length, OrderBook.drain_nil] at hagrees
    exact hagrees
  obtain ⟨L, hL, hacc, -⟩ := h.returns
  rw [htarget] at hL
  refine ⟨⟨L.live, hL.liveOrders, fun o ho p hp he => ?_, fun o ho => ?_⟩, fun x hx => ?_⟩
  · have ho' := hacc.stands o (Ledger.held_of_mem_live ho)
    have hp' := hacc.stands p (Ledger.held_of_mem_live hp)
    refine ho'.eq_of_id hp' ?_
    rw [← hL.order, ← hL.order]
    exact he
  · have hheld := Ledger.held_of_mem_live ho
    obtain ⟨hc, hq⟩ := hacc.alive o hheld
    have hout : OrderStore.outcome (P.book.order o).toOrderData =
        some (P.book.order o).archived := by
      have hfull : (L.order o).isFullfilled = false :=
        Bool.eq_false_iff.mpr fun hf => hq (Ledger.isFullfilled_iff.mp hf)
      rw [OrderStore.outcome, hL.order, hc, hfull]
      rfl
    have hsome := hget o (hL.stands_iff.mp (hacc.stands o hheld))
    rw [hout] at hsome
    obtain ⟨x, hx, hxq⟩ := Option.map_eq_some_iff.mp hsome
    obtain ⟨hmem, hid⟩ := OrderStore.get_eq_some.mp hx
    exact ⟨x, hmem, hid, hxq⟩
  · -- the youngest order with the id of the record
    obtain ⟨o, ho, hid⟩ := h.records x hx
    obtain ⟨p, hstands, hpid⟩ : ∃ p, P.book.Stands recovered p ∧ (P.book.order p).id = x.id := by
      classical
      have hbound : ∀ p, P.book.Known recovered p → p ≤ P.book.nextOrder := fun p hp =>
        (h.logged.known_lt hp).le
      have hspec := Nat.findGreatest_spec (P := fun p => P.book.Known recovered p ∧
        (P.book.order p).id = x.id) (hbound o ho) (And.intro ho hid)
      obtain ⟨hp, hpid⟩ := hspec
      exact ⟨_, ⟨hp, fun q hq he => Nat.le_findGreatest (hbound q hq) ⟨hq, he.trans hpid⟩⟩, hpid⟩
    have hsome := hget p hstands
    rw [hpid, OrderStore.get_eq_some.mpr ⟨hx, rfl⟩, OrderStore.outcome] at hsome
    split at hsome
    · exact absurd hsome (by simp)
    · next hlive =>
      rw [Bool.or_eq_true, not_or, Bool.not_eq_true, Bool.not_eq_true] at hlive
      exact ⟨p, hstands.known, hpid, hlive.1, hlive.2, (Option.some.inj hsome).symm⟩

end Sound

/-- **What a step keeps**, of any of the parties. -/
theorem Sound.step {e : Event} {es : List Event} (h : P.Sound recovered (addedIds (e :: es)))
    (hnd : (addedIds (e :: es)).Nodup) (hqty : ∀ now a, e = .call (.add now a) → 0 < a.qty)
    (hc : P.handsOver e) :
    ∃ P', P.step e = .ok (P', ()) ∧ P'.Sound recovered (addedIds es) := by
  have hsub : addedIds es ⊆ addedIds (e :: es) :=
    ((List.sublist_cons_self e es).filterMap _).subset
  cases e with
  | call c =>
    rcases hrest : P.rest with _ | ⟨s, rest⟩
    · have hadd : ∀ now a, c = .add now a →
          0 < a.qty ∧ a.id ∈ addedIds (.call c :: es) ∧ a.id ∉ addedIds es := by
        rintro now a rfl
        exact ⟨hqty now a rfl, List.mem_cons_self .., (List.nodup_cons.mp hnd).1⟩
      obtain ⟨ms, hms, hsound⟩ := h.call hrest (hc hrest) hadd hsub
      exact ⟨_, by rw [Persistence.step, hrest, hms]; rfl, hsound⟩
    · exact ⟨P, by rw [Persistence.step, hrest], h.mono hsub⟩
  | go =>
    rcases hrest : P.rest with _ | ⟨s, rest⟩
    · exact ⟨P, by rw [Persistence.step, hrest], h.mono hsub⟩
    · exact ⟨_, by rw [Persistence.step, hrest], (h.go hrest (hc s rest hrest)).mono hsub⟩
  | pop =>
    rcases ho : P.book.orderQueue[P.handled]? with _ | o
    · exact ⟨P, by rw [Persistence.step, ho], h.mono hsub⟩
    · exact ⟨_, by rw [Persistence.step, ho], (h.pop ho).mono hsub⟩

/-- A book that has been constructed over the store. -/
theorem sound_start {instrument : String} {marketPrice : ℚ} {store : OrderStore}
    (hstore : ∀ x ∈ store.records, x.cancelled = false ∧ x.isFullfilled = false)
    (hids : ∀ x ∈ store.records, x.id ∉ ids) :
    ∃ s, OrderBook.new instrument marketPrice store.getAll = .ok s ∧
      (start s store).Sound store.records.length ids := by
  obtain ⟨s, hs, hL⟩ := refines_new instrument marketPrice store.getAll
  have hrec := Ledger.recovered_new instrument marketPrice store.getAll
  have hqueue := Ledger.recover_orderQueue instrument marketPrice store.getAll
  have hget : ∀ o : ℕ, ∀ x : OrderData, store.records[o]? = some x →
      (s.order o).toOrderData = x := fun o x hx => (hL.order o).trans (hrec.order o x hx)
  have hlt : ∀ o, o < store.records.length → ∃ x, store.records[o]? = some x := fun o ho =>
    ⟨_, List.getElem?_eq_getElem ho⟩
  have hdistinct : ∀ o p : ℕ, ∀ x y : OrderData, store.records[o]? = some x →
      store.records[p]? = some y → x.id = y.id → o = p := by
    intro o p x y hx hy he
    have hxy : x = y := store.eq_of_id (List.mem_of_getElem? hx) (List.mem_of_getElem? hy) he
    have hnd : store.records.Nodup := SortedKeys.nodup store.sorted recordLess_strictWeak
    exact (List.getElem?_inj (List.getElem?_eq_some_iff.mp hx).1 hnd).mp (by rw [hx, hy, hxy])
  have hacc := hrec.accounted hdistinct hstore hqueue
  have hempty : s.orderQueue = [] := hL.orderQueue.trans hqueue
  have hknown : ∀ o, s.Known store.records.length o → o < store.records.length := by
    rintro o (ho | ho)
    · exact ho
    · rw [hempty] at ho
      exact absurd ho (by simp)
  refine ⟨s, hs,
    { returns := ⟨_, hL, hacc, fun o ho => ?_⟩
      goes := .done s
      handled := Nat.zero_le _
      le := (hL.nextOrder.trans hrec.nextOrder).ge
      handed := ?_
      records := fun x hx => ?_
      agrees := fun o ho => Or.inl ?_ }⟩
  · rw [Ledger.Known, hqueue] at ho
    obtain ⟨x, hx⟩ := hlt o (ho.resolve_right (by simp))
    rw [hrec.order o x hx]
    exact hids x (List.mem_of_getElem? hx)
  · intro o ho
    change o ∈ s.orderQueue at ho
    rw [hempty] at ho
    exact absurd ho (by simp)
  · obtain ⟨o, ho⟩ := List.mem_iff_getElem?.mp hx
    exact ⟨o, Or.inl (List.getElem?_eq_some_iff.mp ho).1, congrArg OrderData.id (hget o x ho)⟩
  · obtain ⟨x, hx⟩ := hlt o (hknown o ho.known)
    have hmem := List.mem_of_getElem? hx
    obtain ⟨hc, hf⟩ := hstore x hmem
    change ((s.drain (s.orderQueue.drop 0) store).get (s.order o).id).map OrderData.currentQty =
      (OrderStore.outcome (s.order o).toOrderData).map OrderData.currentQty
    rw [hempty, List.drop_nil, OrderBook.drain_nil, hget o x hx,
      OrderStore.get_eq_some.mpr ⟨hmem, rfl⟩, OrderStore.outcome, hc, hf]
    rfl

end Persistence

open Persistence (Event)

/-- **The store converges to the book** – from any store whose records are neither cancelled nor
filled – in every run, whatever the order in which the two threads take their steps, if every
write to an order is seen by a handle that is taken later: whenever no call is in progress and
every handle has been taken, the two agree. -/
theorem persistence_converges (instrument : String) (marketPrice : ℚ) (store : OrderStore)
    (hstore : ∀ x ∈ store.records, x.cancelled = false ∧ x.isFullfilled = false)
    {es : List Event} (hqty : ∀ now a, Event.call (.add now a) ∈ es → 0 < a.qty)
    (hids : (Persistence.addedIds es).Nodup)
    (hnew : ∀ x ∈ store.records, x.id ∉ Persistence.addedIds es) :
    ∃ s, OrderBook.new instrument marketPrice store.getAll = .ok s ∧
      (Meets Persistence.step Persistence.handsOver (.start s store) es →
        Throughout Persistence.step (fun P => P.Idle → P.Drained →
          OrderBook.Converged store.records.length P.book P.store) (.start s store) es) := by
  obtain ⟨s, hs, hsound⟩ := Persistence.sound_start hstore hnew
  refine ⟨s, hs, fun hmeets xs ys hsplit => ?_⟩
  subst hsplit
  have hsub : (Persistence.addedIds xs).Sublist (Persistence.addedIds (xs ++ ys)) :=
    (List.sublist_append_left xs ys).filterMap _
  obtain ⟨P, answers, hrun, hP, -⟩ := runAll_invariant
    (I := fun P es => P.Sound store.records.length (Persistence.addedIds es) ∧
      (Persistence.addedIds es).Nodup ∧ ∀ now a, Event.call (.add now a) ∈ es → 0 < a.qty)
    (fun P e es hI hc => by
      obtain ⟨hP, hnd, hpos⟩ := hI
      obtain ⟨P', hP', hsound'⟩ := hP.step hnd
        (fun now a he => hpos now a (he ▸ List.mem_cons_self ..)) hc
      refine ⟨P', (), hP', hsound', ?_, fun now a ha => hpos now a (List.mem_cons_of_mem _ ha)⟩
      exact hnd.sublist ((List.sublist_cons_self e es).filterMap _))
    ⟨hsound.mono hsub.subset, hids.sublist hsub, fun now a ha =>
      hqty now a (List.mem_append.mpr (Or.inl ha))⟩ hmeets.of_append.1
  exact ⟨P, answers, hrun, fun hidle hdrained => hP.converged hidle hdrained⟩

/-- An order is added, recorded and cancelled, over an empty store. -/
theorem persistence_converges_cancel : Throughout Persistence.step
    (fun P => P.Idle → P.Drained → OrderBook.Converged 0 P.book P.store)
    (.start (.empty "X" 10) .empty)
    (.call (.add 0 (.limit "a" .sell 5 10)) :: List.replicate 6 .go ++ .pop ::
      .call (.cancel "a") :: List.replicate 3 .go ++ [.pop]) := by
  obtain ⟨s, hs, h⟩ := @persistence_converges "X" 10 .empty
    (fun x hx => absurd hx (by simp [OrderStore.empty]))
    (.call (.add 0 (.limit "a" .sell 5 10)) :: List.replicate 6 .go ++ .pop ::
      .call (.cancel "a") :: List.replicate 3 .go ++ [.pop])
    (fun now a ha => by
      obtain ⟨-, rfl⟩ : now = 0 ∧ a = .limit "a" .sell 5 10 := by simpa using ha
      exact (by decide : (0 : ℚ) < 5))
    (by decide) (fun x hx => absurd hx (by simp [OrderStore.empty]))
  obtain rfl : .empty "X" 10 = s := Except.ok.inj hs
  exact h (by decide +kernel)

/-- **The record of a filled order stays**: its handle is taken before it is matched, and
matching does not put it into the queue again. -/
theorem persistence_keeps_filled : ∃ P answers,
    runAll Persistence.step (.start (.empty "X" 10) .empty)
        (.call (.add 0 (.limit "a" .sell 5 10)) :: List.replicate 6 .go ++ .pop ::
          .call (.add 0 (.limit "b" .buy 5 10)) :: List.replicate 9 .go ++ [.pop]) =
      .ok (P, answers) ∧
      P.Idle ∧ P.Drained ∧ ¬ OrderBook.Converged 0 P.book P.store := by
  obtain ⟨⟨P, answers⟩, hrun, hP⟩ := exists_ok_of_map
    (f := fun r : Persistence × List Unit => ((r.1.rest.length, r.1.handled), r.1.book.orderQueue,
      r.1.store.records.map OrderData.id, (r.1.book.order 0).isFullfilled, (r.1.book.order 1).id))
    (b := ((0, 2), [0, 1], ["a"], true, "b"))
    (show (runAll Persistence.step (.start (.empty "X" 10) .empty)
      (.call (.add 0 (.limit "a" .sell 5 10)) :: List.replicate 6 .go ++ .pop ::
        .call (.add 0 (.limit "b" .buy 5 10)) :: List.replicate 9 .go ++ [.pop])).toOption.map _ = _
      by decide +kernel)
  simp only [Prod.mk.injEq] at hP
  obtain ⟨⟨hrest, hhandled⟩, hqueue, hrecords, hfilled, hb⟩ := hP
  refine ⟨P, answers, hrun, List.length_eq_zero_iff.mp hrest, ?_, fun hconv => ?_⟩
  · rw [Persistence.Drained, hhandled, hqueue]
    rfl
  · -- the only order with the id of the record is filled
    obtain ⟨x, hx, hid⟩ := List.mem_map.mp (hrecords ▸ List.mem_singleton.mpr rfl :
      "a" ∈ P.store.records.map OrderData.id)
    obtain ⟨o, ho, he, -, hf, -⟩ := hconv.gone x hx
    rw [OrderBook.Known, hqueue] at ho
    obtain rfl | rfl : o = 0 ∨ o = 1 := by simpa using ho
    · exact absurd hf (by simp [hfilled])
    · rw [hb, hid] at he
      exact absurd he (by decide)

end LimitOrderBook
