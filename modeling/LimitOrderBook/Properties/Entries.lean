import LimitOrderBook.Ledger.Simulation
import LimitOrderBook.OrderBook.Entries

/-!
# Entries that are read after they are erased

The removal functions erase the entry of the index that their caller has found, and
`cancel_order` reads it afterwards, each time that it finds one; `modify_order` does so
unless the order that it finds is a stop order. So no entry is read too late in a run exactly
if nothing that is in the index is cancelled, by a call or because it is due, and no live
order is modified other than a stop order (`LimitOrderBook.entriesRead_iff`).
-/

namespace LimitOrderBook

open OrderBook (Request)

namespace OrderBook

variable {s : OrderBook} {id : String} {o e : ℕ}

theorem readEntry_of_lookup (he : s.orders.lookup id = some e) : s.readEntry id = .ok e := by
  rw [readEntry, he, deref_some]

theorem readEntry_of_lookup_none (he : s.orders.lookup id = none) :
    s.readEntry id = .error .badPointer := by
  rw [readEntry, he]
  rfl

/-! ### Without an entry nothing is read -/

theorem cancelOrder_of_lookup_none (hnone : s.orders.lookup id = none) :
    s.cancelOrder id = .ok (s, .notFound) := by
  rw [cancelOrder, hnone]

theorem cancelOrderReading_of_lookup_none (hnone : s.orders.lookup id = none) :
    s.cancelOrderReading id = .ok (s, .notFound) := by
  simp [cancelOrderReading, hnone]

/-- The two embeddings of the first loop of `check_date_orders` agree when nothing that is due
is in the index. -/
theorem cancelDueReading_eq {now : ℤ} {dates : List ℕ}
    (hnone : ∀ o ∈ dates.takeWhile (fun o => (s.order o).isDue now),
      s.orders.lookup (s.order o).id = none) :
    cancelDueReading now s dates = cancelDue now s dates := by
  induction dates with
  | nil => rfl
  | cons o dates ih =>
    rw [cancelDueReading, cancelDue]
    by_cases hd : (s.order o).isDue now = true
    · rw [List.takeWhile_cons, if_pos hd] at hnone
      have ho := hnone o (by simp)
      rw [if_pos hd, if_pos hd, cancelOrderReading_of_lookup_none ho,
        cancelOrder_of_lookup_none ho, ok_bind, ok_bind]
      dsimp only
      rw [ih fun x hx => hnone x (List.mem_cons_of_mem o hx)]
    · rw [if_neg hd, if_neg hd]

end OrderBook

namespace Refines

variable {s : OrderBook} {L : Ledger} (h : Refines s L) {o e : ℕ} {id : String}

include h

/-! ### What is read too late -/

/-- `cancel_order` reads the entry that it finds after that is erased. -/
theorem cancelOrderReading_of_lookup (he : s.orders.lookup id = some e) :
    s.cancelOrderReading id = .error .badPointer := by
  have heL : L.orders.lookup id = some e := by rw [← h.orders, he]
  have he₁ : (s.updateData e .cancel).orders.lookup id = some e := he
  obtain ⟨s₁, hs₁, h₁⟩ := (h.updateData (o := e) .cancel).removeOrder (o := e) heL
  -- both ways of removing the order erase the entry under its id
  have horders : s₁.orders.lookup id = none := by
    rw [h₁.orders, Ledger.removeOrder, Ledger.removeLimitOrder]
    obtain ⟨l, hl⟩ := h.wf.entry_parent id e heL
    have hl' : (L.updateData e .cancel).parent e = some l := hl
    have hid : ((L.updateData e .cancel).order e).id = id := by
      rw [Ledger.updateData_order, Function.update_self]
      exact h.wf.entry_id id e heL
    rw [hl']
    split
    · rw [Ledger.removeStopOrder_orders, hid, AList.lookup_erase]
    · rw [Ledger.displace_orders, hid, AList.lookup_erase]
  rw [OrderBook.cancelOrderReading, he, Option.isSome_some, if_pos rfl,
    OrderBook.readEntry_of_lookup he, ok_bind]
  dsimp only
  rw [OrderBook.readEntry_of_lookup he₁, ok_bind, hs₁, ok_bind,
    OrderBook.readEntry_of_lookup_none horders]
  rfl

/-- The first loop of `check_date_orders` stops at the first order that is due and in the
index. -/
theorem cancelDueReading_of_lookup {now : ℤ} {dates : List ℕ}
    (hdue : ∃ o ∈ dates.takeWhile (fun o => (s.order o).isDue now),
      s.orders.lookup (s.order o).id ≠ none) :
    OrderBook.cancelDueReading now s dates = .error .badPointer := by
  induction dates with
  | nil => exact absurd hdue (by simp)
  | cons o dates ih =>
    obtain ⟨x, hx, hentry⟩ := hdue
    by_cases hd : (s.order o).isDue now = true
    · rw [List.takeWhile_cons, if_pos hd, List.mem_cons] at hx
      rw [OrderBook.cancelDueReading, if_pos hd]
      rcases he : s.orders.lookup (s.order o).id with _ | e
      · have hxo : x ≠ o := fun hxo => hentry (hxo ▸ he)
        rw [OrderBook.cancelOrderReading_of_lookup_none he, ok_bind]
        dsimp only
        rw [ih ⟨x, hx.resolve_left hxo, hentry⟩]
        rfl
      · rw [h.cancelOrderReading_of_lookup he]
        rfl
    · rw [List.takeWhile_cons, if_neg hd] at hx
      exact absurd hx List.not_mem_nil

/-- `modify_order` reads the entry of an order that is not a stop order after that is
erased. -/
theorem replaceOrderReading_of_lookup (he : s.orders.lookup id = some e)
    (hstop : (s.order e).hasParam .stop = false) :
    s.replaceOrderReading id o = .error .badPointer := by
  have heL : L.orders.lookup id = some e := by rw [← h.orders, he]
  obtain ⟨l, hp, hcase⟩ := h.entry_cases heL
  obtain ⟨s₁, hs₁, h₁, -, -⟩ := h.removeLimitOrder hp hcase
  have horders : s₁.orders.lookup id = none := by
    rw [h₁.orders, Ledger.removeLimitOrder, hp]
    exact (congrArg (fun key => (L.orders.erase key).lookup id) (h.wf.entry_id id e heL)).trans
      (AList.lookup_erase id L.orders)
  rw [OrderBook.replaceOrderReading, OrderBook.readEntry_of_lookup he, ok_bind,
    if_neg (by simp [hstop]), hs₁, ok_bind, OrderBook.readEntry_of_lookup_none horders]
  rfl

end Refines

namespace OrderBook

variable {s : OrderBook} {id : String} {o e : ℕ}

/-- Replacing a stop order, `modify_order` does not go back to its entry. -/
theorem replaceOrderReading_of_stop (he : s.orders.lookup id = some e)
    (hstop : (s.order e).hasParam .stop = true) :
    s.replaceOrderReading id o = s.replaceOrder e o := by
  rw [replaceOrderReading, readEntry_of_lookup he, ok_bind, if_pos hstop, replaceOrder,
    if_pos hstop]

end OrderBook

namespace Refines

variable {s : OrderBook} {L : Ledger} (h : Refines s L) {o : ℕ}

include h

/-- **`modify_order`** reads an erased entry exactly if it finds a live order that is not a
stop order. -/
theorem modifyOrderReading_eq :
    s.modifyOrderReading o =
      if ∀ e, s.orders.lookup (s.order o).id = some e → (s.order e).cancelled = true ∨
        (s.order e).isFullfilled = true ∨ (s.order e).hasParam .stop = true
      then s.modifyOrder o else .error .badPointer := by
  rw [OrderBook.modifyOrderReading, OrderBook.modifyOrder]
  rcases he : s.orders.lookup (s.order o).id with _ | e
  · simp
  have he₁ : (s.updateData e .cancel).orders.lookup (s.order o).id = some e := he
  have hstop : ((s.updateData e .cancel).order e).hasParam .stop =
      (s.order e).hasParam .stop := by
    simp [OrderBook.updateData, OrderData.hasParam, OrderData.cancel]
  dsimp only
  rw [OrderBook.readEntry_of_lookup he, ok_bind, Option.isSome_some, if_pos rfl]
  by_cases hlive : (!(s.order e).cancelled && !(s.order e).isFullfilled) = true
  · rw [if_pos hlive, if_pos hlive]
    by_cases hs : (s.order e).hasParam .stop = true
    · rw [if_pos (by simp [hs]), OrderBook.replaceOrderReading_of_stop he₁ (hstop.trans hs)]
    · rw [(h.updateData (o := e) .cancel).replaceOrderReading_of_lookup he₁
        (hstop.trans (by simpa using hs)), if_neg (by simp_all)]
      rfl
  · have hdead : (s.order e).cancelled = true ∨ (s.order e).isFullfilled = true ∨
        (s.order e).hasParam .stop = true := by
      rcases hc : (s.order e).cancelled with _ | _ <;> simp_all
    rw [if_neg hlive, if_neg hlive, if_pos (by simpa using hdead)]

/-- **One request** faults exactly if it reads an entry that it has erased. -/
theorem stepReading (r : Request) :
    (s.readsLive r → s.stepReading r = s.step r) ∧
      (¬ s.readsLive r → s.stepReading r = .error .badPointer) := by
  cases r with
  | add now a => exact ⟨fun _ => rfl, fun hr => absurd trivial hr⟩
  | modify a =>
    have hiff : s.readsLive (.modify a) ↔ ∀ e,
        (s.allocOrder a.toData).orders.lookup ((s.allocOrder a.toData).order s.nextOrder).id =
          some e → ((s.allocOrder a.toData).order e).cancelled = true ∨
        ((s.allocOrder a.toData).order e).isFullfilled = true ∨
        ((s.allocOrder a.toData).order e).hasParam .stop = true := by
      have hid : ((s.allocOrder a.toData).order s.nextOrder).id = a.id := by
        rw [OrderBook.allocOrder_order, Function.update_self]
        rfl
      rw [hid, OrderBook.readsLive]
      refine forall₂_congr fun e he => ?_
      have hold : e ≠ s.nextOrder := by
        rw [h.nextOrder]
        exact (h.wf.entry_lt a.id e (by rw [← h.orders, he])).ne
      rw [OrderBook.allocOrder_order, Function.update_of_ne hold]
    have heq := (h.allocOrder a.toData).modifyOrderReading_eq (o := s.nextOrder)
    constructor
    · intro hr
      rw [if_pos (hiff.mp hr)] at heq
      rw [OrderBook.stepReading, OrderBook.step, heq]
    · intro hr
      rw [if_neg fun hc => hr (hiff.mpr hc)] at heq
      rw [OrderBook.stepReading, heq]
      rfl
  | cancel id =>
    constructor
    · intro hr
      rw [OrderBook.stepReading, OrderBook.step, OrderBook.cancelOrderReading_of_lookup_none hr,
        OrderBook.cancelOrder_of_lookup_none hr]
    · intro hr
      obtain ⟨e, he⟩ := Option.ne_none_iff_exists'.mp hr
      rw [OrderBook.stepReading, h.cancelOrderReading_of_lookup he]
      rfl
  | checkDate now =>
    have hkeys := h.dates.keys
    constructor
    · intro hr
      rw [OrderBook.stepReading, OrderBook.step, OrderBook.checkDateOrdersReading,
        OrderBook.checkDateOrders, hkeys, ok_bind, ok_bind,
        OrderBook.cancelDueReading_eq (hr _ hkeys)]
    · intro hr
      rw [OrderBook.stepReading, OrderBook.checkDateOrdersReading, hkeys, ok_bind,
        h.cancelDueReading_of_lookup ?_]
      · rfl
      · by_contra hno
        push Not at hno
        refine hr fun dates hdates => ?_
        obtain rfl := Except.ok.inj (hkeys.symm.trans hdates)
        exact hno

end Refines

/-- **No entry is read after it is erased**, throughout a run, exactly if no order of the index
is cancelled, by a call or because it is due, and no live order other than a stop order is
modified. -/
theorem entriesRead_iff (instrument : String) (marketPrice : ℚ) (repository : List OrderData)
    (rs : List Request) : ∃ s₀, OrderBook.new instrument marketPrice repository = .ok s₀ ∧
      (Throughout OrderBook.stepReading (fun _ => True) s₀ rs ↔
        Meets OrderBook.stepReading OrderBook.readsLive s₀ rs) := by
  obtain ⟨s₀, hs₀, h₀⟩ := refines_new instrument marketPrice repository
  refine ⟨s₀, hs₀, ?_⟩
  refine throughout_iff_meets_of_fault (I := fun s => ∃ L, Refines s L) (Q := fun _ => True)
    (fun s r _ hI _ hr => ?_) (fun s r s' answer _ hI _ hs' => ?_)
    (fun s r s' answer _ hI _ hs' _ => ?_) (fun _ _ => trivial) ⟨_, h₀⟩ trivial
  · obtain ⟨L, h⟩ := hI
    obtain ⟨s', hs', -⟩ := h.step r
    exact ⟨s', _, ((h.stepReading r).1 hr).trans hs', trivial⟩
  · obtain ⟨L, h⟩ := hI
    by_cases hr : s.readsLive r
    · obtain ⟨s₁, hs₁, h₁⟩ := h.step r
      rw [(h.stepReading r).1 hr, hs₁, Except.ok.injEq, Prod.mk.injEq] at hs'
      exact ⟨_, hs'.1 ▸ h₁⟩
    · rw [(h.stepReading r).2 hr] at hs'
      exact absurd hs' (by simp)
  · obtain ⟨L, h⟩ := hI
    by_contra hr
    rw [(h.stepReading r).2 hr] at hs'
    exact absurd hs' (by simp)

/-- A resting bid that is cancelled, and one that is modified: both calls read the entry that
they have erased. -/
theorem entry_read_erased : ∃ s₀ s₁ answers, OrderBook.new "X" 10 [] = .ok s₀ ∧
    runAll OrderBook.stepReading s₀ [.add 0 (.limit "b" .buy 7 10)] = .ok (s₁, answers) ∧
    s₁.cancelOrderReading "b" = .error .badPointer ∧
    s₁.stepReading (.modify (.limit "b" .buy 5 10)) = .error .badPointer := by
  exact ⟨_, _, _, rfl, rfl, rfl, rfl⟩

end LimitOrderBook
