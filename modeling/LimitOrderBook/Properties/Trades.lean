import LimitOrderBook.Ledger.Idle
import Mathlib.Algebra.BigOperators.Group.List.Basic
import Mathlib.Tactic.NormNum

/-!
# Trades and executions

Every execution should be recorded by one trade. `resolve_orders` compares a copy of
the quantity of the incoming order with itself, so no trade is ever enqueued, and
the trades are complete exactly as long as nothing is executed
(`LimitOrderBook.trades_complete`).
-/

namespace LimitOrderBook

open OrderBook (Request)

/-- The trade `t` records the execution `e`: its volume, the cross price, and the
user and order ids of the two sides. -/
structure Records (s : OrderBook) (t : Trade) (e : Execution) : Prop where
  volume : t.volume = e.volume
  price : t.price = e.price
  buyerId : t.buyerId = (s.order (e.buyer s)).userId
  sellerId : t.sellerId = (s.order (e.seller s)).userId
  buyerOrderId : t.buyerOrderId = (s.order (e.buyer s)).id
  sellerOrderId : t.sellerOrderId = (s.order (e.seller s)).id

/-- The trade `t` names the order with the id. -/
def Trade.names (t : Trade) (id : String) : Bool := t.buyerOrderId = id || t.sellerOrderId = id

/-- The quantity with which an order entered the book: a recovered one has the
quantity that was left of it, a new one its initial quantity. -/
def entryQty (repository : List OrderData) (s : OrderBook) (o : ℕ) : ℚ :=
  match repository[o]? with
  | some x => x.currentQty
  | none => (s.order o).qty

/-- **Every execution has its trade**, there are no other trades, and the trades that
name an order account for what it has lost. -/
structure TradesComplete (repository : List OrderData) (s : OrderBook) : Prop where
  records : List.Forall₂ (Records s) s.tradeQueue s.executions
  volumes : ∀ o < s.nextOrder,
    ((s.tradeQueue.filter fun t => t.names (s.order o).id).map Trade.volume).sum =
      entryQty repository s o - (s.order o).currentQty

namespace Ledger

variable {L L' : Ledger}

/-- Nothing has been traded since the constructor. -/
structure Untraded (repository : List OrderData) (L : Ledger) : Prop where
  length_le : repository.length ≤ L.nextOrder
  tradeQueue : L.tradeQueue = []
  executions : L.executions = []
  qty : ∀ o < L.nextOrder, L.qty o =
    match repository[o]? with
    | some x => x.currentQty
    | none => (L.order o).qty

namespace Untraded

variable {repository : List OrderData} (h : L.Untraded repository)

include h

theorem congr (hk : ∀ x, (L'.order x).Keeps (L.order x)) (hq : ∀ x, L'.qty x = L.qty x)
    (hn : L'.nextOrder = L.nextOrder) (he : L'.executions = L.executions)
    (ht : L'.tradeQueue = L.tradeQueue) : L'.Untraded repository where
  length_le := hn ▸ h.length_le
  tradeQueue := ht.trans h.tradeQueue
  executions := he.trans h.executions
  qty := fun o ho => by
    rw [hq, (hk o).qty]
    exact h.qty o (hn ▸ ho)

theorem of_still (hs : Still L L') : L'.Untraded repository :=
  h.congr hs.keeps hs.qty hs.nextOrder hs.executions hs.tradeQueue

theorem allocOrder {x : OrderData} (hx : x.currentQty = x.qty) :
    (L.allocOrder x).Untraded repository where
  length_le := Nat.le_succ_of_le h.length_le
  tradeQueue := h.tradeQueue
  executions := h.executions
  qty := fun o ho => by
    rcases Nat.lt_succ_iff_lt_or_eq.mp ho with ho | rfl
    · have hold : (L.allocOrder x).order o = L.order o := Function.update_of_ne (ne_of_lt ho) _ _
      rw [Ledger.qty, hold]
      exact h.qty o ho
    · have hnew : (L.allocOrder x).order L.nextOrder = x := Function.update_self _ _ _
      rw [List.getElem?_eq_none h.length_le, Ledger.qty, hnew, hx]

/-- **Nothing is traded by a request that finds nothing to trade.** -/
theorem step {s : OrderBook} (hs : Refines s L) {r : Request} (hr : s.tradesNothing r) :
    (L.step r).1.Untraded repository := by
  cases r with
  | add now a =>
    have hreceive : (L.receive a).Untraded repository :=
      (h.allocOrder (x := a.toData) rfl).of_still (.enqueueOrder _ _)
    rw [step_add]
    by_cases hp : (L.receive a).isParked L.nextOrder = true
    · rw [if_pos hp]
      exact hreceive.of_still (.parkOrder _ _)
    · have hactivate : (L.activate a).Untraded repository := by
        refine hreceive.congr (keeps_updateData _ _ .activated) (fun x => ?_) rfl rfl rfl
        by_cases hx : x = L.nextOrder
        · subst hx
          rw [Ledger.qty, Ledger.qty, activate_order_new, receive_order_new,
            OrderData.activated_currentQty]
        · simp [Ledger.qty, Ledger.activate, hx]
      have hun := Idle.matched (hs.idle hr (Bool.eq_false_iff.mpr hp)) hs.wf
      rw [if_neg hp]
      refine Untraded.of_still ?_ (.settle _ _ _)
      refine hactivate.congr hun.frame.keeps (fun x => ?_) hun.frame.nextOrder hun.executions
        hun.frame.tradeQueue
      rw [Ledger.qty, Ledger.qty, hun.order]
  | modify a => exact (h.allocOrder (x := a.toData) rfl).of_still (.modifyOrder _ _)
  | cancel id => exact h.of_still (.cancelOrder L id)
  | checkDate now => exact h.of_still (.checkDateOrders L now)

end Untraded

/-- The constructor trades nothing. -/
theorem untraded_recover (instrument : String) (marketPrice : ℚ) (repository : List OrderData) :
    ((empty instrument marketPrice).recover repository).Untraded repository := by
  -- the orders recovered so far come first in the repository
  have hloop : ∀ rest done L, repository = done ++ rest → L.nextOrder = done.length →
      L.tradeQueue = [] → L.executions = [] →
      (∀ o < L.nextOrder, ∃ x, repository[o]? = some x ∧ L.qty o = x.currentQty) →
      (Ledger.recover L rest).Untraded repository := by
    intro rest
    induction rest with
    | nil =>
      intro done L hrep hn ht he hq
      rw [List.append_nil] at hrep
      refine ⟨(hrep ▸ hn).ge, ht, he, fun o ho => ?_⟩
      obtain ⟨x, hx, hxq⟩ := hq o ho
      rw [Ledger.recover, hx, hxq]
    | cons y rest ih =>
      intro done L hrep hn ht he hq
      have hs := Still.recoverOrder (L.allocOrder y) L.nextOrder
      rw [Ledger.recover]
      refine ih (done ++ [y]) _ (by simp [hrep]) ?_ ?_ ?_ fun o ho => ?_
      · rw [hs.nextOrder, allocOrder_nextOrder, hn, List.length_append, List.length_singleton]
      · rw [hs.tradeQueue, allocOrder_tradeQueue, ht]
      · rw [hs.executions, allocOrder_executions, he]
      · rw [hs.qty]
        rw [hs.nextOrder, allocOrder_nextOrder] at ho
        rcases Nat.lt_succ_iff_lt_or_eq.mp ho with ho | rfl
        · have hold : (L.allocOrder y).order o = L.order o :=
            Function.update_of_ne (ne_of_lt ho) _ _
          rw [Ledger.qty, hold]
          exact hq o ho
        · have hnew : (L.allocOrder y).order L.nextOrder = y := Function.update_self _ _ _
          refine ⟨y, ?_, by rw [Ledger.qty, hnew]⟩
          rw [hn, hrep]
          simp
  exact hloop repository [] _ rfl rfl rfl rfl fun o ho => absurd ho (by simp [empty])

end Ledger

/-- **The trades are complete as long as nothing is executed**: in every run, over any
repository, in which each new order is parked or finds nothing to trade with. -/
theorem trades_complete (instrument : String) (marketPrice : ℚ) (repository : List OrderData)
    {rs : List Request} {s₀ : OrderBook}
    (hnew : OrderBook.new instrument marketPrice repository = .ok s₀)
    (hrs : Meets OrderBook.step OrderBook.tradesNothing s₀ rs) :
    ∃ s answers, runAll OrderBook.step s₀ rs = .ok (s, answers) ∧ TradesComplete repository s := by
  obtain ⟨s₁, hs₁, hL₁⟩ := refines_new instrument marketPrice repository
  obtain rfl : s₀ = s₁ := Except.ok.inj (hnew.symm.trans hs₁)
  obtain ⟨s, answers, L, hrun, hL, hun⟩ := hL₁.run_invariant
    (J := Ledger.Untraded repository) (fun _ _ _ hs hJ hr => hJ.step hs hr)
    (Ledger.untraded_recover instrument marketPrice repository) hrs
  refine ⟨s, answers, hrun, ?_, fun o ho => ?_⟩
  · rw [hL.tradeQueue, hL.executions, hun.tradeQueue, hun.executions]
    exact .nil
  · rw [hL.nextOrder] at ho
    rw [hL.tradeQueue, hun.tradeQueue, hL.qty, hun.qty o ho, entryQty]
    simp [← hL.order o]

/-- A bid that comes to rest and is cancelled. -/
theorem trades_complete_cancel : OrderBook.new "X" 10 [] = .ok (.empty "X" 10) ∧
    ∃ s answers, runAll OrderBook.step (.empty "X" 10)
      [.add 0 (.limit "b" .buy 7 10), .cancel "b"] = .ok (s, answers) ∧ TradesComplete [] s :=
  ⟨rfl, trades_complete "X" 10 [] rfl
    ⟨findsNothing_empty "X" 10 _, fun _ _ _ => ⟨trivial, fun _ _ _ => trivial⟩⟩⟩

/-- An ask and a bid that fill each other: five units are executed, and no trade is
enqueued. -/
theorem trade_missing : ∃ s answers, runAll OrderBook.step (.empty "X" 10)
      [.add 0 (.limit "a" .sell 5 10), .add 0 (.limit "b" .buy 5 10)] = .ok (s, answers) ∧
    ¬ TradesComplete [] s := by
  obtain ⟨⟨s, answers⟩, hrun, hs⟩ := exists_ok_of_map (f := fun r => (r.1.tradeQueue, r.1.executions))
    (b := ([], [⟨1, 0, 5, 10⟩])) (show (runAll OrderBook.step (.empty "X" 10)
      [.add 0 (.limit "a" .sell 5 10), .add 0 (.limit "b" .buy 5 10)]).toOption.map _ = _ by
      decide +kernel)
  obtain ⟨ht, he⟩ := Prod.mk.inj hs
  refine ⟨s, answers, hrun, fun h => ?_⟩
  have hrec := h.records
  rw [ht, he] at hrec
  exact nomatch hrec

end LimitOrderBook
