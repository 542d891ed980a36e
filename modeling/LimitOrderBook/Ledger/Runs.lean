import LimitOrderBook.Ledger.Simulation
import LimitOrderBook.OrderBook.Vocabulary

/-!
# Queries and runs

What the queries of a book return is read off the ledger it refines, and an
invariant of ledgers is one of books: to show that something holds in every state
of every run, it is enough to look at single requests and at ledgers
(`LimitOrderBook.Refines.run_invariant`).

The new order of a request `add` is described once: the ledger that `add_order`
starts from (`LimitOrderBook.Ledger.receive`), the one it matches in
(`LimitOrderBook.Ledger.activate`), and how it ends
(`LimitOrderBook.Ledger.step_add`).
-/

namespace LimitOrderBook

open OrderBook (Request)

/-! ### Queries -/

namespace Ledger

/-- The orders in the queues of a side, in the order of the levels and of the
queues. -/
def resting (L : Ledger) (b : Bool) : List ℕ := (L.levels b).flatMap L.queue

theorem mem_resting {L : Ledger} {b : Bool} {o : ℕ} :
    o ∈ L.resting b ↔ ∃ l ∈ L.levels b, o ∈ L.queue l := List.mem_flatMap

/-- The orders that rest or are parked. -/
def live (L : Ledger) : List ℕ := L.resting true ++ L.resting false ++ L.stops true ++ L.stops false

theorem mem_live {L : Ledger} {o : ℕ} :
    o ∈ L.live ↔ (∃ b, o ∈ L.resting b) ∨ ∃ b, o ∈ L.stops b := by
  simp only [live, List.mem_append, Bool.exists_bool]
  tauto

/-- The rows of the snapshot for a side. -/
def snapshotLimits (L : Ledger) (b : Bool) : List SnapshotLimit :=
  (L.levels b).map fun l => ⟨(L.limit l).price, (L.limit l).activeVolume⟩

end Ledger

namespace Refines

variable {s : OrderBook} {L : Ledger} (h : Refines s L) {b : Bool}

include h

theorem ordersFrom {q : List ℕ} {n : ℕ} {xs : List ℕ} {l : ℕ} (hq : L.queue l = xs ++ q)
    (hn : q.length < n) : s.ordersFrom n q.head? = .ok q := by
  induction q generalizing n xs with
  | nil =>
    obtain ⟨n, rfl⟩ : ∃ m, n = m + 1 := ⟨n - 1, by simp at hn; omega⟩
    rfl
  | cons c q ih =>
    obtain ⟨n, rfl⟩ : ∃ m, n = m + 1 := ⟨n - 1, by simp at hn; omega⟩
    have hnext : (s.order c).next = q.head? := (h.linked l).next_eq hq
    rw [List.head?_cons, OrderBook.ordersFrom, hnext,
      ih (hq.trans (List.append_cons xs c q)) (by simp at hn; omega)]
    rfl

theorem ordersAt (l : ℕ) : s.ordersAt l = .ok (L.queue l) := by
  rw [OrderBook.ordersAt, h.head]
  exact h.ordersFrom (List.nil_append _).symm (h.fuel_gt l)

/-- **`get_bids` and `get_asks`**. -/
theorem getOrders (b : Bool) : s.getOrders b = .ok (L.resting b) := by
  have hin : ∀ ls, s.ordersIn ls = .ok (ls.flatMap L.queue) := by
    intro ls
    induction ls with
    | nil => rfl
    | cons l ls ih =>
      rw [OrderBook.ordersIn, h.ordersAt, ok_bind, ih]
      rfl
  rw [OrderBook.getOrders, (h.levels b).keys, ok_bind]
  exact hin _

theorem getStopOrders (b : Bool) : (s.stopOrders b).keys = .ok (L.stops b) := (h.stops b).keys

theorem liveOrders : s.liveOrders = .ok L.live := by
  have hbid : s.getBidStopOrders = .ok (L.stops true) := (h.stops true).keys
  have hask : s.getAskStopOrders = .ok (L.stops false) := (h.stops false).keys
  rw [OrderBook.liveOrders, OrderBook.getBids, OrderBook.getAsks, h.getOrders, h.getOrders, hbid,
    hask]
  rfl

theorem size : s.size = L.orders.keys.length := by rw [OrderBook.size, h.orders]

theorem getSnapshotLimits (b : Bool) : s.getSnapshotLimits b = .ok (L.snapshotLimits b) := by
  rw [OrderBook.getSnapshotLimits, (h.levels b).keys, ok_bind, Ledger.snapshotLimits]
  refine congrArg Except.ok (List.map_congr_left fun l _ => ?_)
  rw [← h.limit l]

theorem priceOr (d : ℚ) (l : Option ℕ) :
    s.priceOr d l = (l.map fun l => (L.limit l).price).getD d := by
  cases l with
  | none => rfl
  | some l => exact congrArg LimitData.price (h.limit l)

/-- **`get_spread`** reads the last level of the bids and the first one of the asks. -/
theorem getSpread_eq : s.getSpread =
    .ok ⟨((L.levels true).getLast?.map fun l => (L.limit l).price).getD (-1),
      ((L.levels false).head?.map fun l => (L.limit l).price).getD (-1), L.marketPrice⟩ := by
  have hbid : s.bidLimits.lastKey = .ok _ := (h.levels true).lastKey (h.lastLevel true)
  have hask : s.askLimits.firstKey = .ok _ := (h.levels false).firstKey
  rw [OrderBook.getSpread, hbid, ok_bind, hask, ok_bind, h.priceOr, h.priceOr, h.marketPrice]

theorem getSpread : ∃ spread, s.getSpread = .ok spread := ⟨_, h.getSpread_eq⟩

/-- **`get_snapshot`** lists the levels of both sides. -/
theorem getSnapshot : ∃ spread, s.getSnapshot =
    .ok ⟨L.snapshotLimits false, L.snapshotLimits true, spread⟩ := by
  obtain ⟨spread, hspread⟩ := h.getSpread
  rw [OrderBook.getSnapshot, h.getSnapshotLimits, ok_bind, h.getSnapshotLimits, ok_bind, hspread]
  exact ⟨spread, rfl⟩

/-- What an order that is due leads to in the index is not a stop order. -/
theorem due_entry {now : ℤ} {o e : ℕ} (hstop : s.cancelsNoStop (.checkDate now))
    (ho : o ∈ L.dueOrders now) (he : L.orders.lookup (L.order o).id = some e) :
    (s.order e).hasParam .stop = false := by
  refine hstop _ h.dates.keys o ?_ e ?_
  · simpa only [Ledger.dueOrders, ← h.order] using ho
  · rw [h.orders, ← he, ← h.order o]

/-! ### Runs -/

/-- **The rule for runs of a book**, for invariants that also look at the requests
still to come. -/
theorem run_rule {cond : OrderBook → Request → Prop} {J : Ledger → List Request → Prop}
    (hstep : ∀ s L r rs, Refines s L → J L (r :: rs) → cond s r → J (L.step r).1 rs)
    {rs : List Request} (hJ : J L rs) (hrs : Meets OrderBook.step cond s rs) :
    ∃ s' answers L', runAll OrderBook.step s rs = .ok (s', answers) ∧ Refines s' L' ∧ J L' [] := by
  have hI : ∀ s r rs, (∃ L, Refines s L ∧ J L (r :: rs)) → cond s r →
      ∃ s' answer, s.step r = .ok (s', answer) ∧ ∃ L, Refines s' L ∧ J L rs := by
    rintro s r rs ⟨L, hL, hJ⟩ hc
    obtain ⟨s', hs', h'⟩ := hL.step r
    exact ⟨s', _, hs', _, h', hstep s L r rs hL hJ hc⟩
  obtain ⟨s', answers, hrun, L', h', hJ'⟩ := runAll_invariant
    (I := fun s rs => ∃ L, Refines s L ∧ J L rs) hI ⟨L, h, hJ⟩ hrs
  exact ⟨s', answers, L', hrun, h', hJ'⟩

/-- **The invariant rule for runs of a book**: an invariant of ledgers that every
request preserves, under the condition it meets, holds of what the book refines at
the end of the run, and the run does not fault. -/
theorem run_invariant {cond : OrderBook → Request → Prop} {J : Ledger → Prop}
    (hstep : ∀ s L r, Refines s L → J L → cond s r → J (L.step r).1) {rs : List Request}
    (hJ : J L) (hrs : Meets OrderBook.step cond s rs) :
    ∃ s' answers L', runAll OrderBook.step s rs = .ok (s', answers) ∧ Refines s' L' ∧ J L' := by
  exact h.run_rule (J := fun L _ => J L) (fun s L r _ => hstep s L r) hJ hrs

end Refines

/-! ### New orders -/

namespace Ledger

variable (L : Ledger) (a : OrderArgs)

/-- The ledger in which `add_order` tests whether the new order is to be parked. -/
def receive : Ledger := (L.allocOrder a.toData).enqueueOrder L.nextOrder

/-- The ledger in which `add_order` matches the new order. -/
def activate : Ledger := (L.receive a).updateData L.nextOrder .activated

/-- What `match_order` makes of it. -/
def matched : Ledger × Bool :=
  (L.activate a).matchLimits L.nextOrder (L.levels (!a.toData.isBuy))

/-- **The ways `add_order` ends.** -/
theorem step_add (now : ℤ) : L.step (.add now a) =
    if (L.receive a).isParked L.nextOrder then
      ((L.receive a).parkOrder L.nextOrder, some .accepted)
    else (((L.matched a).1.settle L.nextOrder (L.matched a).2).1,
      some ((L.matched a).1.settle L.nextOrder (L.matched a).2).2) := by
  have hbuy : ((L.receive a).order L.nextOrder).isBuy = a.toData.isBuy := by simp [receive]
  have hadd : (L.allocOrder a.toData).addOrder L.nextOrder =
      if (L.receive a).isParked L.nextOrder then ((L.receive a).parkOrder L.nextOrder, .accepted)
      else (L.matched a).1.settle L.nextOrder (L.matched a).2 := by
    rw [matched, ← hbuy]
    rfl
  simp only [step, hadd]
  split <;> rfl

end Ledger

end LimitOrderBook
