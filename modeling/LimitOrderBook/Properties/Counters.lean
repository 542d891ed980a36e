import LimitOrderBook.Ledger.Tidy
import LimitOrderBook.Ledger.Arrivals
import LimitOrderBook.OrderBook.Reach

/-!
# The counters of a level

A level counts its orders twice: how many are in its queue, and how many have ever been put
there. `increase_number_of_orders`, which moves both counters, is never called; only
`remove_limit_order` moves one of them, and moves it down. So the total stays at zero, and the
other counter is the length of the queue less the number of all orders that were ever put
there, modulo `2 ^ 64` (`LimitOrderBook.counters_behind`).

Every level that exists has been given an order, so that both counters are right as long as
there is no level: as long as no order comes to rest (`LimitOrderBook.counters_iff`).
-/

namespace LimitOrderBook

open OrderBook (Request)

/-- How many orders were ever put into the level: an order keeps the pointer to its level,
which `add_limit_order` sets when it puts the order there. -/
def OrderBook.everAppended (s : OrderBook) (l : ℕ) : ℕ :=
  (List.range s.nextOrder).countP fun o => (s.order o).parent = some l

/-- **The counters are right**: at every level of both sides the one is the length of the queue,
and the other the number of orders that were ever put there. -/
def CountersRight (s : OrderBook) : Prop :=
  ∀ b, ∃ levels, (s.limits b).keys = .ok levels ∧ ∀ l ∈ levels,
    (∃ queue, s.ordersAt l = .ok queue ∧ (s.limit l).numberOfActiveOrders.toNat = queue.length) ∧
    (s.limit l).totalNumberOfOrders.toNat = s.everAppended l

/-- A request adds no order that comes to rest at this market price where there is nothing to
trade with: the order is parked, or it has one of the two flags of fill-or-kill. -/
def OrderBook.Request.restsNothing (marketPrice : ℚ) : Request → Prop
  | .add _ a => (a.toData.hasParam .stop && a.toData.isDormant marketPrice) = true ∨
      a.toData.activated.hasParam .fok = true
  | _ => True

namespace Ledger

variable {L L' : Ledger} {o c l : ℕ} {b : Bool}

/-! ### Counting the orders of a level -/

def everAppended (L : Ledger) (l : ℕ) : ℕ :=
  (List.range L.nextOrder).countP fun o => L.parent o = some l

/-- One more order has been put into a level. -/
theorem countP_update {f : ℕ → Option ℕ} {xs : List ℕ} (hnd : xs.Nodup) (ho : o ∈ xs)
    (hf : f o = none) (l k : ℕ) :
    xs.countP (fun x => Function.update f o (some l) x = some k) =
      xs.countP (fun x => f x = some k) + if k = l then 1 else 0 := by
  have hrest : (xs.erase o).countP (fun x => Function.update f o (some l) x = some k) =
      (xs.erase o).countP (fun x => f x = some k) := by
    refine List.countP_congr fun x hx => ?_
    have hxo : x ≠ o := by
      rintro rfl
      exact (hnd.not_mem_erase hx).elim
    rw [Function.update_of_ne hxo]
  have hperm := List.perm_cons_erase ho
  rw [hperm.countP_eq, hperm.countP_eq, List.countP_cons, List.countP_cons, hrest,
    Function.update_self, hf]
  by_cases hk : k = l
  · simp [hk]
  · simp [hk, Ne.symm hk]

theorem everAppended_place (ho : o < L.nextOrder) (hp : L.parent o = none) (q : List ℕ) (k : ℕ) :
    (L.place o l q).everAppended k = L.everAppended k + if k = l then 1 else 0 :=
  countP_update List.nodup_range (List.mem_range.mpr ho) hp l k

/-- A new order has not been put anywhere. -/
theorem everAppended_allocOrder (L : Ledger) (x : OrderData) (k : ℕ) :
    (L.allocOrder x).everAppended k = L.everAppended k := by
  have hold : (List.range L.nextOrder).countP (fun o => (L.allocOrder x).parent o = some k) =
      L.everAppended k := by
    refine List.countP_congr fun o ho => ?_
    rw [allocOrder_parent, Function.update_of_ne (List.mem_range.mp ho).ne]
  have hnew : (L.allocOrder x).parent L.nextOrder = none := Function.update_self _ _ _
  rw [everAppended, allocOrder_nextOrder, List.range_succ, List.countP_append, hold,
    List.countP_singleton, hnew]
  simp

/-- Nothing was ever put into a level that does not exist yet. -/
theorem WellFormed.everAppended_nextLimit (h : L.WellFormed) : L.everAppended L.nextLimit = 0 := by
  refine List.countP_eq_zero.mpr fun o _ hp => ?_
  exact lt_irrefl _ (h.parent_lt o _ (of_decide_eq_true hp))

/-- **The counters only go down**: the total is zero, and the number of active orders is behind
the length of the queue by the number of orders ever put there. -/
structure Behind (L : Ledger) : Prop where
  total : ∀ l, (L.limit l).totalNumberOfOrders = 0
  active : ∀ l, (L.limit l).numberOfActiveOrders + UInt64.ofNat (L.everAppended l) =
    UInt64.ofNat (L.queue l).length

namespace Behind

variable (h : L.Behind)

include h

/-- What leaves queues and counters alone. -/
theorem congr (hlimit : L'.limit = L.limit) (hqueue : L'.queue = L.queue)
    (hcount : ∀ k, L'.everAppended k = L.everAppended k) : L'.Behind where
  total := by
    rw [hlimit]
    exact h.total
  active := fun k => by
    rw [hlimit, hqueue, hcount]
    exact h.active k

/-- **An order leaves its queue**, and the counter goes down by one. -/
theorem displace (hc : c ∈ L.queue l) : (L.displace c l).Behind where
  total := fun k => by
    rw [displace_limit]
    by_cases hk : k = l
    · subst hk
      rw [Function.update_self]
      exact h.total k
    · rw [Function.update_of_ne hk]
      exact h.total k
  active := fun k => by
    rw [displace_limit, displace_queue]
    by_cases hk : k = l
    · subst hk
      have hold := h.active k
      have hlen : (L.queue k).length = ((L.queue k).erase c).length + 1 := by
        have := List.length_pos_of_mem hc
        rw [List.length_erase_of_mem hc]
        omega
      rw [hlen, UInt64.ofNat_add] at hold
      rw [Function.update_self, Function.update_self]
      change (L.limit k).numberOfActiveOrders - 1 + UInt64.ofNat (L.everAppended k) = _
      grind
    · rw [Function.update_of_ne hk, Function.update_of_ne hk]
      exact h.active k

/-- **An order is put into a level**, and the counter does not move. -/
theorem place (ho : o < L.nextOrder) (hp : L.parent o = none) {q : List ℕ}
    (hq : q.length = (L.queue l).length + 1) : (L.place o l q).Behind where
  total := fun k => by
    rw [place_limit]
    by_cases hk : k = l
    · subst hk
      rw [Function.update_self]
      exact h.total k
    · rw [Function.update_of_ne hk]
      exact h.total k
  active := fun k => by
    rw [place_limit, place_queue, everAppended_place ho hp]
    by_cases hk : k = l
    · subst hk
      have hold := h.active k
      rw [Function.update_self, Function.update_self, hq, UInt64.ofNat_add, if_pos rfl,
        UInt64.ofNat_add]
      change (L.limit k).numberOfActiveOrders + _ = _
      grind
    · rw [Function.update_of_ne hk, Function.update_of_ne hk, if_neg hk]
      exact h.active k

/-- A new level object has both counters at zero. -/
theorem allocLimit (hwf : L.WellFormed) (price : ℚ) : (L.allocLimit price).Behind where
  total := fun k => by
    rw [allocLimit_limit]
    by_cases hk : k = L.nextLimit
    · rw [hk, Function.update_self]
    · rw [Function.update_of_ne hk]
      exact h.total k
  active := fun k => by
    have hcount : (L.allocLimit price).everAppended k = L.everAppended k := rfl
    rw [allocLimit_limit, allocLimit_queue, hcount]
    by_cases hk : k = L.nextLimit
    · rw [hk, Function.update_self, Function.update_self, hwf.everAppended_nextLimit]
      rfl
    · rw [Function.update_of_ne hk, Function.update_of_ne hk]
      exact h.active k

/-- `add_limit_order` puts the order into one level, which may be a new one of the side. -/
theorem addLimitOrder (hwf : L.WellFormed) (ho : o < L.nextOrder) (hp : L.parent o = none)
    {limit : ℕ} (hq : L.queue limit = []) : (L.addLimitOrder o limit b).Behind ∧
      (∀ k, L.everAppended k ≤ (L.addLimitOrder o limit b).everAppended k) ∧
      ∀ c, ∀ k ∈ (L.addLimitOrder o limit b).levels c, k ∈ L.levels c ∨
        0 < (L.addLimitOrder o limit b).everAppended k := by
  rw [Ledger.addLimitOrder]
  split
  · next l _ =>
    refine ⟨h.place ho hp (by simp), fun k => ?_, fun c k hk => Or.inl hk⟩
    rw [everAppended_place ho hp]
    exact Nat.le_add_right _ _
  · have hopen : (L.openLevel limit b).Behind := h.congr rfl rfl fun _ => rfl
    refine ⟨hopen.place ho hp (by simp [hq]), fun k => ?_, fun c k hk => ?_⟩
    · rw [everAppended_place (L := L.openLevel limit b) ho hp]
      exact Nat.le_add_right _ _
    · by_cases hlimit : k = limit
      · refine Or.inr ?_
        rw [everAppended_place (L := L.openLevel limit b) ho hp, if_pos hlimit]
        exact Nat.succ_pos _
      · refine Or.inl ?_
        rw [place_levels, openLevel_levels] at hk
        by_cases hc : c = b
        · subst hc
          rw [Function.update_self] at hk
          have hk := (mem_insertKey (L.limitLess_strictWeak c) (hwf.levels_sorted c)).mp hk
          exact (hk.resolve_left hlimit).1
        · rwa [Function.update_of_ne hc] at hk

end Behind

/-- The counters are behind, and every level that there is has been given an order. -/
structure CountsDown (L : Ledger) : Prop where
  behind : L.Behind
  appended : ∀ b, ∀ l ∈ L.levels b, 0 < L.everAppended l

theorem countsDown_empty (instrument : String) (marketPrice : ℚ) :
    (empty instrument marketPrice).CountsDown :=
  ⟨⟨fun _ => rfl, fun _ => rfl⟩, by simp [empty]⟩

namespace CountsDown

variable (h : L.CountsDown)

include h

theorem congr (hlimit : L'.limit = L.limit) (hqueue : L'.queue = L.queue)
    (hlevels : L'.levels = L.levels) (hcount : ∀ k, L'.everAppended k = L.everAppended k) :
    L'.CountsDown where
  behind := h.behind.congr hlimit hqueue hcount
  appended := fun b l hl => by
    rw [hlevels] at hl
    rw [hcount]
    exact h.appended b l hl

theorem displace (hc : c ∈ L.queue l) : (L.displace c l).CountsDown :=
  ⟨h.behind.displace hc, h.appended⟩

theorem fillOrder (hwf : L.WellFormed) {p : ℚ} (hc : c ∈ L.queue l) :
    (L.fillOrder c o p).CountsDown := by
  have hframe := MatchFrame.resolveOrders L c o p
  have hcount : ∀ k, (L.resolveOrders c o p).everAppended k = L.everAppended k := fun k => by
    rw [everAppended, everAppended, hframe.nextOrder, hframe.parent]
  have hresolve := h.congr (resolveOrders_limit L c o p) (resolveOrders_queue L c o p) hframe.levels
    hcount
  rw [hwf.fillOrder_eq hc]
  split
  · refine hresolve.displace (l := l) ?_
    rwa [resolveOrders_queue]
  · exact hresolve

theorem matchLimits (hwf : L.WellFormed) (ho : ∀ l, o ∉ L.queue l) (ls : List ℕ) :
    (L.matchLimits o ls).1.CountsDown :=
  (matchLimits_invariant (J := CountsDown) (fun _ _ _ _ _ _ hwf hJ hc _ => hJ.fillOrder hwf hc)
    (fun _ _ hJ => hJ.congr rfl rfl rfl fun _ => rfl) hwf ho h).1

theorem receive (a : OrderArgs) : (L.receive a).CountsDown :=
  h.congr rfl rfl rfl (L.everAppended_allocOrder a.toData)

theorem matched (hwf : L.WellFormed) (a : OrderArgs) : (L.matched a).1.CountsDown := by
  have hactivate : (L.activate a).CountsDown := (h.receive a).congr rfl rfl rfl fun _ => rfl
  exact hactivate.matchLimits (hwf.activate a) (hwf.fresh_activate a).queue _

theorem parkOrder (o : ℕ) : (L.parkOrder o).CountsDown := by
  obtain ⟨dates, hdates⟩ := L.parkOrder_eq o
  rw [hdates]
  exact h.congr rfl rfl rfl fun _ => rfl

/-- **A new order comes to rest**, in a level that has been given an order by then. -/
theorem restOrder (hwf : L.WellFormed) (ho : o < L.nextOrder) (hp : L.parent o = none) :
    (L.restOrder o).CountsDown := by
  obtain ⟨hbehind, hcount, hlevels⟩ := (h.behind.allocLimit hwf (L.order o).price).addLimitOrder
    (b := (L.order o).isBuy) (hwf.allocLimit _) ho hp (Function.update_self _ _ _)
  have hadd : ((L.allocLimit (L.order o).price).addLimitOrder o L.nextLimit
      (L.order o).isBuy).CountsDown := by
    refine ⟨hbehind, fun c k hk => ?_⟩
    rcases hlevels c k hk with hk | hk
    · exact (h.appended c k hk).trans_le (hcount k)
    · exact hk
  rw [Ledger.restOrder]
  obtain ⟨dates, hdates⟩ := addDateOrder_frame (((L.allocLimit (L.order o).price).addLimitOrder o
    L.nextLimit (L.order o).isBuy).insertEntry o) o
  rw [hdates]
  exact hadd.congr rfl rfl rfl fun _ => rfl

theorem cancelOrder (ht : L.Tidy) (id : String) : (L.cancelOrder id).1.CountsDown := by
  have hcancel : ∀ e, (L.updateData e .cancel).CountsDown := fun e =>
    h.congr rfl rfl rfl fun _ => rfl
  rcases ht.wf.cancelOrder_cases id with ⟨-, he⟩ | ⟨e, -, -, he⟩ | ⟨e, l, hlook, -, hpar, he⟩ <;>
    rw [he]
  · exact h
  · exact (hcancel e).congr rfl rfl rfl fun _ => rfl
  · have hmem : e ∈ (L.updateData e .cancel).queue l := ht.mem_queue_of_entry hlook hpar
    exact ((hcancel e).displace hmem).congr rfl rfl rfl fun _ => rfl

/-- **The counters stay behind** when orders are added and cancelled and dates are checked. -/
theorem step (ht : L.Tidy) {r : Request} (hr : r.keepsOrders = true) :
    (L.step r).1.CountsDown := by
  cases r with
  | add now a =>
    have hparent : (L.matched a).1.parent L.nextOrder = none :=
      (congrFun (MatchFrame.matchLimits (o := L.nextOrder) (L.activate a) _).parent _).trans
        (Function.update_self _ _ _)
    have hlt : L.nextOrder < (L.matched a).1.nextOrder :=
      ((ht.wf.fresh_activate a).of_frame (.matchLimits _ _)).lt
    have hM := h.matched ht.wf a
    rw [step_add, settle]
    split
    · exact (h.receive a).parkOrder _
    · split
      · exact hM
      · split
        · exact hM.congr rfl rfl rfl fun _ => rfl
        · exact hM.restOrder (ht.matched a).wf hlt hparent
  | modify a => exact absurd hr (by simp [Request.keepsOrders])
  | cancel id => exact h.cancelOrder ht id
  | checkDate now =>
    exact (checkDateOrders_rule (J := fun L => L.Tidy ∧ L.CountsDown)
      (fun L' o hJ _ _ => ⟨hJ.1.cancelOrder _, hJ.2.cancelOrder hJ.1 _⟩)
      (fun L' o hJ => ⟨{ hJ.1 with wf := hJ.1.wf.eraseDate },
        hJ.2.congr rfl rfl rfl fun _ => rfl⟩) ⟨ht, h⟩).2

end CountsDown

end Ledger

namespace Ledger

variable {L : Ledger}

/-! ### Requests to a book without levels -/

/-- There is nothing to match with. -/
theorem matched_of_no_levels (hnone : ∀ b, L.levels b = []) (a : OrderArgs) :
    L.matched a = (L.activate a, false) := by
  rw [matched, hnone]
  rfl

/-- **A book without levels gets one** exactly if an order comes to rest, and its price does not
change. -/
theorem WellFormed.step_no_levels (h : L.WellFormed) (hnone : ∀ b, L.levels b = []) {r : Request}
    (hr : r.keepsOrders = true) : (L.step r).1.marketPrice = L.marketPrice ∧
      ((∀ b, (L.step r).1.levels b = []) ↔ r.restsNothing L.marketPrice) := by
  cases r with
  | add now a =>
    have hnew : (L.receive a).isParked L.nextOrder =
        (a.toData.hasParam .stop && a.toData.isDormant L.marketPrice) := by
      rw [isParked, receive_order_new]
      rfl
    rw [step_add, matched_of_no_levels hnone, hnew, Request.restsNothing]
    by_cases hp : (a.toData.hasParam .stop && a.toData.isDormant L.marketPrice) = true
    · rw [if_pos hp]
      obtain ⟨dates, hdates⟩ := (L.receive a).parkOrder_eq L.nextOrder
      refine ⟨(Still.parkOrder _ _).marketPrice, iff_of_true (fun b => ?_) (Or.inl hp)⟩
      rw [hdates]
      exact hnone b
    · rw [if_neg hp, or_iff_right hp]
      refine ⟨(Still.settle _ _ _).marketPrice, ?_⟩
      rw [settle, if_neg Bool.false_ne_true, activate_order_new]
      by_cases hfok : a.toData.activated.hasParam .fok = true
      · rw [if_pos hfok]
        exact iff_of_true hnone hfok
      · rw [if_neg hfok]
        obtain ⟨l, hl, -, -⟩ := (h.activate a).restOrder L.nextOrder
        exact iff_of_false (fun hb => List.ne_nil_of_mem hl.mem (hb _)) hfok
  | modify a => exact absurd hr (by simp [Request.keepsOrders])
  | cancel id =>
    refine ⟨(Still.cancelOrder L id).marketPrice, iff_of_true (fun b => ?_) trivial⟩
    exact (congrFun (h.levels_cancelOrder id).1 b).trans (hnone b)
  | checkDate now =>
    refine ⟨(Still.checkDateOrders L now).marketPrice, iff_of_true (fun b => ?_) trivial⟩
    exact (checkDateOrders_rule (J := fun L' => L'.WellFormed ∧ L'.levels b = [])
      (fun L' o hJ _ _ => ⟨hJ.1.cancelOrder _,
        (congrFun (hJ.1.levels_cancelOrder _).1 b).trans hJ.2⟩)
      (fun L' o hJ => ⟨hJ.1.eraseDate, hJ.2⟩) ⟨h, hnone b⟩).2

end Ledger

/-! ### Runs -/

theorem Refines.everAppended {s : OrderBook} {L : Ledger} (h : Refines s L) (l : ℕ) :
    s.everAppended l = L.everAppended l := by
  rw [OrderBook.everAppended, Ledger.everAppended, h.nextOrder]
  simp only [h.parent]

/-- **Both counters are right only where there is no level.** -/
theorem Refines.countersRight_iff {s : OrderBook} {L : Ledger} (h : Refines s L)
    (hc : L.CountsDown) : CountersRight s ↔ ∀ b, L.levels b = [] := by
  constructor
  · intro hright b
    obtain ⟨levels, hkeys, hlevel⟩ := hright b
    rw [(h.levels b).keys, Except.ok.injEq] at hkeys
    refine List.eq_nil_iff_forall_not_mem.mpr fun l hl => ?_
    have htotal : (s.limit l).totalNumberOfOrders = 0 :=
      (congrArg LimitData.totalNumberOfOrders (h.limit l)).trans (hc.behind.total l)
    have hcount := (hlevel l (hkeys ▸ hl)).2
    rw [htotal, h.everAppended] at hcount
    exact absurd hcount (hc.appended b l hl).ne
  · intro hnone b
    refine ⟨[], ?_, by simp⟩
    rw [(h.levels b).keys, hnone b]

/-- **The counters are behind** in every run of new orders, cancellations and checks of dates: at
every level the total is zero, though an order has been put there, and the number of active
orders lags by the number of orders that were ever put there. -/
theorem counters_behind (instrument : String) (marketPrice : ℚ) {rs : List Request}
    (hrs : ∀ r ∈ rs, r.keepsOrders = true) :
    ∃ s answers, runAll OrderBook.step (.empty instrument marketPrice) rs = .ok (s, answers) ∧
      ∀ b, ∃ levels, (s.limits b).keys = .ok levels ∧ ∀ l ∈ levels, ∃ queue,
        s.ordersAt l = .ok queue ∧ (s.limit l).totalNumberOfOrders = 0 ∧ 0 < s.everAppended l ∧
        (s.limit l).numberOfActiveOrders + UInt64.ofNat (s.everAppended l) =
          UInt64.ofNat queue.length := by
  obtain ⟨s, answers, L, hrun, hL, -, hc⟩ := (refines_empty instrument marketPrice).run_invariant
    (J := fun L => L.Tidy ∧ L.CountsDown)
    (fun _ _ _ _ hJ hr => ⟨hJ.1.step hr, hJ.2.step hJ.1 hr⟩)
    ⟨Ledger.tidy_empty instrument marketPrice, Ledger.countsDown_empty instrument marketPrice⟩
    (meets_of_forall hrs _)
  refine ⟨s, answers, hrun, fun b => ⟨_, (hL.levels b).keys, fun l hl => ⟨_, hL.ordersAt l, ?_⟩⟩⟩
  rw [hL.everAppended, congrArg LimitData.totalNumberOfOrders (hL.limit l),
    congrArg LimitData.numberOfActiveOrders (hL.limit l)]
  exact ⟨hc.behind.total l, hc.appended b l hl, hc.behind.active l⟩

/-- **The counters are right throughout a run** of new orders, cancellations and checks of dates
exactly if none of its orders comes to rest: each is parked, or asks to be filled at once, which
a book without levels cannot do. -/
theorem counters_iff (instrument : String) (marketPrice : ℚ) {rs : List Request}
    (hrs : ∀ r ∈ rs, r.keepsOrders = true) :
    Throughout OrderBook.step CountersRight (.empty instrument marketPrice) rs ↔
      ∀ r ∈ rs, r.restsNothing marketPrice := by
  have hmeets : Throughout OrderBook.step CountersRight (.empty instrument marketPrice) rs ↔
      Meets OrderBook.step (fun _ r => r.restsNothing marketPrice)
        (.empty instrument marketPrice) rs := by
    refine throughout_iff_meets
      (I := fun s => ∃ L, Refines s L ∧ L.Tidy ∧ L.CountsDown ∧
        ((∀ b, L.levels b = []) → L.marketPrice = marketPrice))
      (fun s r hr hI hP => ?_) hrs
      ⟨_, refines_empty instrument marketPrice, Ledger.tidy_empty instrument marketPrice,
        Ledger.countsDown_empty instrument marketPrice, fun _ => rfl⟩
      (((refines_empty instrument marketPrice).countersRight_iff
        (Ledger.countsDown_empty instrument marketPrice)).mpr fun _ => rfl)
    obtain ⟨L, hL, ht, hc, hprice⟩ := hI
    have hnone := (hL.countersRight_iff hc).mp hP
    obtain ⟨hsame, hiff⟩ := ht.wf.step_no_levels hnone hr
    rw [hprice hnone] at hsame hiff
    obtain ⟨s', hs', hL'⟩ := hL.step r
    have hc' := hc.step ht hr
    exact ⟨s', _, hs', ⟨_, hL', ht.step hr, hc', fun _ => hsame⟩,
      (hL'.countersRight_iff hc').trans hiff⟩
  rw [hmeets]
  refine meets_iff_forall (I := fun s => ∃ L, Refines s L) (fun s r hI => ?_)
    ⟨_, refines_empty instrument marketPrice⟩
  obtain ⟨L, hL⟩ := hI
  obtain ⟨s', hs', hL'⟩ := hL.step r
  exact ⟨s', _, hs', _, hL'⟩

/-- A stop order that is parked, and a bid that is to be filled at once. -/
theorem counters_iff_two : Throughout OrderBook.step CountersRight (.empty "X" 10)
      [.add 0 { OrderArgs.limit "a" .buy 5 10 .stop with stopPrice := 8 },
        .add 0 (.limit "b" .buy 5 10 .ioc)] ↔
    ∀ r ∈ ([.add 0 { OrderArgs.limit "a" .buy 5 10 .stop with stopPrice := 8 },
      .add 0 (.limit "b" .buy 5 10 .ioc)] : List Request), r.restsNothing 10 :=
  counters_iff "X" 10 (by decide)

/-- **An ask that rests and is cancelled**: its level then has `2 ^ 64 - 1` active orders, in an
empty queue, and no order was ever put there. -/
theorem counter_wraps : ∃ s answers, runAll OrderBook.step (.empty "X" 10)
      [.add 0 (.limit "a" .sell 5 10), .cancel "a"] = .ok (s, answers) ∧
    (s.limits false).keys = .ok [0] ∧ s.ordersAt 0 = .ok [] ∧
    (s.limit 0).numberOfActiveOrders = 18446744073709551615 ∧
    (s.limit 0).totalNumberOfOrders = 0 ∧ s.everAppended 0 = 1 ∧ ¬ CountersRight s := by
  obtain ⟨⟨s, answers⟩, hrun, hs⟩ := exists_ok_of_map (f := fun r =>
      ((r.1.limits false).keys.toOption, (r.1.ordersAt 0).toOption,
        (r.1.limit 0).numberOfActiveOrders, (r.1.limit 0).totalNumberOfOrders))
    (b := (some [0], some [], 18446744073709551615, 0)) (show (runAll OrderBook.step (.empty "X" 10)
      [.add 0 (.limit "a" .sell 5 10), .cancel "a"]).toOption.map _ = _ by decide +kernel)
  have hcount := eq_of_ok_of_map (f := fun r => r.1.everAppended 0) (b := 1) hrun (by decide +kernel)
  simp only [Prod.mk.injEq] at hs
  obtain ⟨hkeys, hat, hactive, htotal⟩ := hs
  obtain ⟨_, hkeys, rfl⟩ := exists_ok_of_map (f := id) (Option.map_id_apply.trans hkeys)
  obtain ⟨_, hat, rfl⟩ := exists_ok_of_map (f := id) (Option.map_id_apply.trans hat)
  refine ⟨s, answers, hrun, hkeys, hat, hactive, htotal, hcount, fun h => ?_⟩
  obtain ⟨levels, hkeys', hlevel⟩ := h false
  have hmem : 0 ∈ levels := by simp [← Except.ok.inj (hkeys.symm.trans hkeys')]
  have htotal' := (hlevel 0 hmem).2
  rw [htotal, hcount] at htotal'
  exact absurd htotal' (by decide)

end LimitOrderBook
