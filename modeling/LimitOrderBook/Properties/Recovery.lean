import LimitOrderBook.Ledger.Recovered
import LimitOrderBook.Properties.Stops
import LimitOrderBook.Repository.OrderRepository

/-!
# What a restart brings back

The book that the constructor builds from the records of the live orders of another one,
compared with that one (`LimitOrderBook.OrderBook.Reproduces`). The constructor tells parked
orders from resting ones by their flags, fills levels in the order of the ids, and leaves the
index and the registry of dated orders empty; a record has no stop price. So a book comes back
as it was exactly if there is nothing of the kind to lose
(`LimitOrderBook.OrderBook.LosesNothing`, `LimitOrderBook.recovery_iff`).

A resting order is compared by what a record holds, a parked one with its stop price.
-/

namespace LimitOrderBook

open OrderBook (Request)

namespace OrderBook

/-- **The repository holds one record for each live order**, written from its current state. -/
structure Stored (s : OrderBook) (store : OrderStore) : Prop where
  ids : ∃ live, s.liveOrders = .ok live ∧ (live.map fun o => (s.order o).id).Nodup
  records : ∃ live, s.liveOrders = .ok live ∧
    ∀ x, x ∈ store.records ↔ ∃ o ∈ live, (s.order o).archived = x

/-- **The book `s'` is `s` again**: the same orders in the same places, the same dated orders,
and the same ids to cancel. -/
structure Reproduces (s s' : OrderBook) : Prop where
  orders : ∀ b, ∃ os os', s.getOrders b = .ok os ∧ s'.getOrders b = .ok os' ∧
    os'.map (fun o => (s'.order o).archived) = os.map fun o => (s.order o).archived
  stopOrders : ∀ b, ∃ os os', (s.stopOrders b).keys = .ok os ∧ (s'.stopOrders b).keys = .ok os' ∧
    os'.map (fun o => (s'.order o).toOrderData) = os.map fun o => (s.order o).toOrderData
  dates : ∃ os os', s.getOrdersWithExperation = .ok os ∧ s'.getOrdersWithExperation = .ok os' ∧
    os'.map (fun o => (s'.order o).archived) = os.map fun o => (s.order o).archived
  cancels : ∀ id, (∃ t, s.cancelOrder id = .ok (t, .cancelled)) ↔
    ∃ t, s'.cancelOrder id = .ok (t, .cancelled)

/-- **There is nothing to lose**: the index and the registry of dated orders are empty, no
resting order is flagged as a stop order, the orders of a level are in the order of their
ids, and no parked order has a stop price. -/
structure LosesNothing (s : OrderBook) : Prop where
  index : ∀ id, s.orders.lookup id = none
  dates : s.getOrdersWithExperation = .ok []
  resting : ∀ b os, s.getOrders b = .ok os → ∀ o ∈ os, (s.order o).hasParam .stop = false
  byId : ∀ b levels l os, (s.limits b).keys = .ok levels → l ∈ levels → s.ordersAt l = .ok os →
    os.Pairwise fun o o' => (s.order o).id < (s.order o').id
  parked : ∀ b os, (s.stopOrders b).keys = .ok os → ∀ o ∈ os, (s.order o).stopPrice = 0

end OrderBook

/-! ### The order of a side -/

/-- The order `x` stands before `y` on a side that is filled in the order of the ids. -/
def Precedes (b : Bool) (x y : OrderData) : Prop :=
  Better b x.price y.price ∨ x.price = y.price ∧ x.id < y.id

theorem Precedes.asymm {b : Bool} (x y : OrderData) (h : Precedes b x y) : ¬ Precedes b y x := by
  rintro (h' | ⟨hp', hid'⟩)
  · rcases h with h | ⟨hp, -⟩
    · exact h.asymm h'
    · rw [hp] at h'
      exact h'.irrefl
  · rcases h with h | ⟨-, hid⟩
    · rw [hp'] at h
      exact h.irrefl
    · exact lt_asymm hid hid'

namespace Ledger

variable {L L' : Ledger} {b : Bool} {rs : List OrderData}

/-- The orders of a level are among those of its side, in the same order. -/
theorem InPlace.queue_sublist (h : L.InPlace) {l : ℕ} (hl : l ∈ L.levels b) :
    (L.queue l).Sublist (L.resting b) := by
  rw [← h.filter_resting hl]
  exact List.filter_sublist

/-! ### The original -/

/-- What a ledger of added and recovered orders satisfies. -/
structure Restartable (L : Ledger) : Prop where
  inPlace : L.InPlace
  sided : L.Sided
  parked : ∀ b, ∀ o ∈ L.stops b, (L.order o).hasParam .stop = true

/-- Adding, cancelling and checking dates keep this. -/
theorem Restartable.step (h : L.Restartable) {r : Request} (hr : r.keepsOrders = true) :
    (L.step r).1.Restartable := by
  refine ⟨h.inPlace.step hr, h.sided.step h.inPlace.wf hr, ?_⟩
  intro b o ho
  rcases (h.inPlace.wf.stepFrame hr).stops b o ho with hold | ⟨hnew, rfl, -⟩
  · rw [hasParam_step hr (h.inPlace.wf.stops_lt b o hold)]
    exact h.parked b o hold
  · cases r with
    | add now a =>
      rw [step_add] at ho ⊢
      split at ho
      · next hpark =>
        rw [if_pos hpark, parkOrder_order]
        exact (Bool.and_eq_true_iff.mp hpark).1
      · rw [h.inPlace.matched a |>.wf.stops_settle] at ho
        have hframe : MatchFrame (L.activate a) (L.matched a).1 := .matchLimits _ _
        rw [hframe.stops] at ho
        exact absurd ho ((h.inPlace.wf.fresh_activate a).stops b)
    | _ => exact absurd hnew (by simp [Request.newOrder])

theorem Recovered.restartable (h : L.Recovered rs) : L.Restartable where
  inPlace := h.inPlace
  sided := by
    intro b o ho
    obtain ⟨x, hx, hb⟩ := (h.stops b o).mp ho
    rwa [h.order o x hx.entry]
  parked := by
    intro b o ho
    obtain ⟨x, hx, -⟩ := (h.stops b o).mp ho
    rw [h.order o x hx.entry]
    exact hx.stop

/-- The repository holds one record for each live order of the ledger. -/
structure Stored (L : Ledger) (store : OrderStore) : Prop where
  ids : (L.live.map fun o => (L.order o).id).Nodup
  records : ∀ x, x ∈ store.records ↔ ∃ o ∈ L.live, (L.order o).archived = x

/-- There is nothing in the ledger that a restart loses. -/
structure LosesNothing (L : Ledger) : Prop where
  index : ∀ id, L.orders.lookup id = none
  dates : L.dates = []
  resting : ∀ b, ∀ o ∈ L.resting b, (L.order o).hasParam .stop = false
  byId : ∀ b, ∀ l ∈ L.levels b, (L.queue l).Pairwise fun o o' => (L.order o).id < (L.order o').id
  parked : ∀ b, ∀ o ∈ L.stops b, (L.order o).stopPrice = 0

/-! ### The copy -/

variable {store : OrderStore}

/-- Later records have greater ids. -/
theorem Recovered.id_lt (h : L'.Recovered store.records) {o o' : ℕ} (hoo' : o < o')
    (ho' : o' < L'.nextOrder) : (L'.order o).id < (L'.order o').id := by
  rw [h.nextOrder] at ho'
  have ho : o < store.records.length := hoo'.trans ho'
  have hlt := List.pairwise_iff_getElem.mp store.sorted o o' ho ho' hoo'
  rw [h.order o _ (List.getElem?_eq_getElem ho), h.order o' _ (List.getElem?_eq_getElem ho')]
  simpa [recordLess] using hlt

/-- **The resting orders of the copy** stand in the order of their prices and their ids. -/
theorem Recovered.precedes (h : L'.Recovered store.records) (b : Bool) :
    ((L'.resting b).map fun o => (L'.order o).archived).Pairwise (Precedes b) := by
  refine List.pairwise_map.mpr ?_
  have hqueue : ∀ l ∈ L'.levels b, (L'.queue l).Pairwise fun o o' =>
      (L'.order o).id < (L'.order o').id := fun l _ =>
    (h.ascending l).imp_of_mem fun {o o'} _ ho' hoo' =>
      h.id_lt hoo' (h.inPlace.wf.queue_lt l o' ho')
  exact h.inPlace.resting_pairwise hqueue

/-- The records of the resting orders. -/
theorem Recovered.mem_resting (h : L'.Recovered store.records)
    (harch : ∀ x ∈ store.records, x.archived = x) {x : OrderData} {b : Bool} :
    x ∈ (L'.resting b).map (fun o => (L'.order o).archived) ↔
      x ∈ store.records ∧ x.hasParam .stop = false ∧ x.isBuy = b := by
  rw [List.mem_map]
  constructor
  · rintro ⟨o, ho, rfl⟩
    obtain ⟨hb, hq⟩ := h.inPlace.mem_resting_iff.mp ho
    obtain ⟨x, hx, hs⟩ := (h.queue o).mp hq
    have hmem := List.mem_of_getElem? hx
    rw [h.order o x hx] at hb ⊢
    rw [harch x hmem]
    exact ⟨hmem, hs, hb⟩
  · rintro ⟨hmem, hs, hb⟩
    obtain ⟨o, ho⟩ := List.mem_iff_getElem?.mp hmem
    refine ⟨o, h.inPlace.mem_resting_iff.mpr ⟨?_, (h.queue o).mpr ⟨x, ho, hs⟩⟩, ?_⟩
    · rwa [h.order o x ho]
    · rw [h.order o x ho, harch x hmem]

/-! ### Comparing the two -/

/-- What the restart is compared on, in the two ledgers. -/
structure Reproduces (L L' : Ledger) : Prop where
  orders : ∀ b, (L'.resting b).map (fun o => (L'.order o).archived) =
    (L.resting b).map fun o => (L.order o).archived
  stopOrders : ∀ b, (L'.stops b).map L'.order = (L.stops b).map L.order
  dates : L'.dates.map (fun o => (L'.order o).archived) =
    L.dates.map fun o => (L.order o).archived
  cancels : ∀ id, (L.orders.lookup id).isSome = (L'.orders.lookup id).isSome

theorem Stored.archived (hs : L.Stored store) {x : OrderData} (hx : x ∈ store.records) :
    x.archived = x := by
  obtain ⟨o, -, rfl⟩ := (hs.records x).mp hx
  rfl

/-- **What comes back was not lost.** -/
theorem Reproduces.losesNothing (h : L.Restartable) (hs : L.Stored store)
    (h' : L'.Recovered store.records) (hr : L.Reproduces L') : L.LosesNothing where
  index := by
    intro id
    have hid := hr.cancels id
    rw [h'.orders] at hid
    simpa using hid
  dates := by
    have hdates := hr.dates
    rw [h'.dates] at hdates
    exact List.map_eq_nil_iff.mp hdates.symm
  resting := by
    intro b o ho
    have hmem : (L.order o).archived ∈ (L'.resting b).map fun o => (L'.order o).archived := by
      rw [hr.orders b]
      exact List.mem_map_of_mem ho
    exact ((h'.mem_resting fun x => hs.archived).mp hmem).2.1
  byId := by
    intro b l hl
    have hpair := h'.precedes b
    rw [hr.orders b, List.pairwise_map] at hpair
    refine (hpair.sublist (h.inPlace.queue_sublist hl)).imp_of_mem ?_
    rintro o o' ho ho' (hbetter | ⟨-, hid⟩)
    · have hprice : (L.order o).archived.price = (L.order o').archived.price :=
        (h.inPlace.price l o ho).trans (h.inPlace.price l o' ho').symm
      rw [hprice] at hbetter
      exact absurd hbetter Better.irrefl
    · exact hid
  parked := by
    intro b o ho
    have hmem : L.order o ∈ (L'.stops b).map L'.order := by
      rw [hr.stopOrders b]
      exact List.mem_map_of_mem ho
    obtain ⟨o', ho', he⟩ := List.mem_map.mp hmem
    obtain ⟨x, hx, -⟩ := (h'.stops b o').mp ho'
    rw [h'.order o' x hx.entry] at he
    rw [← he, ← hs.archived (List.mem_of_getElem? hx.entry)]
    rfl

/-- The stop orders are the parked ones, if there is nothing to lose. -/
theorem LosesNothing.mem_stops (hn : L.LosesNothing) (h : L.Restartable) {o : ℕ} (ho : o ∈ L.live)
    (hstop : (L.order o).hasParam .stop = true) : o ∈ L.stops (L.order o).isBuy := by
  rcases mem_live.mp ho with ⟨b, hb⟩ | ⟨b, hb⟩
  · exact absurd hstop (by simp [hn.resting b o hb])
  · rwa [h.sided b o hb]

/-- No parked order takes the place of another one. -/
theorem LosesNothing.staysParked (hn : L.LosesNothing) (h : L.Restartable) (hs : L.Stored store)
    {o : ℕ} {x : OrderData} (hx : store.records[o]? = some x) (hstop : x.hasParam .stop = true) :
    StaysParked store.records o x := by
  refine ⟨hx, hstop, fun o' ho' y hy => Bool.eq_false_iff.mpr fun hrep => ?_⟩
  obtain ⟨hstop', hside, hprice, htime⟩ := OrderData.replaces_iff.mp hrep
  obtain ⟨p, hp, rfl⟩ := (hs.records x).mp (List.mem_of_getElem? hx)
  obtain ⟨q, hq, rfl⟩ := (hs.records y).mp (List.mem_of_getElem? hy)
  have hp' := hn.mem_stops h hp hstop
  have hq' := hn.mem_stops h hq hstop'
  have hsame : (L.order q).isBuy = (L.order p).isBuy := hside
  rw [hsame] at hq'
  obtain rfl : q = p := (h.inPlace.wf.stops_sorted _).eq_of_equiv hq' hp'
    (stopLess_equiv.mpr ⟨hprice, htime⟩)
  -- the two records have different ids
  obtain ⟨hlt, he⟩ := List.getElem?_eq_some_iff.mp hx
  obtain ⟨hlt', he'⟩ := List.getElem?_eq_some_iff.mp hy
  have hless := List.pairwise_iff_getElem.mp store.sorted o o' hlt hlt' ho'
  rw [he, he', recordLess_strictWeak.irrefl] at hless
  exact absurd hless (by simp)

/-- **What is not lost comes back.** -/
theorem LosesNothing.reproduces (hn : L.LosesNothing) (h : L.Restartable) (hs : L.Stored store)
    (h' : L'.Recovered store.records) : L.Reproduces L' where
  orders := by
    intro b
    refine eq_of_pairwise Precedes.asymm (h'.precedes b) ?_ fun x => ?_
    · exact List.pairwise_map.mpr (h.inPlace.resting_pairwise (hn.byId b))
    · rw [h'.mem_resting fun x => hs.archived, hs.records, List.mem_map]
      constructor
      · rintro ⟨⟨o, ho, rfl⟩, hstop, hb⟩
        rcases mem_live.mp ho with ⟨c, hc⟩ | ⟨c, hc⟩
        · exact ⟨o, h.inPlace.mem_resting_iff.mpr ⟨hb, (h.inPlace.mem_resting_iff.mp hc).2⟩, rfl⟩
        · exact absurd (h.parked c o hc) (by
            have hstop' : (L.order o).hasParam .stop = false := hstop
            simp [hstop'])
      · rintro ⟨o, ho, rfl⟩
        exact ⟨⟨o, mem_live.mpr (Or.inl ⟨b, ho⟩), rfl⟩, hn.resting b o ho,
          (h.inPlace.mem_resting_iff.mp ho).1⟩
  stopOrders := by
    intro b
    have hasymm : ∀ x y : OrderData, orderComparator b x y = true → ¬ orderComparator b y x = true :=
      fun x y hxy => Bool.eq_false_iff.mp
        ((orderComparator_strictWeak b fun x : OrderData => x).asymm hxy)
    have harch : ∀ o ∈ L.stops b, (L.order o).archived = L.order o := fun o ho => by
      rw [OrderData.archived, ← hn.parked b o ho]
    refine eq_of_pairwise hasymm (List.pairwise_map.mpr (h'.inPlace.wf.stops_sorted b))
      (List.pairwise_map.mpr (h.inPlace.wf.stops_sorted b)) fun x => ?_
    rw [List.mem_map, List.mem_map]
    constructor
    · rintro ⟨o', ho', rfl⟩
      obtain ⟨x, hx, hb⟩ := (h'.stops b o').mp ho'
      rw [h'.order o' x hx.entry]
      obtain ⟨o, ho, rfl⟩ := (hs.records x).mp (List.mem_of_getElem? hx.entry)
      have hmem := hn.mem_stops h ho hx.stop
      have hside : (L.order o).isBuy = b := hb
      rw [hside] at hmem
      exact ⟨o, hmem, (harch o hmem).symm⟩
    · rintro ⟨o, ho, rfl⟩
      have hrec : L.order o ∈ store.records :=
        (hs.records _).mpr ⟨o, mem_live.mpr (Or.inr ⟨b, ho⟩), harch o ho⟩
      obtain ⟨o', ho'⟩ := List.mem_iff_getElem?.mp hrec
      exact ⟨o', (h'.stops b o').mpr ⟨_, hn.staysParked h hs ho' (h.parked b o ho), h.sided b o ho⟩,
        h'.order o' _ ho'⟩
  dates := by rw [h'.dates, hn.dates, List.map_nil, List.map_nil]
  cancels := by
    intro id
    rw [hn.index id, h'.orders, AList.lookup_empty]

end Ledger

/-! ### Books -/

namespace Refines

variable {s s' : OrderBook} {L L' : Ledger} {store : OrderStore} (h : Refines s L)

include h

theorem stored_iff : s.Stored store ↔ L.Stored store := by
  have hid : (L.live.map fun o => (s.order o).id) = L.live.map fun o => (L.order o).id :=
    List.map_congr_left fun o _ => congrArg OrderData.id (h.order o)
  have harch : ∀ o, (s.order o).archived = (L.order o).archived := fun o =>
    congrArg OrderData.archived (h.order o)
  constructor
  · rintro ⟨⟨live, hlive, hnd⟩, ⟨live', hlive', hrec⟩⟩
    rw [h.liveOrders, Except.ok.injEq] at hlive hlive'
    subst hlive hlive'
    refine ⟨hid ▸ hnd, fun x => ?_⟩
    rw [hrec]
    simp only [harch]
  · rintro ⟨hnd, hrec⟩
    refine ⟨⟨_, h.liveOrders, hid ▸ hnd⟩, _, h.liveOrders, fun x => ?_⟩
    rw [hrec]
    simp only [harch]

/-- The ids that `cancel_order` accepts. -/
theorem cancels_iff (id : String) :
    (∃ t, s.cancelOrder id = .ok (t, .cancelled)) ↔ (L.orders.lookup id).isSome = true := by
  obtain ⟨t, ht, -⟩ := h.cancelOrder id
  rw [ht, Ledger.cancelOrder]
  rcases L.orders.lookup id with _ | e
  · simp
  · simp

theorem losesNothing_iff : s.LosesNothing ↔ L.LosesNothing := by
  have hdata : ∀ o, (s.order o).toOrderData = L.order o := h.order
  constructor
  · rintro ⟨hindex, hdates, hresting, hbyId, hparked⟩
    refine ⟨fun id => h.orders ▸ hindex id, ?_, fun b o ho => ?_, fun b l hl => ?_,
      fun b o ho => ?_⟩
    · rw [OrderBook.getOrdersWithExperation, h.dates.keys, Except.ok.injEq] at hdates
      exact hdates
    · rw [← hdata]
      exact hresting b _ (h.getOrders b) o ho
    · simp only [← hdata]
      exact hbyId b _ l _ (h.levels b).keys hl (h.ordersAt l)
    · rw [← hdata]
      exact hparked b _ (h.stops b).keys o ho
  · rintro ⟨hindex, hdates, hresting, hbyId, hparked⟩
    refine ⟨fun id => by rw [h.orders, hindex id], ?_, fun b os hos o ho => ?_,
      fun b levels l os hkeys hl hos => ?_, fun b os hos o ho => ?_⟩
    · rw [OrderBook.getOrdersWithExperation, h.dates.keys, hdates]
    · rw [h.getOrders, Except.ok.injEq] at hos
      subst hos
      have := hresting b o ho
      rwa [← hdata] at this
    · rw [(h.levels b).keys, Except.ok.injEq] at hkeys
      rw [h.ordersAt, Except.ok.injEq] at hos
      subst hkeys hos
      have := hbyId b l hl
      simpa only [← hdata] using this
    · rw [(h.stops b).keys, Except.ok.injEq] at hos
      subst hos
      have := hparked b o ho
      rwa [← hdata] at this

theorem reproduces_iff (h' : Refines s' L') : s.Reproduces s' ↔ L.Reproduces L' := by
  have hdata : ∀ o, (s.order o).toOrderData = L.order o := h.order
  have hdata' : ∀ o, (s'.order o).toOrderData = L'.order o := h'.order
  constructor
  · rintro ⟨horders, hstops, hdates, hcancels⟩
    refine ⟨fun b => ?_, fun b => ?_, ?_, fun id => ?_⟩
    · obtain ⟨os, os', hos, hos', he⟩ := horders b
      rw [h.getOrders, Except.ok.injEq] at hos
      rw [h'.getOrders, Except.ok.injEq] at hos'
      subst hos hos'
      simpa only [hdata, hdata'] using he
    · obtain ⟨os, os', hos, hos', he⟩ := hstops b
      rw [(h.stops b).keys, Except.ok.injEq] at hos
      rw [(h'.stops b).keys, Except.ok.injEq] at hos'
      subst hos hos'
      simpa only [hdata, hdata'] using he
    · obtain ⟨os, os', hos, hos', he⟩ := hdates
      rw [OrderBook.getOrdersWithExperation, h.dates.keys, Except.ok.injEq] at hos
      rw [OrderBook.getOrdersWithExperation, h'.dates.keys, Except.ok.injEq] at hos'
      subst hos hos'
      simpa only [hdata, hdata'] using he
    · have hid := hcancels id
      rw [h.cancels_iff, h'.cancels_iff] at hid
      exact Bool.eq_iff_iff.mpr hid
  · rintro ⟨horders, hstops, hdates, hcancels⟩
    refine ⟨fun b => ⟨_, _, h.getOrders b, h'.getOrders b, ?_⟩,
      fun b => ⟨_, _, (h.stops b).keys, (h'.stops b).keys, ?_⟩,
      ⟨_, _, h.dates.keys, h'.dates.keys, ?_⟩, fun id => ?_⟩
    · simpa only [hdata, hdata'] using horders b
    · simpa only [hdata, hdata'] using hstops b
    · simpa only [hdata, hdata'] using hdates
    · rw [h.cancels_iff, h'.cancels_iff, hcancels id]

end Refines

/-- **A restart reproduces the book** that it finds in the repository exactly if there is
nothing to lose: for every book that additions and cancellations lead to – from one over any
repository – and every repository that holds its live orders. -/
theorem recovery_iff (instrument : String) (marketPrice marketPrice' : ℚ)
    (repository : List OrderData) {rs : List Request} (hrs : ∀ r ∈ rs, r.keepsOrders = true) :
    ∃ s₀ s answers, OrderBook.new instrument marketPrice repository = .ok s₀ ∧
      runAll OrderBook.step s₀ rs = .ok (s, answers) ∧
      ∀ store, s.Stored store → ∃ s', OrderBook.new instrument marketPrice' store.getAll = .ok s' ∧
        (s.Reproduces s' ↔ s.LosesNothing) := by
  obtain ⟨s₀, hs₀, h₀⟩ := refines_new instrument marketPrice repository
  have hrec := Ledger.recovered_new instrument marketPrice repository
  obtain ⟨s, answers, L, hrun, h, hL⟩ := h₀.run_invariant (J := Ledger.Restartable)
    (fun _ _ r _ hJ hr => hJ.step hr) hrec.restartable (meets_of_forall hrs s₀)
  refine ⟨s₀, s, answers, hs₀, hrun, fun store hstore => ?_⟩
  obtain ⟨s', hs', h'⟩ := refines_new instrument marketPrice' store.getAll
  have hrec' := Ledger.recovered_new instrument marketPrice' store.getAll
  have hstore' := h.stored_iff.mp hstore
  refine ⟨s', hs', ?_⟩
  rw [h.reproduces_iff h', h.losesNothing_iff]
  exact ⟨fun hr => hr.losesNothing hL hstore' hrec', fun hn => hn.reproduces hL hstore' hrec'⟩

/-- A bid that comes and goes, after a restart with one bid. -/
theorem recovery_iff_two : ∃ s₀ s answers,
    OrderBook.new "X" 10 [(OrderArgs.limit "a" .buy 3 9).toData] = .ok s₀ ∧
      runAll OrderBook.step s₀ [.add 0 (.limit "b" .buy 7 10), .cancel "b"] = .ok (s, answers) ∧
      ∀ store, s.Stored store → ∃ s', OrderBook.new "X" 10 store.getAll = .ok s' ∧
        (s.Reproduces s' ↔ s.LosesNothing) :=
  recovery_iff "X" 10 10 _ (by decide)

/-- **An order that was added cannot be cancelled after a restart.** -/
theorem recovery_loses_index : ∃ s answers store s',
    runAll OrderBook.step (.empty "X" 10) [.add 0 (.limit "b" .buy 7 10)] = .ok (s, answers) ∧
      s.Stored store ∧ OrderBook.new "X" 10 store.getAll = .ok s' ∧ ¬ s.Reproduces s' := by
  obtain ⟨b, hb⟩ : ∃ b, b = (OrderArgs.limit "b" .buy 7 10).toData := ⟨_, rfl⟩
  obtain ⟨⟨s, answers⟩, hrun, hs⟩ := exists_ok_of_map
    (f := fun r : OrderBook × List (Option OrderStatus) => (r.1.liveOrders.toOption,
      (r.1.order 0).toOrderData, (r.1.cancelOrder "b").toOption.map Prod.snd))
    (b := (some [0], (OrderArgs.limit "b" .buy 7 10).toData, some .cancelled))
    (show (runAll OrderBook.step (.empty "X" 10)
      [.add 0 (.limit "b" .buy 7 10)]).toOption.map _ = _ by decide +kernel)
  obtain ⟨s', hs', hcancel'⟩ := exists_ok_of_map
    (f := fun r : OrderBook => (r.cancelOrder "b").toOption.map Prod.snd) (b := some .notFound)
    (show (OrderBook.new "X" 10 [(OrderArgs.limit "b" .buy 7 10).toData]).toOption.map _ = _ by
      decide +kernel)
  simp only [Prod.mk.injEq, ← hb] at hs
  obtain ⟨hlive, hdata, hcancel⟩ := hs
  have hlive' : s.liveOrders = .ok [0] := by
    rcases hl : s.liveOrders with e | live
    · simp [hl, Except.toOption] at hlive
    · simpa [hl, Except.toOption] using hlive
  refine ⟨s, answers, OrderStore.empty.save b, s', hrun, ⟨⟨_, hlive', by simp⟩, _, hlive',
    fun x => ?_⟩, by rw [hb]; exact hs', fun hr => ?_⟩
  · have harch : (s.order 0).archived = b.archived := congrArg OrderData.archived hdata
    simp [OrderStore.mem_save, OrderStore.empty, harch, eq_comm]
  · have haccept : ∀ t : OrderBook, (t.cancelOrder "b").toOption.map Prod.snd = some .cancelled →
        ∃ t', t.cancelOrder "b" = .ok (t', .cancelled) := by
      intro t ht
      obtain ⟨⟨t', status⟩, ht', hstatus⟩ := exists_ok_of_map ht
      obtain rfl : status = .cancelled := hstatus
      exact ⟨t', ht'⟩
    obtain ⟨t', ht'⟩ := (hr.cancels "b").mp (haccept s hcancel)
    rw [ht'] at hcancel'
    exact absurd hcancel' (by simp [Except.toOption])

end LimitOrderBook
