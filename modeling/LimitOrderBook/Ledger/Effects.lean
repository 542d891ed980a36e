import LimitOrderBook.Ledger.Runs

/-!
# What the requests do

The effect of the operations on a well-formed ledger, in the form that invariants
need: an order that is placed comes last in the queue of the level with its price
(`LimitOrderBook.Ledger.Placed`), one that is cancelled leaves its queue or, if it is
a stop order, a tree of stop orders (`LimitOrderBook.Ledger.cancelOrder_cases`), and
`check_date_orders` cancels and forgets the orders that are due
(`LimitOrderBook.Ledger.checkDateOrders_rule`).
-/

namespace LimitOrderBook

open OrderBook (Request)

namespace Ledger

variable {L L' : Ledger} {o l : ℕ} {b : Bool}

/-! ### New orders -/

/-- An order that is not anywhere in the book yet. -/
structure Fresh (L : Ledger) (o : ℕ) : Prop where
  lt : o < L.nextOrder
  queue : ∀ l, o ∉ L.queue l
  stops : ∀ b, o ∉ L.stops b
  dates : o ∉ L.dates
  entry : ∀ id, L.orders.lookup id ≠ some o

theorem WellFormed.receive (h : L.WellFormed) (a : OrderArgs) : (L.receive a).WellFormed :=
  { h.allocOrder a.toData with }

theorem WellFormed.activate (h : L.WellFormed) (a : OrderArgs) : (L.activate a).WellFormed :=
  (h.receive a).updateData .activated

theorem WellFormed.fresh_receive (h : L.WellFormed) (a : OrderArgs) :
    (L.receive a).Fresh L.nextOrder where
  lt := Nat.lt_succ_self _
  queue := fun l hl => lt_irrefl _ (h.queue_lt l _ hl)
  stops := fun b hb => lt_irrefl _ (h.stops_lt b _ hb)
  dates := fun hd => lt_irrefl _ (h.dates_lt _ hd)
  entry := fun id hid => lt_irrefl _ (h.entry_lt id _ hid)

theorem WellFormed.fresh_activate (h : L.WellFormed) (a : OrderArgs) :
    (L.activate a).Fresh L.nextOrder :=
  { h.fresh_receive a with }

theorem Fresh.of_frame (hf : L.Fresh o) (hm : MatchFrame L L') : L'.Fresh o where
  lt := by
    rw [hm.nextOrder]
    exact hf.lt
  queue := fun l hl => hf.queue l ((hm.queue l).mem hl)
  stops := by
    rw [hm.stops]
    exact hf.stops
  dates := by
    rw [hm.dates]
    exact hf.dates
  entry := fun id hid => hf.entry id (hm.entry id o hid)

/-- An order that is already in the ledger does not change when a new one comes. -/
theorem activate_order {x : ℕ} (hx : x < L.nextOrder) (a : OrderArgs) :
    (L.activate a).order x = L.order x := by
  simp [activate, receive, ne_of_lt hx]

theorem activate_order_new (L : Ledger) (a : OrderArgs) :
    (L.activate a).order L.nextOrder = a.toData.activated := by
  simp [activate, receive]

theorem receive_order {x : ℕ} (hx : x < L.nextOrder) (a : OrderArgs) :
    (L.receive a).order x = L.order x := by
  simp [receive, ne_of_lt hx]

theorem receive_order_new (L : Ledger) (a : OrderArgs) :
    (L.receive a).order L.nextOrder = a.toData := by
  simp [receive]

/-- An order that is not a stop order is matched as it came. -/
theorem activate_order_of_not_stop (L : Ledger) {a : OrderArgs}
    (h : a.toData.hasParam .stop = false) : (L.activate a).order L.nextOrder = a.toData := by
  rw [activate_order_new, OrderData.activated_of_not_stop h]

theorem isParked_of_not_stop (L : Ledger) {a : OrderArgs} (h : a.toData.hasParam .stop = false) :
    (L.receive a).isParked L.nextOrder = false := by
  rw [isParked, receive_order_new, h, Bool.false_and]

/-! ### Placing an order -/

/-- The order `o` was put at the end of the queue of the level `l` on the side
`b`. -/
structure Placed (L L' : Ledger) (o l : ℕ) (b : Bool) : Prop where
  order : L'.order = L.order
  nextOrder : L'.nextOrder = L.nextOrder
  marketPrice : L'.marketPrice = L.marketPrice
  executions : L'.executions = L.executions
  tradeQueue : L'.tradeQueue = L.tradeQueue
  stops : L'.stops = L.stops
  mem : l ∈ L'.levels b
  old_or_new : l ∈ L.levels b ∨ (∀ c, l ∉ L.levels c) ∧ L.queue l = []
  levels : ∀ c x, x ∈ L'.levels c ↔ (x = l ∧ c = b) ∨ x ∈ L.levels c
  queue : L'.queue = Function.update L.queue l (L.queue l ++ [o])
  price : ∀ c, ∀ x ∈ L.levels c, (L'.limit x).price = (L.limit x).price
  volume : ∀ c, ∀ x ∈ L.levels c, x ≠ l → (L'.limit x).activeVolume = (L.limit x).activeVolume
  volume_self : (L'.limit l).activeVolume =
    (if l ∈ L.levels b then (L.limit l).activeVolume else 0) + L.qty o

namespace Placed

theorem qty (h : Placed L L' o l b) (x : ℕ) : L'.qty x = L.qty x := by
  rw [Ledger.qty, h.order, Ledger.qty]

theorem mem_queue (h : Placed L L' o l b) {x y : ℕ} :
    y ∈ L'.queue x ↔ (y = o ∧ x = l) ∨ y ∈ L.queue x := by
  rw [h.queue]
  by_cases hx : x = l
  · subst hx
    simp [or_comm]
  · simp [hx]

end Placed

theorem limitLess_equiv {x y : ℕ} : Equiv (L.limitLess b) x y ↔
    (L.limit x).price = (L.limit y).price := by
  rw [Equiv, limitLess, limitLess, limitComparator, limitComparator]
  cases b with
  | false => simpa using (le_antisymm_iff.trans and_comm).symm
  | true => simpa using le_antisymm_iff.symm

theorem stopLess_equiv {x y : ℕ} : Equiv (L.stopLess b) x y ↔
    (L.order x).price = (L.order y).price ∧ (L.order x).timestamp = (L.order y).timestamp := by
  rw [Equiv, stopLess, stopLess, orderComparator, orderComparator]
  by_cases hp : (L.order x).price = (L.order y).price
  · simpa [hp] using (le_antisymm_iff.trans and_comm).symm
  · simp only [if_neg (Ne.symm hp), hp, false_and, iff_false, not_and]
    intro h₁ h₂
    cases b with
    | false => exact hp (le_antisymm (by simpa using h₁) (by simpa using h₂))
    | true => exact hp (le_antisymm (by simpa using h₂) (by simpa using h₁))

theorem WellFormed.levels_nodup (h : L.WellFormed) : (L.levels b).Nodup :=
  (h.levels_sorted b).nodup (L.limitLess_strictWeak b)

theorem WellFormed.resting_nodup (h : L.WellFormed) : (L.resting b).Nodup := by
  refine List.nodup_flatMap.mpr ⟨fun l _ => h.queue_nodup l, ?_⟩
  refine (h.levels_nodup (b := b)).imp fun {x y} hxy o hx hy => ?_
  exact hxy (h.queue_unique hy hx)

/-- What `add_limit_order` leaves alone. -/
theorem addLimitOrder_frame (L : Ledger) (o limit : ℕ) (b : Bool) :
    (L.addLimitOrder o limit b).order = L.order ∧
      (L.addLimitOrder o limit b).nextOrder = L.nextOrder ∧
      (L.addLimitOrder o limit b).marketPrice = L.marketPrice ∧
      (L.addLimitOrder o limit b).executions = L.executions ∧
      (L.addLimitOrder o limit b).tradeQueue = L.tradeQueue ∧
      (L.addLimitOrder o limit b).stops = L.stops ∧
      (L.addLimitOrder o limit b).dates = L.dates ∧
      (L.addLimitOrder o limit b).orders = L.orders := by
  rw [addLimitOrder]
  split <;> exact ⟨rfl, rfl, rfl, rfl, rfl, rfl, rfl, rfl⟩

/-- A new level is not one of the ledger yet. -/
theorem WellFormed.nextLimit_not_mem (h : L.WellFormed) : L.nextLimit ∉ L.levels b := fun hl =>
  lt_irrefl _ (h.levels_lt b _ hl)

theorem WellFormed.queue_nextLimit (h : L.WellFormed) : L.queue L.nextLimit = [] := by
  refine List.eq_nil_iff_forall_not_mem.mpr fun o ho => ?_
  exact lt_irrefl _ (h.parent_lt o _ (h.queue_parent _ o ho))

/-- **A new order in its level**: what `add_limit_order` does with a new level
object. -/
theorem WellFormed.addLimitOrder_new (h : L.WellFormed) (o : ℕ) (p : ℚ) (b : Bool) :
    ∃ l, Placed L ((L.allocLimit p).addLimitOrder o L.nextLimit b) o l b ∧
      (((L.allocLimit p).addLimitOrder o L.nextLimit b).limit l).price = p := by
  have h₁ := h.allocLimit p
  have hne : ∀ c, ∀ x ∈ L.levels c, x ≠ L.nextLimit := fun c x hx => ne_of_lt (h.levels_lt c x hx)
  obtain ⟨f₁, f₂, f₃, f₄, f₅, f₆, -, -⟩ := addLimitOrder_frame (L.allocLimit p) o L.nextLimit b
  have hqueue : (L.allocLimit p).queue = L.queue := by
    funext x
    by_cases hx : x = L.nextLimit
    · subst hx
      simp [h.queue_nextLimit]
    · simp [hx]
  rcases hfind : findKey ((L.allocLimit p).limitLess b) L.nextLimit (L.levels b) with _ | l
  · -- a new level
    have hadd : (L.allocLimit p).addLimitOrder o L.nextLimit b =
        ((L.allocLimit p).openLevel L.nextLimit b).place o L.nextLimit [o] := by
      rw [Ledger.addLimitOrder, allocLimit_levels, hfind]
    have hmem : ∀ x, x ∈ insertKey ((L.allocLimit p).limitLess b) L.nextLimit (L.levels b) ↔
        x = L.nextLimit ∨ x ∈ L.levels b := by
      intro x
      refine (mem_insertKey ((L.allocLimit p).limitLess_strictWeak b) (h₁.levels_sorted b)).trans ?_
      have hnone := (findKey_eq_none ((L.allocLimit p).limitLess_strictWeak b)
        (h₁.levels_sorted b)).mp hfind
      exact or_congr_right ⟨And.left, fun hx => ⟨hx, hnone x hx⟩⟩
    refine ⟨L.nextLimit, ⟨f₁, f₂, f₃, f₄, f₅, f₆, ?_,
      Or.inr ⟨fun _ => h.nextLimit_not_mem, h.queue_nextLimit⟩, fun c x => ?_, ?_, fun c x hx => ?_,
      fun c x hx _ => ?_, ?_⟩, ?_⟩
    · rw [hadd]
      simp [hmem]
    · rw [hadd]
      by_cases hc : c = b
      · subst hc
        simp [hmem]
      · simp [hc]
    · rw [hadd]
      funext x
      rw [place_queue, h.queue_nextLimit, List.nil_append]
      exact congrArg (fun q => Function.update q L.nextLimit [o] x) hqueue
    · rw [hadd]
      simp [hne c x hx]
    · rw [hadd]
      simp [hne c x hx]
    · rw [hadd]
      simp [h.nextLimit_not_mem, LimitData.increaseVolume, qty]
    · rw [hadd]
      simp [LimitData.increaseVolume]
  · -- the level exists
    obtain ⟨hl, heq⟩ := (findKey_eq_some ((L.allocLimit p).limitLess_strictWeak b)
      (h₁.levels_sorted b)).mp hfind
    have hl : l ∈ L.levels b := hl
    have hln : l ≠ L.nextLimit := hne b l hl
    have hprice : p = (L.limit l).price := by simpa [hln] using limitLess_equiv.mp heq
    have hadd : (L.allocLimit p).addLimitOrder o L.nextLimit b =
        (L.allocLimit p).place o l (L.queue l ++ [o]) := by
      rw [Ledger.addLimitOrder, allocLimit_levels, hfind, hqueue]
    refine ⟨l, ⟨f₁, f₂, f₃, f₄, f₅, f₆, ?_, Or.inl hl, fun c x => ?_, ?_, fun c x hx => ?_,
      fun c x hx hxl => ?_, ?_⟩, ?_⟩
    · rw [hadd]
      exact hl
    · rw [hadd]
      constructor
      · exact Or.inr
      · rintro (⟨rfl, rfl⟩ | hx)
        · exact hl
        · exact hx
    · rw [hadd]
      funext x
      rw [place_queue, hqueue]
    · rw [hadd]
      by_cases hxl : x = l
      · subst hxl
        simp [hln, LimitData.increaseVolume]
      · simp [hxl, hne c x hx]
    · rw [hadd]
      simp [hxl, hne c x hx]
    · rw [hadd]
      simp [hl, hln, LimitData.increaseVolume, qty]
    · rw [hadd]
      simp [hln, LimitData.increaseVolume, hprice]

/-- **An order in a level that exists**: what `add_limit_order` does when the side has
a level with the price of `limit`. -/
theorem WellFormed.addLimitOrder_old (h : L.WellFormed) (o : ℕ) {limit k : ℕ} (hk : k ∈ L.levels b)
    (hprice : (L.limit k).price = (L.limit limit).price) :
    Placed L (L.addLimitOrder o limit b) o k b ∧
      ((L.addLimitOrder o limit b).limit k).price = (L.limit limit).price := by
  have hfind : findKey (L.limitLess b) limit (L.levels b) = some k :=
    (findKey_eq_some (L.limitLess_strictWeak b) (h.levels_sorted b)).mpr
      ⟨hk, limitLess_equiv.mpr hprice.symm⟩
  have hadd : L.addLimitOrder o limit b = L.place o k (L.queue k ++ [o]) := by
    rw [Ledger.addLimitOrder, hfind]
  rw [hadd]
  refine ⟨⟨rfl, rfl, rfl, rfl, rfl, rfl, hk, Or.inl hk, fun c x => ?_, rfl, fun c x _ => ?_,
    fun c x _ hxk => ?_, ?_⟩, ?_⟩
  · constructor
    · exact Or.inr
    · rintro (⟨rfl, rfl⟩ | hx)
      · exact hk
      · exact hx
  · by_cases hxk : x = k
    · subst hxk
      simp [LimitData.increaseVolume]
    · simp [hxk]
  · simp [hxk]
  · simp [hk, LimitData.increaseVolume]
  · simpa [LimitData.increaseVolume] using hprice

/-- Registering a dated order touches nothing else. -/
@[simps]
def setDates (L : Ledger) (dates : List ℕ) : Ledger := { L with dates := dates }

theorem addDateOrder_frame (L : Ledger) (o : ℕ) : ∃ dates, L.addDateOrder o = L.setDates dates := by
  rw [addDateOrder]
  split
  · exact ⟨_, rfl⟩
  · exact ⟨L.dates, rfl⟩

/-- Parking an order puts it into its stop tree, and perhaps into the registry. -/
theorem parkOrder_eq (L : Ledger) (o : ℕ) :
    ∃ dates, L.parkOrder o = (L.addStopOrder o (L.order o).isBuy).setDates dates :=
  addDateOrder_frame _ o

theorem parkOrder_order (L : Ledger) (o : ℕ) : (L.parkOrder o).order = L.order := by
  obtain ⟨dates, hdates⟩ := L.parkOrder_eq o
  rw [hdates]
  rfl

/-- A parked order is in the stop tree of its side. -/
theorem WellFormed.mem_stops_parkOrder (h : L.WellFormed) (o : ℕ) :
    o ∈ (L.parkOrder o).stops (L.order o).isBuy := by
  obtain ⟨dates, hdates⟩ := L.parkOrder_eq o
  rw [hdates, setDates_stops, addStopOrder_stops, Function.update_self]
  exact (mem_insertKey (L.stopLess_strictWeak _) (h.stops_sorted _)).mpr (Or.inl rfl)

theorem WellFormed.addDateOrder (h : L.WellFormed) (ho : o < L.nextOrder) :
    (L.addDateOrder o).WellFormed := by
  rw [Ledger.addDateOrder]
  split
  · exact h.insertDate ho
  · exact h

theorem WellFormed.mem_addStopOrder (h : L.WellFormed) {x : ℕ} {c : Bool}
    (hx : x ∈ (L.addStopOrder o b).stops c) : (x = o ∧ c = b) ∨ x ∈ L.stops c := by
  rw [addStopOrder_stops] at hx
  by_cases hc : c = b
  · subst hc
    rw [Function.update_self] at hx
    rcases (mem_insertKey (L.stopLess_strictWeak c) (h.stops_sorted c)).mp hx with rfl | ⟨hx, -⟩
    · exact Or.inl ⟨rfl, rfl⟩
    · exact Or.inr hx
  · rw [Function.update_of_ne hc] at hx
    exact Or.inr hx

/-- **A new order comes to rest** in the level with its price, and is entered into
the index. -/
theorem WellFormed.restOrder (h : L.WellFormed) (o : ℕ) :
    ∃ l, Placed L (L.restOrder o) o l (L.order o).isBuy ∧
      ((L.restOrder o).limit l).price = (L.order o).price ∧
      (L.restOrder o).orders = L.orders.insert (L.order o).id o := by
  obtain ⟨l, hl, hprice⟩ := h.addLimitOrder_new o (L.order o).price (L.order o).isBuy
  obtain ⟨-, -, -, -, -, -, -, horders⟩ := addLimitOrder_frame (L.allocLimit (L.order o).price) o
    L.nextLimit (L.order o).isBuy
  obtain ⟨L₁, hL₁⟩ : ∃ L₁, L₁ = (L.allocLimit (L.order o).price).addLimitOrder o L.nextLimit
    (L.order o).isBuy := ⟨_, rfl⟩
  have hrest : L.restOrder o = (L₁.insertEntry o).addDateOrder o := by rw [hL₁, Ledger.restOrder]
  rw [← hL₁] at hl hprice horders
  obtain ⟨dates, hdates⟩ := addDateOrder_frame (L₁.insertEntry o) o
  rw [hrest, hdates]
  refine ⟨l, { hl with }, hprice, ?_⟩
  rw [setDates_orders, insertEntry_orders, horders, hl.order]
  rfl

/-- Placing an order that is in no queue, with a new level object. -/
theorem WellFormed.addLimitOrder_fresh (h : L.WellFormed) (ho : o < L.nextOrder)
    (hfree : ∀ l, o ∉ L.queue l) (p : ℚ) (b : Bool) :
    ((L.allocLimit p).addLimitOrder o L.nextLimit b).WellFormed := by
  refine (h.allocLimit p).addLimitOrder ho (Nat.lt_succ_self L.nextLimit) ?_
  intro l hl
  by_cases hx : l = L.nextLimit
  · simp [hx] at hl
  · rw [allocLimit_queue, Function.update_of_ne hx] at hl
    exact hfree l hl

theorem Fresh.wellFormed_restOrder (hf : L.Fresh o) (h : L.WellFormed) :
    (L.restOrder o).WellFormed := by
  have hwf := h.addLimitOrder_fresh hf.lt hf.queue (L.order o).price (L.order o).isBuy
  obtain ⟨l, hl⟩ := mem_addLimitOrder (L.allocLimit (L.order o).price) o L.nextLimit
    (L.order o).isBuy
  have ho := hwf.queue_lt l o hl
  exact (hwf.insertEntry ho ⟨l, hwf.queue_parent l o hl⟩).addDateOrder ho

theorem Fresh.wellFormed_parkOrder (hf : L.Fresh o) (h : L.WellFormed) :
    (L.parkOrder o).WellFormed :=
  (h.addStopOrder (b := (L.order o).isBuy) hf.lt).addDateOrder hf.lt

/-- The end of `add_order` changes no other order. -/
theorem settle_order_old {filled : Bool} {x : ℕ} (hx : x ≠ o) :
    (L.settle o filled).1.order x = L.order x := by
  rw [settle]
  split
  · rfl
  · split
    · rw [updateData_order, Function.update_of_ne hx]
    · obtain ⟨dates, hdates⟩ := addDateOrder_frame
        (((L.allocLimit (L.order o).price).addLimitOrder o L.nextLimit (L.order o).isBuy).insertEntry
          o) o
      obtain ⟨horder, -⟩ := addLimitOrder_frame (L.allocLimit (L.order o).price) o L.nextLimit
        (L.order o).isBuy
      rw [Ledger.restOrder, hdates, setDates_order, insertEntry_order, horder]
      rfl

/-! ### Cancelling -/

theorem qty_cancel (x : ℕ) : (L.updateData o .cancel).qty x = L.qty x := by
  rw [qty, qty]
  by_cases hx : x = o
  · subst hx
    simp [OrderData.cancel]
  · simp [hx]

/-- **The ways `cancel_order` ends.** -/
theorem WellFormed.cancelOrder_cases (h : L.WellFormed) (id : String) :
    (L.orders.lookup id = none ∧ L.cancelOrder id = (L, .notFound)) ∨
    (∃ e, L.orders.lookup id = some e ∧ (L.order e).hasParam .stop = true ∧
      L.cancelOrder id =
        (((L.updateData e .cancel).removeStopOrder e).enqueueOrder e, .cancelled)) ∨
    ∃ e l, L.orders.lookup id = some e ∧ (L.order e).hasParam .stop = false ∧
      L.parent e = some l ∧
      L.cancelOrder id = (((L.updateData e .cancel).displace e l).enqueueOrder e, .cancelled) := by
  rw [cancelOrder]
  rcases he : L.orders.lookup id with _ | e
  · exact Or.inl ⟨rfl, rfl⟩
  have hstop : ((L.updateData e .cancel).order e).hasParam .stop = (L.order e).hasParam .stop := by
    simp [OrderData.hasParam, OrderData.cancel]
  dsimp only
  rw [removeOrder, hstop]
  by_cases hs : (L.order e).hasParam .stop = true
  · rw [if_pos hs]
    exact Or.inr (Or.inl ⟨e, rfl, hs, rfl⟩)
  · obtain ⟨l, hl⟩ := h.entry_parent id e he
    have hl' : (L.updateData e .cancel).parent e = some l := hl
    rw [if_neg hs, Ledger.removeLimitOrder, hl']
    exact Or.inr (Or.inr ⟨e, l, rfl, by simpa using hs, hl, rfl⟩)

/-- **The ways `modify_order` ends**: it replaces an order that it finds and that is neither
cancelled nor filled. -/
theorem modifyOrder_cases (L : Ledger) (n : ℕ) :
    (∀ e, L.orders.lookup (L.order n).id = some e →
        ¬ ((L.order e).cancelled = false ∧ (L.order e).isFullfilled = false)) ∧
      (L.modifyOrder n).1 = L ∨
    ∃ e, L.orders.lookup (L.order n).id = some e ∧ (L.order e).cancelled = false ∧
      (L.order e).isFullfilled = false ∧
      (L.modifyOrder n).1 = ((L.updateData e .cancel).replaceOrder e n).enqueueOrder n := by
  rw [Ledger.modifyOrder]
  rcases he : L.orders.lookup (L.order n).id with _ | e
  · exact Or.inl ⟨by simp, rfl⟩
  · dsimp only
    split
    · next hlive =>
      obtain ⟨hcan, hful⟩ : (L.order e).cancelled = false ∧ (L.order e).isFullfilled = false := by
        simpa using hlive
      exact Or.inr ⟨e, rfl, hcan, hful, rfl⟩
    · next hdead =>
      refine Or.inl ⟨fun x hx => ?_, rfl⟩
      obtain rfl := Option.some.inj hx
      simpa using hdead

/-- The same for the request: a new order that finds none only leaves an object behind. -/
theorem WellFormed.step_modify_cases (h : L.WellFormed) (a : OrderArgs) :
    (∀ e, L.orders.lookup a.id = some e →
        ¬ ((L.order e).cancelled = false ∧ (L.order e).isFullfilled = false)) ∧
      (L.step (.modify a)).1 = L.allocOrder a.toData ∨
    ∃ e l, L.orders.lookup a.id = some e ∧ L.parent e = some l ∧ (L.order e).cancelled = false ∧
      (L.order e).isFullfilled = false ∧ (L.step (.modify a)).1 =
        (((L.allocOrder a.toData).updateData e .cancel).replaceOrder e L.nextOrder).enqueueOrder
          L.nextOrder := by
  have hnew := L.allocOrder_order_new a.toData
  rcases (L.allocOrder a.toData).modifyOrder_cases L.nextOrder with ⟨hdead, heq⟩ |
    ⟨e, he, hcan, hful, heq⟩
  · refine Or.inl ⟨fun e he => ?_, heq⟩
    rw [hnew] at hdead
    rw [← allocOrder_order_old (h.entry_lt _ e he) a.toData]
    exact hdead e he
  · rw [hnew] at he
    rw [allocOrder_order_old (h.entry_lt _ e he)] at hcan hful
    obtain ⟨l, hl⟩ := h.entry_parent _ e he
    exact Or.inr ⟨e, l, he, hl, hcan, hful, heq⟩

theorem WellFormed.cancelOrder (h : L.WellFormed) (id : String) : (L.cancelOrder id).1.WellFormed := by
  rcases h.cancelOrder_cases id with ⟨-, he⟩ | ⟨e, -, -, he⟩ | ⟨e, l, -, -, -, he⟩ <;> rw [he]
  · exact h
  · exact { (h.updateData (o := e) .cancel).removeStopOrder (o := e) with }
  · exact { (h.updateData (o := e) .cancel).displace (o := e) (l := l) with }

/-- Orders only leave queues when an order is cancelled. -/
theorem WellFormed.queue_cancelOrder (h : L.WellFormed) (id : String) (l : ℕ) :
    ((L.cancelOrder id).1.queue l).Sublist (L.queue l) := by
  rcases h.cancelOrder_cases id with ⟨-, he⟩ | ⟨e, -, -, he⟩ | ⟨e, k, -, -, -, he⟩ <;> rw [he]
  · exact List.Sublist.refl _
  · exact (MatchFrame.displace (L.updateData e .cancel) e k).queue l

/-- Taking an order out of its queue takes it out of the queues. -/
theorem WellFormed.mem_queue_displace (h : L.WellFormed) {e x y : ℕ} (he : e ∈ L.queue l) :
    y ∈ (L.displace e l).queue x ↔ y ∈ L.queue x ∧ y ≠ e := by
  rw [displace_queue]
  by_cases hx : x = l
  · subst hx
    rw [Function.update_self, (h.queue_nodup x).mem_erase_iff, and_comm]
  · rw [Function.update_of_ne hx]
    exact ⟨fun hy => ⟨hy, fun hye => hx (h.queue_unique he (hye ▸ hy))⟩, And.left⟩

/-- The queues without an order that is taken out. -/
theorem WellFormed.queue_displace_filter (h : L.WellFormed) {e : ℕ} (he : e ∈ L.queue l) (k : ℕ) :
    (L.displace e l).queue k = (L.queue k).filter (· != e) := by
  rw [displace_queue]
  by_cases hk : k = l
  · subst hk
    rw [Function.update_self, (h.queue_nodup k).erase_eq_filter]
  · rw [Function.update_of_ne hk, List.filter_eq_self.mpr]
    intro y hy
    have hye : y ≠ e := by
      rintro rfl
      exact hk (h.queue_unique he hy)
    simpa using hye

/-- The orders of a side without one of them. -/
theorem WellFormed.resting_displace (h : L.WellFormed) {e : ℕ} (he : e ∈ L.queue l) (b : Bool) :
    (L.displace e l).resting b = (L.resting b).erase e := by
  rw [resting, displace_levels, h.resting_nodup.erase_eq_filter, resting, List.filter_flatMap]
  exact List.flatMap_congr fun k _ => h.queue_displace_filter he k

/-- Cancelling an id erases its entry. -/
theorem WellFormed.lookup_cancelOrder_iff (h : L.WellFormed) {id id' : String} {x : ℕ} :
    (L.cancelOrder id').1.orders.lookup id = some x ↔ L.orders.lookup id = some x ∧ id ≠ id' := by
  have herase : ∀ e, L.orders.lookup id' = some e → ((L.orders.erase (L.order e).id).lookup id =
      some x ↔ L.orders.lookup id = some x ∧ id ≠ id') := by
    intro e he
    rw [h.entry_id id' e he]
    by_cases hid : id = id'
    · rw [hid, AList.lookup_erase]
      simp
    · rw [AList.lookup_erase_ne hid, and_iff_left hid]
  rcases h.cancelOrder_cases id' with ⟨hlook, he⟩ | ⟨e, hlook, -, he⟩ | ⟨e, k, hlook, -, -, he⟩ <;>
    rw [he]
  · refine (and_iff_left_of_imp ?_).symm
    rintro hx rfl
    rw [hlook] at hx
    exact absurd hx (by simp)
  · simpa [OrderData.cancel] using herase e hlook
  · simpa [OrderData.cancel] using herase e hlook

/-- Entries of the index only disappear when an order is cancelled. -/
theorem WellFormed.lookup_cancelOrder (h : L.WellFormed) {id id' : String} {x : ℕ}
    (hx : (L.cancelOrder id').1.orders.lookup id = some x) : L.orders.lookup id = some x :=
  (h.lookup_cancelOrder_iff.mp hx).1

theorem cancelOrder_id (L : Ledger) (id : String) (x : ℕ) :
    ((L.cancelOrder id).1.order x).id = (L.order x).id := by
  rcases L.cancelOrder_order id x with h | h <;> rw [h]
  rfl

theorem cancelOrder_hasParam (L : Ledger) (id : String) (x : ℕ) (q : OrderParams) :
    ((L.cancelOrder id).1.order x).hasParam q = (L.order x).hasParam q := by
  rcases L.cancelOrder_order id x with h | h <;> rw [h]
  rfl

theorem cancelOrder_qty (L : Ledger) (id : String) (x : ℕ) :
    (L.cancelOrder id).1.qty x = L.qty x := by
  rw [qty, qty]
  rcases L.cancelOrder_order id x with h | h <;> rw [h]
  rfl

/-- **The rule for `check_date_orders`**: it cancels the orders that are due one after the
other, then takes them out of the list of dates. `J` may look at those that have been
cancelled so far. -/
theorem checkDateOrders_done {J : List ℕ → Ledger → Prop} {now : ℤ}
    (hcancel : ∀ done o L', J done L' → o ∈ L.dueOrders now → (L'.order o).id = (L.order o).id →
      J (done ++ [o]) (L'.cancelOrder (L.order o).id).1)
    (herase : ∀ done L' o, J done L' → J done (L'.eraseDate o)) (hJ : J [] L) :
    J (L.dueOrders now) (L.checkDateOrders now) := by
  have hdates : ∀ done removed L', J done L' → J done (removeDates L' removed) := by
    intro done removed
    induction removed with
    | nil => exact fun L' h => h
    | cons o removed ih => exact fun L' h => ih _ (herase done L' o h)
  refine hdates _ _ _ ?_
  -- the first loop, over what is left of the list
  have hdue : ∀ rest done L', J done L' → (∀ x, (L'.order x).id = (L.order x).id) →
      (∀ x, (L'.order x).isDue (now + 3600) = (L.order x).isDue (now + 3600)) →
      L.dueOrders now = done ++ rest.takeWhile (fun o => (L.order o).isDue (now + 3600)) →
      J (L.dueOrders now) (cancelDue (now + 3600) L' rest) := by
    intro rest
    induction rest with
    | nil =>
      intro done L' h _ _ hsplit
      rw [List.takeWhile_nil, List.append_nil] at hsplit
      rwa [hsplit, cancelDue]
    | cons o rest ih =>
      intro done L' h hid hd hsplit
      rw [cancelDue, hd]
      split
      · next ho =>
        rw [List.takeWhile_cons, if_pos ho] at hsplit
        rw [hid]
        refine ih (done ++ [o]) _ (hcancel done o L' h (by simp [hsplit]) (hid o)) (fun x => ?_)
          (fun x => ?_) (by rw [hsplit, List.append_cons])
        · rw [cancelOrder_id, hid]
        · rw [isDue_cancelOrder, hd]
      · next ho =>
        rw [List.takeWhile_cons, if_neg ho, List.append_nil] at hsplit
        rwa [hsplit]
  exact hdue L.dates [] L hJ (fun _ => rfl) (fun _ => rfl) rfl

/-- What cancelling and forgetting dates keep, `check_date_orders` keeps. -/
theorem checkDateOrders_rule {J : Ledger → Prop} {now : ℤ}
    (hcancel : ∀ L' o, J L' → o ∈ L.dueOrders now → (L'.order o).id = (L.order o).id →
      J (L'.cancelOrder (L.order o).id).1)
    (herase : ∀ L' o, J L' → J (L'.eraseDate o)) (hJ : J L) : J (L.checkDateOrders now) :=
  checkDateOrders_done (J := fun _ => J) (fun _ o L' => hcancel L' o) (fun _ => herase) hJ

/-! ### Requests that do not trade -/

/-- Nothing was traded between `L` and `L'`. -/
structure Still (L L' : Ledger) : Prop where
  keeps : ∀ x, (L'.order x).Keeps (L.order x)
  qty : ∀ x, L'.qty x = L.qty x
  nextOrder : L'.nextOrder = L.nextOrder
  marketPrice : L'.marketPrice = L.marketPrice
  executions : L'.executions = L.executions
  tradeQueue : L'.tradeQueue = L.tradeQueue

namespace Still

theorem refl (L : Ledger) : Still L L := ⟨fun _ => .refl _, fun _ => rfl, rfl, rfl, rfl, rfl⟩

theorem trans {L'' : Ledger} (h : Still L L') (h' : Still L' L'') : Still L L'' where
  keeps := fun x => (h'.keeps x).trans (h.keeps x)
  qty := fun x => (h'.qty x).trans (h.qty x)
  nextOrder := h'.nextOrder.trans h.nextOrder
  marketPrice := h'.marketPrice.trans h.marketPrice
  executions := h'.executions.trans h.executions
  tradeQueue := h'.tradeQueue.trans h.tradeQueue

theorem of_order (ho : L'.order = L.order) (hn : L'.nextOrder = L.nextOrder)
    (hm : L'.marketPrice = L.marketPrice) (he : L'.executions = L.executions)
    (ht : L'.tradeQueue = L.tradeQueue) : Still L L' where
  keeps := fun x => by
    rw [ho]
    exact .refl _
  qty := fun x => by rw [Ledger.qty, Ledger.qty, ho]
  nextOrder := hn
  marketPrice := hm
  executions := he
  tradeQueue := ht

theorem cancel (L : Ledger) (o : ℕ) : Still L (L.updateData o .cancel) where
  keeps := L.keeps_updateData o .cancel
  qty := qty_cancel
  nextOrder := rfl
  marketPrice := rfl
  executions := rfl
  tradeQueue := rfl

theorem addLimitOrder (L : Ledger) (o limit : ℕ) (b : Bool) : Still L (L.addLimitOrder o limit b) := by
  obtain ⟨h₁, h₂, h₃, h₄, h₅, -, -, -⟩ := addLimitOrder_frame L o limit b
  exact .of_order h₁ h₂ h₃ h₄ h₅

theorem removeLimitOrder (L : Ledger) (o : ℕ) : Still L (L.removeLimitOrder o) := by
  rw [Ledger.removeLimitOrder]
  split
  · exact refl L
  · exact .of_order rfl rfl rfl rfl rfl

theorem addStopOrder (L : Ledger) (o : ℕ) (b : Bool) : Still L (L.addStopOrder o b) :=
  .of_order rfl rfl rfl rfl rfl

theorem removeStopOrder (L : Ledger) (o : ℕ) : Still L (L.removeStopOrder o) :=
  .of_order rfl rfl rfl rfl rfl

theorem enqueueOrder (L : Ledger) (o : ℕ) : Still L (L.enqueueOrder o) :=
  .of_order rfl rfl rfl rfl rfl

theorem addDateOrder (L : Ledger) (o : ℕ) : Still L (L.addDateOrder o) := by
  obtain ⟨dates, hdates⟩ := addDateOrder_frame L o
  rw [hdates]
  exact .of_order rfl rfl rfl rfl rfl

theorem parkOrder (L : Ledger) (o : ℕ) : Still L (L.parkOrder o) :=
  (addStopOrder L o _).trans (addDateOrder _ o)

theorem restOrder (L : Ledger) (o : ℕ) : Still L (L.restOrder o) := by
  have h₁ : Still L (L.allocLimit (L.order o).price) := .of_order rfl rfl rfl rfl rfl
  have h₂ : ∀ L : Ledger, Still L (L.insertEntry o) := fun _ => .of_order rfl rfl rfl rfl rfl
  exact ((h₁.trans (addLimitOrder _ o _ _)).trans (h₂ _)).trans (addDateOrder _ o)

theorem settle (L : Ledger) (o : ℕ) (filled : Bool) : Still L (L.settle o filled).1 := by
  rw [Ledger.settle]
  split
  · exact refl L
  · split
    · exact cancel L o
    · exact restOrder L o

theorem removeOrder (L : Ledger) (o : ℕ) : Still L (L.removeOrder o) := by
  rw [Ledger.removeOrder]
  split
  · exact removeStopOrder L o
  · exact removeLimitOrder L o

theorem cancelOrder (L : Ledger) (id : String) : Still L (L.cancelOrder id).1 := by
  rw [Ledger.cancelOrder]
  split
  · exact refl L
  · next e _ => exact ((cancel L e).trans (removeOrder _ e)).trans (enqueueOrder _ e)

theorem replaceOrder (L : Ledger) (e o : ℕ) : Still L (L.replaceOrder e o) := by
  rw [Ledger.replaceOrder]
  split
  · exact (removeStopOrder L o).trans (addStopOrder _ o _)
  · split
    · exact refl L
    · exact (removeLimitOrder L e).trans (addLimitOrder _ o _ _)

theorem modifyOrder (L : Ledger) (o : ℕ) : Still L (L.modifyOrder o).1 := by
  rcases L.modifyOrder_cases o with ⟨-, heq⟩ | ⟨e, -, -, -, heq⟩ <;> rw [heq]
  · exact refl L
  · exact ((cancel L e).trans (replaceOrder _ e o)).trans (enqueueOrder _ o)

theorem checkDateOrders (L : Ledger) (now : ℤ) : Still L (L.checkDateOrders now) :=
  checkDateOrders_rule (J := Still L) (fun L' _ hJ _ _ => hJ.trans (cancelOrder L' _))
    (fun _ _ hJ => hJ.trans (.of_order rfl rfl rfl rfl rfl)) (refl L)

theorem recoverOrder (L : Ledger) (o : ℕ) : Still L (L.recoverOrder o) := by
  rw [Ledger.recoverOrder]
  split
  · exact addStopOrder L o _
  · have h₁ : Still L (L.allocLimit (L.order o).price) := .of_order rfl rfl rfl rfl rfl
    exact h₁.trans (addLimitOrder _ o _ _)

end Still

end Ledger

end LimitOrderBook
