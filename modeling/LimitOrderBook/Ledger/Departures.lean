import LimitOrderBook.Ledger.Tracked

/-!
# Orders that leave and come

Which orders of a ledger leave the book in a request, and which one comes: a parked order that
has the key of another one (`LimitOrderBook.Ledger.Evicts`), orders that are filled
(`LimitOrderBook.Ledger.Fills`), and the queue of a level that a modified order takes over
(`LimitOrderBook.Ledger.TakesOver`). Beside this stands what becomes of the registry of dated
orders, which does not look at the book.
-/

namespace LimitOrderBook

open OrderBook (Request)

/-- An order that does not ask to be filled at once keeps its flags when it is activated. -/
theorem OrderData.activated_of_not_fok (x : OrderData) (h : x.activated.hasParam .fok = false) :
    x.activated = x := by
  unfold activated at h ⊢
  split
  · next hm =>
    rw [if_pos hm, hasParam_fok, (hasParam_setParams_ioc x).2.2] at h
    exact absurd h (by simp)
  · rfl

namespace Ledger

variable {L L' : Ledger} {ids : List String} {o n e l : ℕ} {b : Bool}

/-- The order `o` is parked on the side of `x`, with the key that `x` has there. -/
def Evicts (L : Ledger) (x : OrderData) (o : ℕ) : Prop :=
  o ∈ L.stops x.isBuy ∧ (L.order o).price = x.price ∧ (L.order o).timestamp = x.timestamp

/-- The new order comes to the level of `o`, which does not stay there. -/
def Fills (L : Ledger) (a : OrderArgs) (o : ℕ) : Prop :=
  ∃ r ∈ L.reaches a, o ∈ (L.holding r.1).map Prod.fst ∧
    o ∉ (staying (a.toData.activated.hasParam .aon) r.2 (L.holding r.1)).map Prod.fst

/-- An order that is put at the level `l` on the side `b` takes over the queue with `o` in it. -/
def TakesOver (L : Ledger) (l : ℕ) (b : Bool) (o : ℕ) : Prop :=
  o ∈ L.queue l ∧ ∀ k ∈ L.levels b, (L.limit k).price ≠ (L.limit l).price

/-! ### The registry -/

theorem dateLess_equiv {x y : ℕ} : Equiv L.dateLess x y ↔
    (L.order x).expireTime = (L.order y).expireTime := by
  rw [Equiv, dateLess, dateLess, dateOrderComparator, dateOrderComparator]
  simpa using (le_antisymm_iff.trans and_comm).symm

/-- Registering a dated order takes the place of one with the same expire time. -/
theorem WellFormed.mem_dates_addDateOrder (h : L.WellFormed) : o ∈ (L.addDateOrder n).dates ↔
    (o ∈ L.dates ∧ ¬ ((L.order n).isDated = true ∧
      (L.order o).expireTime = (L.order n).expireTime)) ∨ o = n ∧ (L.order n).isDated = true := by
  rw [Ledger.addDateOrder]
  split
  · next hd =>
    rw [insertDate_dates, mem_insertKey L.dateLess_strictWeak h.dates_sorted, dateLess_equiv]
    simp only [hd, true_and, and_true, eq_comm (a := (L.order o).expireTime), or_comm]
  · next hd => simp [hd]

/-- Where the order comes to rest has no part in its registration. -/
theorem WellFormed.mem_dates_restOrder (h : L.WellFormed) : o ∈ (L.restOrder n).dates ↔
    (o ∈ L.dates ∧ ¬ ((L.order n).isDated = true ∧
      (L.order o).expireTime = (L.order n).expireTime)) ∨ o = n ∧ (L.order n).isDated = true := by
  obtain ⟨horder, -, -, -, -, -, hdates, -⟩ := addLimitOrder_frame
    (L.allocLimit (L.order n).price) n L.nextLimit (L.order n).isBuy
  obtain ⟨L₁, hL₁⟩ : ∃ L₁, L₁ = ((L.allocLimit (L.order n).price).addLimitOrder n L.nextLimit
    (L.order n).isBuy).insertEntry n := ⟨_, rfl⟩
  have horder₁ : L₁.order = L.order := by
    rw [hL₁]
    exact horder
  have hdates₁ : L₁.dates = L.dates := by
    rw [hL₁]
    exact hdates
  have hless : L₁.dateLess = L.dateLess := by
    funext x y
    rw [dateLess, dateLess, horder₁]
  rw [Ledger.restOrder, ← hL₁, ← h.mem_dates_addDateOrder, Ledger.addDateOrder,
    Ledger.addDateOrder, horder₁]
  split
  · rw [insertDate_dates, insertDate_dates, hless, hdates₁]
  · rw [hdates₁]

theorem mem_dates_removeDates (h : L.WellFormed) (removed : List ℕ) :
    o ∈ (L.removeDates removed).dates ↔
      o ∈ L.dates ∧ ∀ d ∈ removed, (L.order d).expireTime ≠ (L.order o).expireTime := by
  induction removed generalizing L with
  | nil => simp [removeDates]
  | cons d removed ih =>
    rw [removeDates, ih h.eraseDate, eraseDate_dates,
      mem_eraseKey L.dateLess_strictWeak h.dates_sorted, dateLess_equiv]
    simp [and_assoc]

theorem dates_cancelOrder (hwf : L.WellFormed) (id : String) :
    (L.cancelOrder id).1.dates = L.dates := by
  rcases hwf.cancelOrder_cases id with ⟨-, he⟩ | ⟨e, -, -, he⟩ | ⟨e, l, -, -, -, he⟩ <;>
    rw [he] <;> rfl

theorem dates_replaceOrder : (L.replaceOrder e n).dates = L.dates := by
  rw [Ledger.replaceOrder, removeLimitOrder]
  split
  · rfl
  · split
    · rfl
    · next l hl =>
      obtain ⟨-, -, -, -, -, -, hdates, -⟩ := addLimitOrder_frame (L.displace e l) n l
        (L.order n).isBuy
      exact hdates

/-- The orders that are due are in the registry. -/
theorem mem_dates_of_due {now : ℤ} (ho : o ∈ L.dueOrders now) : o ∈ L.dates :=
  (List.takeWhile_sublist _).mem ho

/-- The first loop of `check_date_orders` leaves the registry alone. -/
theorem cancelDue_frame (hwf : L.WellFormed) (now : ℤ) (dates : List ℕ) :
    (L.cancelDue now dates).WellFormed ∧ (L.cancelDue now dates).dates = L.dates ∧
      ∀ x, ((L.cancelDue now dates).order x).expireTime = (L.order x).expireTime := by
  induction dates generalizing L with
  | nil => exact ⟨hwf, rfl, fun _ => rfl⟩
  | cons o dates ih =>
    rw [cancelDue]
    split
    · obtain ⟨h₁, h₂, h₃⟩ := ih (hwf.cancelOrder (L.order o).id)
      refine ⟨h₁, h₂.trans (dates_cancelOrder hwf _), fun x => (h₃ x).trans ?_⟩
      rcases L.cancelOrder_order (L.order o).id x with hx | hx <;> rw [hx]
      rfl
    · exact ⟨hwf, rfl, fun _ => rfl⟩

/-- **The registry after `check_date_orders`** has the orders that are not due. -/
theorem mem_dates_checkDateOrders (hwf : L.WellFormed) (now : ℤ) :
    o ∈ (L.checkDateOrders now).dates ↔ o ∈ L.dates ∧ o ∉ L.dueOrders now := by
  obtain ⟨h₁, h₂, h₃⟩ := cancelDue_frame hwf (now + 3600) L.dates
  rw [Ledger.checkDateOrders, mem_dates_removeDates h₁, h₂]
  simp only [h₃]
  refine and_congr_right fun ho => ⟨fun hne hdue => hne o hdue rfl, fun hno d hd he => hno ?_⟩
  -- different orders of the registry expire at different times
  have hdo : d = o :=
    hwf.dates_sorted.eq_of_equiv (mem_dates_of_due hd) ho (dateLess_equiv.mpr he)
  exact hdo ▸ hd

/-! ### Modified orders -/

theorem order_replaceOrder : (L.replaceOrder e n).order = L.order := by
  rw [Ledger.replaceOrder, removeLimitOrder]
  split
  · rfl
  · split
    · rfl
    · next l hl => exact (addLimitOrder_frame (L.displace e l) n l (L.order n).isBuy).1

/-! ### Orders that are parked, and orders that rest -/

namespace Tracked

variable (h : L.Tracked ids)

include h

/-- Where a parked order that is evicted was. -/
theorem mem_stops_of_evicts {x : OrderData} (ho : L.Evicts x o) :
    (∀ l, o ∉ L.queue l) ∧ ∀ b, o ∈ L.stops b → b = x.isBuy := by
  refine ⟨fun l hl => h.apart l o hl x.isBuy ho.1, fun b hb => ?_⟩
  rw [← h.sided b o hb, h.sided x.isBuy o ho.1]

/-- A parked order, and a new one with its key. -/
theorem held_addStopOrder (hL : L'.queue = L.queue)
    (hstops : L'.stops = (L.addStopOrder n (L.order n).isBuy).stops) :
    L'.Held o ↔ (L.Held o ∧ ¬ L.Evicts (L.order n) o) ∨ o = n := by
  have hside : ∀ b, o ∈ L'.stops b ↔
      (o ∈ L.stops b ∧ ¬ L.Evicts (L.order n) o) ∨ o = n ∧ b = (L.order n).isBuy := by
    intro b
    rw [hstops, addStopOrder_stops]
    by_cases hb : b = (L.order n).isBuy
    · subst hb
      rw [Function.update_self, mem_insertKey (L.stopLess_strictWeak _) (h.wf.stops_sorted _),
        stopLess_equiv, and_iff_left rfl, or_comm, Evicts]
      refine or_congr_left (and_congr_right fun ho => not_congr ?_)
      rw [and_iff_right ho, eq_comm, eq_comm (a := (L.order n).timestamp)]
    · rw [Function.update_of_ne hb, and_iff_left_of_imp, or_iff_left fun hc => hb hc.2]
      exact fun ho he => hb ((h.mem_stops_of_evicts he).2 b ho)
  rw [Held, Held, hL]
  constructor
  · rintro (⟨l, hl⟩ | ⟨b, hb⟩)
    · exact Or.inl ⟨Or.inl ⟨l, hl⟩, fun he => (h.mem_stops_of_evicts he).1 l hl⟩
    · exact ((hside b).mp hb).imp (fun ho => ⟨Or.inr ⟨b, ho.1⟩, ho.2⟩) And.left
  · rintro (⟨⟨l, hl⟩ | ⟨b, hb⟩, hno⟩ | ho)
    · exact Or.inl ⟨l, hl⟩
    · exact Or.inr ⟨b, (hside b).mpr (Or.inl ⟨hb, hno⟩)⟩
    · exact Or.inr ⟨_, (hside _).mpr (Or.inr ⟨ho, rfl⟩)⟩

theorem mem_stops_removeStopOrder :
    o ∈ (L.removeStopOrder n).stops b ↔ o ∈ L.stops b ∧ ¬ L.Evicts (L.order n) o := by
  rw [removeStopOrder_stops]
  by_cases hb : b = (L.order n).isBuy
  · subst hb
    rw [Function.update_self, mem_eraseKey (L.stopLess_strictWeak _) (h.wf.stops_sorted _),
      stopLess_equiv, Evicts]
    refine and_congr_right fun ho => not_congr ?_
    rw [and_iff_right ho, eq_comm, eq_comm (a := (L.order n).timestamp)]
  · rw [Function.update_of_ne hb]
    refine (and_iff_left_of_imp fun ho he => hb ?_).symm
    exact (h.mem_stops_of_evicts he).2 b ho

/-- A parked order leaves, if there is one with the key of `n`. -/
theorem held_removeStopOrder :
    (L.removeStopOrder n).Held o ↔ L.Held o ∧ ¬ L.Evicts (L.order n) o := by
  rw [Held, Held, or_and_right]
  refine or_congr ?_ ((exists_congr fun _ => h.mem_stops_removeStopOrder).trans exists_and_right)
  refine (and_iff_left_of_imp ?_).symm
  rintro ⟨l, hl⟩ he
  exact (h.mem_stops_of_evicts he).1 l hl

/-- An order that leaves its queue, or is in none and is not parked either. -/
theorem held_displace (hp : L.parent e = some l) (hs : ∀ b, e ∉ L.stops b) :
    (L.displace e l).Held o ↔ L.Held o ∧ o ≠ e := by
  have hqueue : ∀ k, o ∈ (L.displace e l).queue k ↔ o ∈ L.queue k ∧ o ≠ e := by
    intro k
    rw [displace_queue]
    by_cases hk : k = l
    · subst hk
      rw [Function.update_self, (h.wf.queue_nodup k).mem_erase_iff, and_comm]
    · rw [Function.update_of_ne hk]
      refine (and_iff_left_of_imp fun ho he => hk ?_).symm
      rw [he] at ho
      exact Option.some.inj ((h.wf.queue_parent k e ho).symm.trans hp)
  rw [Held, Held, or_and_right]
  refine or_congr (exists_congr hqueue |>.trans exists_and_right) ?_
  refine (and_iff_left_of_imp ?_).symm
  rintro ⟨b, hb⟩ rfl
  exact hs b hb

/-- A new order at the level of another one, which it may take over. -/
theorem held_addLimitOrder :
    (L.addLimitOrder n l b).Held o ↔ (L.Held o ∧ ¬ L.TakesOver l b o) ∨ o = n := by
  obtain ⟨-, -, -, -, -, hstops, -, -⟩ := addLimitOrder_frame L n l b
  have hless := L.limitLess_strictWeak b
  -- the level of an order that is taken over
  have hover : L.TakesOver l b o → (∀ k, o ∈ L.queue k → k = l) ∧ ∀ b, o ∉ L.stops b :=
    fun ht => ⟨fun k hk => h.wf.queue_unique ht.1 hk, h.apart l o ht.1⟩
  have hqueue : (∃ k, o ∈ (L.addLimitOrder n l b).queue k) ↔
      (∃ k, o ∈ L.queue k ∧ ¬ L.TakesOver l b o) ∨ o = n := by
    rw [Ledger.addLimitOrder]
    split
    · next x hx =>
      obtain ⟨hxl, hxe⟩ := (findKey_eq_some hless (h.wf.levels_sorted b)).mp hx
      have hno : ¬ L.TakesOver l b o := fun ht => ht.2 x hxl (limitLess_equiv.mp hxe).symm
      simp only [hno, not_false_eq_true, and_true, place_queue]
      constructor
      · rintro ⟨k, hk⟩
        by_cases hkx : k = x
        · subst hkx
          rw [Function.update_self, List.mem_append, List.mem_singleton] at hk
          exact hk.imp_left fun hk => ⟨k, hk⟩
        · rw [Function.update_of_ne hkx] at hk
          exact Or.inl ⟨k, hk⟩
      · rintro (⟨k, hk⟩ | rfl)
        · refine ⟨k, ?_⟩
          by_cases hkx : k = x
          · subst hkx
            rw [Function.update_self]
            exact List.mem_append_left _ hk
          · rwa [Function.update_of_ne hkx]
        · exact ⟨x, by simp⟩
    · next hx =>
      have hnone := (findKey_eq_none hless (h.wf.levels_sorted b)).mp hx
      have hover : L.TakesOver l b o ↔ o ∈ L.queue l := by
        refine and_iff_left fun k hk he => hnone k hk (limitLess_equiv.mpr he.symm)
      simp only [hover, place_queue]
      constructor
      · rintro ⟨k, hk⟩
        by_cases hkl : k = l
        · subst hkl
          rw [Function.update_self, List.mem_singleton] at hk
          exact Or.inr hk
        · rw [Function.update_of_ne hkl] at hk
          exact Or.inl ⟨k, hk, fun hl => hkl (h.wf.queue_unique hl hk)⟩
      · rintro (⟨k, hk, hno⟩ | rfl)
        · have hkl : k ≠ l := fun he => hno (he ▸ hk)
          exact ⟨k, by rwa [Function.update_of_ne hkl]⟩
        · exact ⟨l, by simp⟩
  rw [Held, Held, hqueue, hstops, or_and_right, exists_and_right, or_right_comm]
  refine or_congr_left (or_congr_right (and_iff_left_of_imp ?_).symm)
  rintro ⟨c, hc⟩ ht
  exact (hover ht).2 c hc

/-! ### A new order -/

omit h in
/-- An order is in the queue of a level after matching if the new one does not fill it. -/
theorem mem_queue_matched (hwf : L.WellFormed) (a : OrderArgs) :
    o ∈ (L.matched a).1.queue l ↔ o ∈ L.queue l ∧ ¬ L.Fills a o := by
  have hmatch := hwf.matched_reaches a
  have hframe : MatchFrame (L.activate a) (L.matched a).1 := .matchLimits _ _
  have hnumbers : ∀ (M : Ledger) (k : ℕ), (M.holding k).map Prod.fst = M.queue k := fun M k => by
    rw [holding, List.map_map]
    exact List.map_id _
  have hsub : o ∈ (L.matched a).1.queue l → o ∈ L.queue l := (hframe.queue l).mem
  constructor
  · refine fun ho => ⟨hsub ho, ?_⟩
    rintro ⟨r, hr, hin, hout⟩
    rw [hnumbers] at hin
    obtain rfl := hwf.queue_unique hin (hsub ho)
    rw [← hmatch.visited r hr, hnumbers] at hout
    exact hout ho
  · rintro ⟨ho, hno⟩
    by_cases hr : ∃ r ∈ L.reaches a, r.1 = l
    · obtain ⟨r, hr, rfl⟩ := hr
      by_contra hout
      refine hno ⟨r, hr, by rwa [hnumbers], ?_⟩
      rwa [← hmatch.visited r hr, hnumbers]
    · rw [← hnumbers, hmatch.other l fun r hr' he => hr ⟨r, hr', he⟩, hnumbers]
      exact ho

/-- **What a new order does**: it takes the place of a parked one, or fills some that rest, and
if it stays it enters the registry. -/
theorem add_effect (a : OrderArgs) (now : ℤ) {placed : Prop}
    (hplaced : placed ↔ (L.receive a).isParked L.nextOrder = true ∨
      a.toData.activated.hasParam .fok = false ∧ (L.matched a).2 = false) :
    (∀ o, (L.step (.add now a)).1.Held o ↔
      (L.Held o ∧ ¬ if (L.receive a).isParked L.nextOrder then L.Evicts a.toData o
        else L.Fills a o) ∨ o = L.nextOrder ∧ placed) ∧
    (∀ o, o ∈ (L.step (.add now a)).1.dates ↔
      (o ∈ L.dates ∧ ¬ (placed ∧ a.toData.isDated = true ∧
        (L.order o).expireTime = a.expireTime)) ∨
        o = L.nextOrder ∧ placed ∧ a.toData.isDated = true) ∧
    (placed → ((L.step (.add now a)).1.order L.nextOrder).isDated = a.toData.isDated) := by
  have hexpire : ∀ M : Ledger, (∀ x < L.nextOrder, (M.order x).expireTime =
      (L.order x).expireTime) → ∀ o ∈ L.dates, ((M.order o).expireTime = a.expireTime ↔
      (L.order o).expireTime = a.expireTime) := fun M hM o ho => by
    rw [hM o (h.wf.dates_lt o ho)]
  rw [step_add, hplaced]
  by_cases hp : (L.receive a).isParked L.nextOrder = true
  · rw [if_pos hp]
    have hreceive := h.receive a
    have hnew := L.receive_order_new a
    obtain ⟨M, hM⟩ : ∃ M, M = (L.receive a).addStopOrder L.nextOrder a.toData.isBuy := ⟨_, rfl⟩
    have hpark : (L.receive a).parkOrder L.nextOrder = M.addDateOrder L.nextOrder := by
      rw [parkOrder, hnew, hM]
    have hMwf : M.WellFormed := hM ▸ hreceive.wf.addStopOrder (h.wf.fresh_receive a).lt
    have hMorder : M.order = (L.receive a).order := by
      rw [hM]
      rfl
    obtain ⟨dates, hdates⟩ := addDateOrder_frame M L.nextOrder
    refine ⟨fun o => ?_, fun o => ?_, fun _ => ?_⟩
    · have hheld : (M.addDateOrder L.nextOrder).Held o ↔ _ := hreceive.held_addStopOrder
        (n := L.nextOrder) (by rw [hdates, hM]; rfl) (by rw [hdates, hM, hnew]; rfl)
      rw [hpark, hheld, hnew, if_pos hp, and_iff_left (Or.inl hp)]
      refine or_congr_left (and_congr_right fun ho => not_congr (and_congr_right fun hs => ?_))
      rw [receive_order (h.wf.stops_lt _ o hs)]
    · rw [hpark, hMwf.mem_dates_addDateOrder, hMorder, hnew]
      have hMdates : M.dates = L.dates := by rw [hM]; rfl
      rw [hMdates]
      simp only [hp, true_or, true_and]
      refine or_congr_left (and_congr_right fun ho => not_congr (and_congr_right fun _ => ?_))
      exact hexpire _ (fun x hx => by rw [receive_order hx]) o ho
    · rw [hpark, hdates, setDates_order, hMorder, hnew]
  · rw [if_neg hp]
    have hframe : MatchFrame (L.activate a) (L.matched a).1 := .matchLimits _ _
    have hwf : (L.matched a).1.WellFormed := h.wf.matched a
    have hdates : (L.matched a).1.dates = L.dates := hframe.dates
    have hstops : (L.matched a).1.stops = L.stops := hframe.stops
    have hflags : ∀ q, ((L.matched a).1.order L.nextOrder).hasParam q =
        a.toData.activated.hasParam q := fun q => by
      rw [hframe.hasParam, activate_order_new]
    have hfills : ∀ o, L.Fills a o → ∃ l, o ∈ L.queue l := by
      rintro o ⟨r, -, hin, -⟩
      rw [holding, List.map_map] at hin
      exact ⟨r.1, by simpa using hin⟩
    -- the orders that are left after matching
    have hleft : ∀ o, (L.matched a).1.Held o ↔ L.Held o ∧ ¬ L.Fills a o := fun o => by
      rw [Held, Held, hstops, or_and_right, ← exists_and_right]
      refine or_congr (exists_congr fun l => mem_queue_matched h.wf a) ?_
      refine (and_iff_left_of_imp ?_).symm
      rintro ⟨b, hb⟩ hf
      obtain ⟨l, hl⟩ := hfills o hf
      exact h.apart l o hl b hb
    rw [Ledger.settle, hflags]
    simp only [hp, if_false, false_or, Bool.false_eq_true]
    by_cases hm : (L.matched a).2 = true
    · simp only [hm, if_true, Bool.true_eq_false, and_false, or_false, false_and, not_false_eq_true,
        and_true, false_imp_iff, hleft, hdates, iff_self, implies_true]
    by_cases hf : a.toData.activated.hasParam .fok = true
    · simp only [hm, hf, if_true, Bool.true_eq_false, or_false, false_and, not_false_eq_true,
        and_true, false_imp_iff, Bool.false_eq_true, if_false, and_false]
      exact ⟨hleft, fun o => by rw [updateData_dates, hdates]⟩
    · have hm' : (L.matched a).2 = false := by simpa using hm
      have hf' : a.toData.activated.hasParam .fok = false := by simpa using hf
      have hsame := a.toData.activated_of_not_fok hf'
      obtain ⟨l, hl, -, -⟩ := hwf.restOrder L.nextOrder
      have hnewdated : ((L.matched a).1.order L.nextOrder).isDated = a.toData.isDated :=
        isDated_of_hasParam fun q => by rw [hflags, hsame]
      have hnewexpire : ((L.matched a).1.order L.nextOrder).expireTime = a.expireTime := by
        rw [(hframe.keeps _).expireTime, activate_order_new, hsame]
        rfl
      simp only [hm', hf', Bool.false_eq_true, if_false, and_self, true_and, and_true]
      refine ⟨fun o => ?_, fun o => ?_, fun _ => ?_⟩
      · rw [← hleft, Held, Held, hl.stops]
        simp only [hl.mem_queue]
        constructor
        · rintro (⟨k, ⟨rfl, -⟩ | hk⟩ | hs)
          · exact Or.inr rfl
          · exact Or.inl (Or.inl ⟨k, hk⟩)
          · exact Or.inl (Or.inr hs)
        · rintro ((⟨k, hk⟩ | hs) | rfl)
          · exact Or.inl ⟨k, Or.inr hk⟩
          · exact Or.inr hs
          · exact Or.inl ⟨l, Or.inl ⟨rfl, rfl⟩⟩
      · rw [hwf.mem_dates_restOrder, hnewdated, hnewexpire, hdates]
        refine or_congr_left (and_congr_right fun ho => not_congr (and_congr_right fun _ => ?_))
        refine hexpire _ (fun x hx => ?_) o ho
        rw [(hframe.keeps x).expireTime, activate_order hx]
      · rw [hl.order, hnewdated]

/-! ### Old orders -/

omit h in
theorem evicts_cancel {x : OrderData} : (L.updateData e .cancel).Evicts x o ↔ L.Evicts x o := by
  have hsame := keeps_updateData L e .cancel o
  rw [Evicts, Evicts, hsame.price, hsame.timestamp]
  rfl

/-- **What `cancel_order` does**: the entry leaves the book, or a parked order with its key. -/
theorem held_cancelOrder {id : String} (he : L.orders.lookup id = some e) :
    (L.cancelOrder id).1.Held o ↔ L.Held o ∧
      ¬ if (L.order e).hasParam .stop then L.Evicts (L.order e) o else o = e := by
  have hsame := keeps_updateData L e .cancel e
  rcases h.wf.cancelOrder_cases id with ⟨hnone, -⟩ | ⟨x, hx, hs, heq⟩ | ⟨x, l, hx, hs, hp, heq⟩
  · exact absurd (hnone.symm.trans he) (by simp)
  · obtain rfl := Option.some.inj (hx.symm.trans he)
    rw [if_pos hs, heq]
    refine ((h.cancel x).held_removeStopOrder (n := x)).trans ?_
    rw [evicts_cancel, Evicts, Evicts, hsame.isBuy, hsame.price, hsame.timestamp]
    rfl
  · obtain rfl := Option.some.inj (hx.symm.trans he)
    rw [if_neg (by simp [hs]), heq]
    exact (h.cancel x).held_displace hp (h.entry id x he)

/-- **What `modify_order` does** with an order that it finds. -/
theorem held_replaceOrder (he : L.orders.lookup (L.order n).id = some e)
    (hl : L.parent e = some l) :
    (L.replaceOrder e n).Held o ↔ (L.Held o ∧ ¬ if (L.order e).hasParam .stop then
      L.Evicts (L.order n) o else o = e ∨ L.TakesOver l (L.order n).isBuy o) ∨ o = n := by
  rw [Ledger.replaceOrder]
  split
  · next hs =>
    have hr := h.removeStopOrder rfl he hs
    have hadd : ((L.removeStopOrder n).addStopOrder n (L.order n).isBuy).Held o ↔ _ :=
      hr.held_addStopOrder rfl rfl
    rw [hadd, h.held_removeStopOrder]
    refine or_congr_left (and_iff_left_of_imp fun ho hev => ho.2 ?_)
    exact ⟨(h.mem_stops_removeStopOrder.mp hev.1).1, hev.2⟩
  · rw [hl]
    dsimp only
    rw [removeLimitOrder, hl]
    dsimp only
    have hd := h.displace (Or.inr ⟨_, he⟩) hl
    rw [hd.held_addLimitOrder, h.held_displace hl (h.entry _ e he), not_or, ← and_assoc]
    refine or_congr_left (and_congr_right fun hoe => not_congr ?_)
    have hprice := (MatchFrame.displace L e l).price
    rw [TakesOver, TakesOver, displace_queue, Function.update_self,
      List.mem_erase_of_ne hoe.2]
    simp only [hprice, displace_levels]

/-- The queues with orders in them are still those of levels on a side. -/
theorem listed_replaceOrder (hl : L.parent e = some l) :
    ∀ k, ∀ o ∈ (L.replaceOrder e n).queue k, ∃ b, k ∈ (L.replaceOrder e n).levels b := by
  rw [Ledger.replaceOrder]
  split
  · exact h.listed
  · rw [hl]
    dsimp only
    rw [removeLimitOrder, hl]
    dsimp only
    intro k o ho
    have hwf : (L.displace e l).WellFormed := h.wf.displace
    rcases hwf.mem_queue_addLimitOrder ho with ho | ⟨-, hk⟩
    · obtain ⟨b, hb⟩ := h.listed k o (((MatchFrame.displace L e l).queue k).mem ho)
      exact ⟨b, hwf.levels_addLimitOrder b hb⟩
    · exact ⟨_, hk⟩

/-- **What a modified order does** to an old one that is neither cancelled nor filled. -/
theorem modify_effect {a : OrderArgs} (he : L.orders.lookup a.id = some e)
    (hl : L.parent e = some l)
    (hL : L' = (((L.allocOrder a.toData).updateData e .cancel).replaceOrder e
      L.nextOrder).enqueueOrder L.nextOrder) :
    (∀ o, L'.Held o ↔ (L.Held o ∧ ¬ if (L.order e).hasParam .stop then L.Evicts a.toData o
      else o = e ∨ L.TakesOver l a.toData.isBuy o) ∨ o = L.nextOrder) ∧
    L'.dates = L.dates ∧ (∀ o, L.Held o → (L'.order o).isDated = (L.order o).isDated) ∧
    L'.order L.nextOrder = a.toData ∧ ∀ k, ∀ o ∈ L'.queue k, ∃ b, k ∈ L'.levels b := by
  have hen := h.wf.entry_lt a.id e he
  -- the ledger with the new order, and the one in which the old order has been cancelled
  obtain ⟨A, hA⟩ : ∃ A, A = L.allocOrder a.toData := ⟨_, rfl⟩
  obtain ⟨K, hK⟩ : ∃ K, K = A.updateData e .cancel := ⟨_, rfl⟩
  rw [← hA, ← hK] at hL
  have hAt : A.Tracked ids := by
    rw [hA]
    exact { h.receive a with wf := { (h.receive a).wf with } }
  have hKt : K.Tracked ids := hK ▸ hAt.cancel e
  have hAo : ∀ x < L.nextOrder, A.order x = L.order x := fun x hx => by
    rw [hA, allocOrder_order_old hx]
  have hKn : K.order L.nextOrder = a.toData := by
    rw [hK, updateData_order, Function.update_of_ne (ne_of_gt hen), hA, allocOrder_order_new]
  have hKo : ∀ x < L.nextOrder, ∀ q, (K.order x).hasParam q = (L.order x).hasParam q := by
    intro x hx q
    have hx' : x < A.nextOrder := by
      rw [hA]
      exact hx.trans (Nat.lt_succ_self _)
    rw [hK, ((sameFlags_cancel A e) x hx').2.2, hAo x hx]
  have hKe : K.orders.lookup (K.order L.nextOrder).id = some e := by
    rw [hKn, hK, hA]
    exact he
  have hKp : K.parent e = some l := by
    rw [hK, hA]
    exact (Function.update_of_ne (ne_of_lt hen) _ _).trans hl
  have hevicts : ∀ o, K.Evicts a.toData o ↔ L.Evicts a.toData o := fun o => by
    rw [hK, evicts_cancel, Evicts, Evicts, hA]
    refine and_congr_right fun ho => ?_
    rw [← hA, hAo o (h.wf.stops_lt _ o ho)]
  have hover : ∀ b o, K.TakesOver l b o ↔ L.TakesOver l b o := fun b o => by
    rw [hK, hA]
    rfl
  have hheld : ∀ o, K.Held o ↔ L.Held o := fun o => by
    rw [hK, hA]
    rfl
  rw [hL]
  refine ⟨fun o => ?_, ?_, fun o ho => ?_, ?_, hKt.listed_replaceOrder hKp⟩
  · refine (hKt.held_replaceOrder hKe hKp).trans ?_
    rw [hKn, hheld, hevicts, hover, hKo e hen]
  · refine dates_replaceOrder.trans ?_
    rw [hK, hA]
    rfl
  · rw [enqueueOrder_order, order_replaceOrder]
    exact isDated_of_hasParam (hKo o (ho.lt h.wf))
  · rw [enqueueOrder_order, order_replaceOrder, hKn]

omit h in
/-- The queues with orders in them are those of levels on a side, whatever the request. -/
theorem listed_step {r : Request} {rs : List Request} (h : L.Tracked (OrderBook.addedIds (r :: rs)))
    (hnd : (OrderBook.addedIds (r :: rs)).Nodup) :
    ∀ l, ∀ o ∈ (L.step r).1.queue l, ∃ b, l ∈ (L.step r).1.levels b := by
  cases r with
  | modify a =>
    rcases h.wf.step_modify_cases a with ⟨-, heq⟩ | ⟨e, l, he, hl, -, -, heq⟩
    · rw [heq]
      exact h.listed
    · exact (h.modify_effect he hl heq).2.2.2.2
  | _ => exact (h.step hnd (by simp)).listed

end Tracked

end Ledger

end LimitOrderBook
