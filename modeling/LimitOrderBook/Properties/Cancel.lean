import LimitOrderBook.Ledger.Tidy

/-!
# Cancellation is final

`cancel_order` looks at the flags of an order to decide where it is. An order that
is not a stop order is where `cancel_order` looks for it, leaves the book alone, and
never comes back (`LimitOrderBook.cancellation_final`). A stop order in the index
rests in a queue, and stays there: it is looked for among the parked orders, where
another one with its price and time may be removed in its place.
-/

namespace LimitOrderBook

open OrderBook (Request)

/-- The order `e` is taken out of the four sequences of orders, which are otherwise
unchanged. -/
structure TakenOut (s s' : OrderBook) (e : ℕ) : Prop where
  resting : ∀ b, ∃ orders, s.getOrders b = .ok orders ∧ s'.getOrders b = .ok (orders.erase e)
  parked : ∀ b, ∃ stops, (s.stopOrders b).keys = .ok stops ∧
    (s'.stopOrders b).keys = .ok (stops.erase e)

/-- The order `e` is in none of the four sequences, and its quantity is as before. -/
structure StaysOut (s s' : OrderBook) (e : ℕ) : Prop where
  out : ∃ live, s'.liveOrders = .ok live ∧ e ∉ live
  qty : (s'.order e).currentQty = (s.order e).currentQty

namespace Ledger

/-- No order that rests or is parked is cancelled. -/
structure Alive (L : Ledger) : Prop where
  tidy : L.Tidy
  resting : ∀ l, ∀ o ∈ L.queue l, (L.order o).cancelled = false
  parked : ∀ b, ∀ o ∈ L.stops b, (L.order o).cancelled = false

/-- The order `e` was cancelled when it had the quantity `q`. -/
structure Frozen (L : Ledger) (e : ℕ) (q : ℚ) : Prop where
  lt : e < L.nextOrder
  cancelled : (L.order e).cancelled = true
  qty : L.qty e = q

theorem MatchFrame.cancelled {L L' : Ledger} (h : MatchFrame L L') (x : ℕ) :
    (L'.order x).cancelled = (L.order x).cancelled := by
  rw [h.order x]
  rfl

namespace Alive

variable {L L' : Ledger} (h : L.Alive) {o c e l : ℕ} {q p : ℚ}

include h

theorem not_mem_live (hf : L.Frozen e q) : e ∉ L.live := by
  intro he
  rcases mem_live.mp he with ⟨b, hb⟩ | ⟨b, hb⟩
  · obtain ⟨-, l, hl⟩ := h.tidy.inPlace.mem_resting_iff.mp hb
    exact absurd hf.cancelled (by simp [h.resting l e hl])
  · exact absurd hf.cancelled (by simp [h.parked b e hb])

theorem of_frame (hm : MatchFrame L L') (ht : L'.Tidy) : L'.Alive where
  tidy := ht
  resting := fun l x hx => by
    rw [hm.cancelled]
    exact h.resting l x ((hm.queue l).mem hx)
  parked := fun b x hx => by
    rw [hm.stops] at hx
    rw [hm.cancelled]
    exact h.parked b x hx

theorem matchLimits {ls : List ℕ} (ho : ∀ l, o ∉ L.queue l) : (L.matchLimits o ls).1.Alive :=
  h.of_frame (.matchLimits L ls) (h.tidy.matchLimits ho)

/-- A cancelled order takes no part in matching. -/
theorem frozen_matchLimits {ls : List ℕ} (ho : ∀ l, o ∉ L.queue l) (hoe : e ≠ o)
    (hf : L.Frozen e q) : (L.matchLimits o ls).1.Frozen e q := by
  have hframe : MatchFrame L (L.matchLimits o ls).1 := .matchLimits L ls
  refine ⟨hframe.nextOrder ▸ hf.lt, (hframe.cancelled e).trans hf.cancelled, ?_⟩
  have hqueue : ∀ l, e ∉ L.queue l := fun l hl => absurd hf.cancelled (by simp [h.resting l e hl])
  refine (matchLimits_invariant (J := fun L' => MatchFrame L L' ∧ L'.qty e = q)
    (fun L' l c p _ _ hwf hJ hc _ => ⟨hJ.1.trans (.fillOrder L' c o p), ?_⟩)
    (fun L' p hJ => ⟨hJ.1.trans (.setMarketPrice L' p), hJ.2⟩) h.tidy.wf ho ⟨.refl L, hf.qty⟩).1.2
  have hc₀ : c ∈ L.queue l := (hJ.1.queue l).mem hc
  have hco : c ≠ o := fun he => ho l (he ▸ hc₀)
  have hec : e ≠ c := fun he => hqueue l (he ▸ hc₀)
  rw [hwf.qty_fillOrder hc hco, if_neg hoe, if_neg hec]
  exact hJ.2

/-! ### Requests -/

theorem receive (a : OrderArgs) : (L.receive a).Alive := by
  refine ⟨h.tidy.receive a, fun l x hx => ?_, fun b x hx => ?_⟩
  · rw [receive_order (h.tidy.wf.queue_lt l x hx)]
    exact h.resting l x hx
  · rw [receive_order (h.tidy.wf.stops_lt b x hx)]
    exact h.parked b x hx

theorem activate (a : OrderArgs) : (L.activate a).Alive := by
  refine ⟨h.tidy.activate a, fun l x hx => ?_, fun b x hx => ?_⟩
  · rw [activate_order (h.tidy.wf.queue_lt l x hx)]
    exact h.resting l x hx
  · rw [activate_order (h.tidy.wf.stops_lt b x hx)]
    exact h.parked b x hx

theorem parkOrder (hf : L.Fresh o) (hlive : (L.order o).cancelled = false) : (L.parkOrder o).Alive := by
  have ht := h.tidy.parkOrder hf
  obtain ⟨dates, hdates⟩ := L.parkOrder_eq o
  rw [hdates] at ht ⊢
  refine ⟨ht, h.resting, fun b x hx => ?_⟩
  rcases h.tidy.wf.mem_addStopOrder hx with ⟨rfl, -⟩ | hx
  · exact hlive
  · exact h.parked b x hx

/-- Only an order outside the book is marked. -/
theorem cancel_outside (hq : ∀ l, o ∉ L.queue l) (hs : ∀ b, o ∉ L.stops b) :
    (L.updateData o .cancel).Alive := by
  refine ⟨h.tidy.cancel o, fun l x hx => ?_, fun b x hx => ?_⟩
  · have hxo : x ≠ o := fun he => hq l (he ▸ hx)
    rw [updateData_order, Function.update_of_ne hxo]
    exact h.resting l x hx
  · have hxo : x ≠ o := fun he => hs b (he ▸ hx)
    rw [updateData_order, Function.update_of_ne hxo]
    exact h.parked b x hx

theorem settle (hf : L.Fresh o) (hlive : (L.order o).cancelled = false) (filled : Bool) :
    (L.settle o filled).1.Alive := by
  have ht := h.tidy.settle hf filled
  rw [Ledger.settle] at ht ⊢
  split at ht
  · next hfilled =>
    rw [if_pos hfilled]
    exact h
  · next hfilled =>
    rw [if_neg hfilled]
    split at ht
    · next hfok =>
      rw [if_pos hfok]
      exact h.cancel_outside hf.queue hf.stops
    · next hfok =>
      rw [if_neg hfok]
      obtain ⟨l, hl, -, -⟩ := h.tidy.wf.restOrder o
      refine ⟨ht, fun x y hy => ?_, fun b y hy => ?_⟩
      · rw [hl.order]
        rcases hl.mem_queue.mp hy with ⟨rfl, -⟩ | hy
        · exact hlive
        · exact h.resting x y hy
      · rw [hl.stops] at hy
        rw [hl.order]
        exact h.parked b y hy

/-- Cancelling an order that is not a stop order takes it out of its queue. -/
theorem cancelOrder {id : String}
    (hstop : ∀ e, L.orders.lookup id = some e → (L.order e).hasParam .stop = false) :
    (L.cancelOrder id).1.Alive := by
  rcases h.tidy.wf.cancelOrder_cases id with ⟨-, he⟩ | ⟨e, hlook, hs, -⟩ |
    ⟨e, l, hlook, -, hpar, he⟩
  · rw [he]
    exact h
  · exact absurd hs (by simp [hstop e hlook])
  · have hmem := h.tidy.mem_queue_of_entry hlook hpar
    have ht := (h.tidy.cancel e).displace e l
    rw [he]
    refine ⟨{ ht with wf := { ht.wf with } }, fun x y hy => ?_, fun b y hy => ?_⟩
    · obtain ⟨hy', hye⟩ := ((h.tidy.cancel e).wf.mem_queue_displace hmem).mp hy
      rw [enqueueOrder_order, displace_order, updateData_order, Function.update_of_ne hye]
      exact h.resting x y hy'
    · have hye : y ≠ e := fun hye => h.tidy.parked b y hy l (hye ▸ hmem)
      rw [enqueueOrder_order, displace_order, updateData_order, Function.update_of_ne hye]
      exact h.parked b y hy

theorem checkDateOrders {now : ℤ}
    (hstop : ∀ o ∈ L.dueOrders now, ∀ e, L.orders.lookup (L.order o).id = some e →
      (L.order e).hasParam .stop = false) : (L.checkDateOrders now).Alive := by
  refine (checkDateOrders_rule (J := fun L' => L'.Alive ∧ ∀ o ∈ L.dueOrders now, ∀ e,
    L'.orders.lookup (L.order o).id = some e → (L'.order e).hasParam .stop = false)
    (fun L' o hJ ho _ => ⟨hJ.1.cancelOrder (hJ.2 o ho), fun x hx e he => ?_⟩)
    (fun L' o hJ => ⟨{ hJ.1 with tidy := { hJ.1.tidy with wf := hJ.1.tidy.wf.eraseDate } }, hJ.2⟩)
    ⟨h, hstop⟩).1
  rw [cancelOrder_hasParam]
  exact hJ.2 x hx e (hJ.1.tidy.wf.lookup_cancelOrder he)

/-- **No cancelled order is in the book**, after any request that cancels no stop
order. -/
theorem step {s : OrderBook} (hs : Refines s L) {r : Request} (hr : r.keepsOrders = true)
    (hstop : s.cancelsNoStop r) : (L.step r).1.Alive := by
  cases r with
  | add now a =>
    rw [step_add]
    split
    · refine (h.receive a).parkOrder (h.tidy.wf.fresh_receive a) ?_
      rw [receive_order_new]
      rfl
    · have hframe : MatchFrame (L.activate a) (L.matched a).1 := .matchLimits _ _
      have hfresh := h.tidy.wf.fresh_activate a
      refine ((h.activate a).matchLimits hfresh.queue).settle (hfresh.of_frame hframe) ?_ _
      exact (hframe.cancelled _).trans (by rw [activate_order_new, OrderData.activated_cancelled]; rfl)
  | modify a => exact absurd hr (by simp [Request.keepsOrders])
  | cancel id =>
    refine h.cancelOrder fun e he => ?_
    rw [← hs.order e]
    exact hstop e (hs.orders ▸ he)
  | checkDate now =>
    refine h.checkDateOrders fun o ho e he => ?_
    rw [← hs.order e]
    exact hs.due_entry hstop ho he

/-- **A cancelled order keeps its quantity.** -/
theorem frozen_step {r : Request} (hr : r.keepsOrders = true) (hf : L.Frozen e q) :
    (L.step r).1.Frozen e q := by
  have hcancel : ∀ L : Ledger, ∀ id, L.Frozen e q → (L.cancelOrder id).1.Frozen e q := by
    intro L id hf
    refine ⟨(Still.cancelOrder L id).nextOrder ▸ hf.lt, ?_, (cancelOrder_qty L id e).trans hf.qty⟩
    rcases L.cancelOrder_order id e with he | he <;> rw [he]
    · exact hf.cancelled
    · rfl
  cases r with
  | add now a =>
    have hne : e ≠ L.nextOrder := ne_of_lt hf.lt
    have hlt : e < (L.receive a).nextOrder := Nat.lt_succ_of_lt hf.lt
    rw [step_add]
    split
    · have hstill := Still.parkOrder (L.receive a) L.nextOrder
      obtain ⟨dates, hdates⟩ := (L.receive a).parkOrder_eq L.nextOrder
      refine ⟨hstill.nextOrder ▸ hlt, ?_, ?_⟩
      · rw [hdates, setDates_order, addStopOrder_order, receive_order hf.lt]
        exact hf.cancelled
      · rw [hstill.qty, qty, receive_order hf.lt]
        exact hf.qty
    · have hfa : (L.activate a).Frozen e q := by
        refine ⟨hlt, ?_, ?_⟩
        · rw [activate_order hf.lt]
          exact hf.cancelled
        · rw [qty, activate_order hf.lt]
          exact hf.qty
      have hM : (L.matched a).1.Frozen e q := (h.activate a).frozen_matchLimits
        (h.tidy.wf.fresh_activate a).queue hne hfa
      have hstill := Still.settle (L.matched a).1 L.nextOrder (L.matched a).2
      refine ⟨hstill.nextOrder ▸ hM.lt, ?_, (hstill.qty e).trans hM.qty⟩
      rw [settle_order_old hne]
      exact hM.cancelled
  | modify a => exact absurd hr (by simp [Request.keepsOrders])
  | cancel id => exact hcancel L id hf
  | checkDate now =>
    exact checkDateOrders_rule (J := fun L => L.Frozen e q) (fun L' _ hJ _ _ => hcancel L' _ hJ)
      (fun _ _ hJ => ⟨hJ.lt, hJ.cancelled, hJ.qty⟩) hf

end Alive

theorem alive_empty (instrument : String) (marketPrice : ℚ) : (empty instrument marketPrice).Alive :=
  ⟨tidy_empty instrument marketPrice, by simp [empty], by simp [empty]⟩

end Ledger

/-- A request for which cancelling an order takes it out of the book. -/
def OrderBook.cancelsCleanly (s : OrderBook) (r : Request) : Prop :=
  r.keepsOrders = true ∧ s.cancelsNoStop r

/-- What is out of the ledger is out of the book. -/
theorem Refines.staysOut {s s' : OrderBook} {L L' : Ledger} {e : ℕ} (h : Refines s L)
    (h' : Refines s' L') (ha : L'.Alive) (hf : L'.Frozen e (L.qty e)) : StaysOut s s' e where
  out := ⟨_, h'.liveOrders, ha.not_mem_live hf⟩
  qty := by
    rw [h.qty, h'.qty]
    exact hf.qty

/-- **Cancelling an order takes out this order and no other.** -/
theorem Refines.takenOut {s s' : OrderBook} {L : Ledger} {e l : ℕ} (h : Refines s L)
    (hl : e ∈ L.queue l) (ht : L.Tidy)
    (h' : Refines s' (((L.updateData e .cancel).displace e l).enqueueOrder e)) :
    TakenOut s s' e := by
  have hparked : ∀ b, e ∉ L.stops b := fun b hb => ht.parked b e hb l hl
  refine ⟨fun b => ⟨_, h.getOrders b, ?_⟩, fun b => ⟨_, h.getStopOrders b, ?_⟩⟩
  · rw [h'.getOrders]
    exact congrArg Except.ok ((ht.cancel e).wf.resting_displace hl b)
  · rw [h'.getStopOrders, List.erase_of_not_mem (hparked b)]
    rfl

/-- **Cancellation is final** in every run that cancels no stop order: an order whose
cancellation succeeds leaves the book, alone, and it never comes back nor changes its
quantity. The same holds of every order that was marked as cancelled before. -/
theorem cancellation_final (instrument : String) (marketPrice : ℚ) {rs₁ rs₂ : List Request}
    {id : String} (hrs : Meets OrderBook.step OrderBook.cancelsCleanly
      (.empty instrument marketPrice) (rs₁ ++ .cancel id :: rs₂)) :
    ∃ s₁ answers₁ s₂ status s₃ answers₃,
      runAll OrderBook.step (.empty instrument marketPrice) rs₁ = .ok (s₁, answers₁) ∧
      s₁.step (.cancel id) = .ok (s₂, some status) ∧
      runAll OrderBook.step s₂ rs₂ = .ok (s₃, answers₃) ∧
      (status = .cancelled → ∃ e, s₁.orders.lookup id = some e ∧ (s₁.order e).id = id ∧
        TakenOut s₁ s₂ e ∧ StaysOut s₁ s₃ e) ∧
      ∀ e < s₂.nextOrder, (s₂.order e).cancelled = true → StaysOut s₂ s₃ e := by
  obtain ⟨hrs₁, hrs₂⟩ := hrs.of_append
  obtain ⟨s₁, answers₁, L₁, hrun₁, hL₁, h₁⟩ := (refines_empty instrument marketPrice).run_invariant
    (J := Ledger.Alive) (fun _ _ _ hs hJ hr => hJ.step hs hr.1 hr.2)
    (Ledger.alive_empty instrument marketPrice) hrs₁
  obtain ⟨⟨-, hstop⟩, hrs₃⟩ := hrs₂ s₁ answers₁ hrun₁
  obtain ⟨s₂, hs₂, hL₂⟩ := hL₁.step (.cancel id)
  have h₂ : (L₁.step (.cancel id)).1.Alive := h₁.step hL₁ rfl hstop
  -- from here on every order that is marked stays as it is
  obtain ⟨s₃, answers₃, L₃, hrun₃, hL₃, h₃, hfrozen⟩ := hL₂.run_invariant
    (J := fun L => L.Alive ∧ ∀ e < s₂.nextOrder, (s₂.order e).cancelled = true →
      L.Frozen e ((L₁.step (.cancel id)).1.qty e))
    (fun _ _ _ hs hJ hr => ⟨hJ.1.step hs hr.1 hr.2, fun e he hc =>
      hJ.1.frozen_step hr.1 (hJ.2 e he hc)⟩)
    ⟨h₂, fun e he hc => ⟨hL₂.nextOrder ▸ he, by rw [← hL₂.order]; exact hc, rfl⟩⟩
    (hrs₃ s₂ _ hs₂)
  have hout : ∀ e < s₂.nextOrder, (s₂.order e).cancelled = true → StaysOut s₂ s₃ e :=
    fun e he hc => hL₂.staysOut hL₃ h₃ (hfrozen e he hc)
  refine ⟨s₁, answers₁, s₂, _, s₃, answers₃, hrun₁, hs₂, hrun₃, fun hstatus => ?_, hout⟩
  have hstep : L₁.step (.cancel id) = ((L₁.cancelOrder id).1, some (L₁.cancelOrder id).2) := rfl
  rcases h₁.tidy.wf.cancelOrder_cases id with ⟨-, he⟩ | ⟨e, hlook, hs, -⟩ |
    ⟨e, l, hlook, -, hpar, he⟩
  · rw [he] at hstatus
    exact absurd hstatus (by simp)
  · have hno := hstop e (hL₁.orders ▸ hlook)
    rw [hL₁.order e] at hno
    exact absurd hs (by simp [hno])
  · have hmem := h₁.tidy.mem_queue_of_entry hlook hpar
    rw [hstep, he] at hL₂
    have hcancelled : (s₂.order e).cancelled = true := by
      rw [hL₂.order, Ledger.enqueueOrder_order, Ledger.displace_order, Ledger.updateData_order,
        Function.update_self]
      rfl
    have hlt : e < s₂.nextOrder := by
      rw [hL₂.nextOrder]
      exact h₁.tidy.wf.queue_lt l e hmem
    refine ⟨e, hL₁.orders ▸ hlook, ?_, hL₁.takenOut hmem h₁.tidy hL₂, ?_⟩
    · rw [hL₁.order]
      exact h₁.tidy.wf.entry_id id e hlook
    · obtain ⟨hlive, hqty⟩ := hout e hlt hcancelled
      refine ⟨hlive, hqty.trans ?_⟩
      rw [hL₁.qty, hL₂.qty]
      exact Ledger.qty_cancel e

/-- A bid that is cancelled before an ask at its price comes. -/
theorem cancellation_final_bid : ∃ s₁ answers₁ s₂ status s₃ answers₃,
      runAll OrderBook.step (.empty "X" 10) [.add 0 (.limit "b" .buy 7 10)] = .ok (s₁, answers₁) ∧
      s₁.step (.cancel "b") = .ok (s₂, some status) ∧
      runAll OrderBook.step s₂ [.add 0 (.limit "a" .sell 7 10)] = .ok (s₃, answers₃) ∧
      (status = .cancelled → ∃ e, s₁.orders.lookup "b" = some e ∧ (s₁.order e).id = "b" ∧
        TakenOut s₁ s₂ e ∧ StaysOut s₁ s₃ e) ∧
      ∀ e < s₂.nextOrder, (s₂.order e).cancelled = true → StaysOut s₂ s₃ e := by
  refine cancellation_final "X" 10 ⟨⟨rfl, trivial⟩, fun s answer hs => ⟨⟨rfl, fun e he => ?_⟩,
    fun _ _ _ => ⟨⟨rfl, trivial⟩, fun _ _ _ => trivial⟩⟩⟩
  have hfacts := eq_of_ok_of_map hs
    (f := fun r => (r.1.orders.lookup "b", (r.1.order 0).hasParam .stop))
    (b := (some 0, false)) (by decide +kernel)
  obtain ⟨hlook, hstop⟩ := Prod.mk.inj hfacts
  obtain rfl : e = 0 := Option.some.inj (he.symm.trans hlook)
  exact hstop

/-- A stop order that is not dormant rests; when it is cancelled it goes on resting. -/
theorem cancelled_stop_stays : ∃ s₁ answers₁ s₂, runAll OrderBook.step (.empty "X" 10)
      [.add 0 { OrderArgs.limit "a" .buy 5 10 .stop with stopPrice := 15 }] = .ok (s₁, answers₁) ∧
    s₁.step (.cancel "a") = .ok (s₂, some .cancelled) ∧
    ¬ ∃ e, s₁.orders.lookup "a" = some e ∧ StaysOut s₁ s₂ e := by
  obtain ⟨⟨s₁, answers₁⟩, hrun, hs₁⟩ := exists_ok_of_map (f := fun r =>
      (r.1.orders.lookup "a", (r.1.step (.cancel "a")).toOption.map fun r' =>
        (r'.1.liveOrders.toOption, r'.2)))
    (b := (some 0, some (some [0], some .cancelled))) (show (runAll OrderBook.step (.empty "X" 10)
      [.add 0 { OrderArgs.limit "a" .buy 5 10 .stop with stopPrice := 15 }]).toOption.map _ = _ by
      decide +kernel)
  obtain ⟨hlook, hcancel⟩ := Prod.mk.inj hs₁
  obtain ⟨⟨s₂, status⟩, hs₂, hfacts⟩ := exists_ok_of_map hcancel
  obtain ⟨hlive, rfl⟩ := Prod.mk.inj hfacts
  refine ⟨s₁, answers₁, s₂, hrun, hs₂, ?_⟩
  rintro ⟨e, he, ⟨live, hl, hout⟩, -⟩
  obtain rfl : e = 0 := Option.some.inj (he.symm.trans hlook)
  rw [hl] at hlive
  exact hout (by simp [Option.some.inj hlive])

end LimitOrderBook
