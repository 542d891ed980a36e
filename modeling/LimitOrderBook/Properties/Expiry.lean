import LimitOrderBook.Ledger.Departures
import LimitOrderBook.Ledger.Quantities
import LimitOrderBook.Properties.Cancel
import LimitOrderBook.Properties.Index

/-!
# Orders that expire

`check_date_orders` should cancel the orders of the registry that are good for the day, and
those that expire within the hour. It goes over the registry by expire time and stops at the
first order that is neither. Expire times only grow along the scan, so none of the second kind
is missed; but an order that is good for the day may expire later than one that is not due, and
then the scan does not come to it. So what is due is what goes exactly if no order that is good
for the day expires after one that is not due (`LimitOrderBook.checkDateOrders_expires_iff`).
-/

namespace LimitOrderBook

open OrderBook (Request)

/-- The request adds an order that is not a stop order. -/
def OrderBook.Request.AddsNoStop : Request → Prop
  | .add _ a => a.toData.hasParam .stop = false
  | _ => False

namespace OrderBook

variable (s : OrderBook)

/-- **No order of the registry has been filled**: each of them rests. -/
def NoneFilled : Prop :=
  ∃ dates, s.getOrdersWithExperation = .ok dates ∧
    ∀ o ∈ dates, ∃ l queue, s.ordersAt l = .ok queue ∧ o ∈ queue

/-- The order `o` of the registry `dates` is to be cancelled at the time `now`: it is good for
the day, or expires within the hour. -/
def expires (now : ℤ) (dates : List ℕ) (o : ℕ) : Bool :=
  o ∈ dates && ((s.order o).hasParam .gfd || (s.order o).expireTime < now + 3600)

/-- No order of the registry that is good for the day expires after one that is not due. -/
def GfdFirst (now : ℤ) (dates : List ℕ) : Prop :=
  ∀ x ∈ dates, (s.order x).hasParam .gfd = false → now + 3600 ≤ (s.order x).expireTime →
    ∀ y ∈ dates, (s.order y).hasParam .gfd = true → (s.order y).expireTime ≤ (s.order x).expireTime

end OrderBook

/-- **The orders that are to be cancelled are**: they and no others are marked, leave the
registry and the queues, and every other order keeps its data, its level and its entry. -/
structure Expires (s s' : OrderBook) (now : ℤ) (dates : List ℕ) : Prop where
  cancelled : ∀ o < s.nextOrder, ((s.order o).cancelled = false ∧ (s'.order o).cancelled = true) ↔
    s.expires now dates o = true
  registry : s'.getOrdersWithExperation = .ok (dates.filter fun o => !s.expires now dates o)
  queues : ∀ l queue, s.ordersAt l = .ok queue →
    s'.ordersAt l = .ok (queue.filter fun o => !s.expires now dates o)
  untouched : ∀ o < s.nextOrder, s.expires now dates o = false →
    (s'.order o).toOrderData = (s.order o).toOrderData ∧ (s'.order o).parent = (s.order o).parent ∧
      ∀ id, s'.orders.lookup id = some o ↔ s.orders.lookup id = some o

namespace Ledger

variable {L L' : Ledger} {o d l : ℕ}

/-! ### Resting orders that are cancelled -/

/-- The resting orders `done` of the ledger `L` have been cancelled by their ids. -/
structure CancelledAll (L L' : Ledger) (done : List ℕ) : Prop where
  order : ∀ x, L'.order x = if x ∈ done then (L.order x).cancel else L.order x
  nextOrder : L'.nextOrder = L.nextOrder
  parent : L'.parent = L.parent
  queue : ∀ k, L'.queue k = (L.queue k).filter fun x => x ∉ done
  entry : ∀ id x, L'.orders.lookup id = some x ↔ L.orders.lookup id = some x ∧ x ∉ done

theorem CancelledAll.nil (L : Ledger) : CancelledAll L L [] := by
  refine ⟨fun x => ?_, rfl, rfl, fun k => ?_, fun id x => ?_⟩ <;> simp

namespace CancelledAll

variable {done : List ℕ} (h : CancelledAll L L' done)

include h

/-- One more order. An order that has been cancelled before is not found any more. -/
theorem cancelOrder (hI : L.Indexed) (hwf : L'.WellFormed) (hd : d ∈ L.queue l)
    (hstop : (L.order d).hasParam .stop = false) :
    CancelledAll L (L'.cancelOrder (L.order d).id).1 (done ++ [d]) := by
  have hlook := hI.indexed l d hd
  have hsame : ∀ x, L'.orders.lookup (L.order d).id = some x → x = d := by
    intro x hx
    have hx' := ((h.entry _ x).mp hx).1
    rw [hlook] at hx'
    exact (Option.some.inj hx').symm
  have hflag : (L'.order d).hasParam .stop = false := by
    rw [h.order]
    split
    · exact hstop
    · exact hstop
  rcases hwf.cancelOrder_cases (L.order d).id with ⟨hnone, he⟩ | ⟨e, hlook', hstop', -⟩ |
    ⟨e, k, hlook', -, hpar, he⟩
  · -- the order has been cancelled before
    have hdone : d ∈ done := by
      by_contra hd'
      rw [(h.entry _ d).mpr ⟨hlook, hd'⟩] at hnone
      exact absurd hnone (by simp)
    have hmem : ∀ x, x ∈ done ++ [d] ↔ x ∈ done := by
      intro x
      rw [List.mem_append, List.mem_singleton, or_iff_left_of_imp]
      rintro rfl
      exact hdone
    rw [he]
    exact ⟨by simpa only [hmem] using h.order, h.nextOrder, h.parent,
      by simpa only [hmem] using h.queue, by simpa only [hmem] using h.entry⟩
  · rw [hsame e hlook', hflag] at hstop'
    exact absurd hstop' (by simp)
  · obtain rfl := hsame e hlook'
    have hnew := ((h.entry _ e).mp hlook').2
    obtain rfl : l = k := by
      rw [h.parent, hI.tidy.wf.queue_parent l e hd] at hpar
      exact Option.some.inj hpar
    have hin : e ∈ (L'.updateData e .cancel).queue l := by
      change e ∈ L'.queue l
      rw [h.queue, List.mem_filter]
      exact ⟨hd, by simpa using hnew⟩
    have hentry : ∀ id x, (L'.cancelOrder (L.order e).id).1.orders.lookup id = some x ↔
        L.orders.lookup id = some x ∧ x ∉ done ++ [e] := by
      intro id x
      rw [hwf.lookup_cancelOrder_iff, h.entry, List.mem_append, List.mem_singleton, not_or,
        and_assoc]
      refine and_congr_right fun hx => and_congr_right fun _ => not_congr ⟨?_, ?_⟩
      · rintro rfl
        exact Option.some.inj (hx.symm.trans hlook)
      · rintro rfl
        exact (hI.tidy.wf.entry_id id x hx).symm
    rw [he] at hentry ⊢
    refine ⟨fun x => ?_, h.nextOrder, h.parent, fun k => ?_, hentry⟩
    · change Function.update L'.order e (L'.order e).cancel x = _
      simp only [List.mem_append, List.mem_singleton]
      by_cases hx : x = e
      · subst hx
        rw [Function.update_self, h.order, if_neg hnew, if_pos (Or.inr rfl)]
      · rw [Function.update_of_ne hx, h.order]
        simp only [hx, or_false]
    · have hwf' : (L'.updateData e .cancel).WellFormed := hwf.updateData .cancel
      rw [enqueueOrder_queue, hwf'.queue_displace_filter hin k]
      change (L'.queue k).filter _ = _
      rw [h.queue, List.filter_filter]
      refine List.filter_congr fun x _ => ?_
      by_cases hx : x = e <;> simp [hx]

end CancelledAll

/-! ### Orders without the stop flag -/

/-- No resting order is a stop order. -/
def NoStop (L : Ledger) : Prop := ∀ l, ∀ o ∈ L.queue l, (L.order o).hasParam .stop = false

theorem NoStop.settle (h : L.NoStop) (hwf : L.WellFormed)
    (hnew : (L.order o).hasParam .stop = false) (filled : Bool) : (L.settle o filled).1.NoStop := by
  rw [Ledger.settle]
  split
  · exact h
  · split
    · intro l x hx
      rw [updateData_order]
      by_cases hxo : x = o
      · rw [hxo, Function.update_self]
        exact hnew
      · rw [Function.update_of_ne hxo]
        exact h l x hx
    · obtain ⟨k, hk, -, -⟩ := hwf.restOrder o
      intro l x hx
      rw [hk.order]
      rcases hk.mem_queue.mp hx with ⟨rfl, -⟩ | hx
      · exact hnew
      · exact h l x hx

theorem NoStop.step (h : L.NoStop) (hwf : L.WellFormed) (now : ℤ) {a : OrderArgs}
    (ha : a.toData.hasParam .stop = false) : (L.step (.add now a)).1.NoStop := by
  have hp := L.isParked_of_not_stop ha
  have hframe : MatchFrame (L.activate a) (L.matched a).1 := .matchLimits _ _
  rw [step_add, if_neg (by simp [hp])]
  refine NoStop.settle (fun l x hx => ?_) (hwf.matched a) ?_ _
  · have hx : x ∈ L.queue l := (hframe.queue l).mem hx
    rw [hframe.hasParam, activate_order (hwf.queue_lt l x hx)]
    exact h l x hx
  · rw [hframe.hasParam, activate_order_new, OrderData.activated_of_not_stop ha, ha]

/-! ### Orders that are filled -/

/-- An order of the registry rests, or is filled. -/
def RestsOrFilled (L : Ledger) : Prop := ∀ o ∈ L.dates, (∃ l, o ∈ L.queue l) ∨ L.qty o = 0

/-- An order that matching takes out of its queue is filled. -/
theorem RestsOrFilled.matched (h : L.RestsOrFilled) (hpos : L.Positive) (hwf : L.WellFormed)
    {a : OrderArgs} (ha : 0 < a.qty) : (L.matched a).1.RestsOrFilled := by
  obtain ⟨htraded, -⟩ := hpos.matched hwf ha
  intro o ho
  have ho : o ∈ L.dates := by rwa [htraded.frame.dates] at ho
  have hlt := hwf.dates_lt o ho
  by_cases hq : ∃ l, o ∈ L.queue l
  · obtain ⟨l, hl⟩ := hq
    by_cases hl' : o ∈ (L.matched a).1.queue l
    · exact Or.inl ⟨l, hl'⟩
    · exact Or.inr (htraded.left l o hl hl')
  · refine Or.inr ((htraded.unchanged o hlt.ne fun hr => hq ?_).trans ?_)
    · obtain ⟨l, -, hl⟩ := mem_resting.mp hr
      exact ⟨l, hl⟩
    · rw [qty, activate_order hlt]
      exact (h o ho).resolve_left hq

theorem RestsOrFilled.step (h : L.RestsOrFilled) (hpos : L.Positive) (hwf : L.WellFormed)
    (now : ℤ) {a : OrderArgs} (ha : 0 < a.qty) (hstop : a.toData.hasParam .stop = false) :
    (L.step (.add now a)).1.RestsOrFilled := by
  have hp := L.isParked_of_not_stop hstop
  have hM := h.matched hpos hwf ha
  rcases hpos.step_add_cases hwf now ha hp with ⟨hstep, -⟩ | ⟨-, -, hstep⟩
  · rw [hstep]
    exact hM
  · split at hstep <;> rw [hstep]
    · intro o ho
      rw [(Still.cancel (L.matched a).1 L.nextOrder).qty]
      exact hM o ho
    · have hwf' : (L.matched a).1.WellFormed := hwf.matched a
      obtain ⟨l, hl, -, -⟩ := hwf'.restOrder L.nextOrder
      intro o ho
      rw [hl.qty]
      rcases hwf'.mem_dates_restOrder.mp ho with ⟨ho, -⟩ | ⟨rfl, -⟩
      · refine (hM o ho).imp_left ?_
        rintro ⟨k, hk⟩
        exact ⟨k, hl.mem_queue.mpr (Or.inr hk)⟩
      · exact Or.inl ⟨l, hl.mem_queue.mpr (Or.inl ⟨rfl, rfl⟩)⟩

/-! ### The scan of the registry -/

/-- An order is scanned if all that expire before it are due. -/
theorem WellFormed.mem_dueOrders (h : L.WellFormed) {now : ℤ} : o ∈ L.dueOrders now ↔
    o ∈ L.dates ∧ (L.order o).isDue (now + 3600) = true ∧ ∀ x ∈ L.dates,
      (L.order x).expireTime < (L.order o).expireTime →
      (L.order x).isDue (now + 3600) = true := by
  rw [dueOrders, h.dates_sorted.mem_takeWhile L.dateLess_strictWeak]
  simp [dateLess, dateOrderComparator]

/-- **What the scan cancels**, if every order of the registry rests and is not a stop order. -/
theorem Indexed.cancelledAll (h : L.Indexed) (hrest : ∀ o ∈ L.dates, ∃ l, o ∈ L.queue l)
    (hstop : L.NoStop) (now : ℤ) : CancelledAll L (L.checkDateOrders now) (L.dueOrders now) := by
  refine (checkDateOrders_done (J := fun done L' => L'.WellFormed ∧ CancelledAll L L' done)
    (fun done d L' hJ hd _ => ?_) (fun done L' d hJ => ⟨hJ.1.eraseDate, { hJ.2 with }⟩)
    ⟨h.tidy.wf, .nil L⟩).2
  obtain ⟨l, hl⟩ := hrest d (mem_dates_of_due hd)
  exact ⟨hJ.1.cancelOrder _, hJ.2.cancelOrder h hJ.1 hl (hstop l d hl)⟩

/-- The registry after the scan, in order. -/
theorem WellFormed.dates_checkDateOrders (h : L.WellFormed) (now : ℤ) :
    (L.checkDateOrders now).dates = L.dates.filter fun o => o ∉ L.dueOrders now := by
  have hkeep : (L.checkDateOrders now).WellFormed ∧
      ∀ x, ((L.checkDateOrders now).order x).expireTime = (L.order x).expireTime := by
    refine checkDateOrders_rule (J := fun L' => L'.WellFormed ∧
        ∀ x, (L'.order x).expireTime = (L.order x).expireTime)
      (fun L' d hJ _ _ => ⟨hJ.1.cancelOrder _, fun x => ?_⟩)
      (fun L' d hJ => ⟨hJ.1.eraseDate, hJ.2⟩) ⟨h, fun _ => rfl⟩
    rw [← hJ.2]
    rcases L'.cancelOrder_order (L.order d).id x with hx | hx <;> rw [hx]
    rfl
  obtain ⟨hwf, hexpire⟩ := hkeep
  have hless : (L.checkDateOrders now).dateLess = L.dateLess := by
    funext x y
    rw [dateLess, dateLess, dateOrderComparator, dateOrderComparator, hexpire, hexpire]
  have hsorted := hwf.dates_sorted
  rw [hless] at hsorted
  refine eq_of_pairwise (fun a b hab hba => ?_) hsorted (h.dates_sorted.filter _) fun o => ?_
  · exact absurd hba (by simp [L.dateLess_strictWeak.asymm hab])
  · rw [mem_dates_checkDateOrders h, List.mem_filter, decide_eq_true_eq]

end Ledger

namespace Refines

variable {s s' : OrderBook} {L : Ledger} {now : ℤ} (h : Refines s L)

include h

/-- The orders that are to be cancelled, on the ledger. -/
theorem expires_eq_true {dates : List ℕ} {o : ℕ} : s.expires now dates o = true ↔
    o ∈ dates ∧ (L.order o).isDue (now + 3600) = true := by
  have hgfd : (s.order o).hasParam .gfd = (L.order o).hasParam .gfd := by rw [← h.order]
  have hexpire : (s.order o).expireTime = (L.order o).expireTime := by rw [← h.order]
  rw [OrderBook.expires, Bool.and_eq_true, decide_eq_true_eq, hgfd, hexpire, OrderData.isDue]

/-- **The scan comes to every order that is due** exactly if those that are good for the day
come first. -/
theorem gfdFirst_iff : s.GfdFirst now L.dates ↔
    ∀ o, s.expires now L.dates o = true ↔ o ∈ L.dueOrders now := by
  have hgfd : ∀ o, (s.order o).hasParam .gfd = (L.order o).hasParam .gfd := fun o => by
    rw [← h.order]
  have hexpire : ∀ o, (s.order o).expireTime = (L.order o).expireTime := fun o => by
    rw [← h.order]
  have hdue : ∀ o, (L.order o).isDue (now + 3600) = true ↔
      (L.order o).hasParam .gfd = true ∨ (L.order o).expireTime < now + 3600 := fun o => by
    rw [OrderData.isDue, Bool.or_eq_true, decide_eq_true_eq]
  simp only [OrderBook.GfdFirst, hgfd, hexpire, h.expires_eq_true, h.wf.mem_dueOrders, hdue]
  constructor
  · refine fun hfirst o => ⟨fun ⟨ho, hd⟩ => ⟨ho, hd, fun x hx hlt => ?_⟩, fun ⟨ho, hd, _⟩ => ⟨ho, hd⟩⟩
    by_contra hx'
    rw [not_or, Bool.not_eq_true, not_lt] at hx'
    rcases hd with hd | hd
    · exact absurd (hfirst x hx hx'.1 hx'.2 o ho hd) (not_le.mpr hlt)
    · exact absurd (hx'.2.trans_lt hlt) (not_lt.mpr hd.le)
  · intro hscan x hx hxg hxe y hy hyg
    by_contra hlt
    rcases ((hscan y).mp ⟨hy, Or.inl hyg⟩).2.2 x hx (not_le.mp hlt) with hd | hd
    · exact absurd hd (by simp [hxg])
    · exact absurd hd (not_lt.mpr hxe)

/-- **One check of the dates**, in a state in which every order of the registry rests. -/
theorem expires_iff (hI : L.Indexed) (hA : L.Alive)
    (hrest : ∀ o ∈ L.dates, ∃ l, o ∈ L.queue l) (hstop : L.NoStop)
    (h' : Refines s' (L.checkDateOrders now)) :
    Expires s s' now L.dates ↔ s.GfdFirst now L.dates := by
  rw [h.gfdFirst_iff]
  have hdates : s'.getOrdersWithExperation =
      .ok (L.dates.filter fun o => o ∉ L.dueOrders now) := by
    rw [← h.wf.dates_checkDateOrders]
    exact h'.dates.keys
  constructor
  · -- what is left of the registry tells which orders were scanned
    intro hex o
    have hfilter := Except.ok.inj (hex.registry.symm.trans hdates)
    by_cases ho : o ∈ L.dates
    · have hmem : o ∈ L.dates.filter (fun o => !s.expires now L.dates o) ↔
          o ∈ L.dates.filter fun o => o ∉ L.dueOrders now := by rw [hfilter]
      simp only [List.mem_filter, ho, true_and, Bool.not_eq_true', decide_eq_true_eq] at hmem
      rw [← not_iff_not, Bool.not_eq_true]
      exact hmem
    · exact iff_of_false (fun he => ho (h.expires_eq_true.mp he).1)
        fun hd => ho (Ledger.mem_dates_of_due hd)
  · intro hscan
    have hall := hI.cancelledAll hrest hstop now
    have hkeep : ∀ o, (!s.expires now L.dates o) = decide (o ∉ L.dueOrders now) := fun o => by
      rw [decide_not, Bool.not_inj_iff, Bool.eq_iff_iff, hscan, decide_eq_true_eq]
    have hcan : ∀ o, (s.order o).cancelled = (L.order o).cancelled := fun o => by rw [← h.order]
    have hcan' : ∀ o, (s'.order o).cancelled =
        if o ∈ L.dueOrders now then true else (L.order o).cancelled := fun o => by
      refine (congrArg OrderData.cancelled ((h'.order o).trans (hall.order o))).trans ?_
      split <;> rfl
    refine ⟨fun o _ => ?_, ?_, fun l queue hq => ?_, fun o _ ho => ⟨?_, ?_, fun id => ?_⟩⟩
    · rw [hscan, hcan, hcan']
      constructor
      · rintro ⟨hno, hyes⟩
        by_contra hd
        rw [if_neg hd, hno] at hyes
        exact absurd hyes (by simp)
      · intro hd
        obtain ⟨l, hl⟩ := hrest o (Ledger.mem_dates_of_due hd)
        exact ⟨hA.resting l o hl, if_pos hd⟩
    · simp only [hkeep]
      exact hdates
    · obtain rfl := Except.ok.inj ((h.ordersAt l).symm.trans hq)
      rw [h'.ordersAt, hall.queue]
      simp only [hkeep]
    all_goals
      have hd : o ∉ L.dueOrders now := fun hd => by
        rw [(hscan o).mpr hd] at ho
        exact absurd ho (by simp)
    · rw [h'.order, h.order, hall.order, if_neg hd]
    · rw [h'.parent, h.parent, hall.parent]
    · rw [h'.orders, h.orders, hall.entry, and_iff_left hd]

end Refines

/-- **A run that adds orders without the stop flag**, under distinct ids. -/
theorem exists_noStop_run (instrument : String) (marketPrice : ℚ) {rs : List Request}
    (hrs : ∀ r ∈ rs, r.AddsNoStop) (hids : (OrderBook.addedIds rs).Nodup) :
    ∃ s answers L, runAll OrderBook.step (.empty instrument marketPrice) rs = .ok (s, answers) ∧
      Refines s L ∧ L.Indexed ∧ L.Alive ∧ L.NoStop := by
  have hstep : ∀ (s : OrderBook) (L : Ledger) r rest, Refines s L →
      (L.Indexed ∧ L.Alive ∧ L.NoStop ∧ (OrderBook.addedIds (r :: rest)).Nodup ∧
        L.Unused (OrderBook.addedIds (r :: rest))) → r.AddsNoStop →
      (L.step r).1.Indexed ∧ (L.step r).1.Alive ∧ (L.step r).1.NoStop ∧
        (OrderBook.addedIds rest).Nodup ∧ (L.step r).1.Unused (OrderBook.addedIds rest) := by
    rintro s L r rest hs ⟨hI, hA, hstop, hnd, hunused⟩ hr
    cases r with
    | add now a =>
      have ha : a.toData.hasParam .stop = false := hr
      have hkeeps : s.keepsIndex (.add now a) :=
        ⟨by rw [OrderBook.parksNothing, ha, Bool.false_and], trivial, trivial⟩
      obtain ⟨hI', hU⟩ := hI.step hs hkeeps hnd hunused
      exact ⟨hI', hA.step hs rfl trivial, hstop.step hI.tidy.wf now ha,
        (List.nodup_cons.mp hnd).2, hU⟩
    | _ => exact absurd hr (by simp [Request.AddsNoStop])
  obtain ⟨s, answers, L, hrun, hL, hI, hA, hstop, -⟩ :=
    (refines_empty instrument marketPrice).run_rule
      (J := fun L rs => L.Indexed ∧ L.Alive ∧ L.NoStop ∧ (OrderBook.addedIds rs).Nodup ∧
        L.Unused (OrderBook.addedIds rs)) hstep
      ⟨Ledger.indexed_empty instrument marketPrice, Ledger.alive_empty instrument marketPrice,
        by simp [Ledger.NoStop, Ledger.empty], hids, by simp [Ledger.Unused, Ledger.empty]⟩
      (meets_of_forall hrs _)
  exact ⟨s, answers, L, hrun, hL, hI, hA, hstop⟩

/-- **What it means that none is filled**, if the quantities of the orders are positive. -/
theorem noneFilled_iff {instrument : String} {marketPrice : ℚ} {rs : List Request}
    (hrs : ∀ r ∈ rs, r.AddsNoStop ∧ r.Sound) {s : OrderBook} {answers : List (Option OrderStatus)}
    (hrun : runAll OrderBook.step (.empty instrument marketPrice) rs = .ok (s, answers)) :
    s.NoneFilled ↔ ∀ dates, s.getOrdersWithExperation = .ok dates →
      ∀ o ∈ dates, (s.order o).isFullfilled = false := by
  obtain ⟨s₁, answers₁, L, hrun₁, hL, htidy, hpos, hrest⟩ :=
    (refines_empty instrument marketPrice).run_invariant
      (J := fun L => L.Tidy ∧ L.Positive ∧ L.RestsOrFilled)
      (fun _ L r _ ⟨htidy, hpos, hrest⟩ hr => by
        refine ⟨htidy.step hr.2.keepsOrders, hpos.step htidy.wf hr.2, ?_⟩
        cases r with
        | add now a => exact hrest.step hpos htidy.wf now hr.2 hr.1
        | _ => exact absurd hr.1 (by simp [Request.AddsNoStop]))
      ⟨Ledger.tidy_empty instrument marketPrice, fun _ _ ho => absurd ho (by simp [Ledger.empty]),
        by simp [Ledger.RestsOrFilled, Ledger.empty]⟩ (meets_of_forall hrs _)
  obtain ⟨rfl, rfl⟩ := Prod.mk.inj (Except.ok.inj (hrun₁.symm.trans hrun))
  have hfull : ∀ o, (s₁.order o).isFullfilled = false ↔ L.qty o ≠ 0 := fun o => by
    rw [← Bool.not_eq_true, hL.order, Ledger.isFullfilled_iff]
  have hdates : s₁.getOrdersWithExperation = .ok L.dates := hL.dates.keys
  simp only [OrderBook.NoneFilled, hdates, Except.ok.injEq, exists_eq_left', forall_eq', hfull,
    hL.ordersAt]
  refine forall₂_congr fun o ho => ⟨?_, fun hq => ?_⟩
  · rintro ⟨l, hl⟩
    exact (hpos l o hl).ne'
  · exact (hrest o ho).resolve_right hq

/-- **Exactly the orders that are due expire** exactly if those of them that are good for the
day come before those that are not due: after any run that adds orders without the stop flag,
under distinct ids, and has filled no dated one of them. -/
theorem checkDateOrders_expires_iff {instrument : String} {marketPrice : ℚ} {rs : List Request}
    (hrs : ∀ r ∈ rs, r.AddsNoStop) (hids : (OrderBook.addedIds rs).Nodup) {s : OrderBook}
    {answers : List (Option OrderStatus)}
    (hrun : runAll OrderBook.step (.empty instrument marketPrice) rs = .ok (s, answers))
    (hfills : s.NoneFilled) (now : ℤ) :
    ∃ s' dates, s.checkDateOrders now = .ok s' ∧ s.getOrdersWithExperation = .ok dates ∧
      (Expires s s' now dates ↔ s.GfdFirst now dates) := by
  obtain ⟨s₁, answers₁, L, hrun₁, hL, hI, hA, hstop⟩ :=
    exists_noStop_run instrument marketPrice hrs hids
  obtain ⟨rfl, rfl⟩ := Prod.mk.inj (Except.ok.inj (hrun₁.symm.trans hrun))
  obtain ⟨s', hs', hL'⟩ := hL.checkDateOrders now
  refine ⟨s', L.dates, hs', hL.dates.keys, hL.expires_iff hI hA ?_ hstop hL'⟩
  obtain ⟨dates, hdates, hrest⟩ := hfills
  obtain rfl := Except.ok.inj (hL.dates.keys.symm.trans hdates)
  intro o ho
  obtain ⟨l, queue, hq, hmem⟩ := hrest o ho
  rw [hL.ordersAt] at hq
  exact ⟨l, Except.ok.inj hq ▸ hmem⟩

/-- The bid `id` with flags and an expire time, as concrete runs use it. -/
def OrderArgs.dated (id : String) (params : OrderParams) (expireTime : ℤ) : OrderArgs :=
  { OrderArgs.limit id .buy 5 10 params with expireTime := expireTime }

/-- Two bids in the registry, each of them resting. -/
theorem noneFilled_two {s : OrderBook} (hdates : s.getOrdersWithExperation = .ok [0, 1])
    (hqueue : s.ordersAt 0 = .ok [0, 1]) : s.NoneFilled :=
  ⟨[0, 1], hdates, fun _ ho => ⟨0, [0, 1], hqueue, ho⟩⟩

/-- A bid that is good for the day, and one that expires after it. -/
theorem checkDateOrders_expires_iff_two : ∃ s answers, runAll OrderBook.step (.empty "X" 10)
      [.add 0 (.dated "a" .gfd 10000), .add 0 (.dated "b" .gtd 20000)] = .ok (s, answers) ∧
    s.NoneFilled ∧ ∃ s' dates, s.checkDateOrders 0 = .ok s' ∧
      s.getOrdersWithExperation = .ok dates ∧ (Expires s s' 0 dates ↔ s.GfdFirst 0 dates) := by
  obtain ⟨⟨s, answers⟩, hrun, hs⟩ := exists_ok_of_map (f := fun r =>
      (r.1.getOrdersWithExperation.toOption, (r.1.ordersAt 0).toOption))
    (b := (some [0, 1], some [0, 1])) (show (runAll OrderBook.step (.empty "X" 10)
      [.add 0 (.dated "a" .gfd 10000), .add 0 (.dated "b" .gtd 20000)]).toOption.map _ = _ by
      decide +kernel)
  simp only [Prod.mk.injEq] at hs
  obtain ⟨hdates, hqueue⟩ := hs
  obtain ⟨dates, hd, rfl⟩ := exists_ok_of_map (f := id) (by simpa using hdates)
  obtain ⟨queue, hq, rfl⟩ := exists_ok_of_map (f := id) (by simpa using hqueue)
  have hfills := noneFilled_two hd hq
  exact ⟨s, answers, hrun, hfills,
    checkDateOrders_expires_iff (by simp [Request.AddsNoStop]; decide) (by decide) hrun hfills 0⟩

/-- A bid that is good for the day stays if one that is not due expires before it. -/
theorem gfd_not_cancelled : ∃ s answers s' dates, runAll OrderBook.step (.empty "X" 10)
      [.add 0 (.dated "a" .gtd 10000), .add 0 (.dated "b" .gfd 20000)] = .ok (s, answers) ∧
    s.NoneFilled ∧ s.checkDateOrders 0 = .ok s' ∧ s.getOrdersWithExperation = .ok dates ∧
      ¬ Expires s s' 0 dates := by
  obtain ⟨⟨s, answers⟩, hrun, hs⟩ := exists_ok_of_map (f := fun r =>
      (r.1.getOrdersWithExperation.toOption, (r.1.ordersAt 0).toOption,
        (r.1.order 1).hasParam .gfd, (r.1.checkDateOrders 0).toOption.map fun s' =>
          s'.getOrdersWithExperation.toOption))
    (b := (some [0, 1], some [0, 1], true, some (some [0, 1]))) (show (runAll OrderBook.step (.empty "X" 10)
      [.add 0 (.dated "a" .gtd 10000), .add 0 (.dated "b" .gfd 20000)]).toOption.map _ = _ by
      decide +kernel)
  simp only [Prod.mk.injEq] at hs
  obtain ⟨hdates, hqueue, hgfd, hcheck⟩ := hs
  obtain ⟨dates, hd, rfl⟩ := exists_ok_of_map (f := id) (by simpa using hdates)
  obtain ⟨queue, hq, rfl⟩ := exists_ok_of_map (f := id) (by simpa using hqueue)
  obtain ⟨s', hs', hleft⟩ := exists_ok_of_map hcheck
  refine ⟨s, answers, s', [0, 1], hrun, noneFilled_two hd hq, hs', hd, fun hex => ?_⟩
  have hexpires : s.expires 0 [0, 1] 1 = true := by
    simp [OrderBook.expires, hgfd]
  have hmem : 1 ∈ [0, 1].filter fun o => !s.expires 0 [0, 1] o := by
    rw [hex.registry] at hleft
    rw [Option.some.inj hleft]
    simp
  simp [hexpires] at hmem

end LimitOrderBook
