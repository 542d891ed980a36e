import LimitOrderBook.Ledger.Accounted
import LimitOrderBook.Ledger.Departures
import LimitOrderBook.Properties.Modify

/-!
# What a request leaves behind

Only a new order that comes to rest is entered into the index, and only a new order into the
registry of dated orders; every other write to them takes something out
(`LimitOrderBook.Ledger.Recorded`). Only what the index leads to is ever marked as cancelled,
apart from the new order itself, no mark is ever taken back
(`LimitOrderBook.Ledger.WellFormed.mark_step`), and an order that is cancelled is not found again
under its id (`LimitOrderBook.Ledger.WellFormed.lookup_cancelled`).

The repository is handed the new order, unless it finds none to replace, or the orders that are
cancelled (`LimitOrderBook.Ledger.HandsOver`).
-/

namespace LimitOrderBook

open OrderBook (Request)

namespace Ledger

variable {L L' L'' : Ledger} {o e : ℕ} {id : String}

/-- The id that a request gives to a new order that it may enter into the index. -/
def newId : Request → Option String
  | .add _ a => some a.id
  | _ => none

theorem add_of_newId {r : Request} (h : newId r = some id) : ∃ now a, r = .add now a := by
  cases r with
  | add now a => exact ⟨now, a, rfl⟩
  | _ => exact absurd h (by simp [newId])

/-- The order that comes with a request. -/
def submitted : Request → Option OrderArgs
  | .add _ a => some a
  | .modify a => some a
  | _ => none

/-- **What a request does to the index, to the registry and to the marks**, where `new` is the id
under which it may enter the new order. -/
structure Recorded (new : Option String) (L L' : Ledger) : Prop where
  entry : ∀ id e, L'.orders.lookup id = some e →
    L.orders.lookup id = some e ∨ e = L.nextOrder ∧ new = some id
  dates : ∀ o ∈ L'.dates, o ∈ L.dates ∨ o = L.nextOrder
  mark : ∀ o < L.nextOrder, (∀ id, L.orders.lookup id ≠ some o) →
    (L'.order o).cancelled = (L.order o).cancelled

/-- A request that enters nothing. -/
theorem Recorded.of_subset (new : Option String)
    (hentry : ∀ id e, L'.orders.lookup id = some e → L.orders.lookup id = some e)
    (hdates : L'.dates ⊆ L.dates)
    (hmark : ∀ o < L.nextOrder, (∀ id, L.orders.lookup id ≠ some o) →
      (L'.order o).cancelled = (L.order o).cancelled) : Recorded new L L' where
  entry := fun id e he => Or.inl (hentry id e he)
  dates := fun _ ho => Or.inl (hdates ho)
  mark := hmark

theorem cancelled_withQty (x : OrderData) (q : ℚ) : (x.withQty q).cancelled = x.cancelled := rfl

/-- Matching takes orders out of the index, and marks none. -/
theorem activate_matched_register (L : Ledger) (a : OrderArgs) :
    (∀ id e, (L.matched a).1.orders.lookup id = some e → L.orders.lookup id = some e) ∧
      (L.matched a).1.dates = L.dates ∧
        ∀ x < L.nextOrder, ((L.matched a).1.order x).cancelled = (L.order x).cancelled := by
  have hframe : MatchFrame (L.activate a) (L.matched a).1 := .matchLimits _ _
  refine ⟨hframe.entry, hframe.dates, fun x hx => ?_⟩
  rw [hframe.order x, cancelled_withQty, activate_order hx]

/-- The end of `add_order`. -/
theorem WellFormed.settle_register (h : L.WellFormed) (o : ℕ) (filled : Bool) :
    (∀ id e, (L.settle o filled).1.orders.lookup id = some e →
        L.orders.lookup id = some e ∨ e = o ∧ id = (L.order o).id) ∧
      ∀ x ∈ (L.settle o filled).1.dates, x ∈ L.dates ∨ x = o := by
  rw [settle]
  split
  · exact ⟨fun _ _ he => Or.inl he, fun _ hx => Or.inl hx⟩
  · split
    · exact ⟨fun _ _ he => Or.inl he, fun _ hx => Or.inl hx⟩
    · obtain ⟨l, -, -, horders⟩ := h.restOrder o
      refine ⟨fun id e he => ?_, fun x hx => ?_⟩
      · rw [horders] at he
        by_cases hid : id = (L.order o).id
        · rw [hid, AList.lookup_insert] at he
          exact Or.inr ⟨(Option.some.inj he).symm, hid⟩
        · rw [AList.lookup_insert_ne hid] at he
          exact Or.inl he
      · exact (h.mem_dates_restOrder.mp hx).imp And.left And.left

/-- Replacing an order takes its id out of the index. -/
theorem lookup_replaceOrder {n : ℕ} {x : ℕ} (h : (L.replaceOrder e n).orders.lookup id = some x) :
    L.orders.lookup id = some x := by
  rw [Ledger.replaceOrder] at h
  split at h
  · exact lookup_of_erase h
  · split at h
    · exact h
    · next l hl =>
      obtain ⟨-, -, -, -, -, -, -, horders⟩ := addLimitOrder_frame (L.removeLimitOrder e) n l
        (L.order n).isBuy
      rw [horders, removeLimitOrder, hl] at h
      exact lookup_of_erase h

/-- The new order of a request is not in the way of an old one. -/
theorem mark_cancel (hx : o ≠ e) : ((L.updateData e .cancel).order o).cancelled =
    (L.order o).cancelled := by
  rw [updateData_order, Function.update_of_ne hx]

theorem mark_cancelOrder (ho : (L.order o).cancelled = true) (id : String) :
    ((L.cancelOrder id).1.order o).cancelled = true := by
  rcases L.cancelOrder_order id o with he | he <;> rw [he]
  · exact ho
  · rfl

/-- The order that `cancel_order` finds is marked. -/
theorem marked_cancelOrder (he : L.orders.lookup id = some e) :
    ((L.cancelOrder id).1.order e).cancelled = true := by
  rw [cancelOrder, he]
  dsimp only
  rw [enqueueOrder_order, removeOrder_order, updateData_order, Function.update_self]
  rfl

theorem WellFormed.cancelOrder_register (h : L.WellFormed) (id : String) :
    (∀ id' x, (L.cancelOrder id).1.orders.lookup id' = some x → L.orders.lookup id' = some x) ∧
      (L.cancelOrder id).1.dates = L.dates ∧
        ∀ x, (∀ id, L.orders.lookup id ≠ some x) →
          ((L.cancelOrder id).1.order x).cancelled = (L.order x).cancelled := by
  refine ⟨fun id' x hx => ?_, dates_cancelOrder h id, fun x hx => ?_⟩
  · rcases h.cancelOrder_cases id with ⟨-, he⟩ | ⟨e, -, -, he⟩ | ⟨e, l, -, -, -, he⟩ <;>
      rw [he] at hx
    · exact hx
    · exact lookup_of_erase hx
    · exact lookup_of_erase hx
  · rcases h.cancelOrder_cases id with ⟨-, he⟩ | ⟨e, hlook, -, he⟩ | ⟨e, l, hlook, -, -, he⟩ <;>
      rw [he]
    · exact mark_cancel fun hxe => hx id (hxe ▸ hlook)
    · exact mark_cancel fun hxe => hx id (hxe ▸ hlook)

theorem WellFormed.checkDateOrders_recorded (h : L.WellFormed) (now : ℤ) :
    Recorded none L (L.checkDateOrders now) := by
  have hrule := @checkDateOrders_rule L
    (fun L' => L'.WellFormed ∧ (∀ id e, L'.orders.lookup id = some e →
      L.orders.lookup id = some e) ∧ L'.dates ⊆ L.dates ∧
        ∀ x, (∀ id, L.orders.lookup id ≠ some x) → (L'.order x).cancelled = (L.order x).cancelled)
    now (fun L' o hJ _ _ => ?_) (fun L' o hJ => ?_)
    ⟨h, fun _ _ he => he, fun _ hx => hx, fun _ _ => rfl⟩
  · obtain ⟨-, hentry, hdates, hmark⟩ := hrule
    exact .of_subset none hentry hdates fun x _ => hmark x
  · obtain ⟨hwf, hentry, hdates, hmark⟩ := hJ
    obtain ⟨hentry', hdates', hmark'⟩ := hwf.cancelOrder_register (L.order o).id
    refine ⟨hwf.cancelOrder _, fun id e he => hentry id e (hentry' id e he), ?_, fun x hx => ?_⟩
    · rw [hdates']
      exact hdates
    · rw [hmark' x fun id he => hx id (hentry id x he), hmark x hx]
  · obtain ⟨hwf, hentry, hdates, hmark⟩ := hJ
    refine ⟨hwf.eraseDate, hentry, fun x hx => hdates ?_, hmark⟩
    exact ((mem_eraseKey L'.dateLess_strictWeak hwf.dates_sorted).mp hx).1

/-- The orders of a ledger are counted, with the one that comes with a request. -/
theorem nextOrder_step (L : Ledger) (r : Request) :
    (L.step r).1.nextOrder = L.nextOrder + (submitted r).toList.length := by
  cases r with
  | add now a =>
    have hnew : (L.allocOrder a.toData).nextOrder = L.nextOrder + 1 := rfl
    rw [step_add]
    split
    · have hnext := (Still.parkOrder (L.receive a) L.nextOrder).nextOrder
      exact hnext.trans hnew
    · have hframe : MatchFrame (L.activate a) (L.matched a).1 := .matchLimits _ _
      have hnext := (Still.settle (L.matched a).1 L.nextOrder (L.matched a).2).nextOrder
      exact (hnext.trans hframe.nextOrder).trans hnew
  | modify a => exact (Still.modifyOrder (L.allocOrder a.toData) L.nextOrder).nextOrder
  | cancel id => exact (Still.cancelOrder L id).nextOrder
  | checkDate now => exact (Still.checkDateOrders L now).nextOrder

theorem nextOrder_le_step (L : Ledger) (r : Request) : L.nextOrder ≤ (L.step r).1.nextOrder := by
  rw [nextOrder_step]
  exact Nat.le_add_right _ _

theorem nextOrder_lt_step {r : Request} {a : OrderArgs} (hr : submitted r = some a) :
    L.nextOrder < (L.step r).1.nextOrder := by
  rw [nextOrder_step, hr]
  exact Nat.lt_succ_self _

/-- **Every request.** -/
theorem WellFormed.recorded (h : L.WellFormed) (r : Request) :
    Recorded (newId r) L (L.step r).1 := by
  cases r with
  | add now a =>
    rw [step_add]
    split
    · have hreceive := h.receive a
      obtain ⟨dates, hdates⟩ := (L.receive a).parkOrder_eq L.nextOrder
      refine ⟨fun id e he => Or.inl ?_, fun x hx => ?_, fun x hx _ => ?_⟩
      · rw [hdates] at he
        exact he
      · have hwf := hreceive.addStopOrder (o := L.nextOrder)
          (b := ((L.receive a).order L.nextOrder).isBuy) (Nat.lt_succ_self _)
        exact (hwf.mem_dates_addDateOrder.mp hx).imp And.left And.left
      · rw [parkOrder_order, receive_order hx]
    · obtain ⟨hentry, hdates, hmark⟩ := activate_matched_register L a
      obtain ⟨hentry', hdates'⟩ := (h.matched a).settle_register L.nextOrder (L.matched a).2
      have hframe : MatchFrame (L.activate a) (L.matched a).1 := .matchLimits _ _
      have hid : ((L.matched a).1.order L.nextOrder).id = a.id := by
        rw [(hframe.keeps L.nextOrder).id, activate_order_new, OrderData.activated_id]
        rfl
      refine ⟨fun id e he => ?_, fun x hx => ?_, fun x hx _ => ?_⟩
      · rcases hentry' id e he with he | ⟨he, hid'⟩
        · exact Or.inl (hentry id e he)
        · exact Or.inr ⟨he, by rw [hid', hid]; rfl⟩
      · rw [← hdates]
        exact hdates' x hx
      · rw [settle_order_old (ne_of_lt hx), hmark x hx]
  | modify a =>
    have hold : ∀ x < L.nextOrder, (L.allocOrder a.toData).order x = L.order x := fun x hx =>
      allocOrder_order_old hx a.toData
    rcases h.step_modify_cases a with ⟨-, he⟩ | ⟨e, l, hlook, -, -, -, he⟩ <;> rw [he]
    · exact .of_subset _ (fun _ _ he => he) (fun _ hx => hx) fun x hx _ => by rw [hold x hx]
    · refine .of_subset _ (fun id x hx => ?_) ?_ fun x hx hnot => ?_
      · rw [enqueueOrder_orders] at hx
        simpa using lookup_replaceOrder hx
      · rw [enqueueOrder_dates, dates_replaceOrder]
        exact fun _ hx => hx
      · rw [enqueueOrder_order, order_replaceOrder, mark_cancel, hold x hx]
        exact fun hxe => hnot _ (hxe ▸ hlook)
  | cancel id =>
    obtain ⟨hentry, hdates, hmark⟩ := h.cancelOrder_register id
    have hstep : (L.step (.cancel id)).1 = (L.cancelOrder id).1 := rfl
    rw [hstep]
    exact .of_subset _ hentry (by rw [hdates]; exact fun _ hx => hx) fun x _ => hmark x
  | checkDate now => exact h.checkDateOrders_recorded now

/-! ### Gone for good -/

/-- **A mark is not taken back.** -/
theorem WellFormed.mark_step (h : L.WellFormed) (r : Request) (ho : o < L.nextOrder)
    (hc : (L.order o).cancelled = true) : ((L.step r).1.order o).cancelled = true := by
  cases r with
  | add now a =>
    rw [step_add]
    split
    · rw [parkOrder_order, receive_order ho, hc]
    · rw [settle_order_old ho.ne, (activate_matched_register L a).2.2 o ho, hc]
  | modify a =>
    rcases h.step_modify_cases a with ⟨-, he⟩ | ⟨e, l, -, -, -, -, he⟩ <;> rw [he]
    · rw [allocOrder_order_old ho, hc]
    · rw [enqueueOrder_order, order_replaceOrder]
      by_cases hoe : o = e
      · subst hoe
        rw [updateData_order, Function.update_self]
        rfl
      · rw [mark_cancel hoe, allocOrder_order_old ho, hc]
  | cancel id => exact mark_cancelOrder hc id
  | checkDate now =>
    exact checkDateOrders_rule (J := fun L' => (L'.order o).cancelled = true)
      (fun _ _ hJ _ _ => mark_cancelOrder hJ _) (fun _ _ hJ => hJ) hc

/-- An order that `cancel_order` has found is not found again. -/
theorem WellFormed.lookup_cancelled (h : L.WellFormed)
    (hstatus : (L.cancelOrder id).2 = .cancelled) :
    (L.cancelOrder id).1.orders.lookup id = none := by
  rcases h.cancelOrder_cases id with ⟨-, he⟩ | ⟨e, hlook, -, he⟩ | ⟨e, l, hlook, -, -, he⟩
  · rw [he] at hstatus
    exact absurd hstatus (by simp)
  · have hid : ((L.updateData e .cancel).order e).id = id :=
      (L.keeps_updateData e .cancel e).id.trans (h.entry_id id e hlook)
    rw [he, enqueueOrder_orders, removeStopOrder_orders, hid]
    exact AList.lookup_erase _ _
  · have hid : ((L.updateData e .cancel).order e).id = id :=
      (L.keeps_updateData e .cancel e).id.trans (h.entry_id id e hlook)
    rw [he, enqueueOrder_orders, displace_orders, hid]
    exact AList.lookup_erase _ _

/-! ### What orders say -/

/-- An order says what it said before. -/
theorem WellFormed.step_keeps (h : L.WellFormed) (r : Request) (ho : o < L.nextOrder) :
    ((L.step r).1.order o).Keeps (L.order o) := by
  cases r with
  | modify a =>
    have hkeep := (Still.modifyOrder (L.allocOrder a.toData) L.nextOrder).keeps o
    rwa [allocOrder_order_old ho] at hkeep
  | _ => exact (h.stepFrame rfl).keeps o ho

/-- The new order says what the request said. -/
theorem WellFormed.step_new (h : L.WellFormed) {r : Request} {a : OrderArgs}
    (hr : submitted r = some a) : ((L.step r).1.order L.nextOrder).Keeps a.toData := by
  cases r with
  | modify b =>
    obtain rfl : b = a := Option.some.inj hr
    have hkeep := (Still.modifyOrder (L.allocOrder b.toData) L.nextOrder).keeps L.nextOrder
    rwa [allocOrder_order_new] at hkeep
  | add now b => exact (h.stepFrame (r := .add now b) rfl).new a hr
  | _ => exact absurd hr (by simp [submitted])

/-! ### What is held -/

theorem WellFormed.stops_removeStopOrder (h : L.WellFormed) (e : ℕ) (b : Bool) :
    (L.removeStopOrder e).stops b ⊆ L.stops b := by
  intro x hx
  rw [removeStopOrder_stops] at hx
  by_cases hb : b = (L.order e).isBuy
  · subst hb
    rw [Function.update_self] at hx
    exact ((mem_eraseKey (L.stopLess_strictWeak _) (h.stops_sorted _)).mp hx).1
  · rwa [Function.update_of_ne hb] at hx

theorem mem_queue_replaceOrder {n l : ℕ} (ho : o ∈ (L.replaceOrder e n).queue l) :
    o = n ∨ o ∈ L.queue l := by
  rw [Ledger.replaceOrder] at ho
  split at ho
  · exact Or.inr ho
  · split at ho
    · exact Or.inr ho
    · next k hk =>
      refine (Ledger.mem_queue_addLimitOrder ho).imp_right fun ho => ?_
      rw [Ledger.removeLimitOrder, hk] at ho
      exact ((MatchFrame.displace L e k).queue l).mem ho

theorem WellFormed.mem_stops_replaceOrder {n : ℕ} {b : Bool} (h : L.WellFormed)
    (ho : o ∈ (L.replaceOrder e n).stops b) : o = n ∨ o ∈ L.stops b := by
  rw [Ledger.replaceOrder] at ho
  split at ho
  · exact ((h.removeStopOrder (o := n)).mem_addStopOrder ho).imp And.left fun ho =>
      h.stops_removeStopOrder n b ho
  · split at ho
    · exact Or.inr ho
    · next k hk =>
      obtain ⟨-, -, -, -, -, hstops, -, -⟩ := addLimitOrder_frame (L.removeLimitOrder e) n k
        (L.order n).isBuy
      rw [hstops, Ledger.removeLimitOrder, hk] at ho
      exact Or.inr ho

theorem submitted_of_newOrder {r : Request} (hr : r.newOrder.isSome = true) :
    (submitted r).isSome = true := by
  cases r with
  | add now a => rfl
  | _ => exact absurd hr (by simp [Request.newOrder])

/-- **Only the order that comes with a request** gets into a queue. -/
theorem WellFormed.queue_step (h : L.WellFormed) {r : Request} {l : ℕ}
    (ho : o ∈ (L.step r).1.queue l) :
    o ∈ L.queue l ∨ o = L.nextOrder ∧ (submitted r).isSome = true := by
  by_cases hr : r.keepsOrders = true
  · obtain ⟨q, hq, heq | ⟨hnew, heq⟩⟩ := (h.stepFrame hr).queue l <;> rw [heq] at ho
    · exact Or.inl (hq.mem ho)
    · rcases List.mem_append.mp ho with ho | ho
      · exact Or.inl (hq.mem ho)
      · exact Or.inr ⟨List.mem_singleton.mp ho, submitted_of_newOrder hnew⟩
  · cases r with
    | modify a =>
      rcases h.step_modify_cases a with ⟨-, he⟩ | ⟨e, k, -, -, -, -, he⟩ <;> rw [he] at ho
      · exact Or.inl ho
      · exact (mem_queue_replaceOrder ho).symm.imp_right fun he => ⟨he, rfl⟩
    | _ => exact absurd rfl hr

/-- **Only the order that comes with a request** gets into a stop tree. -/
theorem WellFormed.stops_step (h : L.WellFormed) {r : Request} {b : Bool}
    (ho : o ∈ (L.step r).1.stops b) :
    o ∈ L.stops b ∨ o = L.nextOrder ∧ (submitted r).isSome = true := by
  by_cases hr : r.keepsOrders = true
  · rcases (h.stepFrame hr).stops b o ho with hb | ⟨hnew, he, -⟩
    · exact Or.inl hb
    · exact Or.inr ⟨he, submitted_of_newOrder hnew⟩
  · cases r with
    | modify a =>
      rcases h.step_modify_cases a with ⟨-, he⟩ | ⟨e, k, -, -, -, -, he⟩ <;> rw [he] at ho
      · exact Or.inl ho
      · have hwf := (h.allocOrder a.toData).updateData (o := e) .cancel
        exact (hwf.mem_stops_replaceOrder ho).symm.imp_right fun he => ⟨he, rfl⟩
    | _ => exact absurd rfl hr

theorem WellFormed.held_step (h : L.WellFormed) {r : Request} (ho : (L.step r).1.Held o) :
    L.Held o ∨ o = L.nextOrder ∧ (submitted r).isSome = true := by
  rcases ho with ⟨l, hl⟩ | ⟨b, hb⟩
  · exact (h.queue_step hl).imp_left fun hl => Or.inl ⟨l, hl⟩
  · exact (h.stops_step hb).imp_left fun hb => Or.inr ⟨b, hb⟩

/-- A request without an order of its own has none that is held. -/
theorem WellFormed.not_held_of_submitted (h : L.WellFormed) {r : Request}
    (hr : submitted r = none) : ¬ (L.step r).1.Held L.nextOrder := by
  intro hheld
  rcases h.held_step hheld with ho | ⟨-, hsome⟩
  · exact h.not_held_nextOrder ho
  · exact absurd hsome (by simp [hr])

/-! ### What is handed to the repository -/

/-- The order `a` of a request takes the place of the order `e`, which the index has under its
id. -/
structure Replaces (L : Ledger) (r : Request) (a : OrderArgs) (e : ℕ) : Prop where
  status : (L.step r).2 = some .modified
  entry : L.orders.lookup a.id = some e
  live : (L.order e).cancelled = false
  mark : ((L.step r).1.order e).cancelled = true
  gone : (L.step r).1.orders.lookup a.id = none

/-- **What a request hands to the repository**: its own order, which is new or replaces another one,
or orders that the index has led to and that are cancelled now. -/
inductive HandsOver (L : Ledger) (r : Request) : List ℕ → Prop
  | placed (a : OrderArgs) (ha : submitted r = some a)
      (hid : newId r = some a.id ∨ ∃ e, Replaces L r a e) : HandsOver L r [L.nextOrder]
  | found (new : List ℕ) (hid : newId r = none) (hfree : ¬ (L.step r).1.Held L.nextOrder)
      (hnew : ∀ o ∈ new, (∃ id, L.orders.lookup id = some o) ∧
        ((L.step r).1.order o).cancelled = true) : HandsOver L r new

theorem WellFormed.handsOver_checkDateOrders (h : L.WellFormed) (now : ℤ) :
    ∃ new, (L.checkDateOrders now).orderQueue = L.orderQueue ++ new ∧
      ∀ o ∈ new, (∃ id, L.orders.lookup id = some o) ∧
        ((L.checkDateOrders now).order o).cancelled = true := by
  have hrule := @checkDateOrders_rule L
    (fun L' => L'.WellFormed ∧ (∀ id e, L'.orders.lookup id = some e →
      L.orders.lookup id = some e) ∧ ∃ new, L'.orderQueue = L.orderQueue ++ new ∧
        ∀ o ∈ new, (∃ id, L.orders.lookup id = some o) ∧ (L'.order o).cancelled = true)
    now (fun L' o hJ _ _ => ?_) (fun L' o hJ => ⟨hJ.1.eraseDate, hJ.2⟩)
    ⟨h, fun _ _ he => he, [], by simp⟩
  · exact hrule.2.2
  · obtain ⟨hwf, hentry, new, hqueue, hnew⟩ := hJ
    obtain ⟨hentry', -, -⟩ := hwf.cancelOrder_register (L.order o).id
    refine ⟨hwf.cancelOrder _, fun id e he => hentry id e (hentry' id e he),
      new ++ (L'.orders.lookup (L.order o).id).toList, ?_, fun x hx => ?_⟩
    · rw [cancelOrder_orderQueue, hqueue, List.append_assoc]
    · rcases List.mem_append.mp hx with hx | hx
      · exact ⟨(hnew x hx).1, mark_cancelOrder (hnew x hx).2 _⟩
      · have hlook := Option.mem_toList.mp hx
        exact ⟨⟨_, hentry _ x hlook⟩, marked_cancelOrder hlook⟩

theorem WellFormed.handsOver (h : L.WellFormed) (r : Request) :
    ∃ new, (L.step r).1.orderQueue = L.orderQueue ++ new ∧ HandsOver L r new := by
  cases r with
  | add now a => exact ⟨_, L.step_add_orderQueue now a, .placed a rfl (Or.inl rfl)⟩
  | cancel id =>
    refine ⟨_, L.cancelOrder_orderQueue id,
      .found _ rfl (h.not_held_of_submitted rfl) fun o ho => ?_⟩
    have hlook := Option.mem_toList.mp ho
    exact ⟨⟨id, hlook⟩, marked_cancelOrder hlook⟩
  | checkDate now =>
    obtain ⟨new, hqueue, hnew⟩ := h.handsOver_checkDateOrders now
    exact ⟨new, hqueue, .found new rfl (h.not_held_of_submitted rfl) hnew⟩
  | modify a =>
    rcases h.step_modify_cases a with ⟨-, he⟩ | ⟨e, l, hlook, -, hcan, hful, he⟩
    · refine ⟨[], by rw [he]; simp, .found [] rfl (fun hheld => ?_) (by simp)⟩
      rw [he] at hheld
      exact h.not_held_nextOrder hheld
    · have hstatus := (h.step_modified_iff a).mpr ⟨e, hlook, hcan, hful⟩
      refine ⟨[L.nextOrder], ?_, .placed a rfl (Or.inr ⟨e, hstatus, hlook, hcan, ?_, ?_⟩)⟩
      · rw [he, enqueueOrder_orderQueue, replaceOrder_orderQueue]
        rfl
      · rw [he, enqueueOrder_order, order_replaceOrder, updateData_order, Function.update_self]
        rfl
      · have hnone := h.lookup_modified hstatus
        rwa [(h.step_new (r := .modify a) rfl).id] at hnone

end Ledger

end LimitOrderBook
