import LimitOrderBook.Exchange.Admission
import LimitOrderBook.Ledger.Idle
import LimitOrderBook.Ledger.Quantities

/-!
# Quantities within bounds

Every order that the API admits has something left while it rests, and never less than nothing
or more than its initial quantity, exactly as long as what stays in the book has a positive
quantity, or is parked with none (`LimitOrderBook.bounded_iff`). An order without a positive
quantity moves nothing (`LimitOrderBook.Ledger.matched_of_qty_le`); it is the order itself that
is out of bounds, until another one comes to it.
-/

namespace LimitOrderBook

open OrderBook (Request)

namespace Ledger

variable {L : Ledger} {a : OrderArgs} {P : ℕ → Prop}

/-- The quantities of the resting orders and of the accepted ones are within their bounds. -/
structure InBounds (L : Ledger) (accepted : ℕ → Prop) : Prop where
  positive : L.Positive
  bounds : ∀ o, accepted o → 0 ≤ L.qty o ∧ L.qty o ≤ (L.order o).qty

/-- What is left of an order only goes down when a new order of positive quantity is
matched. -/
theorem Positive.matched_le (h : L.Positive) (hwf : L.WellFormed) (ha : 0 < a.qty) (x : ℕ) :
    (L.matched a).1.qty x ≤ (L.activate a).qty x := by
  have hwf' := hwf.activate a
  have hfree := (hwf.fresh_activate a).queue
  have hpos : 0 < (L.activate a).qty L.nextOrder := by
    rw [activate_qty_new]
    exact ha
  refine (matchLimits_invariant (o := L.nextOrder)
    (J := fun L' => Traded (L.activate a) L' L.nextOrder (!a.toData.isBuy) ∧
      ∀ x, L'.qty x ≤ (L.activate a).qty x)
    (fun L' l c p hl _ hL' hJ hc ho => ⟨hJ.1.fillOrder hwf' hfree hl hc ho, fun y => ?_⟩)
    (fun L' p hJ => ⟨hJ.1.setMarketPrice p, hJ.2⟩) hwf' hfree
    ⟨.refl hwf' (h.activate hwf a) hpos.le, fun _ => le_rfl⟩).1.2 x
  have hco : c ≠ L.nextOrder := fun he => hfree l (he ▸ (hJ.1.frame.queue l).mem hc)
  have hmoved := moved_nonneg (hJ.1.positive l c hc) ho
  rw [hL'.qty_fillOrder hc hco]
  split
  · next hy =>
    subst hy
    exact (sub_le_self _ hmoved).trans (hJ.2 _)
  · split
    · next hy =>
      subst hy
      exact (sub_le_self _ hmoved).trans (hJ.2 _)
    · exact hJ.2 y

/-- An order without a positive quantity moves nothing. -/
theorem matched_of_qty_le (hwf : L.WellFormed) (ha : a.qty ≤ 0) :
    Unmoved (L.activate a) (L.matched a).1 := by
  refine Idle.matched (fun hpos => ?_) hwf
  rw [activate_qty_new] at hpos
  exact absurd hpos (not_lt.mpr ha)

/-- A new order that is filled has nothing left. -/
theorem qty_of_filled (hfilled : (L.matched a).2 = true) : (L.matched a).1.qty L.nextOrder = 0 := by
  rcases matchLimits_rule (o := L.nextOrder) (P := fun _ _ => True)
    (Q := fun L' => L'.qty L.nextOrder = 0) (fun _ _ _ _ _ => trivial)
    (fun _ _ _ _ _ _ _ hzero => hzero) (fun _ _ _ _ _ _ _ _ => trivial)
    (L.activate a) (L.levels !a.toData.isBuy) trivial with ⟨-, hzero⟩ | ⟨hno, -⟩
  · exact hzero
  · exact absurd (hno.symm.trans hfilled) (by simp)

/-! ### A new order -/

/-- What is left of an order after a new one has been added. -/
theorem qty_step_add (L : Ledger) (now : ℤ) (a : OrderArgs) (x : ℕ) :
    (L.step (.add now a)).1.qty x =
      if (L.receive a).isParked L.nextOrder then (L.activate a).qty x
      else (L.matched a).1.qty x := by
  have hsame : (L.receive a).qty x = (L.activate a).qty x := by
    rw [qty, qty, activate, updateData_order]
    by_cases hx : x = L.nextOrder
    · rw [hx, Function.update_self, OrderData.activated_currentQty]
    · rw [Function.update_of_ne hx]
  rw [step_add]
  split
  · rw [(Still.parkOrder _ _).qty, hsame]
  · rw [(Still.settle _ _ _).qty]

/-- **An order that was accepted before** stays within its bounds. -/
theorem InBounds.old (h : L.InBounds P) (hwf : L.WellFormed) (now : ℤ) {x : ℕ}
    (hx : x < L.nextOrder) (hP : P x) : 0 ≤ (L.step (.add now a)).1.qty x ∧
      (L.step (.add now a)).1.qty x ≤ ((L.step (.add now a)).1.order x).qty := by
  obtain ⟨hnonneg, hle⟩ := h.bounds x hP
  have hactivate : (L.activate a).qty x = L.qty x :=
    congrArg OrderData.currentQty (activate_order hx a)
  rw [((hwf.stepFrame (r := .add now a) rfl).keeps x hx).qty, qty_step_add]
  split
  · rw [hactivate]
    exact ⟨hnonneg, hle⟩
  rcases lt_or_ge 0 a.qty with ha | ha
  · refine ⟨?_, ((h.positive.matched_le hwf ha x).trans_eq hactivate).trans hle⟩
    -- an order of a queue has something left, or has been filled and has left it
    obtain ⟨htraded, -⟩ := h.positive.matched hwf ha
    by_cases hr : x ∈ (L.activate a).resting !a.toData.isBuy
    · obtain ⟨l, -, hl⟩ := mem_resting.mp hr
      by_cases hq : x ∈ (L.matched a).1.queue l
      · exact (htraded.positive l x hq).le
      · exact (htraded.left l x hl hq).ge
    · rw [htraded.unchanged x hx.ne hr, hactivate]
      exact hnonneg
  · rw [qty, (matched_of_qty_le hwf ha).order, ← qty, hactivate]
    exact ⟨hnonneg, hle⟩

/-- **The new order** is within its bounds if its quantity is not negative. -/
theorem InBounds.new_iff (h : L.InBounds P) (hwf : L.WellFormed) (now : ℤ) :
    (0 ≤ (L.step (.add now a)).1.qty L.nextOrder ∧ (L.step (.add now a)).1.qty L.nextOrder ≤
      ((L.step (.add now a)).1.order L.nextOrder).qty) ↔ 0 ≤ a.qty := by
  have hinit : ((L.step (.add now a)).1.order L.nextOrder).qty = a.qty :=
    ((hwf.stepFrame (r := .add now a) rfl).new a rfl).qty
  rw [hinit, qty_step_add]
  split
  · rw [activate_qty_new]
    exact and_iff_left le_rfl
  rcases lt_or_ge 0 a.qty with ha | ha
  · refine iff_of_true ⟨(h.positive.matched hwf ha).1.nonneg, ?_⟩ ha.le
    exact (h.positive.matched_le hwf ha _).trans_eq (activate_qty_new L a)
  · rw [qty, (matched_of_qty_le hwf ha).order, ← qty, activate_qty_new]
    exact and_iff_left le_rfl

/-- A new order has a status other than not matched if it is parked, is filled, or does not ask
to be filled at once. -/
theorem taken_iff (L : Ledger) (now : ℤ) (a : OrderArgs) :
    ((L.step (.add now a)).2 = some .accepted ∨ (L.step (.add now a)).2 = some .matched) ↔
      (L.receive a).isParked L.nextOrder = true ∨ (L.matched a).2 = true ∨
        a.toData.activated.hasParam .fok = false := by
  have hframe : MatchFrame (L.activate a) (L.matched a).1 := .matchLimits _ _
  have hfok : ((L.matched a).1.order L.nextOrder).hasParam .fok =
      a.toData.activated.hasParam .fok := by
    rw [hframe.hasParam, activate_order_new]
  rw [step_add, settle, hfok]
  by_cases hp : (L.receive a).isParked L.nextOrder = true
  · simp [hp]
  · rcases hm : (L.matched a).2 with _ | _ <;>
      rcases hf : a.toData.activated.hasParam .fok with _ | _ <;> simp [hp]

/-- **What rests has something left** after a new order has been added, unless that comes to
rest without a positive quantity. -/
theorem Positive.step_add_iff (h : L.Positive) (hwf : L.WellFormed) (now : ℤ) :
    (L.step (.add now a)).1.Positive ↔ 0 < a.qty ∨ (L.receive a).isParked L.nextOrder = true ∨
      (L.matched a).2 = true ∨ a.toData.activated.hasParam .fok = true := by
  rcases lt_or_ge 0 a.qty with ha | ha
  · exact iff_of_true (h.step hwf (r := .add now a) ha) (Or.inl ha)
  have hun := matched_of_qty_le hwf ha
  have hold : ∀ x < L.nextOrder, (L.step (.add now a)).1.qty x = L.qty x := fun x hx => by
    have hactivate : (L.activate a).qty x = L.qty x :=
      congrArg OrderData.currentQty (activate_order hx a)
    have hmatched : (L.matched a).1.qty x = (L.activate a).qty x :=
      congrArg OrderData.currentQty (congrFun hun.order x)
    rw [qty_step_add, hmatched, hactivate, ite_self]
  -- an order in a queue is an old one, or the new one has come to rest
  have hqueue : (∀ l, L.nextOrder ∉ (L.step (.add now a)).1.queue l) →
      (L.step (.add now a)).1.Positive := fun hnew l x hx => by
    obtain ⟨q, hq, hcase⟩ := (hwf.stepFrame (r := .add now a) rfl).queue l
    have hxq : x ∈ L.queue l := by
      rcases hcase with he | ⟨-, he⟩
      · exact hq.subset (he ▸ hx)
      · exact absurd (by rw [he]; simp) (hnew l)
    rw [hold x (hwf.queue_lt l x hxq)]
    exact h l x hxq
  have hframe : MatchFrame (L.activate a) (L.matched a).1 := .matchLimits _ _
  have hfresh := (hwf.fresh_activate a).of_frame hframe
  have hfok : ((L.matched a).1.order L.nextOrder).hasParam .fok =
      a.toData.activated.hasParam .fok := by
    rw [hframe.hasParam, activate_order_new]
  rw [or_iff_right (not_lt.mpr ha)]
  rw [step_add] at hqueue ⊢
  by_cases hp : (L.receive a).isParked L.nextOrder = true
  · rw [if_pos hp] at hqueue ⊢
    refine iff_of_true (hqueue fun l => ?_) (Or.inl hp)
    obtain ⟨dates, hdates⟩ := (L.receive a).parkOrder_eq L.nextOrder
    rw [hdates]
    exact (hwf.fresh_receive a).queue l
  rw [if_neg hp] at hqueue ⊢
  rw [or_iff_right hp]
  rw [settle, hfok] at hqueue ⊢
  by_cases hm : (L.matched a).2 = true
  · rw [if_pos hm] at hqueue ⊢
    exact iff_of_true (hqueue hfresh.queue) (Or.inl hm)
  rw [if_neg hm] at hqueue ⊢
  rw [or_iff_right hm]
  by_cases hf : a.toData.activated.hasParam .fok = true
  · rw [if_pos hf] at hqueue ⊢
    exact iff_of_true (hqueue hfresh.queue) hf
  · rw [if_neg hf]
    refine iff_of_false (fun hpos => ?_) hf
    obtain ⟨l, hl, -, -⟩ := (hwf.matched a).restOrder L.nextOrder
    have hlast := hpos l L.nextOrder (hl.mem_queue.mpr (Or.inl ⟨rfl, rfl⟩))
    rw [hl.qty, qty, hun.order, ← qty, activate_qty_new] at hlast
    exact absurd hlast (not_lt.mpr ha)

/-- **One new order** keeps the quantities within bounds exactly if it has a positive quantity,
or does not stay, or has none and is parked. -/
theorem InBounds.step_add (h : L.InBounds P) (hwf : L.WellFormed) (hP : ∀ o, P o → o < L.nextOrder)
    (now : ℤ) :
    (L.step (.add now a)).1.InBounds (fun o => P o ∨ o = L.nextOrder ∧
        ((L.step (.add now a)).2 = some .accepted ∨ (L.step (.add now a)).2 = some .matched)) ↔
      0 < a.qty ∨ ¬ ((L.receive a).isParked L.nextOrder = true ∨
        a.toData.activated.hasParam .fok = false ∧ (L.matched a).2 = false) ∨
      a.qty = 0 ∧ (L.receive a).isParked L.nextOrder = true := by
  have hiff : (L.step (.add now a)).1.InBounds (fun o => P o ∨ o = L.nextOrder ∧
        ((L.step (.add now a)).2 = some .accepted ∨ (L.step (.add now a)).2 = some .matched)) ↔
      (L.step (.add now a)).1.Positive ∧ ((L.step (.add now a)).2 = some .accepted ∨
        (L.step (.add now a)).2 = some .matched → 0 ≤ a.qty) := by
    constructor
    · exact fun hw => ⟨hw.positive, fun ht =>
        (h.new_iff hwf now).mp (hw.bounds L.nextOrder (Or.inr ⟨rfl, ht⟩))⟩
    · rintro ⟨hpos, hnew⟩
      refine ⟨hpos, fun o ho => ?_⟩
      rcases ho with ho | ⟨rfl, ht⟩
      · exact h.old hwf now (hP o ho) ho
      · exact (h.new_iff hwf now).mpr (hnew ht)
  rw [hiff, taken_iff, h.positive.step_add_iff hwf now]
  -- only an order of quantity 0 is filled without a positive quantity
  have hfilled : a.qty ≤ 0 → (L.matched a).2 = true → a.qty = 0 := fun ha hm => by
    have hzero := qty_of_filled hm
    rwa [qty, (matched_of_qty_le hwf ha).order, ← qty, activate_qty_new] at hzero
  rcases lt_trichotomy a.qty 0 with ha | ha | ha
  · have hm : (L.matched a).2 = false := by
      by_contra hm
      exact ha.ne (hfilled ha.le (by simpa using hm))
    rcases hf : a.toData.activated.hasParam .fok with _ | _ <;>
      simp [hm, ha.ne, not_lt.mpr ha.le, not_le.mpr ha]
  · rcases hm : (L.matched a).2 with _ | _ <;>
      rcases hf : a.toData.activated.hasParam .fok with _ | _ <;> simp [ha]
  · exact iff_of_true ⟨Or.inl ha, fun _ => ha.le⟩ (Or.inl ha)

/-- **Cancelling** changes no quantity. -/
theorem InBounds.cancelOrder (h : L.InBounds P) (hwf : L.WellFormed) (id : String) :
    (L.cancelOrder id).1.InBounds P where
  positive := h.positive.cancelOrder hwf id
  bounds := fun o ho => by
    rw [cancelOrder_qty, ((Still.cancelOrder L id).keeps o).qty]
    exact h.bounds o ho

end Ledger

/-- Whether the quantities of a book are within bounds is seen from the ledger. -/
theorem Refines.inBounds_iff {s : OrderBook} {L : Ledger} (h : Refines s L) (hin : L.InPlace)
    (P : ℕ → Prop) : L.InBounds P ↔
      (∀ o, P o → 0 ≤ (s.order o).currentQty ∧ (s.order o).currentQty ≤ (s.order o).qty) ∧
      ∀ b, ∃ orders, s.getOrders b = .ok orders ∧ ∀ o ∈ orders, 0 < (s.order o).currentQty := by
  have hqty : ∀ o, (s.order o).qty = (L.order o).qty := fun o => congrArg OrderData.qty (h.order o)
  simp only [h.qty, hqty]
  constructor
  · refine fun hw => ⟨hw.bounds, fun b => ⟨_, h.getOrders b, fun o ho => ?_⟩⟩
    obtain ⟨-, l, hl⟩ := hin.mem_resting_iff.mp ho
    exact hw.positive l o hl
  · rintro ⟨hbounds, hresting⟩
    refine ⟨fun l o ho => ?_, hbounds⟩
    obtain ⟨orders, horders, hall⟩ := hresting (L.order o).isBuy
    rw [h.getOrders, Except.ok.injEq] at horders
    subst horders
    exact hall o (hin.mem_resting_iff.mpr ⟨rfl, l, ho⟩)

namespace Admission

/-- What holds of every book, with the orders that it has accepted. -/
def Sound (A : Admission) : Prop :=
  ∀ X s, A.exchange.books.lookup X = some s →
    ∃ L, Refines s L ∧ L.InPlace ∧ ∀ o, (X, o) ∈ A.accepted → o < L.nextOrder

variable {uuid : ℕ → String} {toFloat : ℚ → ℚ} {A : Admission} {X : String} {s s' : OrderBook}
  {L L' : Ledger} {g : ℕ} {accepted : List (String × ℕ)}

/-! ### Changes of one book -/

theorem Sound.setBook (h : A.Sound) (h' : Refines s' L') (hin : L'.InPlace)
    (hX : ∀ o, (X, o) ∈ accepted → o < L'.nextOrder)
    (hY : ∀ Y o, Y ≠ X → ((Y, o) ∈ accepted ↔ (Y, o) ∈ A.accepted)) :
    Sound ⟨A.exchange.setBook X s s' g, accepted⟩ := by
  intro Y t ht
  by_cases hYX : Y = X
  · subst hYX
    rw [Exchange.setBook, AList.lookup_insert, Option.some.injEq] at ht
    subst ht
    exact ⟨L', h', hin, hX⟩
  · rw [Exchange.setBook, AList.lookup_insert_ne hYX] at ht
    obtain ⟨M, hM, hMin, hlt⟩ := h Y t ht
    exact ⟨M, hM, hMin, fun o ho => hlt o ((hY Y o hYX).mp ho)⟩

/-- The quantities stay within bounds if those of the book that changes do. -/
theorem Bounded.setBook (hp : A.Bounded) (h' : Refines s' L') (hin : L'.InPlace)
    (hY : ∀ Y o, Y ≠ X → ((Y, o) ∈ accepted ↔ (Y, o) ∈ A.accepted)) :
    Bounded ⟨A.exchange.setBook X s s' g, accepted⟩ ↔ L'.InBounds fun o => (X, o) ∈ accepted := by
  rw [h'.inBounds_iff hin]
  constructor
  · exact fun hb => ⟨hb.accepted X s' (AList.lookup_insert _),
      hb.resting X s' (AList.lookup_insert _)⟩
  · rintro ⟨hacc, hrest⟩
    refine ⟨fun Y t ht o ho => ?_, fun Y t ht => ?_⟩ <;> by_cases hYX : Y = X
    · subst hYX
      rw [Exchange.setBook, AList.lookup_insert, Option.some.injEq] at ht
      exact ht ▸ hacc o ho
    · rw [Exchange.setBook, AList.lookup_insert_ne hYX] at ht
      exact hp.accepted Y t ht o ((hY Y o hYX).mp ho)
    · subst hYX
      rw [Exchange.setBook, AList.lookup_insert, Option.some.injEq] at ht
      exact ht ▸ hrest
    · rw [Exchange.setBook, AList.lookup_insert_ne hYX] at ht
      exact hp.resting Y t ht

theorem Bounded.inBounds (hp : A.Bounded) (hX : A.exchange.books.lookup X = some s)
    (h : Refines s L) (hin : L.InPlace) : L.InBounds fun o => (X, o) ∈ A.accepted :=
  (h.inBounds_iff hin _).mpr ⟨hp.accepted X s hX, hp.resting X s hX⟩

/-- A status adds at most the new order of the book to the accepted ones. -/
theorem mem_accept (hX : A.exchange.books.lookup X = some s) (status : Option OrderStatus)
    (Y : String) (o : ℕ) : (Y, o) ∈ A.accept X status ↔ (Y, o) ∈ A.accepted ∨
      (Y = X ∧ o = s.nextOrder) ∧ (status = some .accepted ∨ status = some .matched) := by
  simp only [accept, hX]
  split
  · next ht => simp [ht]
  · next ht => simp [ht]

/-! ### Requests -/

/-- A document that is mapped to an order goes to the exchange while that is working. -/
theorem createOrder_eq {E : Exchange} {now : ℤ} {order : OrderJson} {a : OrderArgs}
    (hmap : order.mapJsonToOrder toFloat now = some a) :
    createOrder uuid toFloat E now true X order = E.create uuid now X a := by
  rw [createOrder, hmap]
  rfl

theorem Sound.create (h : A.Sound) (hp : A.Bounded) (now : ℤ) (working : Bool) (X : String)
    (order : OrderJson) :
    ∃ A' answer, A.step uuid toFloat (.create now working X order) = .ok (A', answer) ∧
      A'.Sound ∧ (A'.Bounded ↔ A.admits toFloat (.create now working X order)) := by
  -- a request that is refused changes nothing
  have hrefused : createOrder uuid toFloat A.exchange now working X order = .ok (A.exchange, none) →
      A.admits toFloat (.create now working X order) →
      ∃ A' answer, A.step uuid toFloat (.create now working X order) = .ok (A', answer) ∧
        A'.Sound ∧ (A'.Bounded ↔ A.admits toFloat (.create now working X order)) := by
    intro hnone hadmits
    have hacc : A.accept X none = A.accepted := by
      rw [accept]
      split <;> simp
    refine ⟨A, none, ?_, h, iff_of_true hp hadmits⟩
    rw [step, hnone, ok_bind]
    dsimp only
    rw [hacc]
  rcases hmap : order.mapJsonToOrder toFloat now with _ | a
  · refine hrefused (by rw [createOrder, hmap]) fun s a _ ha => ?_
    rw [hmap] at ha
    exact absurd ha (by simp)
  cases working with
  | false =>
    refine hrefused (by rw [createOrder, hmap]; rfl) fun s b _ _ hw => ?_
    exact absurd hw (by simp)
  | true =>
    rcases hX : A.exchange.books.lookup X with _ | s
    · refine hrefused (by rw [createOrder_eq hmap, Exchange.create, hX]) fun s b hs => ?_
      rw [hX] at hs
      exact absurd hs (by simp)
    by_cases hside : a.side = .unkown
    · refine hrefused (by rw [createOrder_eq hmap, Exchange.create, hX]; simp [hside])
        fun s b _ hb _ hne => ?_
      obtain rfl := Option.some.inj (hmap.symm.trans hb)
      exact absurd hside hne
    obtain ⟨L, hL, hin, hlt⟩ := h X s hX
    obtain ⟨a', ha'⟩ : ∃ a', a' = { a with id := uuid A.exchange.generated } := ⟨_, rfl⟩
    obtain ⟨s', hs', h'⟩ := hL.step (.add now a')
    have hnext := (hin.wf.stepFrame (r := .add now a') rfl).nextOrder
    have hmem := mem_accept hX (L.step (.add now a')).2
    have hin' := hin.step (r := .add now a') rfl
    have hY : ∀ Y o, Y ≠ X → ((Y, o) ∈ A.accept X (L.step (.add now a')).2 ↔
        (Y, o) ∈ A.accepted) := fun Y o hYX => by simp [hmem, hYX]
    refine ⟨⟨A.exchange.setBook X s s' (A.exchange.generated + 1),
      A.accept X (L.step (.add now a')).2⟩, (L.step (.add now a')).2, ?_, ?_, ?_⟩
    · rw [step, createOrder_eq hmap, Exchange.create, hX]
      dsimp only
      rw [if_neg hside, ← ha', hs']
      rfl
    · refine h.setBook h' hin' (fun o ho => ?_) hY
      rw [hnext]
      rcases (hmem X o).mp ho with ho | ⟨⟨-, rfl⟩, -⟩
      · exact Nat.lt_add_right _ (hlt o ho)
      · rw [hL.nextOrder]
        exact Nat.lt_succ_self _
    · have hsame : (fun o => (X, o) ∈ A.accept X (L.step (.add now a')).2) = fun o =>
          (X, o) ∈ A.accepted ∨ o = L.nextOrder ∧ ((L.step (.add now a')).2 = some .accepted ∨
            (L.step (.add now a')).2 = some .matched) := by
        funext o
        simp only [hmem, hL.nextOrder, true_and]
      have hstays : s.stays a = true ↔ (L.receive a').isParked L.nextOrder = true ∨
          a'.toData.activated.hasParam .fok = false ∧ (L.matched a').2 = false := by
        have hid : s.stays a' = s.stays a := by rw [ha', OrderBook.stays_id]
        rw [← hL.stays_iff a', hid]
      have hparks : s.parks a = true ↔ (L.receive a').isParked L.nextOrder = true := by
        rw [← hL.parks a', ha']
        rfl
      have hqty : a'.qty = a.qty := by rw [ha']
      rw [hp.setBook h' hin' hY, hsame,
        (hp.inBounds hX hL hin).step_add hin.wf hlt now, ← hstays, ← hparks, hqty, Bool.not_eq_true]
      constructor
      · intro hc t b ht hb _ _
        obtain rfl := Option.some.inj (hX.symm.trans ht)
        obtain rfl := Option.some.inj (hmap.symm.trans hb)
        exact hc
      · exact fun hc => hc s a hX hmap rfl hside

theorem Sound.cancel (h : A.Sound) (hp : A.Bounded) (working : Bool) (X id : String) :
    ∃ A' answer, A.step uuid toFloat (.cancel working X id) = .ok (A', answer) ∧
      A'.Sound ∧ A'.Bounded := by
  cases working with
  | false => exact ⟨A, none, rfl, h, hp⟩
  | true =>
    rcases hX : A.exchange.books.lookup X with _ | s
    · exact ⟨A, none, by rw [step, cancelOrder, if_pos rfl, Exchange.cancel, hX]; rfl, h, hp⟩
    obtain ⟨L, hL, hin, hlt⟩ := h X s hX
    obtain ⟨s', hs', h'⟩ := hL.step (.cancel id)
    have hnext : (L.step (.cancel id)).1.nextOrder = L.nextOrder :=
      (hin.wf.stepFrame (r := .cancel id) rfl).nextOrder
    have hin' := hin.step (r := .cancel id) rfl
    refine ⟨⟨A.exchange.setBook X s s' A.exchange.generated, A.accepted⟩,
      (L.step (.cancel id)).2, ?_, ?_, ?_⟩
    · rw [step, cancelOrder, if_pos rfl, Exchange.cancel, hX]
      dsimp only
      rw [hs']
      rfl
    · exact h.setBook h' hin' (fun o ho => hnext ▸ hlt o ho) fun _ _ _ => Iff.rfl
    · exact (hp.setBook h' hin' fun _ _ _ => Iff.rfl).mpr
        ((hp.inBounds hX hL hin).cancelOrder hin.wf id)

/-- The books of a new exchange over an empty repository. -/
theorem exists_openBooks (instruments : List (String × ℚ)) :
    ∃ books, Exchange.openBooks .empty instruments = .ok books ∧
      ∀ X s, books.lookup X = some s → ∃ i : String × ℚ, s = .empty i.1 i.2 := by
  induction instruments with
  | nil => exact ⟨∅, rfl, by simp⟩
  | cons i rest ih =>
    obtain ⟨books, hbooks, hlook⟩ := ih
    refine ⟨books.insert i.1 (.empty i.1 i.2), by rw [Exchange.openBooks, hbooks]; rfl,
      fun X t ht => ?_⟩
    by_cases hX : X = i.1
    · subst hX
      rw [AList.lookup_insert, Option.some.injEq] at ht
      exact ⟨i, ht.symm⟩
    · rw [AList.lookup_insert_ne hX] at ht
      exact hlook X t ht

end Admission

/-- **The quantities stay within bounds** throughout a run of requests to a new exchange exactly
if every order that the API lets through has a positive quantity, or does not stay, or has none
and is parked. -/
theorem bounded_iff (uuid : ℕ → String) (toFloat : ℚ → ℚ) (instruments : List (String × ℚ))
    (rs : List ApiRequest) :
    ∃ E, (Exchange.closed .empty).restart instruments false = .ok E ∧
      (Throughout (Admission.step uuid toFloat) Admission.Bounded (.start E) rs ↔
        Meets (Admission.step uuid toFloat) (Admission.admits toFloat) (.start E) rs) := by
  obtain ⟨books, hbooks, hlook⟩ := Admission.exists_openBooks instruments
  refine ⟨{ Exchange.closed .empty with books := books, queue := [] }, ?_, ?_⟩
  · have hopen : Exchange.openBooks (Exchange.closed .empty).store instruments = .ok books := hbooks
    rw [Exchange.restart, hopen]
    rfl
  refine throughout_iff_meets (I := Admission.Sound) (Q := fun _ => True)
    (fun A r _ hI hp => ?_) (fun _ _ => trivial) (fun X s hX => ?_) ⟨fun X s hX o ho => ?_,
    fun X s hX b => ?_⟩
  · cases r with
    | create now working X order => exact hI.create hp now working X order
    | cancel working X id =>
      obtain ⟨A', answer, hA', h', hp'⟩ : ∃ A' answer,
          A.step uuid toFloat (.cancel working X id) = .ok (A', answer) ∧ A'.Sound ∧ A'.Bounded :=
        hI.cancel hp working X id
      exact ⟨A', answer, hA', h', iff_of_true hp' trivial⟩
  · obtain ⟨i, rfl⟩ := hlook X s hX
    exact ⟨_, refines_empty i.1 i.2, Ledger.inPlace_empty i.1 i.2, fun o ho =>
      absurd ho List.not_mem_nil⟩
  · exact absurd ho List.not_mem_nil
  · obtain ⟨i, rfl⟩ := hlook X s hX
    exact ⟨[], by cases b <;> rfl, fun o ho => absurd ho List.not_mem_nil⟩

/-- The body of a request for a limit order that is good till it is cancelled. -/
def OrderJson.limit (side : String) (qty price : ℚ) : OrderJson where
  orderId := none
  instrument := some "X"
  userId := some "u"
  qty := some qty
  price := some price
  side := some side
  type := some "LIMIT"
  params := some 8
  expireTime := none
  stopPrice := none

/-- **A negative quantity comes to rest**, and a bid that meets it has more left than it came
with. -/
theorem negative_admitted : ∃ E, (Exchange.closed .empty).restart [("X", 10)] false = .ok E ∧
    ¬ Throughout (Admission.step (fun _ => "u") id) Admission.Bounded (.start E)
      [.create 0 true "X" (.limit "SELL" (-5) 10), .create 0 true "X" (.limit "BUY" 5 10)] := by
  refine ⟨_, rfl, fun h => ?_⟩
  obtain ⟨A, answers, hrun, hb⟩ := h _ [] (List.append_nil _).symm
  have hfacts := eq_of_ok_of_map hrun
    (f := fun r => (r.1.accepted, (r.1.exchange.books.lookup "X").map fun s =>
      ((s.order 1).currentQty, (s.order 1).qty)))
    (b := ([("X", 0), ("X", 1)], some (10, 5))) (by decide +kernel)
  simp only [Prod.mk.injEq] at hfacts
  obtain ⟨haccepted, hbook⟩ := hfacts
  obtain ⟨s, hs, hqty⟩ := Option.map_eq_some_iff.mp hbook
  rw [Prod.mk.injEq] at hqty
  have hle := (hb.accepted "X" s hs 1 (by simp [haccepted])).2
  rw [hqty.1, hqty.2] at hle
  exact absurd hle (by decide)

end LimitOrderBook
