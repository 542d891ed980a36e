import LimitOrderBook.Storage.Live
import LimitOrderBook.OrderBook.Framed
import LimitOrderBook.Ledger.Simulation

/-!
# Orders that were never put into a level

`add_limit_order` sets the pointer of an order to its level before it links the order to
others. So an order without that pointer is linked to none, and no queue begins or ends with
it (`LimitOrderBook.OrderBook.Attached`). A ledger does not say so: it only knows the links of
the orders that are in queues.

Most functions keep this and do not come near the stop trees
(`LimitOrderBook.OrderBook.Calm`). What the others do to the last pointers of those trees is
followed along with it (`LimitOrderBook.OrderBook.Orderly`).
-/

namespace LimitOrderBook

open OrderBook (Request)

namespace OrderBook

/-- **An order that is linked**, to or from another one or at an end of a queue, has been put
into a level. -/
structure Attached (s : OrderBook) : Prop where
  next : ∀ x p, s.next x = some p → (s.order x).parent ≠ none ∧ (s.order p).parent ≠ none
  prev : ∀ x p, s.prev x = some p → (s.order x).parent ≠ none ∧ (s.order p).parent ≠ none
  head : ∀ l p, (s.limit l).head = some p → (s.order p).parent ≠ none
  tail : ∀ l p, (s.limit l).tail = some p → (s.order p).parent ≠ none

theorem attached_empty (instrument : String) (marketPrice : ℚ) :
    (empty instrument marketPrice).Attached where
  next := fun x p h => absurd h (by simp [OrderBook.next, empty, Order.ofData])
  prev := fun x p h => absurd h (by simp [OrderBook.prev, empty, Order.ofData])
  head := fun l p h => absurd h (by simp [empty, Limit.new])
  tail := fun l p h => absurd h (by simp [empty, Limit.new])

namespace Attached

variable {s s' : OrderBook} {o l : ℕ} {p : Option ℕ}

/-! ### Single writes -/

theorem congr (h : s.Attached) (hn : s'.next = s.next) (hp : s'.prev = s.prev)
    (hpar : ∀ x, (s.order x).parent ≠ none → (s'.order x).parent ≠ none)
    (hhead : ∀ x, (s'.limit x).head = (s.limit x).head)
    (htail : ∀ x, (s'.limit x).tail = (s.limit x).tail) : s'.Attached where
  next := fun x p hx => (h.next x p (hn ▸ hx)).imp (hpar x) (hpar p)
  prev := fun x p hx => (h.prev x p (hp ▸ hx)).imp (hpar x) (hpar p)
  head := fun x p hx => hpar p (h.head x p (hhead x ▸ hx))
  tail := fun x p hx => hpar p (h.tail x p (htail x ▸ hx))

theorem updateData (h : s.Attached) (f : OrderData → OrderData) : (s.updateData o f).Attached :=
  h.congr (next_updateData s o f) (prev_updateData s o f)
    (fun x hx => by rwa [parent_updateData]) (fun _ => rfl) fun _ => rfl

theorem updateLimitData (h : s.Attached) (f : LimitData → LimitData) :
    (s.updateLimitData l f).Attached := by
  refine h.congr rfl rfl (fun _ hx => hx) (fun x => ?_) fun x => ?_ <;> by_cases hx : x = l
  · subst hx; simp [OrderBook.updateLimitData]
  · simp [OrderBook.updateLimitData, hx]
  · subst hx; simp [OrderBook.updateLimitData]
  · simp [OrderBook.updateLimitData, hx]

theorem setParent (h : s.Attached) : (s.setParent o l).Attached := by
  refine h.congr (funext fun x => ?_) (funext fun x => ?_) (fun x hx => ?_) (fun _ => rfl)
    fun _ => rfl <;> by_cases hxo : x = o
  · subst hxo; simp [OrderBook.next, OrderBook.setParent]
  · simp [OrderBook.next, OrderBook.setParent, hxo]
  · subst hxo; simp [OrderBook.prev, OrderBook.setParent]
  · simp [OrderBook.prev, OrderBook.setParent, hxo]
  · subst hxo; simp [OrderBook.setParent]
  · simpa [OrderBook.setParent, hxo] using hx

theorem parent_setParent (s : OrderBook) (o l : ℕ) : ((s.setParent o l).order o).parent = some l := by
  simp [OrderBook.setParent]

theorem setNext (h : s.Attached) (ho : (s.order o).parent ≠ none)
    (hp : ∀ x, p = some x → (s.order x).parent ≠ none) : (s.setNext o p).Attached := by
  have hpar : ∀ x, ((s.setNext o p).order x).parent = (s.order x).parent :=
    SameButLinks.setNext.parent
  refine ⟨fun x y hx => ?_, fun x y hx => ?_, fun l y hy => ?_, fun l y hy => ?_⟩
  · rw [hpar, hpar]
    rw [next_setNext] at hx
    split at hx
    · next hxo => exact hxo ▸ ⟨ho, hp y hx⟩
    · exact h.next x y hx
  · rw [hpar, hpar]
    exact h.prev x y (prev_setNext ▸ hx)
  · rw [hpar]
    exact h.head l y hy
  · rw [hpar]
    exact h.tail l y hy

theorem setPrev (h : s.Attached) (ho : (s.order o).parent ≠ none)
    (hp : ∀ x, p = some x → (s.order x).parent ≠ none) : (s.setPrev o p).Attached := by
  have hpar : ∀ x, ((s.setPrev o p).order x).parent = (s.order x).parent :=
    SameButLinks.setPrev.parent
  refine ⟨fun x y hx => ?_, fun x y hx => ?_, fun l y hy => ?_, fun l y hy => ?_⟩
  · rw [hpar, hpar]
    exact h.next x y (next_setPrev ▸ hx)
  · rw [hpar, hpar]
    rw [prev_setPrev] at hx
    split at hx
    · next hxo => exact hxo ▸ ⟨ho, hp y hx⟩
    · exact h.prev x y hx
  · rw [hpar]
    exact h.head l y hy
  · rw [hpar]
    exact h.tail l y hy

theorem setHead (h : s.Attached) (hp : ∀ x, p = some x → (s.order x).parent ≠ none) :
    (s.setHead l p).Attached := by
  refine ⟨h.next, h.prev, fun x y hy => ?_, fun x y hy => h.tail x y (tail_setHead ▸ hy)⟩
  rw [head_setHead] at hy
  split at hy
  · exact hp y hy
  · exact h.head x y hy

theorem setTail (h : s.Attached) (hp : ∀ x, p = some x → (s.order x).parent ≠ none) :
    (s.setTail l p).Attached := by
  refine ⟨h.next, h.prev, fun x y hy => h.head x y (head_setTail ▸ hy), fun x y hy => ?_⟩
  rw [tail_setTail] at hy
  split at hy
  · exact hp y hy
  · exact h.tail x y hy

/-! ### Queues of levels -/

theorem unlinkNeighbours (h : s.Attached) : (s.unlinkNeighbours o).Attached := by
  have hnext : ∀ n, (s.order o).next = some n → (s.order n).parent ≠ none := fun n hn =>
    (h.next o n hn).2
  have hprev : ∀ p, (s.order o).prev = some p → (s.order p).parent ≠ none := fun p hp =>
    (h.prev o p hp).2
  rw [OrderBook.unlinkNeighbours]
  split
  · next n p hn hp =>
    have hpar : ∀ x, ((s.setPrev n (some p)).order x).parent = (s.order x).parent :=
      SameButLinks.setPrev.parent
    refine (h.setPrev (hnext n hn) fun x hx => ?_).setNext ?_ fun x hx => ?_
    · exact Option.some.inj hx ▸ hprev p hp
    · rw [hpar]
      exact hprev p hp
    · rw [hpar, ← Option.some.inj hx]
      exact hnext n hn
  · next p _ hp => exact h.setNext (hprev p hp) fun x hx => absurd hx (by simp)
  · next n hn _ => exact h.setPrev (hnext n hn) fun x hx => absurd hx (by simp)
  · exact h

theorem unlinkEnds (h : s.Attached) : (s.unlinkEnds o l).Attached := by
  rw [OrderBook.unlinkEnds]
  split
  · exact (h.setHead fun x hx => absurd hx (by simp)).setTail fun x hx => absurd hx (by simp)
  · split
    · exact h.setHead fun x hx => (h.next o x hx).2
    · split
      · exact h.setTail fun x hx => (h.prev o x hx).2
      · exact h

/-- An order that has been given its level is linked behind the last one. -/
theorem appendOrder (h : s.Attached) (ho : (s.order o).parent ≠ none)
    (hrun : s.appendOrder o l = .ok s') : s'.Attached := by
  have hself : ∀ x, some o = some x → (s.order x).parent ≠ none := fun x hx =>
    Option.some.inj hx ▸ ho
  rw [OrderBook.appendOrder] at hrun
  split at hrun
  · rw [← Except.ok.inj hrun]
    exact (h.setHead hself).setTail hself
  · obtain ⟨pom, hpom, hrun⟩ := bind_eq_ok.mp hrun
    have hlast : (s.order pom).parent ≠ none := by
      rcases htail : (s.limit l).tail with _ | x
      · rw [htail] at hpom
        exact absurd hpom (by simp [deref])
      · rw [htail] at hpom
        exact Except.ok.inj hpom ▸ h.tail l x htail
    have hpar : ∀ x, ((s.setNext pom (some o)).order x).parent = (s.order x).parent :=
      SameButLinks.setNext.parent
    have hpar' : ∀ x, (((s.setNext pom (some o)).setPrev o (some pom)).order x).parent =
        (s.order x).parent := fun x => (SameButLinks.setPrev.parent x).trans (hpar x)
    rw [← Except.ok.inj hrun]
    refine ((h.setNext hlast hself).setPrev ?_ fun x hx => ?_).setTail fun x hx => ?_
    · rw [hpar]
      exact ho
    · rw [hpar, ← Option.some.inj hx]
      exact hlast
    · rw [hpar']
      exact hself x hx

end Attached

/-! ### Functions that leave the stop trees alone -/

/-- The stop trees are the same, and an order that was never put into a level is still linked to
none. -/
structure Calm (s s' : OrderBook) : Prop where
  stopOrders : ∀ b, s'.stopOrders b = s.stopOrders b
  attached : s.Attached → s'.Attached

namespace Calm

variable {s s' s'' : OrderBook} {o l : ℕ}

theorem refl (s : OrderBook) : Calm s s := ⟨fun _ => rfl, id⟩

theorem trans (h : Calm s s') (h' : Calm s' s'') : Calm s s'' :=
  ⟨fun b => (h'.stopOrders b).trans (h.stopOrders b), fun ha => h'.attached (h.attached ha)⟩

/-- The orders and the levels are the same. -/
theorem of_heaps (hstops : ∀ b, s'.stopOrders b = s.stopOrders b) (horder : s'.order = s.order)
    (hlimit : s'.limit = s.limit) : Calm s s' := by
  refine ⟨hstops, fun h => h.congr ?_ ?_ (fun x hx => ?_) (fun x => ?_) fun x => ?_⟩
  · funext x
    rw [OrderBook.next, horder, OrderBook.next]
  · funext x
    rw [OrderBook.prev, horder, OrderBook.prev]
  · rwa [horder]
  · rw [hlimit]
  · rw [hlimit]

theorem updateData (s : OrderBook) (o : ℕ) (f : OrderData → OrderData) :
    Calm s (s.updateData o f) := ⟨fun _ => rfl, fun h => h.updateData f⟩

theorem updateLimitData (s : OrderBook) (l : ℕ) (f : LimitData → LimitData) :
    Calm s (s.updateLimitData l f) := ⟨fun _ => rfl, fun h => h.updateLimitData f⟩

theorem enqueueOrder (s : OrderBook) (o : ℕ) : Calm s (s.enqueueOrder o) :=
  of_heaps (fun _ => rfl) rfl rfl

theorem allocLimit (s : OrderBook) (price : ℚ) : Calm s (s.allocLimit price) := by
  refine ⟨fun _ => rfl, fun h => ⟨h.next, h.prev, fun l p hl => ?_, fun l p hl => ?_⟩⟩ <;>
    by_cases hx : l = s.nextLimit
  · simp [hx, Limit.new] at hl
  · exact h.head l p (by simpa [hx] using hl)
  · simp [hx, Limit.new] at hl
  · exact h.tail l p (by simpa [hx] using hl)

theorem unlinkNeighbours (s : OrderBook) (o : ℕ) : Calm s (s.unlinkNeighbours o) :=
  ⟨(unlinkNeighbours_spec s o).1.stopOrders, Attached.unlinkNeighbours⟩

theorem unlinkEnds (s : OrderBook) (o l : ℕ) : Calm s (s.unlinkEnds o l) := by
  refine ⟨fun b => ?_, Attached.unlinkEnds⟩
  rw [OrderBook.unlinkEnds]
  split
  · rfl
  · split
    · rfl
    · split <;> rfl

/-- The order is linked when it has been given its level. -/
theorem appendOrder (ho : (s.order o).parent ≠ none) (h : s.appendOrder o l = .ok s') :
    Calm s s' := by
  refine ⟨fun b => ?_, fun ha => ha.appendOrder ho h⟩
  rw [OrderBook.appendOrder] at h
  split at h
  · rw [← Except.ok.inj h]
    rfl
  · obtain ⟨pom, -, h⟩ := bind_eq_ok.mp h
    rw [← Except.ok.inj h]
    rfl

theorem setParent (s : OrderBook) (o l : ℕ) : Calm s (s.setParent o l) :=
  ⟨fun _ => rfl, fun h => h.setParent⟩

/-- **Every function** but those that write to the stop trees. -/
theorem framed : Framed Calm where
  refl := refl
  trans := trans
  updateData := fun _ => updateData _ _ _
  updateLimitData := updateLimitData
  allocLimit := allocLimit
  unlinkNeighbours := unlinkNeighbours
  unlinkEnds := unlinkEnds
  appendOrder := fun h => by
    refine (setParent _ _ _).trans (appendOrder ?_ h)
    rw [Attached.parent_setParent]
    simp
  firstOrder := fun s o l => by
    have hself : ∀ x, some o = some x → ((s.setParent o l).order x).parent ≠ none := fun x hx => by
      rw [← Option.some.inj hx, Attached.parent_setParent]
      simp
    refine (setParent s o l).trans ⟨fun _ => rfl, fun h => ?_⟩
    exact (h.setHead hself).setTail hself
  rest := fun horder _ hlimit hstops _ => of_heaps hstops horder hlimit

end Calm

/-! ### Requests -/

/-- What every reachable book satisfies besides refining a ledger: orders that were never put
into a level are not linked, and the last pointers of the stop trees, when those are empty, are
that of the sentinel or dangle. -/
structure Orderly (s : OrderBook) : Prop extends Attached s where
  lastFreed : ∀ b, (s.stopOrders b).LastFreed

theorem orderly_empty (instrument : String) (marketPrice : ℚ) :
    (empty instrument marketPrice).Orderly where
  toAttached := attached_empty instrument marketPrice
  lastFreed := fun b => by cases b <;> exact RBTree.lastFreed_empty

theorem Calm.orderly {s s' : OrderBook} (h : Calm s s') (hs : s.Orderly) : s'.Orderly where
  toAttached := h.attached hs.toAttached
  lastFreed := fun b => h.stopOrders b ▸ hs.lastFreed b

/-- Only the tree of one side has changed. -/
theorem Orderly.setStopOrders {s : OrderBook} (hs : s.Orderly) {b : Bool} {t : RBTree ℕ}
    (ht : t.LastFreed) : (s.setStopOrders b t).Orderly := by
  have hother := hs.lastFreed
  cases b with
  | false =>
    refine ⟨hs.toAttached.congr rfl rfl (fun _ hx => hx) (fun _ => rfl) fun _ => rfl, fun c => ?_⟩
    cases c with
    | false => exact ht
    | true => exact hother true
  | true =>
    refine ⟨hs.toAttached.congr rfl rfl (fun _ hx => hx) (fun _ => rfl) fun _ => rfl, fun c => ?_⟩
    cases c with
    | false => exact hother false
    | true => exact ht

end OrderBook

namespace Refines

variable {s s' : OrderBook} {L : Ledger} (h : Refines s L) (hs : s.Orderly) {o : ℕ} {b : Bool}

include h hs

theorem orderly_allocOrder (x : OrderData) : (s.allocOrder x).Orderly := by
  have hne : ∀ y p, s.next y = some p ∨ s.prev y = some p → p ≠ s.nextOrder := fun y p hy => by
    have hlt := h.links_lt y p hy
    rw [h.nextOrder]
    exact hlt.ne
  have hparent : ∀ y, y ≠ s.nextOrder → ((s.allocOrder x).order y).parent = (s.order y).parent :=
    fun y hy => by rw [OrderBook.allocOrder_order, Function.update_of_ne hy]
  -- a new order has no links itself
  have hself : ∀ y p, (s.allocOrder x).next y = some p ∨ (s.allocOrder x).prev y = some p →
      y ≠ s.nextOrder := by
    rintro y p hy rfl
    simp [OrderBook.next, OrderBook.prev, Order.ofData] at hy
  have hend : ∀ l p, (s.limit l).head = some p ∨ (s.limit l).tail = some p → p ≠ s.nextOrder := by
    intro l p hp
    rw [h.head, h.tail] at hp
    rw [h.nextOrder]
    refine (h.wf.queue_lt l p ?_).ne
    exact hp.elim List.mem_of_mem_head? List.mem_of_getLast?
  refine ⟨⟨fun y p hy => ?_, fun y p hy => ?_, fun l p hp => ?_, fun l p hp => ?_⟩, hs.lastFreed⟩
  · have hold : s.next y = some p := by
      simpa [OrderBook.next, hself y p (Or.inl hy)] using hy
    rw [hparent y (hself y p (Or.inl hy)), hparent p (hne y p (Or.inl hold))]
    exact hs.next y p hold
  · have hold : s.prev y = some p := by
      simpa [OrderBook.prev, hself y p (Or.inr hy)] using hy
    rw [hparent y (hself y p (Or.inr hy)), hparent p (hne y p (Or.inr hold))]
    exact hs.prev y p hold
  · rw [hparent p (hend l p (Or.inl hp))]
    exact hs.head l p hp
  · rw [hparent p (hend l p (Or.inr hp))]
    exact hs.tail l p hp

theorem orderly_addStopOrder (hrun : s.addStopOrder o b = .ok s') : s'.Orderly := by
  obtain ⟨t, ht, hrun⟩ := bind_eq_ok.mp hrun
  rw [h.stopLess] at ht
  obtain ⟨t', ht', hk⟩ := (h.stops b).insert (L.stopLess_strictWeak b) (h.wf.stops_sorted b) o
  obtain rfl : t' = t := Except.ok.inj (ht'.symm.trans ht)
  have hmem : o ∈ insertKey (L.stopLess b) o (L.stops b) :=
    (mem_insertKey (L.stopLess_strictWeak b) (h.wf.stops_sorted b)).mpr (Or.inl rfl)
  rw [← Except.ok.inj hrun]
  exact hs.setStopOrders (hk.lastFreed (List.ne_nil_of_mem hmem))

theorem orderly_removeStopOrder (hrun : s.removeStopOrder o = .ok s') : s'.Orderly := by
  obtain ⟨⟨t, found⟩, ht, hrun⟩ := bind_eq_ok.mp hrun
  rw [h.stopLess] at ht
  have hfreed := (hs.lastFreed _).remove (L.stopLess_strictWeak _) (h.stops _)
    (h.wf.stops_sorted _) ht
  rw [← Except.ok.inj hrun]
  exact (OrderBook.Calm.framed.eraseEntry _ o).orderly (hs.setStopOrders hfreed)

theorem orderly_addOrder {now : ℤ} {status : OrderStatus}
    (hrun : s.addOrder now o = .ok (s', status)) : s'.Orderly := by
  have henqueue : OrderBook.Calm s (s.enqueueOrder o) := .enqueueOrder s o
  rw [OrderBook.addOrder] at hrun
  split at hrun
  · obtain ⟨s₁, h₁, hrun⟩ := bind_eq_ok.mp hrun
    obtain ⟨s₂, h₂, hrun⟩ := bind_eq_ok.mp hrun
    obtain ⟨rfl, -⟩ := Prod.mk.inj (Except.ok.inj hrun)
    exact (OrderBook.Calm.framed.addDateOrder h₂).orderly
      ((h.enqueueOrder (o := o)).orderly_addStopOrder (henqueue.orderly hs) h₁)
  · obtain ⟨⟨s₁, filled⟩, h₁, hrun⟩ := bind_eq_ok.mp hrun
    exact (((henqueue.trans (.updateData _ o _)).trans (OrderBook.Calm.framed.matchOrder h₁)).trans
      (OrderBook.Calm.framed.settle hrun)).orderly hs

theorem orderly_removeOrder (hrun : s.removeOrder o = .ok s') : s'.Orderly := by
  rw [OrderBook.removeOrder] at hrun
  split at hrun
  · exact h.orderly_removeStopOrder hs hrun
  · exact (OrderBook.Calm.framed.removeLimitOrder hrun).orderly hs

theorem orderly_replaceOrder {e : ℕ} (hrun : s.replaceOrder e o = .ok s') : s'.Orderly := by
  rw [OrderBook.replaceOrder] at hrun
  split at hrun
  · obtain ⟨s₁, h₁, hrun⟩ := bind_eq_ok.mp hrun
    obtain ⟨s₂, hs₂, h₂, -, -⟩ := h.removeStopOrder (o := o)
    obtain rfl : s₂ = s₁ := Except.ok.inj (hs₂.symm.trans h₁)
    exact h₂.orderly_addStopOrder (h.orderly_removeStopOrder hs h₁) hrun
  · obtain ⟨s₁, h₁, hrun⟩ := bind_eq_ok.mp hrun
    obtain ⟨limit, -, hrun⟩ := bind_eq_ok.mp hrun
    exact ((OrderBook.Calm.framed.removeLimitOrder h₁).trans
      (OrderBook.Calm.framed.addLimitOrder hrun)).orderly hs

theorem orderly_modifyOrder {status : OrderStatus} (hrun : s.modifyOrder o = .ok (s', status)) :
    s'.Orderly := by
  rw [OrderBook.modifyOrder] at hrun
  split at hrun
  · obtain ⟨rfl, -⟩ := Prod.mk.inj (Except.ok.inj hrun)
    exact hs
  · next e _ =>
    split at hrun
    · obtain ⟨s₁, h₁, hrun⟩ := bind_eq_ok.mp hrun
      obtain ⟨rfl, -⟩ := Prod.mk.inj (Except.ok.inj hrun)
      have h₂ := (h.updateData (o := e) .cancel).orderly_replaceOrder
        ((OrderBook.Calm.updateData s e _).orderly hs) h₁
      exact (OrderBook.Calm.enqueueOrder s₁ o).orderly h₂
    · obtain ⟨rfl, -⟩ := Prod.mk.inj (Except.ok.inj hrun)
      exact hs

theorem orderly_cancelOrder {id : String} {status : OrderStatus}
    (hrun : s.cancelOrder id = .ok (s', status)) : s'.Orderly := by
  rw [OrderBook.cancelOrder] at hrun
  split at hrun
  · obtain ⟨rfl, -⟩ := Prod.mk.inj (Except.ok.inj hrun)
    exact hs
  · next e _ =>
    obtain ⟨s₁, h₁, hrun⟩ := bind_eq_ok.mp hrun
    obtain ⟨rfl, -⟩ := Prod.mk.inj (Except.ok.inj hrun)
    have h₂ := (h.updateData (o := e) .cancel).orderly_removeOrder
      ((OrderBook.Calm.updateData s e _).orderly hs) h₁
    exact (OrderBook.Calm.enqueueOrder s₁ e).orderly h₂

theorem orderly_cancelDue {now : ℤ} {dates removed : List ℕ}
    (hrun : OrderBook.cancelDue now s dates = .ok (s', removed)) : s'.Orderly := by
  induction dates generalizing s L removed with
  | nil =>
    obtain ⟨rfl, -⟩ := Prod.mk.inj (Except.ok.inj hrun)
    exact hs
  | cons o dates ih =>
    rw [OrderBook.cancelDue] at hrun
    split at hrun
    · obtain ⟨⟨s₁, status⟩, h₁, hrun⟩ := bind_eq_ok.mp hrun
      obtain ⟨⟨s₂, rest⟩, h₂, hrun⟩ := bind_eq_ok.mp hrun
      obtain ⟨rfl, -⟩ := Prod.mk.inj (Except.ok.inj hrun)
      obtain ⟨s₃, hs₃, h₃⟩ := h.cancelOrder (s.order o).id
      obtain rfl : s₃ = s₁ := (Prod.mk.inj (Except.ok.inj (hs₃.symm.trans h₁))).1
      exact ih h₃ (h.orderly_cancelOrder hs h₁) h₂
    · obtain ⟨rfl, -⟩ := Prod.mk.inj (Except.ok.inj hrun)
      exact hs

theorem orderly_recoverOrder (hrun : s.recoverOrder o = .ok s') : s'.Orderly := by
  rw [OrderBook.recoverOrder] at hrun
  split at hrun
  · exact h.orderly_addStopOrder hs hrun
  · exact ((OrderBook.Calm.allocLimit s _).trans
      (OrderBook.Calm.framed.addLimitOrder hrun)).orderly hs

/-- **The constructor** over any repository. -/
theorem orderly_recover {repository : List OrderData}
    (hrun : OrderBook.recover s repository = .ok s') : s'.Orderly := by
  induction repository generalizing s L with
  | nil => exact Except.ok.inj hrun ▸ hs
  | cons x repository ih =>
    obtain ⟨s₁, h₁, hrun⟩ := bind_eq_ok.mp hrun
    obtain ⟨s₂, hs₂, h₂⟩ := (h.allocOrder x).recoverOrder (h.outside_new x)
    rw [← h.nextOrder] at hs₂ h₂
    obtain rfl : s₂ = s₁ := Except.ok.inj (hs₂.symm.trans h₁)
    exact ih h₂ ((h.allocOrder x).orderly_recoverOrder (h.orderly_allocOrder hs x) h₁) hrun

/-- **Every request** leaves an orderly book. -/
theorem orderly_step {r : Request} {answer : Option OrderStatus}
    (hrun : s.step r = .ok (s', answer)) : s'.Orderly := by
  cases r with
  | add now a =>
    obtain ⟨⟨s₁, status⟩, h₁, hrun⟩ := bind_eq_ok.mp hrun
    obtain ⟨rfl, -⟩ := Prod.mk.inj (Except.ok.inj hrun)
    exact (h.allocOrder a.toData).orderly_addOrder (h.orderly_allocOrder hs a.toData) h₁
  | modify a =>
    obtain ⟨⟨s₁, status⟩, h₁, hrun⟩ := bind_eq_ok.mp hrun
    obtain ⟨rfl, -⟩ := Prod.mk.inj (Except.ok.inj hrun)
    exact (h.allocOrder a.toData).orderly_modifyOrder (h.orderly_allocOrder hs a.toData) h₁
  | cancel id =>
    obtain ⟨⟨s₁, status⟩, h₁, hrun⟩ := bind_eq_ok.mp hrun
    obtain ⟨rfl, -⟩ := Prod.mk.inj (Except.ok.inj hrun)
    exact h.orderly_cancelOrder hs h₁
  | checkDate now =>
    obtain ⟨s₁, h₁, hrun⟩ := bind_eq_ok.mp hrun
    obtain ⟨rfl, -⟩ := Prod.mk.inj (Except.ok.inj hrun)
    obtain ⟨dates, -, h₁⟩ := bind_eq_ok.mp h₁
    obtain ⟨⟨s₂, removed⟩, h₂, h₁⟩ := bind_eq_ok.mp h₁
    exact (OrderBook.Calm.framed.removeDates h₁).orderly (h.orderly_cancelDue hs h₂)

end Refines

end LimitOrderBook
