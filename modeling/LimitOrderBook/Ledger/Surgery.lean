import LimitOrderBook.Ledger.Refines

/-!
# Pointer surgery on the queues

`add_limit_order` links an order behind the last one of a level, or makes it the
only one of a new level; `remove_limit_order` links the neighbours of an order to
each other and moves the ends of the queue. Both only write links and level
records (`LimitOrderBook.OrderBook.SameButLinks`), and what they do to the links is
what `LimitOrderBook.Linked.concat` and `LimitOrderBook.Linked.remove` ask for.
-/

namespace LimitOrderBook

namespace OrderBook

/-- The two books differ at most in the links between orders and the ends of the
queues. -/
structure SameButLinks (s s' : OrderBook) : Prop where
  instrument : s'.instrument = s.instrument
  marketPrice : s'.marketPrice = s.marketPrice
  order : ∀ o, (s'.order o).toOrderData = (s.order o).toOrderData
  parent : ∀ o, (s'.order o).parent = (s.order o).parent
  nextOrder : s'.nextOrder = s.nextOrder
  limit : ∀ l, (s'.limit l).toLimitData = (s.limit l).toLimitData
  nextLimit : s'.nextLimit = s.nextLimit
  limits : ∀ b, s'.limits b = s.limits b
  stopOrders : ∀ b, s'.stopOrders b = s.stopOrders b
  dateOrders : s'.dateOrders = s.dateOrders
  orders : s'.orders = s.orders
  orderQueue : s'.orderQueue = s.orderQueue
  tradeQueue : s'.tradeQueue = s.tradeQueue
  executions : s'.executions = s.executions

namespace SameButLinks

variable {s s' s'' : OrderBook} {o l : ℕ} {p : Option ℕ}

theorem refl (s : OrderBook) : SameButLinks s s where
  instrument := rfl
  marketPrice := rfl
  order := fun _ => rfl
  parent := fun _ => rfl
  nextOrder := rfl
  limit := fun _ => rfl
  nextLimit := rfl
  limits := fun _ => rfl
  stopOrders := fun _ => rfl
  dateOrders := rfl
  orders := rfl
  orderQueue := rfl
  tradeQueue := rfl
  executions := rfl

theorem trans (h : SameButLinks s s') (h' : SameButLinks s' s'') : SameButLinks s s'' where
  instrument := h'.instrument.trans h.instrument
  marketPrice := h'.marketPrice.trans h.marketPrice
  order := fun o => (h'.order o).trans (h.order o)
  parent := fun o => (h'.parent o).trans (h.parent o)
  nextOrder := h'.nextOrder.trans h.nextOrder
  limit := fun l => (h'.limit l).trans (h.limit l)
  nextLimit := h'.nextLimit.trans h.nextLimit
  limits := fun b => (h'.limits b).trans (h.limits b)
  stopOrders := fun b => (h'.stopOrders b).trans (h.stopOrders b)
  dateOrders := h'.dateOrders.trans h.dateOrders
  orders := h'.orders.trans h.orders
  orderQueue := h'.orderQueue.trans h.orderQueue
  tradeQueue := h'.tradeQueue.trans h.tradeQueue
  executions := h'.executions.trans h.executions

/-- Writing a link of an order. -/
theorem updateOrder {f : Order → Order} (hf : ∀ x, (f x).toOrderData = x.toOrderData)
    (hp : ∀ x, (f x).parent = x.parent) : SameButLinks s (s.updateOrder o f) :=
  { refl s with
    order := fun x => by
      by_cases hx : x = o
      · subst hx
        simp [hf]
      · simp [hx]
    parent := fun x => by
      by_cases hx : x = o
      · subst hx
        simp [hp]
      · simp [hx] }

/-- Writing an end of a queue. -/
theorem updateLimit {f : Limit → Limit} (hf : ∀ x, (f x).toLimitData = x.toLimitData) :
    SameButLinks s (s.updateLimit l f) :=
  { refl s with
    limit := fun x => by
      by_cases hx : x = l
      · subst hx
        simp [hf]
      · simp [hx] }

theorem setNext : SameButLinks s (s.setNext o p) := updateOrder (fun _ => rfl) fun _ => rfl

theorem setPrev : SameButLinks s (s.setPrev o p) := updateOrder (fun _ => rfl) fun _ => rfl

theorem setHead : SameButLinks s (s.setHead l p) := updateLimit fun _ => rfl

theorem setTail : SameButLinks s (s.setTail l p) := updateLimit fun _ => rfl

theorem eraseEntry (h : SameButLinks s s') : SameButLinks (s.eraseEntry o) (s'.eraseEntry o) :=
  { h with
    orders := by
      rw [eraseEntry_orders, eraseEntry_orders, h.orders]
      exact congrArg (fun x => s.orders.erase (OrderData.id x)) (h.order o) }

end SameButLinks

variable {s : OrderBook} {o l x : ℕ} {p : Option ℕ}

/-! ### The links after a write -/

theorem next_setNext : (s.setNext o p).next x = if x = o then p else s.next x := by
  by_cases hx : x = o
  · subst hx
    simp [OrderBook.next, setNext]
  · simp [OrderBook.next, setNext, hx]

theorem prev_setNext : (s.setNext o p).prev x = s.prev x := by
  by_cases hx : x = o
  · subst hx
    simp [OrderBook.prev, setNext]
  · simp [OrderBook.prev, setNext, hx]

theorem next_setPrev : (s.setPrev o p).next x = s.next x := by
  by_cases hx : x = o
  · subst hx
    simp [OrderBook.next, setPrev]
  · simp [OrderBook.next, setPrev, hx]

theorem prev_setPrev : (s.setPrev o p).prev x = if x = o then p else s.prev x := by
  by_cases hx : x = o
  · subst hx
    simp [OrderBook.prev, setPrev]
  · simp [OrderBook.prev, setPrev, hx]

theorem head_setHead : ((s.setHead l p).limit x).head = if x = l then p else (s.limit x).head := by
  by_cases hx : x = l
  · subst hx
    simp [setHead]
  · simp [setHead, hx]

theorem tail_setHead : ((s.setHead l p).limit x).tail = (s.limit x).tail := by
  by_cases hx : x = l
  · subst hx
    simp [setHead]
  · simp [setHead, hx]

theorem head_setTail : ((s.setTail l p).limit x).head = (s.limit x).head := by
  by_cases hx : x = l
  · subst hx
    simp [setTail]
  · simp [setTail, hx]

theorem tail_setTail : ((s.setTail l p).limit x).tail = if x = l then p else (s.limit x).tail := by
  by_cases hx : x = l
  · subst hx
    simp [setTail]
  · simp [setTail, hx]

/-- **The neighbours of an order are linked to each other.** -/
theorem unlinkNeighbours_spec (s : OrderBook) (o : ℕ) :
    SameButLinks s (s.unlinkNeighbours o) ∧
      (∀ x, (s.unlinkNeighbours o).next x = if s.prev o = some x then s.next o else s.next x) ∧
      (∀ x, (s.unlinkNeighbours o).prev x = if s.next o = some x then s.prev o else s.prev x) ∧
      (∀ l, (s.unlinkNeighbours o).limit l = s.limit l) := by
  rcases hn : s.next o with _ | n <;> rcases hp : s.prev o with _ | p
  · have hrun : s.unlinkNeighbours o = s := by
      rw [OrderBook.next] at hn
      rw [OrderBook.prev] at hp
      simp [unlinkNeighbours, hn, hp]
    rw [hrun]
    exact ⟨.refl s, by simp, by simp, fun _ => rfl⟩
  · have hrun : s.unlinkNeighbours o = s.setNext p none := by
      rw [OrderBook.next] at hn
      rw [OrderBook.prev] at hp
      simp [unlinkNeighbours, hn, hp]
    rw [hrun]
    refine ⟨.setNext, fun x => ?_, fun x => ?_, fun _ => rfl⟩
    · simp [next_setNext, @eq_comm _ x]
    · simp [prev_setNext]
  · have hrun : s.unlinkNeighbours o = s.setPrev n none := by
      rw [OrderBook.next] at hn
      rw [OrderBook.prev] at hp
      simp [unlinkNeighbours, hn, hp]
    rw [hrun]
    refine ⟨.setPrev, fun x => ?_, fun x => ?_, fun _ => rfl⟩
    · simp [next_setPrev]
    · simp [prev_setPrev, @eq_comm _ x]
  · have hrun : s.unlinkNeighbours o = (s.setPrev n (some p)).setNext p (some n) := by
      rw [OrderBook.next] at hn
      rw [OrderBook.prev] at hp
      simp [unlinkNeighbours, hn, hp]
    rw [hrun]
    refine ⟨SameButLinks.setPrev.trans .setNext, fun x => ?_, fun x => ?_, fun _ => rfl⟩
    · simp [next_setNext, next_setPrev, @eq_comm _ x]
    · simp [prev_setNext, prev_setPrev, @eq_comm _ x]

/-- **The ends of the queue move over an order** that is one of its members. -/
theorem unlinkEnds_spec {xs ys : List ℕ} (hnd : (xs ++ o :: ys).Nodup)
    (hhead : (s.limit l).head = (xs ++ o :: ys).head?)
    (htail : (s.limit l).tail = (xs ++ o :: ys).getLast?) (hnext : s.next o = ys.head?)
    (hprev : s.prev o = xs.getLast?) :
    SameButLinks s (s.unlinkEnds o l) ∧ (s.unlinkEnds o l).order = s.order ∧
      ((s.unlinkEnds o l).limit l).head = (xs ++ ys).head? ∧
      ((s.unlinkEnds o l).limit l).tail = (xs ++ ys).getLast? ∧
      (∀ x, x ≠ l → (s.unlinkEnds o l).limit x = s.limit x) := by
  obtain ⟨-, hyn, hdis⟩ := List.nodup_append.mp hnd
  have hheado : (s.limit l).head = some o ↔ xs = [] := by
    rw [hhead]
    cases xs with
    | nil => simp
    | cons x xs => simpa using hdis x (by simp) o (by simp)
  have htailo : (s.limit l).tail = some o ↔ ys = [] := by
    rw [htail, List.getLast?_append_of_ne_nil _ (by simp)]
    rcases List.eq_nil_or_concat ys with rfl | ⟨zs, z, rfl⟩
    · simp
    · rw [List.concat_eq_append, ← List.cons_append, List.getLast?_concat]
      simp only [Option.some.injEq, List.append_eq_nil_iff, List.cons_ne_nil, and_false, iff_false]
      rintro rfl
      exact (List.nodup_cons.mp hyn).1 (by simp)
  rw [OrderBook.next] at hnext
  rw [OrderBook.prev] at hprev
  by_cases hx : xs = [] <;> by_cases hy : ys = []
  · have hrun : s.unlinkEnds o l = (s.setHead l none).setTail l none := by
      simp [unlinkEnds, hheado, htailo, hx, hy]
    rw [hrun]
    refine ⟨SameButLinks.setHead.trans .setTail, rfl, ?_, ?_, fun x hne => ?_⟩
    · simp [head_setTail, head_setHead, hx, hy]
    · simp [tail_setTail, hx, hy]
    · simp [setTail, setHead, hne]
  · have hrun : s.unlinkEnds o l = s.setHead l ys.head? := by
      simp [unlinkEnds, hheado, htailo, hx, hy, hnext]
    rw [hrun]
    refine ⟨.setHead, rfl, ?_, ?_, fun x hne => ?_⟩
    · simp [head_setHead, hx]
    · rw [tail_setHead, htail, hx, List.nil_append, List.nil_append,
        List.getLast?_cons_of_ne_nil hy]
    · simp [setHead, hne]
  · have hrun : s.unlinkEnds o l = s.setTail l xs.getLast? := by
      simp [unlinkEnds, hheado, htailo, hx, hy, hprev]
    rw [hrun]
    refine ⟨.setTail, rfl, ?_, ?_, fun x hne => ?_⟩
    · rw [head_setTail, hhead, List.head?_append_of_ne_nil _ hx, List.head?_append_of_ne_nil _ hx]
    · simp [tail_setTail, hy]
    · simp [setTail, hne]
  · have hrun : s.unlinkEnds o l = s := by simp [unlinkEnds, hheado, htailo, hx, hy]
    rw [hrun]
    refine ⟨.refl s, rfl, ?_, ?_, fun x _ => rfl⟩
    · rw [hhead, List.head?_append_of_ne_nil _ hx, List.head?_append_of_ne_nil _ hx]
    · rw [htail, List.getLast?_append_of_ne_nil _ (by simp), List.getLast?_append_of_ne_nil _ hy,
        List.getLast?_cons_of_ne_nil hy]

end OrderBook

/-! ### Removing an order -/

/-- An order that nothing leads to stays so when another order is removed. -/
theorem Outside.of_remove {s s' : OrderBook} {L L' : Ledger} {o x : ℕ} (hout : Outside s L x)
    (hlt : L.nextOrder ≤ L'.nextOrder) (hq : ∀ l, x ∉ L'.queue l)
    (hentry : ∀ id y, L'.orders.lookup id = some y → L.orders.lookup id = some y)
    (hnext : ∀ y, s'.next y = if s.prev o = some y then s.next o else s.next y)
    (hprev : ∀ y, s'.prev y = if s.next o = some y then s.prev o else s.prev y) :
    Outside s' L' x := by
  refine ⟨lt_of_lt_of_le hout.lt hlt, hq, fun id he => hout.entry id (hentry id x he), ?_, ?_,
    fun y => ⟨fun hy => ?_, fun hy => ?_⟩⟩
  · rw [hnext, if_neg (hout.links o).2, hout.next]
  · rw [hprev, if_neg (hout.links o).1, hout.prev]
  · rw [hnext] at hy
    split at hy
    · exact (hout.links o).1 hy
    · exact (hout.links y).1 hy
  · rw [hprev] at hy
    split at hy
    · exact (hout.links o).2 hy
    · exact (hout.links y).2 hy

namespace Refines

variable {s : OrderBook} {L : Ledger} (h : Refines s L) {o l : ℕ} {b : Bool}

include h

/-- The relation after link surgery that changes the queues to `q`. -/
theorem relink {s' : OrderBook} {q : ℕ → List ℕ} (hs : OrderBook.SameButLinks s s')
    (hwf : (L.setQueues q).WellFormed) (hhead : ∀ l, (s'.limit l).head = (q l).head?)
    (htail : ∀ l, (s'.limit l).tail = (q l).getLast?)
    (hlinked : ∀ l, Linked s'.next s'.prev (q l))
    (hloose : ∀ id o, L.orders.lookup id = some o → (∀ l, o ∉ q l) →
      ∀ p, (s'.next o = some p ∨ s'.prev o = some p) → ∀ l, p ∉ q l)
    (hlt : ∀ o p, s'.next o = some p ∨ s'.prev o = some p → p < L.nextOrder) :
    Refines s' (L.setQueues q) where
  wf := hwf
  instrument := hs.instrument.trans h.instrument
  marketPrice := hs.marketPrice.trans h.marketPrice
  order := fun o => (hs.order o).trans (h.order o)
  parent := fun o => (hs.parent o).trans (h.parent o)
  nextOrder := hs.nextOrder.trans h.nextOrder
  limit := fun l => (hs.limit l).trans (h.limit l)
  nextLimit := hs.nextLimit.trans h.nextLimit
  levels := fun b => by
    rw [hs.limits]
    exact h.levels b
  lastLevel := fun b => by
    rw [hs.limits]
    exact h.lastLevel b
  stops := fun b => by
    rw [hs.stopOrders]
    exact h.stops b
  dates := by
    rw [hs.dateOrders]
    exact h.dates
  orders := hs.orders.trans h.orders
  orderQueue := hs.orderQueue.trans h.orderQueue
  tradeQueue := hs.tradeQueue.trans h.tradeQueue
  executions := hs.executions.trans h.executions
  head := hhead
  tail := htail
  linked := hlinked
  loose := hloose
  links_lt := hlt

theorem updateLimitData {f : LimitData → LimitData} (hf : ∀ x, (f x).price = x.price) :
    Refines (s.updateLimitData l f) (L.updateLimitData l f) := by
  refine
    { h with
      wf := h.wf.updateLimitData hf
      limit := fun x => ?_
      head := fun x => ?_
      tail := fun x => ?_ }
  all_goals
    by_cases hx : x = l
    · subst hx
      simp [OrderBook.updateLimitData, h.limit, h.head, h.tail]
    · simp [OrderBook.updateLimitData, hx, h.limit, h.head, h.tail]

theorem eraseEntry : Refines (s.eraseEntry o) (L.eraseEntry o) :=
  { h with
    wf := h.wf.eraseEntry
    orders := by
      rw [OrderBook.eraseEntry_orders, h.orders]
      exact congrArg (fun x => L.orders.erase (OrderData.id x)) (h.order o)
    loose := fun id x hx => h.loose id x (Ledger.lookup_of_erase hx) }

/-- The order whose entry was erased has no entry. -/
theorem entry_ne_of_erase {id : String} {x : ℕ} (hx : (L.eraseEntry o).orders.lookup id = some x) :
    x ≠ o := by
  rintro rfl
  rw [Ledger.eraseEntry_orders, h.wf.entry_id id x (Ledger.lookup_of_erase hx),
    AList.lookup_erase] at hx
  exact absurd hx (by simp)

/-- The part of `remove_limit_order` that moves the ends, for a member of the
queue; `s₁` and `L₁` have the new level record and index, `s₂` the new links. -/
theorem removeLimitOrder_member {s₁ s₂ : OrderBook} {L₁ : Ledger}
    (h₁ : Refines (s₁.eraseEntry o) L₁) (hqueue₁ : L₁.queue = L.queue)
    (hentry₁ : ∀ id x, L₁.orders.lookup id = some x → L.orders.lookup id = some x ∧ x ≠ o)
    (hmem : o ∈ L.queue l)
    (hnext₂ : ∀ x, s₂.next x = if s.prev o = some x then s.next o else s.next x)
    (hprev₂ : ∀ x, s₂.prev x = if s.next o = some x then s.prev o else s.prev x)
    (hlimit₂ : ∀ x, s₂.limit x = s₁.limit x)
    (hlt₂ : ∀ x p, s₂.next x = some p ∨ s₂.prev x = some p → p < L₁.nextOrder)
    (herase₁ : ∀ {s₃}, OrderBook.SameButLinks s₂ s₃ →
      OrderBook.SameButLinks (s₁.eraseEntry o) (s₃.eraseEntry o)) :
    ∃ s₃, s₂.unlinkEnds o l = s₃ ∧
      Refines (s₃.eraseEntry o) (L₁.setQueues (Function.update L₁.queue l ((L₁.queue l).erase o))) ∧
      s₃.next = s₂.next ∧ s₃.prev = s₂.prev := by
  obtain ⟨xs, ys, hq⟩ := List.append_of_mem hmem
  have hnd := h.wf.queue_nodup l
  have hnl := (h.linked l).next_eq hq
  have hpl := (h.linked l).prev_eq hq
  have hlink := h.linked l
  have hhead : (s₁.limit l).head = (L.queue l).head? := hqueue₁ ▸ h₁.head l
  have htail : (s₁.limit l).tail = (L.queue l).getLast? := hqueue₁ ▸ h₁.tail l
  rw [hq] at hnd hlink hhead htail
  obtain ⟨-, hyn, hdis⟩ := List.nodup_append.mp hnd
  have hox : o ∉ xs := fun ho => hdis o ho o (by simp) rfl
  have hoy : o ∉ ys := (List.nodup_cons.mp hyn).1
  have herase : (L₁.queue l).erase o = xs ++ ys := by
    rw [hqueue₁, hq, List.erase_append_right _ hox, List.erase_cons_head]
  have hnbr : ∀ x, s.prev o = some x ∨ s.next o = some x → x ∈ xs ++ ys := by
    rintro x (hx | hx)
    · rw [hpl] at hx
      exact List.mem_append_left _ (List.mem_of_getLast? hx)
    · rw [hnl] at hx
      exact List.mem_append_right _ (List.mem_of_mem_head? hx)
  have hinl : ∀ x ∈ xs ++ ys, x ∈ L.queue l := fun x hx => by
    rw [hq]
    rcases List.mem_append.mp hx with hx | hx
    · exact List.mem_append_left _ hx
    · exact List.mem_append_right _ (List.mem_cons_of_mem _ hx)
  have hnext₂o : s₂.next o = ys.head? := by
    rw [hnext₂, if_neg, hnl]
    exact fun he => (List.mem_append.mp (hnbr o (Or.inl he))).elim hox hoy
  have hprev₂o : s₂.prev o = xs.getLast? := by
    rw [hprev₂, if_neg, hpl]
    exact fun he => (List.mem_append.mp (hnbr o (Or.inr he))).elim hox hoy
  rw [← hlimit₂] at hhead htail
  obtain ⟨hsame₃, horder₃, hhead₃, htail₃, hlimit₃⟩ :=
    OrderBook.unlinkEnds_spec hnd hhead htail hnext₂o hprev₂o
  generalize s₂.unlinkEnds o l = s₃ at hsame₃ horder₃ hhead₃ htail₃ hlimit₃
  have hn₃ : s₃.next = s₂.next := by
    funext x
    rw [OrderBook.next, horder₃, OrderBook.next]
  have hp₃ : s₃.prev = s₂.prev := by
    funext x
    rw [OrderBook.prev, horder₃, OrderBook.prev]
  have hne : ∀ x, s.prev o = some x ∨ s.next o = some x → ∀ z, x ∈ L.queue z → z = l :=
    fun x he z hz => h.wf.queue_unique (hinl x (hnbr x he)) hz
  refine ⟨s₃, rfl, ?_, hn₃, hp₃⟩
  refine h₁.relink (herase₁ hsame₃) h₁.wf.eraseQueue (fun x => ?_) (fun x => ?_) (fun x => ?_)
    (fun id x hx hxfree p hxp y hy => ?_) fun x p hxp => ?_
  · by_cases hx : x = l
    · subst hx
      rw [Function.update_self, herase]
      exact hhead₃
    · rw [Function.update_of_ne hx, ← h₁.head x]
      exact congrArg Limit.head ((hlimit₃ x hx).trans (hlimit₂ x))
  · by_cases hx : x = l
    · subst hx
      rw [Function.update_self, herase]
      exact htail₃
    · rw [Function.update_of_ne hx, ← h₁.tail x]
      exact congrArg Limit.tail ((hlimit₃ x hx).trans (hlimit₂ x))
  · change Linked s₃.next s₃.prev _
    rw [hn₃, hp₃]
    by_cases hx : x = l
    · subst hx
      rw [Function.update_self, herase]
      refine hlink.remove hnd (fun c hc => ?_) (fun c hc => ?_) (fun c _ hc => ?_) fun c _ hc => ?_
      · rw [hnext₂, if_pos (hpl.trans hc), hnl]
      · rw [hprev₂, if_pos (hnl.trans hc), hpl]
      · rw [hnext₂, if_neg (by rw [hpl]; exact hc)]
      · rw [hprev₂, if_neg (by rw [hnl]; exact hc)]
    · rw [Function.update_of_ne hx, hqueue₁]
      -- the neighbours are in another queue
      refine (h.linked x).congr (fun y hy => ?_) fun y hy => ?_
      · rw [hnext₂, if_neg fun he => hx (hne y (Or.inl he) x hy)]
      · rw [hprev₂, if_neg fun he => hx (hne y (Or.inr he) x hy)]
  · -- an order of the index in no queue is not a neighbour
    obtain ⟨hxL, hxo⟩ := hentry₁ id x hx
    have hxfree' : ∀ z, x ∉ L.queue z := by
      intro z hz
      refine hxfree z ?_
      rw [hqueue₁]
      by_cases hzl : z = l
      · subst hzl
        rw [Function.update_self]
        exact (List.mem_erase_of_ne hxo).mpr hz
      · rw [Function.update_of_ne hzl]
        exact hz
    have hno : ¬(s.prev o = some x ∨ s.next o = some x) := fun he =>
      hxfree' l (hinl x (hnbr x he))
    have hxp' : s.next x = some p ∨ s.prev x = some p := by
      rwa [show (s₃.eraseEntry o).next x = s₃.next x from rfl,
        show (s₃.eraseEntry o).prev x = s₃.prev x from rfl, hn₃, hp₃, hnext₂, hprev₂,
        if_neg fun he => hno (Or.inl he), if_neg fun he => hno (Or.inr he)] at hxp
    refine h.loose id x hxL hxfree' p hxp' y ?_
    rw [hqueue₁] at hy
    by_cases hyl : y = l
    · subst hyl
      rw [Function.update_self] at hy
      exact List.mem_of_mem_erase hy
    · rwa [Function.update_of_ne hyl] at hy
  · refine hlt₂ x p ?_
    rw [← hn₃, ← hp₃]
    exact hxp

/-- **`remove_limit_order`** takes an order out of its queue; an order of the index
that is in no queue only loses its entry. -/
theorem removeLimitOrder (hp : L.parent o = some l)
    (hcase : o ∈ L.queue l ∨ (∀ x, o ∉ L.queue x) ∧
      ∀ p, (s.next o = some p ∨ s.prev o = some p) → ∀ x, p ∉ L.queue x) :
    ∃ s', s.removeLimitOrder o = .ok s' ∧ Refines s' (L.removeLimitOrder o) ∧
      (∀ x, s'.next x = if s.prev o = some x then s.next o else s.next x) ∧
      (∀ x, s'.prev x = if s.next o = some x then s.prev o else s.prev x) := by
  have hqty : (s.order o).currentQty = L.qty o := congrArg OrderData.currentQty (h.order o)
  -- the level record and the index
  obtain ⟨L₁, hL₁⟩ : ∃ L₁, L₁ = (L.updateLimitData l fun x =>
    (x.decreaseVolume (L.qty o)).decreaseNumberOfOrders).eraseEntry o := ⟨_, rfl⟩
  obtain ⟨s₁, hs₁⟩ : ∃ s₁, s₁ = s.updateLimitData l fun x =>
    (x.decreaseVolume (L.qty o)).decreaseNumberOfOrders := ⟨_, rfl⟩
  have h₁ : Refines (s₁.eraseEntry o) L₁ := by
    rw [hs₁, hL₁]
    refine Refines.eraseEntry (h.updateLimitData ?_)
    exact fun _ => rfl
  have hqueue₁ : L₁.queue = L.queue := by rw [hL₁]; rfl
  have hledger : L.removeLimitOrder o =
      L₁.setQueues (Function.update L₁.queue l ((L₁.queue l).erase o)) := by
    rw [Ledger.removeLimitOrder, hp, hL₁]
    rfl
  have hentry₁ : ∀ id x, L₁.orders.lookup id = some x → L.orders.lookup id = some x ∧ x ≠ o := by
    intro id x hx
    rw [hL₁] at hx
    exact ⟨Ledger.lookup_of_erase hx, h.entry_ne_of_erase hx⟩
  -- the links of the neighbours, and the ends
  obtain ⟨hsame₂, hnext₂, hprev₂, hlimit₂⟩ := s₁.unlinkNeighbours_spec o
  have hn₁ : s₁.next = s.next := by rw [hs₁]; rfl
  have hp₁ : s₁.prev = s.prev := by rw [hs₁]; rfl
  rw [hn₁, hp₁] at hnext₂ hprev₂
  have hrun : s.removeLimitOrder o =
      .ok (((s₁.unlinkNeighbours o).unlinkEnds o l).eraseEntry o) := by
    rw [OrderBook.removeLimitOrder, h.parent, hp, deref_some, ok_bind, hqty, hs₁]
  generalize s₁.unlinkNeighbours o = s₂ at hsame₂ hnext₂ hprev₂ hlimit₂ hrun
  have hlt₂ : ∀ x p, s₂.next x = some p ∨ s₂.prev x = some p → p < L₁.nextOrder := by
    intro x p hxp
    have hlt : p < L.nextOrder := by
      rcases hxp with hxp | hxp
      · rw [hnext₂] at hxp
        split at hxp
        · exact h.links_lt o p (Or.inl hxp)
        · exact h.links_lt x p (Or.inl hxp)
      · rw [hprev₂] at hxp
        split at hxp
        · exact h.links_lt o p (Or.inr hxp)
        · exact h.links_lt x p (Or.inr hxp)
    rw [hL₁]
    exact hlt
  have herase₁ : ∀ {s₃}, OrderBook.SameButLinks s₂ s₃ →
      OrderBook.SameButLinks (s₁.eraseEntry o) (s₃.eraseEntry o) := fun hsame₃ =>
    (hsame₂.trans hsame₃).eraseEntry
  rw [hrun, hledger]
  suffices ∃ s₃, s₂.unlinkEnds o l = s₃ ∧
      Refines (s₃.eraseEntry o) (L₁.setQueues (Function.update L₁.queue l ((L₁.queue l).erase o))) ∧
      s₃.next = s₂.next ∧ s₃.prev = s₂.prev by
    obtain ⟨s₃, hs₃, hr, hn₃, hp₃⟩ := this
    rw [hs₃]
    refine ⟨_, rfl, hr, fun x => ?_, fun x => ?_⟩
    · rw [← hnext₂, ← hn₃]
      rfl
    · rw [← hprev₂, ← hp₃]
      rfl
  rcases hcase with hmem | ⟨hfree, hnbr⟩
  · exact h.removeLimitOrder_member h₁ hqueue₁ hentry₁ hmem hnext₂ hprev₂ hlimit₂ hlt₂ herase₁
  · -- the order is in no queue, and neither are its neighbours
    have hfree₁ : ∀ x, o ∉ L₁.queue x := by rw [hqueue₁]; exact hfree
    have hq : Function.update L₁.queue l ((L₁.queue l).erase o) = L₁.queue := by
      rw [List.erase_of_not_mem (hfree₁ l), Function.update_eq_self]
    have hends : s₂.unlinkEnds o l = s₂ := by
      have hhead : (s₂.limit l).head ≠ some o := by
        rw [hlimit₂]
        intro he
        exact hfree₁ l (List.mem_of_mem_head? ((h₁.head l).symm.trans he))
      have htail : (s₂.limit l).tail ≠ some o := by
        rw [hlimit₂]
        intro he
        exact hfree₁ l (List.mem_of_getLast? ((h₁.tail l).symm.trans he))
      simp [OrderBook.unlinkEnds, hhead, htail]
    refine ⟨s₂, hends, ?_, rfl, rfl⟩
    rw [hq]
    have hne : ∀ x, ∀ y ∈ L.queue x, ¬(s.prev o = some y ∨ s.next o = some y) := fun x y hy he =>
      hnbr y he.symm x hy
    refine h₁.relink (herase₁ (.refl s₂)) { h₁.wf with } (fun x => ?_) (fun x => ?_) (fun x => ?_)
      (fun id x hx hxfree p hxp y hy => ?_) hlt₂
    · rw [← h₁.head x]
      exact congrArg Limit.head (hlimit₂ x)
    · rw [← h₁.tail x]
      exact congrArg Limit.tail (hlimit₂ x)
    · rw [hqueue₁]
      refine (h.linked x).congr (fun y hy => ?_) fun y hy => ?_
      · exact (hnext₂ y).trans (if_neg fun he => hne x y hy (Or.inl he))
      · exact (hprev₂ y).trans (if_neg fun he => hne x y hy (Or.inr he))
    · rw [hqueue₁] at hxfree hy
      have hcases : (s.next x = some p ∨ s.prev x = some p) ∨ s.next o = some p ∨
          s.prev o = some p := by
        rcases hxp with hxp | hxp
        · rw [show (s₂.eraseEntry o).next x = s₂.next x from rfl, hnext₂] at hxp
          split at hxp
          · exact Or.inr (Or.inl hxp)
          · exact Or.inl (Or.inl hxp)
        · rw [show (s₂.eraseEntry o).prev x = s₂.prev x from rfl, hprev₂] at hxp
          split at hxp
          · exact Or.inr (Or.inr hxp)
          · exact Or.inl (Or.inr hxp)
      rcases hcases with hxp | hop
      · exact h.loose id x (hentry₁ id x hx).1 hxfree p hxp y hy
      · exact hnbr p hop y hy

/-! ### Adding an order -/

theorem setParent (hfree : ∀ x, o ∉ L.queue x) (hl : l < L.nextLimit) :
    Refines (s.setParent o l) (L.setParent o l) ∧ (s.setParent o l).next = s.next ∧
      (s.setParent o l).prev = s.prev := by
  have hn : (s.setParent o l).next = s.next := by
    funext x
    by_cases hx : x = o
    · subst hx
      simp [OrderBook.next, OrderBook.setParent]
    · simp [OrderBook.next, OrderBook.setParent, hx]
  have hp : (s.setParent o l).prev = s.prev := by
    funext x
    by_cases hx : x = o
    · subst hx
      simp [OrderBook.prev, OrderBook.setParent]
    · simp [OrderBook.prev, OrderBook.setParent, hx]
  refine ⟨?_, hn, hp⟩
  refine
    { h with
      wf := h.wf.setParent hfree hl
      order := fun x => ?_
      parent := fun x => ?_
      linked := by
        rw [hn, hp]
        exact h.linked
      loose := by
        rw [hn, hp]
        exact h.loose
      links_lt := by
        rw [hn, hp]
        exact h.links_lt }
  all_goals
    by_cases hx : x = o
    · subst hx
      simp [OrderBook.setParent, h.order]
    · simp [OrderBook.setParent, hx, h.order, h.parent]

/-- **Linking an order behind the last one** of its level. -/
theorem appendOrder (hout : Outside s L o) (hp : L.parent o = some l) :
    ∃ s', s.appendOrder o l = .ok s' ∧
      Refines s' (L.setQueues (Function.update L.queue l (L.queue l ++ [o]))) := by
  have hwf := h.wf.enterQueue hout.lt hp hout.queue (Or.inl rfl)
  have hsub : ∀ x y, y ∈ Function.update L.queue l (L.queue l ++ [o]) x → y = o ∨ y ∈ L.queue x := by
    intro x y hy
    by_cases hx : x = l
    · subst hx
      rw [Function.update_self, List.mem_append, List.mem_singleton] at hy
      exact hy.symm
    · rw [Function.update_of_ne hx] at hy
      exact Or.inr hy
  have hsup : ∀ x y, y ∈ L.queue x → y ∈ Function.update L.queue l (L.queue l ++ [o]) x := by
    intro x y hy
    by_cases hx : x = l
    · subst hx
      rw [Function.update_self]
      exact List.mem_append_left _ hy
    · rwa [Function.update_of_ne hx]
  -- an order in no queue keeps its links, and none of them leads to the new order
  have hloose : ∀ id x, L.orders.lookup id = some x →
      (∀ z, x ∉ Function.update L.queue l (L.queue l ++ [o]) z) →
      ∀ p, (s.next x = some p ∨ s.prev x = some p) →
      ∀ y, p ∉ Function.update L.queue l (L.queue l ++ [o]) y := by
    intro id x hx hfree p hxp y hy
    rcases hsub y p hy with rfl | hy
    · exact hxp.elim (hout.links x).1 (hout.links x).2
    · exact h.loose id x hx (fun z hz => hfree z (hsup z x hz)) p hxp y hy
  rcases List.eq_nil_or_concat (L.queue l) with hq | ⟨xs, t, hq⟩
  · -- the queue was empty
    have hhead : (s.limit l).head = none := by rw [h.head, hq, List.head?_nil]
    refine ⟨(s.setHead l (some o)).setTail l (some o), ?_, ?_⟩
    · rw [OrderBook.appendOrder, hhead]
    · refine h.relink (OrderBook.SameButLinks.setHead.trans .setTail) hwf (fun x => ?_)
        (fun x => ?_) (fun x => ?_) hloose h.links_lt
      · rw [OrderBook.head_setTail, OrderBook.head_setHead, Function.update_apply, h.head]
        split <;> simp [hq]
      · rw [OrderBook.tail_setTail, OrderBook.tail_setHead, Function.update_apply, h.tail]
        split <;> simp
      · change Linked s.next s.prev _
        by_cases hx : x = l
        · subst hx
          rw [Function.update_self, hq]
          exact linked_singleton hout.next hout.prev
        · rw [Function.update_of_ne hx]
          exact h.linked x
  · -- there was a last order
    rw [List.concat_eq_append] at hq
    have htail : (s.limit l).tail = some t := by rw [h.tail, hq, List.getLast?_concat]
    have htl : t ∈ L.queue l := by rw [hq]; simp
    have hto : t ≠ o := fun he => hout.queue l (he ▸ htl)
    obtain ⟨a, hhead⟩ : ∃ a, (s.limit l).head = some a := by
      rw [h.head, hq]
      cases xs with
      | nil => exact ⟨t, rfl⟩
      | cons x xs => exact ⟨x, rfl⟩
    obtain ⟨s', hs'⟩ : ∃ s', s' = ((s.setNext t (some o)).setPrev o (some t)).setTail l (some o) :=
      ⟨_, rfl⟩
    have hn : ∀ x, s'.next x = if x = t then some o else s.next x := fun x => by
      rw [hs']
      exact OrderBook.next_setPrev.trans OrderBook.next_setNext
    have hpv : ∀ x, s'.prev x = if x = o then some t else s.prev x := fun x => by
      rw [hs']
      refine OrderBook.prev_setPrev.trans ?_
      rw [OrderBook.prev_setNext]
    have hsame : OrderBook.SameButLinks s s' := by
      rw [hs']
      exact (OrderBook.SameButLinks.setNext.trans .setPrev).trans .setTail
    refine ⟨s', ?_, h.relink hsame hwf (fun x => ?_) (fun x => ?_) (fun x => ?_)
      (fun id x hx hfree p hxp => ?_) fun x p hxp => ?_⟩
    · rw [OrderBook.appendOrder, hhead, htail, hs']
      rfl
    · have hh : (s'.limit x).head = (s.limit x).head := by
        rw [hs', OrderBook.head_setTail]
        rfl
      rw [hh, h.head]
      by_cases hx : x = l
      · subst hx
        rw [Function.update_self, List.head?_append_of_ne_nil _ (List.ne_nil_of_mem htl)]
      · rw [Function.update_of_ne hx]
    · have ht : (s'.limit x).tail = if x = l then some o else (s.limit x).tail := by
        rw [hs', OrderBook.tail_setTail]
        rfl
      rw [ht, h.tail, Function.update_apply]
      split <;> simp
    · by_cases hx : x = l
      · subst hx
        have hnd := h.wf.queue_nodup x
        have hlink := h.linked x
        rw [Function.update_self]
        rw [hq] at hnd hlink ⊢
        refine hlink.concat hnd ?_ ?_ ?_ (fun c hc => ?_) fun c hc => ?_
        · rw [hn, if_pos rfl]
        · rw [hn, if_neg (Ne.symm hto), hout.next]
        · rw [hpv, if_pos rfl]
        · have hct : c ≠ t := fun he => by
            rw [he] at hc
            exact (List.nodup_append.mp hnd).2.2 t hc t (by simp) rfl
          rw [hn, if_neg hct]
        · have hco : c ≠ o := fun he => hout.queue x (by rw [hq, ← he]; exact hc)
          rw [hpv, if_neg hco]
      · rw [Function.update_of_ne hx]
        refine (h.linked x).congr (fun c hc => ?_) fun c hc => ?_
        · have hct : c ≠ t := fun he => hx (h.wf.queue_unique htl (he ▸ hc))
          rw [hn, if_neg hct]
        · have hco : c ≠ o := fun he => hout.queue x (he ▸ hc)
          rw [hpv, if_neg hco]
    · have hxt : x ≠ t := fun he => hfree l (he ▸ hsup l t htl)
      have hxo : x ≠ o := fun he => hout.entry id (he ▸ hx)
      rw [hn, hpv, if_neg hxt, if_neg hxo] at hxp
      exact hloose id x hx hfree p hxp
    · rw [hn, hpv] at hxp
      rcases hxp with hxp | hxp
      · split at hxp
        · exact Option.some.inj hxp ▸ hout.lt
        · exact h.links_lt x p (Or.inl hxp)
      · split at hxp
        · exact Option.some.inj hxp ▸ h.wf.queue_lt l t htl
        · exact h.links_lt x p (Or.inr hxp)

/-- **An order becomes the only one of a level**; the orders that were in its
queue, if any, are no longer in one. -/
theorem soleOrder (hout : Outside s L o) (hp : L.parent o = some l) :
    Refines ((s.setHead l (some o)).setTail l (some o))
      (L.setQueues (Function.update L.queue l [o])) := by
  have hwf := h.wf.enterQueue hout.lt hp hout.queue (Or.inr rfl)
  refine h.relink (OrderBook.SameButLinks.setHead.trans .setTail) hwf (fun x => ?_)
    (fun x => ?_) (fun x => ?_) (fun id x hx hfree p hxp y hy => ?_) h.links_lt
  · rw [OrderBook.head_setTail, OrderBook.head_setHead, Function.update_apply, h.head]
    split <;> simp
  · rw [OrderBook.tail_setTail, OrderBook.tail_setHead, Function.update_apply, h.tail]
    split <;> simp
  · change Linked s.next s.prev _
    by_cases hx : x = l
    · subst hx
      rw [Function.update_self]
      exact linked_singleton hout.next hout.prev
    · rw [Function.update_of_ne hx]
      exact h.linked x
  · have hxp : s.next x = some p ∨ s.prev x = some p := hxp
    have hpo : p ≠ o := by
      rintro rfl
      exact hxp.elim (hout.links x).1 (hout.links x).2
    by_cases hyl : y = l
    · subst hyl
      rw [Function.update_self] at hy
      exact hpo (by simpa using hy)
    rw [Function.update_of_ne hyl] at hy
    by_cases hxl : x ∈ L.queue l
    · -- a forgotten order: its neighbours were in the same queue
      have hpl : p ∈ L.queue l := hxp.elim ((h.linked l).next_mem hxl) ((h.linked l).prev_mem hxl)
      exact hyl (h.wf.queue_unique hpl hy)
    · refine h.loose id x hx (fun z hz => ?_) p hxp y hy
      by_cases hzl : z = l
      · exact hxl (hzl ▸ hz)
      · exact hfree z (by rwa [Function.update_of_ne hzl])

theorem openLevel {limit : ℕ} (hl : limit < L.nextLimit) :
    ∃ t, (s.limits b).insert (s.limitLess b) limit = .ok t ∧
      Refines (s.setLimits b t) (L.openLevel limit b) ∧ (s.setLimits b t).next = s.next ∧
      (s.setLimits b t).prev = s.prev := by
  obtain ⟨t, ht, hk⟩ := (h.levels b).insert (L.limitLess_strictWeak b) (h.wf.levels_sorted b) limit
  have hfirst : t.first = RBTree.nil → t.last = RBTree.nil := by
    intro hf
    have hmem := (mem_insertKey (w := limit) (L.limitLess_strictWeak b)
      (h.wf.levels_sorted b)).mpr (Or.inl rfl)
    rw [hk.first_eq_nil.mp hf] at hmem
    exact absurd hmem (by simp)
  have hwf : (L.openLevel limit b).WellFormed := h.wf.openLevel hl
  have hother := h.levels !b
  have hother' := h.lastLevel !b
  rw [h.limitLess]
  refine ⟨t, ht, ?_⟩
  cases b with
  | false =>
    refine ⟨{ h with wf := hwf, levels := fun c => ?_, lastLevel := fun c => ?_ }, rfl, rfl⟩
    · cases c with
      | false => exact hk
      | true => exact hother
    · cases c with
      | false => exact hfirst
      | true => exact hother'
  | true =>
    refine ⟨{ h with wf := hwf, levels := fun c => ?_, lastLevel := fun c => ?_ }, rfl, rfl⟩
    · cases c with
      | false => exact hother
      | true => exact hk
    · cases c with
      | false => exact hother'
      | true => exact hfirst

/-- **`add_limit_order`** puts an order into the level with the given price. -/
theorem addLimitOrder {limit : ℕ} (hout : Outside s L o) (hl : limit < L.nextLimit) :
    ∃ s', s.addLimitOrder o limit b = .ok s' ∧ Refines s' (L.addLimitOrder o limit b) := by
  have hfind : (s.limits b).find (s.limitLess b) limit =
      .ok (findKey (L.limitLess b) limit (L.levels b)) := by
    rw [h.limitLess]
    exact (h.levels b).find (L.limitLess_strictWeak b) (h.wf.levels_sorted b) limit
  rcases hf : findKey (L.limitLess b) limit (L.levels b) with _ | l
  · -- a new level
    obtain ⟨t, ht, h₁, hn₁, hp₁⟩ := h.openLevel (b := b) hl
    obtain ⟨h₂, hn₂, hp₂⟩ := h₁.setParent hout.queue hl
    have hout₂ : Outside ((s.setLimits b t).setParent o limit)
        ((L.openLevel limit b).setParent o limit) o := by
      refine ⟨hout.lt, hout.queue, hout.entry, ?_, ?_, ?_⟩
      · rw [hn₂, hn₁]; exact hout.next
      · rw [hp₂, hp₁]; exact hout.prev
      · rw [hn₂, hn₁, hp₂, hp₁]; exact hout.links
    have h₃ := h₂.soleOrder hout₂ (Function.update_self _ _ _)
    have h₄ := h₃.updateLimitData (l := limit) (f := fun x => x.increaseVolume (L.qty o))
      fun _ => rfl
    have hq := congrArg OrderData.currentQty (h₃.order o)
    rw [Ledger.addLimitOrder, hf]
    refine ⟨_, ?_, h₄⟩
    rw [OrderBook.addLimitOrder, hfind, ok_bind]
    simp only [hf, ht, ok_bind]
    rw [hq]
    rfl
  · have hmem : l ∈ L.levels b :=
      ((findKey_eq_some (L.limitLess_strictWeak b) (h.wf.levels_sorted b)).mp hf).1
    obtain ⟨h₁, hn₁, hp₁⟩ := h.setParent hout.queue (h.wf.levels_lt b l hmem)
    have hout₁ : Outside (s.setParent o l) (L.setParent o l) o := by
      refine ⟨hout.lt, hout.queue, hout.entry, ?_, ?_, ?_⟩
      · rw [hn₁]; exact hout.next
      · rw [hp₁]; exact hout.prev
      · rw [hn₁, hp₁]; exact hout.links
    obtain ⟨s', hs', h₂⟩ := h₁.appendOrder hout₁ (Function.update_self _ _ _)
    have h₃ := h₂.updateLimitData (l := l) (f := fun x => x.increaseVolume (L.qty o)) fun _ => rfl
    have hq := congrArg OrderData.currentQty (h₂.order o)
    rw [Ledger.addLimitOrder, hf]
    refine ⟨_, ?_, h₃⟩
    rw [OrderBook.addLimitOrder, hfind, ok_bind]
    simp only [hf, hs', ok_bind]
    rw [hq]
    rfl

end Refines

end LimitOrderBook
