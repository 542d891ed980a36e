import LimitOrderBook.Ledger.Attached
import LimitOrderBook.Ledger.Outgoing

/-!
# Parked orders are outside

A parked order is on the side of its stop tree and was never put into a level
(`LimitOrderBook.Ledger.Shelved`); this holds after every request, those that modify orders
included. In an orderly book nothing leads to such an order
(`LimitOrderBook.Refines.outside_of_parent`), so that it can be passed to `add_order` as if it
were new (`LimitOrderBook.Refines.readd`). What `add_order` then does to the others is said by
the frame lemmas of the first section.
-/

namespace LimitOrderBook

open OrderBook (Request)

namespace Ledger

variable {L L' : Ledger} {o x : ℕ} {b : Bool}

/-! ### What `add_order` leaves alone -/

theorem addLimitOrder_parent (limit : ℕ) (hx : x ≠ o) :
    (L.addLimitOrder o limit b).parent x = L.parent x := by
  rw [addLimitOrder]
  split <;> exact Function.update_of_ne hx _ _

/-- An order that is dropped or comes to rest does not change the stop trees, and is the only
one that is given a level. -/
theorem settle_frame (L : Ledger) (o : ℕ) (filled : Bool) :
    (L.settle o filled).1.stops = L.stops ∧
      ∀ x ≠ o, (L.settle o filled).1.parent x = L.parent x := by
  rw [settle]
  split
  · exact ⟨rfl, fun _ _ => rfl⟩
  · split
    · exact ⟨rfl, fun _ _ => rfl⟩
    · obtain ⟨dates, hdates⟩ := addDateOrder_frame (((L.allocLimit (L.order o).price).addLimitOrder
        o L.nextLimit (L.order o).isBuy).insertEntry o) o
      obtain ⟨-, -, -, -, -, hstops, -, -⟩ := addLimitOrder_frame
        (L.allocLimit (L.order o).price) o L.nextLimit (L.order o).isBuy
      rw [restOrder, hdates]
      exact ⟨hstops, fun x hx => addLimitOrder_parent L.nextLimit hx⟩

/-- **The two ways of `add_order`**: the order is parked, or nothing is and no other order is
given a level. -/
theorem addOrder_cases (L : Ledger) (o : ℕ) :
    ((L.enqueueOrder o).isParked o = true ∧
      (L.addOrder o).1 = (L.enqueueOrder o).parkOrder o) ∨
    ((L.enqueueOrder o).isParked o = false ∧ (L.addOrder o).1.stops = L.stops ∧
      ∀ x ≠ o, (L.addOrder o).1.parent x = L.parent x) := by
  by_cases hp : (L.enqueueOrder o).isParked o = true
  · refine Or.inl ⟨hp, ?_⟩
    simp only [addOrder, if_pos hp]
  · obtain ⟨M, hM⟩ : ∃ M, M = matchLimits o ((L.enqueueOrder o).updateData o .activated)
        (L.levels (!(L.order o).isBuy)) := ⟨_, rfl⟩
    have hframe : MatchFrame ((L.enqueueOrder o).updateData o .activated) M.1 := by
      rw [hM]
      exact .matchLimits _ _
    have hadd : (L.addOrder o).1 = (M.1.settle o M.2).1 := by
      simp only [addOrder, if_neg hp, hM]
      rfl
    obtain ⟨hstops, hparent⟩ := settle_frame M.1 o M.2
    rw [hadd]
    refine Or.inr ⟨by simpa using hp, hstops.trans hframe.stops, fun x hx => ?_⟩
    exact (hparent x hx).trans (congrFun hframe.parent x)

theorem addOrder_parent (L : Ledger) (hx : x ≠ o) : (L.addOrder o).1.parent x = L.parent x := by
  rcases L.addOrder_cases o with ⟨-, heq⟩ | ⟨-, -, hparent⟩
  · obtain ⟨dates, hdates⟩ := (L.enqueueOrder o).parkOrder_eq o
    rw [heq, hdates]
    rfl
  · exact hparent x hx

theorem addOrder_keeps (L : Ledger) (o x : ℕ) : ((L.addOrder o).1.order x).Keeps (L.order x) := by
  simp only [addOrder]
  split
  · exact ((Still.enqueueOrder L o).trans (.parkOrder _ o)).keeps x
  · exact ((Still.settle _ o _).keeps x).trans (((MatchFrame.matchLimits _ _).keeps x).trans
      (keeps_updateData (L.enqueueOrder o) o .activated x))

/-! ### Parked orders -/

/-- **Parked orders** are on the side of their tree, and were never put into a level. -/
def Shelved (L : Ledger) : Prop := ∀ b, ∀ x ∈ L.stops b, (L.order x).isBuy = b ∧ L.parent x = none

namespace Shelved

/-- Orders keep their sides, and those that stay parked have not been given a level. -/
theorem mono (h : L.Shelved) (hkeep : ∀ b, ∀ x ∈ L.stops b, (L'.order x).Keeps (L.order x))
    (hparent : ∀ b, ∀ x ∈ L.stops b, L'.parent x = L.parent x)
    (hstops : ∀ b, L'.stops b ⊆ L.stops b) : L'.Shelved := by
  intro b x hx
  have hx := hstops b hx
  rw [(hkeep b x hx).isBuy, hparent b x hx]
  exact h b x hx

theorem of_still (h : L.Shelved) (hs : Still L L') (hparent : L'.parent = L.parent)
    (hstops : ∀ b, L'.stops b ⊆ L.stops b) : L'.Shelved :=
  h.mono (fun _ x _ => hs.keeps x) (fun _ x _ => congrFun hparent x) hstops

theorem allocOrder (h : L.Shelved) (hwf : L.WellFormed) (y : OrderData) :
    (L.allocOrder y).Shelved := by
  refine h.mono (fun b x hx => ?_) (fun b x hx => ?_) fun b => List.Subset.refl _
  · rw [allocOrder_order_old (hwf.stops_lt b x hx)]
    exact .refl _
  · exact Function.update_of_ne (hwf.stops_lt b x hx).ne _ _

theorem addStopOrder (h : L.Shelved) (hwf : L.WellFormed) (hp : L.parent o = none) :
    (L.addStopOrder o (L.order o).isBuy).Shelved := by
  intro b x hx
  rcases hwf.mem_addStopOrder hx with ⟨rfl, rfl⟩ | hx
  · exact ⟨rfl, hp⟩
  · exact h b x hx

theorem removeStopOrder (h : L.Shelved) (hwf : L.WellFormed) (o : ℕ) :
    (L.removeStopOrder o).Shelved := by
  refine h.of_still (.removeStopOrder L o) rfl fun b x hx => ?_
  rw [removeStopOrder_stops] at hx
  by_cases hb : b = (L.order o).isBuy
  · subst hb
    rw [Function.update_self] at hx
    exact ((mem_eraseKey (L.stopLess_strictWeak _) (hwf.stops_sorted _)).mp hx).1
  · rwa [Function.update_of_ne hb] at hx

/-- An order that is not parked is put into a level. -/
theorem addLimitOrder (h : L.Shelved) (ho : ∀ b, o ∉ L.stops b) (limit : ℕ) :
    (L.addLimitOrder o limit b).Shelved := by
  obtain ⟨-, -, -, -, -, hstops, -, -⟩ := addLimitOrder_frame L o limit b
  refine h.mono (fun _ x _ => (Still.addLimitOrder L o limit b).keeps x) (fun c x hx => ?_)
    fun c => by rw [hstops]; exact List.Subset.refl _
  exact addLimitOrder_parent limit fun he => ho c (he ▸ hx)

theorem addOrder (h : L.Shelved) (hwf : L.WellFormed) (hp : L.parent o = none)
    (ho : ∀ b, o ∉ L.stops b) : (L.addOrder o).1.Shelved := by
  rcases L.addOrder_cases o with ⟨-, heq⟩ | ⟨-, hstops, hparent⟩
  · obtain ⟨dates, hdates⟩ := (L.enqueueOrder o).parkOrder_eq o
    rw [heq, hdates]
    exact h.addStopOrder hwf hp
  · refine h.mono (fun _ x _ => L.addOrder_keeps o x) (fun b x hx => ?_) fun b => ?_
    · exact hparent x fun he => ho b (he ▸ hx)
    · rw [hstops]
      exact List.Subset.refl _

theorem cancelOrder (h : L.Shelved) (hwf : L.WellFormed) (id : String) :
    (L.cancelOrder id).1.Shelved := by
  have hcancel : ∀ e, (L.updateData e .cancel).Shelved := fun e =>
    h.of_still (.cancel L e) rfl fun b => List.Subset.refl _
  rcases hwf.cancelOrder_cases id with ⟨-, he⟩ | ⟨e, -, -, he⟩ | ⟨e, l, -, -, -, he⟩ <;> rw [he]
  · exact h
  · exact ((hcancel e).removeStopOrder (hwf.updateData .cancel) e).of_still
      (.enqueueOrder _ e) rfl fun b => List.Subset.refl _
  · exact hcancel e

theorem replaceOrder (h : L.Shelved) (hwf : L.WellFormed) (hp : L.parent o = none)
    (ho : ∀ b, o ∉ L.stops b) (e : ℕ) : (L.replaceOrder e o).Shelved := by
  rw [Ledger.replaceOrder]
  split
  · exact (h.removeStopOrder hwf o).addStopOrder hwf.removeStopOrder hp
  · split
    · exact h
    · next l hl =>
      have hdisplace : (L.displace e l).Shelved := h
      rw [removeLimitOrder, hl]
      exact hdisplace.addLimitOrder ho l

theorem recoverOrder (h : L.Shelved) (hwf : L.WellFormed) (hp : L.parent o = none)
    (ho : ∀ b, o ∉ L.stops b) : (L.recoverOrder o).Shelved := by
  rw [Ledger.recoverOrder]
  split
  · exact h.addStopOrder hwf hp
  · have halloc : (L.allocLimit (L.order o).price).Shelved := h
    exact halloc.addLimitOrder ho L.nextLimit

/-- **Every request** leaves the parked orders outside. -/
theorem step (h : L.Shelved) (hwf : L.WellFormed) (r : Request) : (L.step r).1.Shelved := by
  have hnew : ∀ a : OrderArgs, (L.allocOrder a.toData).Shelved ∧
      (L.allocOrder a.toData).WellFormed ∧ (L.allocOrder a.toData).parent L.nextOrder = none ∧
      ∀ b, L.nextOrder ∉ (L.allocOrder a.toData).stops b := fun a =>
    ⟨h.allocOrder hwf a.toData, hwf.allocOrder a.toData, Function.update_self _ _ _,
      fun b hb => lt_irrefl _ (hwf.stops_lt b _ hb)⟩
  cases r with
  | add now a =>
    obtain ⟨h', hwf', hp, ho⟩ := hnew a
    exact h'.addOrder hwf' hp ho
  | modify a =>
    obtain ⟨h', hwf', hp, ho⟩ := hnew a
    rcases hwf.step_modify_cases a with ⟨-, heq⟩ | ⟨e, -, -, -, -, -, heq⟩ <;> rw [heq]
    · exact h'
    · have hcancel := h'.of_still (.cancel _ e) rfl fun b => List.Subset.refl _
      exact hcancel.replaceOrder (hwf'.updateData .cancel) hp ho e
  | cancel id => exact h.cancelOrder hwf id
  | checkDate now =>
    exact (checkDateOrders_rule (J := fun L => L.WellFormed ∧ L.Shelved)
      (fun L' o hJ _ _ => ⟨hJ.1.cancelOrder _, hJ.2.cancelOrder hJ.1 _⟩)
      (fun L' o hJ => ⟨hJ.1.eraseDate, hJ.2⟩) ⟨hwf, h⟩).2

end Shelved

end Ledger

namespace Refines

variable {s s' : OrderBook} {L : Ledger} (h : Refines s L) {o : ℕ} {b : Bool}

include h

/-- The constructor leaves the parked orders outside. -/
theorem shelved_recover (hL : L.Shelved) (repository : List OrderData) :
    (L.recover repository).Shelved := by
  induction repository generalizing s L with
  | nil => exact hL
  | cons x repository ih =>
    obtain ⟨s₁, -, h₁⟩ := (h.allocOrder x).recoverOrder (h.outside_new x)
    refine ih h₁ ((hL.allocOrder h.wf x).recoverOrder (h.wf.allocOrder x)
      (Function.update_self _ _ _) fun c hc => ?_)
    exact lt_irrefl _ (h.wf.stops_lt c _ hc)

/-- The parked orders can be told from the tree. -/
theorem stops_congr {L' : Ledger} (h' : Refines s' L')
    (hsame : s'.stopOrders b = s.stopOrders b) : L'.stops b = L.stops b := by
  have hkeys := (h'.stops b).keys
  rw [hsame, (h.stops b).keys] at hkeys
  exact (Except.ok.inj hkeys).symm

/-- **Nothing leads to an order that was never put into a level.** -/
theorem outside_of_parent (ha : s.Attached) (ho : o < L.nextOrder) (hp : L.parent o = none) :
    Outside s L o := by
  have hpar : (s.order o).parent = none := (h.parent o).trans hp
  refine ⟨ho, fun l hl => ?_, fun id he => ?_, ?_, ?_, fun x => ⟨fun hx => ?_, fun hx => ?_⟩⟩
  · exact absurd ((h.wf.queue_parent l o hl).symm.trans hp) (by simp)
  · obtain ⟨l, hl⟩ := h.wf.entry_parent id o he
    exact absurd (hl.symm.trans hp) (by simp)
  · exact Option.eq_none_iff_forall_ne_some.mpr fun p hn => (ha.next o p hn).1 hpar
  · exact Option.eq_none_iff_forall_ne_some.mpr fun p hn => (ha.prev o p hn).1 hpar
  · exact (ha.next x o hx).2 hpar
  · exact (ha.prev x o hx).2 hpar

/-- The stop trees are what they were: what is inserted is there already. -/
theorem stopOrders_readd (ho : o ∈ L.stops b) (hb : (L.order o).isBuy = b) {now : ℤ}
    {status : OrderStatus} (hrun : s.addOrder now o = .ok (s', status)) (c : Bool) :
    s'.stopOrders c = s.stopOrders c := by
  have hbuy : (s.order o).isBuy = b := (congrArg OrderData.isBuy (h.order o)).trans hb
  have henqueue : OrderBook.Calm s (s.enqueueOrder o) := .enqueueOrder s o
  rw [OrderBook.addOrder] at hrun
  split at hrun
  · obtain ⟨s₁, h₁, hrun⟩ := bind_eq_ok.mp hrun
    obtain ⟨s₂, h₂, hrun⟩ := bind_eq_ok.mp hrun
    obtain ⟨rfl, -⟩ := Prod.mk.inj (Except.ok.inj hrun)
    rw [(OrderBook.Calm.framed.addDateOrder h₂).stopOrders]
    have hself : (s.stopOrders b).insert (s.stopLess b) o = .ok (s.stopOrders b) := by
      rw [h.stopLess]
      exact (h.stops b).insert_self (L.stopLess_strictWeak b) (h.wf.stops_sorted b) ho
    have h₁ : (s.enqueueOrder o).addStopOrder o b = .ok s₁ := by
      rw [← hbuy]
      exact h₁
    obtain ⟨t, ht, h₁⟩ := bind_eq_ok.mp h₁
    obtain rfl : s.stopOrders b = t := Except.ok.inj (hself.symm.trans ht)
    rw [← Except.ok.inj h₁]
    cases b <;> cases c <;> rfl
  · obtain ⟨⟨s₁, filled⟩, h₁, hrun⟩ := bind_eq_ok.mp hrun
    exact (((henqueue.trans (.updateData _ o _)).trans (OrderBook.Calm.framed.matchOrder h₁)).trans
      (OrderBook.Calm.framed.settle hrun)).stopOrders c

/-- **A parked order can be passed to `add_order`** as if it were new. -/
theorem readd (hs : s.Orderly) (ho : o ∈ L.stops b) (hb : (L.order o).isBuy = b)
    (hp : L.parent o = none) (now : ℤ) :
    ∃ s', s.addOrder now o = .ok (s', (L.addOrder o).2) ∧ Refines s' (L.addOrder o).1 ∧
      s'.Orderly ∧ ∀ c, s'.stopOrders c = s.stopOrders c := by
  obtain ⟨s', hs', h'⟩ := h.addOrder now
    (h.outside_of_parent hs.toAttached (h.wf.stops_lt b o ho) hp)
  exact ⟨s', hs', h', h.orderly_addOrder hs hs', h.stopOrders_readd ho hb hs'⟩

end Refines

end LimitOrderBook
