import LimitOrderBook.Ledger.Gone
import LimitOrderBook.Ledger.Shelved
import LimitOrderBook.Properties.Accounts
import LimitOrderBook.Properties.Serving

/-!
# Ledgers of orders with something left

What is known of a book when every order comes with a positive quantity, and something is left of
every order that it recovers (`LimitOrderBook.Ledger.Sturdy`): something is left of every order that
rests or is parked, and no request gives to an order what it has lost
(`LimitOrderBook.Ledger.Sturdy.aged_step`).

An order is noted when somebody knows it (`LimitOrderBook.Ledger.Noted`). A request makes no other
order known than its own, whose id is new, or that of an order that it replaces
(`LimitOrderBook.Ledger.Sturdy.placed_of_noted`).
-/

namespace LimitOrderBook

open OrderBook (Request)

theorem OrderBook.Request.Sized.nonneg {r : Request} (hr : r.Sized) : r.Nonneg := by
  cases r with
  | add now a => exact le_of_lt hr
  | modify a => exact le_of_lt hr
  | _ => trivial

/-- More executions have taken more. -/
theorem takenBy_le_append {es fs : List Execution} (hpos : ∀ e ∈ fs, 0 < e.volume) (o : ℕ) :
    takenBy es o ≤ takenBy (es ++ fs) o := by
  rw [takenBy, takenBy, List.filter_append, List.map_append, List.sum_append,
    le_add_iff_nonneg_right]
  refine List.sum_nonneg fun v hv => ?_
  obtain ⟨e, he, rfl⟩ := List.mem_map.mp hv
  exact (hpos e (List.mem_filter.mp he).1).le

/-- The order `x` is `y` later: nothing was given back to it, and no mark taken back. -/
structure OrderData.Aged (x y : OrderData) : Prop where
  keeps : x.Keeps y
  mark : y.cancelled = true → x.cancelled = true
  qty : x.currentQty ≤ y.currentQty

theorem OrderData.Aged.refl (x : OrderData) : x.Aged x := ⟨.refl x, fun h => h, le_rfl⟩

namespace Ledger

variable {L : Ledger} {rs : List OrderData} {r : Request} {o : ℕ} {b : Bool}

/-- **Something is left of whatever is in the book**, the accounts are balanced, and only orders
of the book are handed to the repository. -/
structure Sturdy (L : Ledger) : Prop where
  wf : L.WellFormed
  stocked : L.Stocked
  shelved : L.Shelved
  parked : ∀ b, ∀ o ∈ L.stops b, 0 < L.qty o
  handed : ∀ o ∈ L.orderQueue, o < L.nextOrder
  accounts : ∃ rs : List OrderData, rs.length ≤ L.nextOrder ∧ L.Balanced rs

namespace Sturdy

variable (h : L.Sturdy)

include h

theorem pos (ho : L.Held o) : 0 < L.qty o := by
  rcases ho with ⟨l, hl⟩ | ⟨b, hb⟩
  · exact h.stocked.positive l o hl
  · exact h.parked b o hb

theorem nonneg (ho : o < L.nextOrder) : 0 ≤ L.qty o := by
  obtain ⟨rs, -, hbal⟩ := h.accounts
  exact hbal.nonneg o ho

/-- A parked order stays as it was when it was parked. -/
theorem parked_step (hr : r.Sized) (ho : o ∈ (L.step r).1.stops b) : 0 < (L.step r).1.qty o := by
  have hwf := h.wf
  rcases hwf.stops_step ho with hold | ⟨rfl, hnew⟩
  · have hfree : ∀ l, o ∉ L.queue l := fun l hl =>
      absurd ((hwf.queue_parent l o hl).symm.trans (h.shelved b o hold).2) (by simp)
    rw [hwf.qty_step (hwf.stops_lt b o hold) hfree r]
    exact h.parked b o hold
  · have hnot : L.nextOrder ∉ L.stops b := fun hb => (hwf.stops_lt b _ hb).false
    cases r with
    | add now a =>
      rcases (L.allocOrder a.toData).addOrder_cases L.nextOrder with ⟨-, he⟩ | ⟨-, hstops, -⟩
      · have hstep : (L.step (.add now a)).1 =
            ((L.allocOrder a.toData).enqueueOrder L.nextOrder).parkOrder L.nextOrder := he
        rw [hstep, qty, parkOrder_order, enqueueOrder_order, allocOrder_order_new]
        exact hr
      · have hstep : (L.step (.add now a)).1.stops = L.stops := hstops
        rw [hstep] at ho
        exact absurd ho hnot
    | modify a =>
      rcases hwf.step_modify_cases a with ⟨-, he⟩ | ⟨e, l, hlook, -, -, -, he⟩ <;> rw [he] at ho ⊢
      · exact absurd ho hnot
      · have hne : L.nextOrder ≠ e := (hwf.entry_lt _ e hlook).ne'
        rw [qty, enqueueOrder_order, order_replaceOrder, updateData_order,
          Function.update_of_ne hne, allocOrder_order_new]
        exact hr
    | _ => exact absurd hnew (by simp [submitted])

theorem handed_step (ho : o ∈ (L.step r).1.orderQueue) : o < (L.step r).1.nextOrder := by
  obtain ⟨new, hqueue, hhands⟩ := h.wf.handsOver r
  rw [hqueue] at ho
  rcases List.mem_append.mp ho with ho | ho
  · exact (h.handed o ho).trans_le (L.nextOrder_le_step r)
  · cases hhands with
    | placed a ha =>
      rw [List.mem_singleton.mp ho]
      exact nextOrder_lt_step ha
    | found new hid hfree hnew =>
      obtain ⟨⟨id, hlook⟩, -⟩ := hnew o ho
      exact (h.wf.entry_lt id o hlook).trans_le (L.nextOrder_le_step r)

/-- **Every request**, if the orders that come with it are for a positive quantity. -/
theorem step (hwf : (L.step r).1.WellFormed) (hr : r.Sized) : (L.step r).1.Sturdy where
  wf := hwf
  stocked := h.stocked.step h.wf hr
  shelved := h.shelved.step h.wf r
  parked := fun _ _ ho => h.parked_step hr ho
  handed := fun _ ho => h.handed_step ho
  accounts := by
    obtain ⟨rs, hlen, hbal⟩ := h.accounts
    exact ⟨rs, hlen.trans (L.nextOrder_le_step r), hbal.step h.wf hlen hr.nonneg⟩

/-- **No order gets more.** -/
theorem qty_step_le (hr : r.Sized) (ho : o < L.nextOrder) : (L.step r).1.qty o ≤ L.qty o := by
  have hwf := h.wf
  obtain ⟨rs, hlen, hbal⟩ := h.accounts
  have hbal' := hbal.step hwf hlen hr.nonneg
  have hlog : ∃ es, (L.step r).1.executions = L.executions ++ es := by
    by_cases hkeeps : r.keepsOrders = true
    · obtain ⟨es, hes, -⟩ := (hwf.stepFrame hkeeps).executions
      exact ⟨es, hes⟩
    · cases r with
      | modify a =>
        refine ⟨[], ?_⟩
        rw [List.append_nil]
        exact (Still.modifyOrder (L.allocOrder a.toData) L.nextOrder).executions
      | _ => exact absurd rfl hkeeps
  obtain ⟨es, hes⟩ := hlog
  have htaken : takenBy L.executions o ≤ takenBy (L.step r).1.executions o := by
    rw [hes]
    refine takenBy_le_append (fun e he => (hbal'.execution e ?_).1) o
    rw [hes]
    exact List.mem_append_right _ he
  have hnow := hbal'.account o (ho.trans_le (L.nextOrder_le_step r))
  have hthen := hbal.account o ho
  rw [startQty, (hwf.step_keeps r ho).qty, ← startQty] at hnow
  linarith

/-- **What was there stays**, with less or nothing of it left. -/
theorem aged_step (hr : r.Sized) (ho : o < L.nextOrder) :
    ((L.step r).1.order o).Aged (L.order o) where
  keeps := h.wf.step_keeps r ho
  mark := h.wf.mark_step r ho
  qty := h.qty_step_le hr ho

end Sturdy

/-- The ledger of a new book. -/
theorem sturdy_recover (instrument : String) (marketPrice : ℚ) {repository : List OrderData}
    (hrep : ∀ x ∈ repository, 0 < x.currentQty) :
    ((empty instrument marketPrice).recover repository).Sturdy := by
  have h := refines_empty instrument marketPrice
  have hrec := recovered_new instrument marketPrice repository
  refine ⟨hrec.inPlace.wf, hrec.stocked fun x hx _ => hrep x hx, ?_, fun b o ho => ?_,
    fun o ho => ?_, repository, hrec.nextOrder.ge,
    balanced_recover instrument marketPrice fun x hx => (hrep x hx).le⟩
  · exact h.shelved_recover (by simp [Shelved, empty]) repository
  · obtain ⟨x, hx, -⟩ := (hrec.stops b o).mp ho
    rw [qty, hrec.order o x hx.entry]
    exact hrep x (List.mem_of_getElem? hx.entry)
  · rw [recover_orderQueue] at ho
    exact absurd ho List.not_mem_nil

/-! ### Orders that somebody knows -/

/-- **Somebody knows the order**: a queue or a stop tree, the index, or the repository. -/
def Noted (L : Ledger) (o : ℕ) : Prop :=
  L.Held o ∨ (∃ id, L.orders.lookup id = some o) ∨ o ∈ L.orderQueue

namespace Sturdy

variable (h : L.Sturdy)

include h

theorem lt_of_noted (ho : L.Noted o) : o < L.nextOrder := by
  rcases ho with ho | ⟨id, ho⟩ | ho
  · exact ho.lt h.wf
  · exact h.wf.entry_lt id o ho
  · exact h.handed o ho

/-- Nobody gets to know any other order than that of the request. -/
theorem noted_step (ho : (L.step r).1.Noted o) : L.Noted o ∨ o = L.nextOrder := by
  rcases ho with ho | ⟨id, ho⟩ | ho
  · exact (h.wf.held_step ho).imp Or.inl And.left
  · exact ((h.wf.recorded r).entry id o ho).imp (fun ho => Or.inr (Or.inl ⟨id, ho⟩)) And.left
  · obtain ⟨new, hqueue, hhands⟩ := h.wf.handsOver r
    rw [hqueue] at ho
    rcases List.mem_append.mp ho with ho | ho
    · exact Or.inl (Or.inr (Or.inr ho))
    · cases hhands with
      | placed a ha => exact Or.inr (List.mem_singleton.mp ho)
      | found new hid hfree hnew => exact Or.inl (Or.inr (Or.inl (hnew o ho).1))

/-- **If somebody gets to know the order of the request**, the repository does. -/
theorem placed_of_noted {new : List ℕ} (hhands : HandsOver L r new)
    (hqueue : (L.step r).1.orderQueue = L.orderQueue ++ new) (ho : (L.step r).1.Noted L.nextOrder) :
    new = [L.nextOrder] ∧ ∃ a, submitted r = some a ∧
      (newId r = some a.id ∨ ∃ e, Replaces L r a e) := by
  cases hhands with
  | placed a ha hid => exact ⟨rfl, a, ha, hid⟩
  | found new hid hfree hnew =>
    have hold : ∀ id, L.orders.lookup id ≠ some L.nextOrder := fun id he =>
      (h.wf.entry_lt id _ he).false
    rcases ho with ho | ⟨id, ho⟩ | ho
    · exact absurd ho hfree
    · rcases (h.wf.recorded r).entry id _ ho with ho | ⟨-, ho⟩
      · exact absurd ho (hold id)
      · exact absurd ho (by simp [hid])
    · rw [hqueue] at ho
      rcases List.mem_append.mp ho with ho | ho
      · exact absurd (h.handed _ ho) (lt_irrefl _)
      · obtain ⟨⟨id, he⟩, -⟩ := hnew _ ho
        exact absurd he (hold id)

end Sturdy

/-- Somebody knows an order of a new book: it is a record, and rests or is parked. -/
theorem exists_record_of_noted {instrument : String} {marketPrice : ℚ}
    {repository : List OrderData}
    (ho : ((empty instrument marketPrice).recover repository).Noted o) :
    ∃ x ∈ repository, ((empty instrument marketPrice).recover repository).order o = x := by
  have hrec := recovered_new instrument marketPrice repository
  obtain ⟨x, hx⟩ : ∃ x, repository[o]? = some x := by
    rcases ho with (hq | ⟨b, hb⟩) | ⟨id, hid⟩ | ho
    · obtain ⟨x, hx, -⟩ := (hrec.queue o).mp hq
      exact ⟨x, hx⟩
    · obtain ⟨x, hx, -⟩ := (hrec.stops b o).mp hb
      exact ⟨x, hx.entry⟩
    · rw [hrec.orders] at hid
      exact absurd hid (by simp)
    · rw [recover_orderQueue] at ho
      exact absurd ho List.not_mem_nil
  exact ⟨x, List.mem_of_getElem? hx, hrec.order o x hx⟩

end Ledger

end LimitOrderBook
