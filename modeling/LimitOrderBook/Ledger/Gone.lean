import LimitOrderBook.Ledger.Register

/-!
# Orders that are done with

An order that is cancelled or filled and that no queue holds stays so, whatever comes
(`LimitOrderBook.Ledger.WellFormed.gone_step`): only a new order is put into a queue, only the
orders of a queue and the new one change their quantities, and a mark is never taken back. The new
order of `add_order` is either done with at once, or accepted, and only then does the index lead to
it (`LimitOrderBook.Ledger.WellFormed.accepted_or_gone`).
-/

namespace LimitOrderBook

open OrderBook (Request)

namespace Ledger

variable {L : Ledger} {o : ℕ}

/-- **The order is done with.** -/
structure Gone (L : Ledger) (o : ℕ) : Prop where
  lt : o < L.nextOrder
  queue : ∀ l, o ∉ L.queue l
  done : (L.order o).cancelled = true ∨ L.qty o = 0

/-- An order that no queue holds takes no part in the matching of another one. -/
theorem qty_matchLimits_of_free {n : ℕ} (h : L.WellFormed) (hfree : ∀ l, n ∉ L.queue l)
    (hon : o ≠ n) (hq : ∀ l, o ∉ L.queue l) (ls : List ℕ) :
    (L.matchLimits n ls).1.qty o = L.qty o := by
  refine (matchLimits_invariant (J := fun L' => MatchFrame L L' ∧ L'.qty o = L.qty o)
    (fun L' l c p _ _ hwf' hJ hc _ => ⟨hJ.1.trans (.fillOrder L' c n p), ?_⟩)
    (fun L' p hJ => ⟨hJ.1.trans (.setMarketPrice L' p), hJ.2⟩) h hfree ⟨.refl L, rfl⟩).1.2
  have hc₀ : c ∈ L.queue l := (hJ.1.queue l).mem hc
  have hcn : c ≠ n := fun he => hfree l (he ▸ hc₀)
  have hoc : o ≠ c := fun he => hq l (he ▸ hc₀)
  rw [hwf'.qty_fillOrder hc hcn, if_neg hon, if_neg hoc]
  exact hJ.2

/-- **Only what a queue holds is traded.** -/
theorem WellFormed.qty_step (h : L.WellFormed) (ho : o < L.nextOrder) (hq : ∀ l, o ∉ L.queue l)
    (r : Request) : (L.step r).1.qty o = L.qty o := by
  cases r with
  | add now a =>
    rw [step_add]
    split
    · rw [qty, parkOrder_order, receive_order ho, qty]
    · have hfree : ∀ l, L.nextOrder ∉ L.queue l := fun l hl => (h.queue_lt l _ hl).false
      have hmatched : (L.matched a).1.qty o = (L.activate a).qty o :=
        qty_matchLimits_of_free (h.activate a) hfree ho.ne hq _
      rw [qty, settle_order_old ho.ne, ← qty, hmatched, qty, activate_order ho, qty]
  | modify a =>
    have hstill := (Still.modifyOrder (L.allocOrder a.toData) L.nextOrder).qty o
    rwa [qty, qty, allocOrder_order_old ho] at hstill
  | cancel id => exact cancelOrder_qty L id o
  | checkDate now => exact (Still.checkDateOrders L now).qty o

/-- **An order that is done with stays so.** -/
theorem WellFormed.gone_step (h : L.WellFormed) (ho : L.Gone o) (r : Request) :
    (L.step r).1.Gone o where
  lt := ho.lt.trans_le (L.nextOrder_le_step r)
  queue := fun l hl => by
    rcases h.queue_step hl with hl | ⟨rfl, -⟩
    · exact ho.queue l hl
    · exact ho.lt.false
  done := by
    rw [h.qty_step ho.lt ho.queue r]
    exact ho.done.imp_left (h.mark_step r ho.lt)

/-- Matching says that the order is filled when nothing is left of it. -/
theorem qty_matchLimits_eq_zero {ls : List ℕ} (hf : (L.matchLimits o ls).2 = true) :
    (L.matchLimits o ls).1.qty o = 0 := by
  rcases matchLimits_rule (o := o) (P := fun _ _ => True) (Q := fun L => L.qty o = 0)
    (fun _ _ _ _ _ => trivial) (fun _ _ _ _ _ _ _ hzero => hzero) (fun _ _ _ _ _ _ _ _ => trivial)
    L ls trivial with ⟨-, hzero⟩ | ⟨hnot, -⟩
  · exact hzero
  · exact absurd hf (by simp [hnot])

/-- **A new order** is accepted, or done with and in no entry of the index. -/
theorem WellFormed.accepted_or_gone (h : L.WellFormed) (now : ℤ) (a : OrderArgs) :
    (L.step (.add now a)).2 = some .accepted ∨ (L.step (.add now a)).1.Gone L.nextOrder ∧
      ∀ id, (L.step (.add now a)).1.orders.lookup id ≠ some L.nextOrder := by
  have hframe : MatchFrame (L.activate a) (L.matched a).1 := .matchLimits _ _
  have hlt : L.nextOrder < (L.matched a).1.nextOrder := hframe.nextOrder ▸ Nat.lt_succ_self _
  have hqueue : ∀ l, L.nextOrder ∉ (L.matched a).1.queue l := fun l hl =>
    (h.queue_lt l _ ((hframe.queue l).mem hl)).false
  have hentry : ∀ id, (L.matched a).1.orders.lookup id ≠ some L.nextOrder := fun id hid =>
    (h.entry_lt id _ (hframe.entry id _ hid)).false
  rw [step_add]
  split
  · exact Or.inl rfl
  · rw [settle]
    split
    · next hfilled =>
      exact Or.inr ⟨⟨hlt, hqueue, Or.inr (qty_matchLimits_eq_zero hfilled)⟩, hentry⟩
    · split
      · refine Or.inr ⟨⟨hlt, hqueue, Or.inl ?_⟩, hentry⟩
        rw [updateData_order, Function.update_self]
        rfl
      · exact Or.inl rfl

end Ledger

end LimitOrderBook
