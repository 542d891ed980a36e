import LimitOrderBook.Ledger.Effects

/-!
# Sides and prices

Without `modify_order`, an order in a queue is on its own side and at its own price, and no
level is on both sides (`LimitOrderBook.Ledger.InPlace`). Recovered orders keep to this as well
as added ones, so the ledgers of the constructor are among those that satisfy it; matching,
adding and cancelling preserve it (`LimitOrderBook.Ledger.InPlace.step`).
-/

namespace LimitOrderBook

open OrderBook (Request)

namespace Ledger

/-- **An order in a queue is where its side and its price say.** -/
structure InPlace (L : Ledger) : Prop where
  wf : L.WellFormed
  disjoint : ∀ l, l ∈ L.levels true → l ∉ L.levels false
  listed : ∀ l o, o ∈ L.queue l → l ∈ L.levels (L.order o).isBuy
  price : ∀ l o, o ∈ L.queue l → (L.order o).price = (L.limit l).price

/-- When no level is on both sides, a level has one side. -/
theorem side_unique {L : Ledger} (hd : ∀ l, l ∈ L.levels true → l ∉ L.levels false) {l : ℕ}
    {b b' : Bool} (hl : l ∈ L.levels b) (hl' : l ∈ L.levels b') : b = b' := by
  rcases b with _ | _ <;> rcases b' with _ | _
  · rfl
  · exact absurd hl (hd l hl')
  · exact absurd hl' (hd l hl)
  · rfl

/-- Sides stay apart when an order is placed. -/
theorem Placed.disjoint {L L' : Ledger} {o l : ℕ} {b : Bool} (h : Placed L L' o l b)
    (hd : ∀ l, l ∈ L.levels true → l ∉ L.levels false) :
    ∀ l, l ∈ L'.levels true → l ∉ L'.levels false := by
  intro x hx hx'
  rcases (h.levels true x).mp hx with ⟨rfl, hb⟩ | hx
  · rcases (h.levels false x).mp hx' with ⟨-, hb'⟩ | hx'
    · exact absurd (hb.trans hb'.symm) (by simp)
    · rcases h.old_or_new with hold | ⟨hnew, -⟩
      · exact hd x (by rwa [hb]) hx'
      · exact hnew false hx'
  · rcases (h.levels false x).mp hx' with ⟨rfl, hb'⟩ | hx'
    · rcases h.old_or_new with hold | ⟨hnew, -⟩
      · exact hd x hx (by rwa [hb'])
      · exact hnew true hx
    · exact hd x hx hx'

theorem inPlace_empty (instrument : String) (marketPrice : ℚ) :
    (empty instrument marketPrice).InPlace where
  wf := wellFormed_empty instrument marketPrice
  disjoint := by simp [empty]
  listed := by simp [empty]
  price := by simp [empty]

namespace InPlace

variable {L L' : Ledger} (h : L.InPlace) {o l : ℕ} {b : Bool}

include h

/-- An order in a queue is on the side of its level. -/
theorem isBuy_eq (hl : l ∈ L.levels b) (ho : o ∈ L.queue l) : (L.order o).isBuy = b :=
  side_unique h.disjoint (h.listed l o ho) hl

theorem mem_resting_iff : o ∈ L.resting b ↔ (L.order o).isBuy = b ∧ ∃ l, o ∈ L.queue l := by
  rw [mem_resting]
  constructor
  · rintro ⟨l, hl, ho⟩
    exact ⟨h.isBuy_eq hl ho, l, ho⟩
  · rintro ⟨rfl, l, ho⟩
    exact ⟨l, h.listed l o ho, ho⟩

/-- The live orders: those in queues, and those that are parked. -/
theorem mem_live_iff : o ∈ L.live ↔ (∃ l, o ∈ L.queue l) ∨ ∃ b, o ∈ L.stops b := by
  rw [mem_live]
  refine or_congr_left ⟨?_, fun hl => ⟨_, h.mem_resting_iff.mpr ⟨rfl, hl⟩⟩⟩
  rintro ⟨b, hb⟩
  exact (h.mem_resting_iff.mp hb).2

/-- **The orders of a side**, if those of its levels stand in the relation `Q`. -/
theorem resting_pairwise {Q : ℕ → ℕ → Prop}
    (hQ : ∀ l ∈ L.levels b, (L.queue l).Pairwise Q) : (L.resting b).Pairwise fun o o' =>
      Better b (L.order o).price (L.order o').price ∨
        (L.order o).price = (L.order o').price ∧ Q o o' := by
  refine List.pairwise_flatMap.mpr ⟨fun l hl => ?_, ?_⟩
  · refine (hQ l hl).imp_of_mem fun {o o'} ho ho' hoo' => Or.inr ⟨?_, hoo'⟩
    rw [h.price l o ho, h.price l o' ho']
  · refine (h.wf.levels_sorted b).imp fun {k l} hkl o ho o' ho' => Or.inl ?_
    rw [h.price k o ho, h.price l o' ho']
    cases b with
    | false => simpa [Better, limitLess, limitComparator] using hkl
    | true => simpa [Better, limitLess, limitComparator] using hkl

/-- The orders of a side at the price of a level are those in its queue. -/
theorem filter_resting (hl : l ∈ L.levels b) :
    (L.resting b).filter (fun o => (L.order o).price = (L.limit l).price) = L.queue l := by
  obtain ⟨xs, ys, hlev⟩ := List.append_of_mem hl
  have hsorted := h.wf.levels_sorted b
  rw [hlev] at hsorted
  obtain ⟨-, hys, hxs⟩ := List.pairwise_append.mp hsorted
  have hne : ∀ k, L.limitLess b k l = true ∨ L.limitLess b l k = true →
      (L.limit k).price ≠ (L.limit l).price := by
    intro k hk he
    obtain ⟨h₁, h₂⟩ := limitLess_equiv (b := b).mpr he
    exact hk.elim (fun hk => absurd hk (by simp [h₁])) fun hk => absurd hk (by simp [h₂])
  have hother : ∀ ks : List ℕ, (∀ k ∈ ks, (L.limit k).price ≠ (L.limit l).price) →
      (ks.flatMap L.queue).filter (fun o => (L.order o).price = (L.limit l).price) = [] := by
    intro ks hks
    refine List.filter_eq_nil_iff.mpr fun o ho => ?_
    obtain ⟨k, hk, hok⟩ := List.mem_flatMap.mp ho
    simpa [h.price k o hok] using hks k hk
  have hself : (L.queue l).filter (fun o => (L.order o).price = (L.limit l).price) = L.queue l :=
    List.filter_eq_self.mpr fun o ho => by simpa using h.price l o ho
  rw [resting, hlev, List.flatMap_append, List.flatMap_cons, List.filter_append, List.filter_append,
    hself, hother xs fun k hk => hne k (Or.inl (hxs k hk l (by simp))),
    hother ys fun k hk => hne k (Or.inr ((List.pairwise_cons.mp hys).1 k hk)), List.nil_append,
    List.append_nil]

/-! ### Steps -/

theorem of_frame (hm : MatchFrame L L') (hwf : L'.WellFormed) : L'.InPlace where
  wf := hwf
  disjoint := by
    rw [hm.levels]
    exact h.disjoint
  listed := fun l x hx => by
    rw [hm.levels, (hm.keeps x).isBuy]
    exact h.listed l x ((hm.queue l).mem hx)
  price := fun l x hx => by
    rw [hm.price, (hm.keeps x).price]
    exact h.price l x ((hm.queue l).mem hx)

theorem updateData {f : OrderData → OrderData} (hf : ∀ x, (f x).Keeps x) :
    (L.updateData o f).InPlace := by
  have hkeep := L.keeps_updateData o hf
  refine { h with wf := h.wf.updateData hf, listed := fun l x hx => ?_, price := fun l x hx => ?_ }
  · rw [(hkeep x).isBuy]
    exact h.listed l x hx
  · rw [(hkeep x).price]
    exact h.price l x hx

theorem allocOrder (x : OrderData) : (L.allocOrder x).InPlace := by
  have hold : ∀ l, ∀ y ∈ L.queue l, (L.allocOrder x).order y = L.order y := fun l y hy =>
    Function.update_of_ne (ne_of_lt (h.wf.queue_lt l y hy)) _ _
  refine { h with wf := h.wf.allocOrder x, listed := fun l y hy => ?_, price := fun l y hy => ?_ }
  · rw [hold l y hy]
    exact h.listed l y hy
  · rw [hold l y hy]
    exact h.price l y hy

theorem receive (a : OrderArgs) : (L.receive a).InPlace :=
  { h.allocOrder a.toData with wf := h.wf.receive a }

theorem activate (a : OrderArgs) : (L.activate a).InPlace := (h.receive a).updateData .activated

theorem matched (a : OrderArgs) : (L.matched a).1.InPlace :=
  (h.activate a).of_frame (.matchLimits _ _) <|
    (matchLimits_invariant (J := fun _ => True) (fun _ _ _ _ _ _ _ _ _ _ => trivial)
      (fun _ _ _ => trivial) (h.wf.activate a) (h.wf.fresh_activate a).queue trivial).2

/-- An order is placed on its side, at its price. -/
theorem placed (hl : Placed L L' o l (L.order o).isBuy) (hwf : L'.WellFormed)
    (hprice : (L'.limit l).price = (L.order o).price) : L'.InPlace := by
  refine ⟨hwf, hl.disjoint h.disjoint, fun x y hy => ?_, fun x y hy => ?_⟩
  · rw [hl.order]
    rcases hl.mem_queue.mp hy with ⟨rfl, rfl⟩ | hy
    · exact hl.mem
    · exact (hl.levels _ x).mpr (Or.inr (h.listed x y hy))
  · rw [hl.order]
    rcases hl.mem_queue.mp hy with ⟨rfl, rfl⟩ | hy
    · exact hprice.symm
    · rw [hl.price _ x (h.listed x y hy)]
      exact h.price x y hy

theorem parkOrder (hf : L.Fresh o) : (L.parkOrder o).InPlace := by
  have hwf := hf.wellFormed_parkOrder h.wf
  obtain ⟨dates, hdates⟩ := L.parkOrder_eq o
  rw [hdates] at hwf ⊢
  exact { h with wf := hwf }

theorem restOrder (hf : L.Fresh o) : (L.restOrder o).InPlace := by
  obtain ⟨l, hl, hprice, -⟩ := h.wf.restOrder o
  exact h.placed hl (hf.wellFormed_restOrder h.wf) hprice

theorem settle (hf : L.Fresh o) (filled : Bool) : (L.settle o filled).1.InPlace := by
  rw [Ledger.settle]
  split
  · exact h
  · split
    · exact h.updateData .cancel
    · exact h.restOrder hf

theorem cancelOrder (id : String) : (L.cancelOrder id).1.InPlace := by
  have hwf := h.wf.cancelOrder id
  rcases h.wf.cancelOrder_cases id with ⟨-, he⟩ | ⟨e, -, -, he⟩ | ⟨e, l, -, -, -, he⟩ <;>
    rw [he] at hwf ⊢
  · exact h
  · exact { h.updateData (o := e) .cancel with wf := hwf }
  · have hc := (h.updateData (o := e) .cancel).of_frame (.displace _ e l)
      ((h.wf.updateData .cancel).displace (o := e) (l := l))
    exact { hc with wf := hwf }

theorem checkDateOrders (now : ℤ) : (L.checkDateOrders now).InPlace :=
  checkDateOrders_rule (J := InPlace) (fun _ _ hJ _ _ => hJ.cancelOrder _)
    (fun _ _ hJ => { hJ with wf := hJ.wf.eraseDate }) h

/-- **Sides and prices are kept** by adding, cancelling and checking dates. -/
theorem step {r : Request} (hr : r.keepsOrders = true) : (L.step r).1.InPlace := by
  cases r with
  | add now a =>
    rw [step_add]
    split
    · exact (h.receive a).parkOrder (h.wf.fresh_receive a)
    · exact (h.matched a).settle ((h.wf.fresh_activate a).of_frame (.matchLimits _ _)) _
  | modify a => exact absurd hr (by simp [Request.keepsOrders])
  | cancel id => exact h.cancelOrder id
  | checkDate now => exact h.checkDateOrders now

end InPlace

end Ledger

end LimitOrderBook
