import LimitOrderBook.Ledger.Idle
import LimitOrderBook.Ledger.Quantities
import Mathlib.Algebra.Order.BigOperators.Group.List

/-!
# The volume of a level

A level caches the sum of the remaining quantities of its orders. A fill does not
lower it, since the order has no quantity left when `remove_limit_order` reads it,
and a partial fill never touches it; so the volume is right as long as nothing is
executed (`LimitOrderBook.activeVolume_eq_resting`).
-/

namespace LimitOrderBook

open OrderBook (Request)

/-- **The volumes are those of the resting orders**: at every level the active
volume is the sum over its queue, and the snapshot shows at every price what rests
there. -/
structure VolumesExact (s : OrderBook) : Prop where
  level : ∀ b, ∃ levels, (s.limits b).keys = .ok levels ∧ ∀ l ∈ levels, ∃ queue,
    s.ordersAt l = .ok queue ∧
    (s.limit l).activeVolume = (queue.map fun o => (s.order o).currentQty).sum
  snapshot : ∀ b, ∃ rows orders, s.getSnapshotLimits b = .ok rows ∧ s.getOrders b = .ok orders ∧
    (∀ row ∈ rows, row.qty = ((orders.filter fun o => (s.order o).price = row.price).map
      fun o => (s.order o).currentQty).sum) ∧
    ∀ o ∈ orders, ∃ row ∈ rows, row.price = (s.order o).price

namespace Ledger

/-- The active volume of every level is the sum over its queue. -/
def VolumeExact (L : Ledger) : Prop :=
  ∀ b, ∀ l ∈ L.levels b, (L.limit l).activeVolume = ((L.queue l).map L.qty).sum

namespace VolumeExact

variable {L L' : Ledger} (h : L.VolumeExact) {o l : ℕ}

include h

theorem congr (hlev : L'.levels = L.levels)
    (hvol : ∀ b, ∀ l ∈ L.levels b, (L'.limit l).activeVolume = (L.limit l).activeVolume)
    (hq : ∀ b, ∀ l ∈ L.levels b, L'.queue l = L.queue l)
    (hqty : ∀ l, ∀ x ∈ L.queue l, L'.qty x = L.qty x) : L'.VolumeExact := by
  intro b l hl
  rw [hlev] at hl
  rw [hvol b l hl, hq b l hl, h b l hl, List.map_congr_left fun x hx => hqty l x hx]

theorem activate (hwf : L.WellFormed) (a : OrderArgs) : (L.activate a).VolumeExact :=
  h.congr rfl (fun _ _ _ => rfl) (fun _ _ _ => rfl) fun l x hx => by
    rw [qty, activate_order (hwf.queue_lt l x hx)]
    rfl

theorem receive (hwf : L.WellFormed) (a : OrderArgs) : (L.receive a).VolumeExact :=
  h.congr rfl (fun _ _ _ => rfl) (fun _ _ _ => rfl) fun l x hx => by
    rw [qty, receive_order (hwf.queue_lt l x hx)]
    rfl

/-- An order that finds nothing leaves the volumes alone. -/
theorem of_unmoved (hpos : L.Positive) (hwf : L.WellFormed) (hun : Unmoved L L') :
    L'.VolumeExact := by
  have hne : ∀ l, ∀ x ∈ L.queue l, L.qty x ≠ 0 := fun l x hx => (hpos l x hx).ne'
  refine h.congr hun.frame.levels (fun b l _ => by rw [hun.limit l (hne l)]) (fun b l _ => ?_)
    fun l x _ => by rw [qty, qty, hun.order]
  have hsub : L.queue l ⊆ L'.queue l := fun x hx => hun.queue l x hx (hne l x hx)
  exact (hun.frame.queue l).eq_of_length_le ((hwf.queue_nodup l).subperm hsub).length_le

theorem parkOrder (o : ℕ) : (L.parkOrder o).VolumeExact := by
  obtain ⟨dates, hdates⟩ := L.parkOrder_eq o
  rw [hdates]
  exact h

theorem restOrder (ht : L.Tidy) (o : ℕ) : (L.restOrder o).VolumeExact := by
  obtain ⟨l, hl, -, -⟩ := ht.wf.restOrder o
  intro b k hk
  rcases hl.volume_sub hk with ⟨d, hold, heq⟩ | heq
  · exact sub_eq_zero.mp (heq.trans (sub_eq_zero.mpr (h d k hold)))
  · exact heq

/-- An order leaves its queue with what is left of it. -/
theorem displace (hpos : L.Positive) {e : ℕ} (he : e ∈ L.queue l) :
    (L.displace e l).VolumeExact := by
  intro b k hk
  have hqty : (L.displace e l).qty = L.qty := rfl
  rw [hqty, displace_queue, displace_limit]
  by_cases hkl : k = l
  · subst hkl
    rw [Function.update_self, Function.update_self]
    have hsum := List.sum_map_erase L.qty he
    have hnonneg : 0 ≤ (((L.queue k).erase e).map L.qty).sum := by
      refine List.sum_nonneg fun q hq => ?_
      obtain ⟨x, hx, rfl⟩ := List.mem_map.mp hq
      exact (hpos k x (List.mem_of_mem_erase hx)).le
    have hvol : (L.limit k).activeVolume - L.qty e = (((L.queue k).erase e).map L.qty).sum := by
      rw [h b k hk, ← hsum]
      ring
    rw [LimitData.decreaseNumberOfOrders, LimitData.decreaseVolume, hvol]
    exact max_eq_right hnonneg
  · rw [Function.update_of_ne hkl, Function.update_of_ne hkl]
    exact h b k hk

theorem cancel (o : ℕ) : (L.updateData o .cancel).VolumeExact :=
  h.congr rfl (fun _ _ _ => rfl) (fun _ _ _ => rfl) fun _ x _ => qty_cancel x

theorem cancelOrder (ht : L.Tidy) (hpos : L.Positive) (id : String) :
    (L.cancelOrder id).1.VolumeExact := by
  rcases ht.wf.cancelOrder_cases id with ⟨-, he⟩ | ⟨e, -, -, he⟩ | ⟨e, l, hlook, -, hpar, he⟩ <;>
    rw [he]
  · exact h
  · exact h.cancel e
  · have hpos' : (L.updateData e .cancel).Positive := fun k x hx => by
      rw [qty_cancel]
      exact hpos k x hx
    exact (h.cancel e).displace hpos' (ht.mem_queue_of_entry hlook hpar)

/-- **The volumes stay exact** under requests that trade nothing. -/
theorem step (ht : L.Tidy) (hpos : L.Positive) {s : OrderBook} (hs : Refines s L) {r : Request}
    (hr : r.Sound) (hnothing : s.tradesNothing r) : (L.step r).1.VolumeExact := by
  cases r with
  | add now a =>
    rw [step_add]
    by_cases hp : (L.receive a).isParked L.nextOrder = true
    · rw [if_pos hp]
      exact (h.receive ht.wf a).parkOrder _
    · have hun := Idle.matched (hs.idle hnothing (Bool.eq_false_iff.mpr hp)) ht.wf
      have hM : (L.matched a).1.VolumeExact :=
        (h.activate ht.wf a).of_unmoved (hpos.activate ht.wf a) (ht.wf.activate a) hun
      rw [if_neg hp, settle]
      split
      · exact hM
      · split
        · exact hM.cancel _
        · exact hM.restOrder (ht.matched a) _
  | modify a => exact absurd hr (by simp [Request.Sound])
  | cancel id => exact h.cancelOrder ht hpos id
  | checkDate now =>
    exact (checkDateOrders_rule (J := fun L => L.Tidy ∧ L.Positive ∧ L.VolumeExact)
      (fun L' o hJ _ _ => ⟨hJ.1.cancelOrder _, hJ.2.1.cancelOrder hJ.1.wf _,
        hJ.2.2.cancelOrder hJ.1 hJ.2.1 _⟩)
      (fun L' o hJ => ⟨{ hJ.1 with wf := hJ.1.wf.eraseDate }, hJ.2⟩) ⟨ht, hpos, h⟩).2.2

end VolumeExact

end Ledger

/-- What the exact volumes of a ledger mean for the book. -/
theorem Refines.volumesExact {s : OrderBook} {L : Ledger} (h : Refines s L) (ht : L.Tidy)
    (hv : L.VolumeExact) : VolumesExact s := by
  have hprice : ∀ o, (s.order o).price = (L.order o).price := fun o =>
    congrArg OrderData.price (h.order o)
  refine ⟨fun b => ⟨_, (h.levels b).keys, fun l hl => ⟨_, h.ordersAt l, ?_⟩⟩,
    fun b => ⟨_, _, h.getSnapshotLimits b, h.getOrders b, fun row hrow => ?_, fun o ho => ?_⟩⟩
  · have hvol : (s.limit l).activeVolume = (L.limit l).activeVolume :=
      congrArg LimitData.activeVolume (h.limit l)
    rw [hvol, hv b l hl]
    simp only [h.qty]
  · obtain ⟨l, hl, rfl⟩ := List.mem_map.mp hrow
    simp only [hprice, h.qty]
    rw [ht.inPlace.filter_resting hl]
    exact hv b l hl
  · obtain ⟨l, hl, hol⟩ := Ledger.mem_resting.mp ho
    refine ⟨_, List.mem_map.mpr ⟨l, hl, rfl⟩, ?_⟩
    rw [hprice, ht.price l o hol]

/-- **The active volume of a level is the quantity that rests there**, in every run of
new orders of positive quantity, cancellations and checks of dates in which each new
order is parked or finds nothing to trade with. -/
theorem activeVolume_eq_resting (instrument : String) (marketPrice : ℚ) {rs : List Request}
    (hrs : Meets OrderBook.step (fun s r => r.Sound ∧ s.tradesNothing r)
      (.empty instrument marketPrice) rs) :
    ∃ s answers, runAll OrderBook.step (.empty instrument marketPrice) rs = .ok (s, answers) ∧
      VolumesExact s := by
  obtain ⟨s, answers, L, hrun, hL, ht, -, hv⟩ := (refines_empty instrument marketPrice).run_invariant
    (J := fun L => L.Tidy ∧ L.Positive ∧ L.VolumeExact)
    (fun _ _ _ hs hJ hr => ⟨hJ.1.step hr.1.keepsOrders, hJ.2.1.step hJ.1.wf hr.1,
      hJ.2.2.step hJ.1 hJ.2.1 hs hr.1 hr.2⟩)
    ⟨Ledger.tidy_empty instrument marketPrice, fun _ _ ho => absurd ho (by simp [Ledger.empty]),
      fun _ _ hl => absurd hl (by simp [Ledger.empty])⟩ hrs
  exact ⟨s, answers, hrun, hL.volumesExact ht hv⟩

/-- A bid that comes to rest and is cancelled. -/
theorem activeVolume_eq_resting_cancel : ∃ s answers, runAll OrderBook.step (.empty "X" 10)
      [.add 0 (.limit "b" .buy 7 10), .cancel "b"] = .ok (s, answers) ∧ VolumesExact s :=
  activeVolume_eq_resting "X" 10 ⟨⟨by norm_num [Request.Sound, OrderArgs.limit],
    findsNothing_empty "X" 10 _⟩, fun _ _ _ => ⟨⟨trivial, trivial⟩, fun _ _ _ => trivial⟩⟩

/-- A bid of two against a resting ask of five: three are left, the level still
says five. -/
theorem activeVolume_stale : ∃ s answers, runAll OrderBook.step (.empty "X" 10)
      [.add 0 (.limit "a" .sell 5 10), .add 0 (.limit "b" .buy 2 10)] = .ok (s, answers) ∧
    ¬ VolumesExact s := by
  obtain ⟨⟨s, answers⟩, hrun, hs⟩ := exists_ok_of_map (f := fun r =>
      ((r.1.limits false).keys.toOption, (r.1.ordersAt 0).toOption, (r.1.limit 0).activeVolume,
        (r.1.order 0).currentQty))
    (b := (some [0], some [0], 5, 3)) (show (runAll OrderBook.step (.empty "X" 10)
      [.add 0 (.limit "a" .sell 5 10), .add 0 (.limit "b" .buy 2 10)]).toOption.map _ = _ by
      decide +kernel)
  simp only [Prod.mk.injEq] at hs
  obtain ⟨hkeys, hat, hvol, hqty⟩ := hs
  refine ⟨s, answers, hrun, fun h => ?_⟩
  obtain ⟨levels, hl, hlevel⟩ := h.level false
  rw [hl] at hkeys
  obtain ⟨queue, hq, hsum⟩ := hlevel 0 (by simp [Option.some.inj hkeys])
  rw [hq] at hat
  rw [Option.some.inj hat, hvol] at hsum
  simp [hqty] at hsum

end LimitOrderBook
