import LimitOrderBook.Persistence.Trace
import Mathlib.Data.List.Induction

/-!
# Handles that wait

What the store will hold when the thread of the repository has taken all the handles that wait,
if nothing else happens in the meantime (`LimitOrderBook.OrderBook.drain`). For an order that
stands for its id there are two cases (`LimitOrderBook.OrderBook.Logged.stands_cases`): it waits
itself, and then what it will leave in the store is what it says now; or no handle with its id
waits, and then the store holds for its id what it will hold.
-/

namespace LimitOrderBook

namespace OrderBook

variable {recovered : ℕ} {s s' : OrderBook} {store : OrderStore} {o : ℕ}

/-- The store, after the handles of a list have been taken. -/
def drain (s : OrderBook) (pending : List ℕ) (store : OrderStore) : OrderStore :=
  pending.foldl (fun r o => r.processMessage (s.order o).toOrderData) store

@[simp] theorem drain_nil (s : OrderBook) (store : OrderStore) : s.drain [] store = store := rfl

@[simp] theorem drain_cons (s : OrderBook) (o : ℕ) (pending : List ℕ) (store : OrderStore) :
    s.drain (o :: pending) store =
      s.drain pending (store.processMessage (s.order o).toOrderData) := rfl

theorem drain_concat (s : OrderBook) (o : ℕ) (pending : List ℕ) (store : OrderStore) :
    s.drain (pending ++ [o]) store =
      (s.drain pending store).processMessage (s.order o).toOrderData := by
  rw [drain, List.foldl_append]
  rfl

/-- Handles with other ids do not matter. -/
theorem get_drain_of_ne {pending : List ℕ} {id : String}
    (hne : ∀ p ∈ pending, (s.order p).id ≠ id) : (s.drain pending store).get id = store.get id := by
  induction pending using List.reverseRecOn with
  | nil => rfl
  | append_singleton pending q ih =>
    rw [drain_concat, OrderStore.get_processMessage_of_ne (hne q (by simp)).symm]
    exact ih fun p hp => hne p (List.mem_append.mpr (Or.inl hp))

/-- Of the handles with an id, the last one counts. -/
theorem get_drain_of_mem {pending : List ℕ}
    (hasc : pending.Pairwise fun p q => (s.order p).id = (s.order q).id → p ≤ q)
    (ho : o ∈ pending) (hle : ∀ p ∈ pending, (s.order p).id = (s.order o).id → p ≤ o) :
    (s.drain pending store).get (s.order o).id =
      OrderStore.outcome (s.order o).toOrderData := by
  induction pending using List.reverseRecOn with
  | nil => exact absurd ho (by simp)
  | append_singleton pending q ih =>
    obtain ⟨hasc', -, hlast⟩ := List.pairwise_append.mp hasc
    rw [drain_concat]
    by_cases hid : (s.order q).id = (s.order o).id
    · have hqo : q = o := by
        rcases List.mem_append.mp ho with hmem | hmem
        · exact le_antisymm (hle q (by simp) hid) (hlast o hmem q (by simp) hid.symm)
        · exact (List.mem_singleton.mp hmem).symm
      rw [hqo]
      exact OrderStore.get_processMessage_self
    · have hmem : o ∈ pending := by
        refine (List.mem_append.mp ho).resolve_right fun hmem => hid ?_
        rw [List.mem_singleton.mp hmem]
      rw [OrderStore.get_processMessage_of_ne (Ne.symm hid)]
      exact ih hasc' hmem fun p hp => hle p (List.mem_append.mpr (Or.inl hp))

/-! ### Orders that stand for their ids -/

/-- The order is the youngest of those with its id that are known to the repository. -/
structure Stands (recovered : ℕ) (s : OrderBook) (o : ℕ) : Prop where
  known : s.Known recovered o
  youngest : ∀ p, s.Known recovered p → (s.order p).id = (s.order o).id → p ≤ o

/-- The queue of the repository holds orders of the book that were not recovered, and an order
after those with its id that are older. -/
structure Logged (recovered : ℕ) (s : OrderBook) : Prop where
  le : recovered ≤ s.nextOrder
  handed : ∀ o ∈ s.orderQueue, recovered ≤ o ∧ o < s.nextOrder
  ascending : s.orderQueue.Pairwise fun o p => (s.order o).id = (s.order p).id → o ≤ p

theorem Logged.known_lt (h : s.Logged recovered) (ho : s.Known recovered o) : o < s.nextOrder :=
  ho.elim (fun ho => ho.trans_le h.le) fun ho => (h.handed o ho).2

theorem Later.known (h : Later s s') (ho : s.Known recovered o) : s'.Known recovered o := by
  obtain ⟨new, hnew, -⟩ := h.orderQueue
  refine ho.imp_right fun ho => ?_
  rw [hnew]
  exact List.mem_append.mpr (Or.inl ho)

/-- On the way to a state with such a queue the queue is of this kind as well. -/
theorem Logged.of_later (h : s'.Logged recovered) (hlater : Later s s')
    (hle : recovered ≤ s.nextOrder) (hlt : ∀ o ∈ s.orderQueue, o < s.nextOrder) :
    s.Logged recovered := by
  obtain ⟨new, hnew, -⟩ := hlater.orderQueue
  have hsub : ∀ o ∈ s.orderQueue, o ∈ s'.orderQueue := fun o ho => by
    rw [hnew]
    exact List.mem_append.mpr (Or.inl ho)
  have hasc := h.ascending
  rw [hnew] at hasc
  refine ⟨hle, fun o ho => ⟨(h.handed o (hsub o ho)).1, hlt o ho⟩, ?_⟩
  refine (List.pairwise_append.mp hasc).1.imp_of_mem fun {x y} hx hy hxy he => hxy ?_
  rw [hlater.id x (hlt x hx), hlater.id y (hlt y hy)]
  exact he

/-- **The two cases** for an order that stands for its id, when `handled` handles have been
taken. -/
theorem Logged.stands_cases (h : s.Logged recovered) (ho : s.Stands recovered o) (handled : ℕ) :
    (o ∈ s.orderQueue.drop handled ∧ ∀ store : OrderStore,
      (s.drain (s.orderQueue.drop handled) store).get (s.order o).id =
        OrderStore.outcome (s.order o).toOrderData) ∨
    ∀ p ∈ s.orderQueue.drop handled, (s.order p).id ≠ (s.order o).id := by
  by_cases hwait : ∃ p ∈ s.orderQueue.drop handled, (s.order p).id = (s.order o).id
  · obtain ⟨p, hp, hid⟩ := hwait
    have hpq := List.mem_of_mem_drop hp
    have hpo : p ≤ o := ho.youngest p (Or.inr hpq) hid
    have hasc := h.ascending
    rw [← List.take_append_drop handled s.orderQueue] at hasc
    obtain ⟨-, hdrop, hcross⟩ := List.pairwise_append.mp hasc
    -- the order was not handed over before the handle `p` only
    have hmem : o ∈ s.orderQueue.drop handled := by
      rcases ho.known with hrec | hq
      · exact absurd ((h.handed p hpq).1.trans hpo) (not_le.mpr hrec)
      · rw [← List.take_append_drop handled s.orderQueue] at hq
        rcases List.mem_append.mp hq with htake | hdrop
        · exact le_antisymm hpo (hcross o htake p hp hid.symm) ▸ hp
        · exact hdrop
    refine Or.inl ⟨hmem, fun store => get_drain_of_mem hdrop hmem fun q hq => ?_⟩
    exact ho.youngest q (Or.inr (List.mem_of_mem_drop hq))
  · push Not at hwait
    exact Or.inr hwait

end OrderBook

end LimitOrderBook
