import LimitOrderBook.Ledger.Sturdy
import LimitOrderBook.Lib.WriteBehind
import LimitOrderBook.Server.Events

/-!
# What the repository will hold

The repository is written behind its queue, with the orders as they are when their message is
taken (`LimitOrderBook.Message.order`). A message is about the id of its order, and the last
one about an id counts. So an order that rests or is parked will be in the repository
(`LimitOrderBook.Server.Durable`) as long as nothing is sent about its id after it. Ids are not
unique, as an order that replaces another one has its id. But what is sent about the id of an order
that rests or is parked is sent because of the order that the index has under this id, and no one
else has this id then.

An id whose order is cancelled is forgotten (`LimitOrderBook.Server.Forgotten`): whatever has the id
is marked, and will not be in the repository.
-/

namespace LimitOrderBook

open OrderBook (Request)

theorem OrderBook.Request.sized_iff {r : Request} :
    r.Sized ↔ ∀ a, Ledger.submitted r = some a → 0 < a.qty := by
  cases r <;> simp [Request.Sized, Ledger.submitted]

/-- The order that a message leads to, where the books are ledgers. -/
def Message.order (Ls : String → Ledger) : Message → OrderData
  | .handle X o => (Ls X).order o
  | .orphan d => d

/-- What a message is about. -/
def Message.id (Ls : String → Ledger) (m : Message) : String := (m.order Ls).id

namespace Server

variable {uuid : ℕ → String} {toFloat : ℚ → ℚ} {E : Exchange} {Ls Ls' : String → Ledger}
  {X Y id : String} {r : Request} {generated g o n : ℕ} {new : List ℕ}

/-! ### One book takes a request -/

/-- **One book takes a request**, and the others do nothing. -/
structure Turn (uuid : ℕ → String) (Ls Ls' : String → Ledger) (X : String) (r : Request)
    (generated g : ℕ) : Prop where
  self : Ls' X = ((Ls X).step r).1
  other : ∀ Y, Y ≠ X → Ls' Y = Ls Y
  le : generated ≤ g
  sized : r.Sized
  wf : ((Ls X).step r).1.WellFormed
  newId : ∀ id, Ledger.newId r = some id → id = uuid generated ∧ generated < g

/-- **The books**, apart from the repository. -/
structure Books (uuid : ℕ → String) (Ls : String → Ledger) (generated : ℕ) : Prop where
  sturdy : ∀ X, (Ls X).Sturdy
  /-- Nobody has an id that has not been generated yet. -/
  fresh : ∀ X o, (Ls X).Noted o → ∀ k, generated ≤ k → ((Ls X).order o).id ≠ uuid k
  /-- Nobody else has the id of an order that an index leads to. -/
  sole : ∀ X id e, (Ls X).orders.lookup id = some e →
    ∀ Y o, (Ls Y).Noted o → ((Ls Y).order o).id = id → Y = X ∧ o = e

namespace Books

variable (hb : Books uuid Ls generated) (t : Turn uuid Ls Ls' X r generated g)

include hb t

/-- The orders of all the books stay. -/
theorem aged (ho : (Ls Y).Noted o) : ((Ls' Y).order o).Aged ((Ls Y).order o) := by
  by_cases hY : Y = X
  · subst hY
    rw [t.self]
    exact (hb.sturdy Y).aged_step t.sized ((hb.sturdy Y).lt_of_noted ho)
  · rw [t.other Y hY]
    exact .refl _

theorem noted (ho : (Ls' Y).Noted o) : (Ls Y).Noted o ∨ Y = X ∧ o = (Ls X).nextOrder := by
  by_cases hY : Y = X
  · subst hY
    rw [t.self] at ho
    exact ((hb.sturdy Y).noted_step ho).imp_right fun ho => ⟨rfl, ho⟩
  · rw [t.other Y hY] at ho
    exact Or.inl ho

theorem held (ho : (Ls' Y).Held o) : (Ls Y).Held o ∨ Y = X ∧ o = (Ls X).nextOrder := by
  by_cases hY : Y = X
  · subst hY
    rw [t.self] at ho
    exact ((hb.sturdy Y).wf.held_step ho).imp_right fun ho => ⟨rfl, ho.1⟩
  · rw [t.other Y hY] at ho
    exact Or.inl ho

/-- **The id of the new order** has just been generated, or is that of the order that is
replaced. -/
theorem newName (ho : (Ls' X).Noted (Ls X).nextOrder) :
    (((Ls' X).order (Ls X).nextOrder).id = uuid generated ∧ generated < g) ∨
      ∃ a e, Ledger.Replaces (Ls X) r a e ∧ ((Ls' X).order (Ls X).nextOrder).id = a.id := by
  have hL := hb.sturdy X
  obtain ⟨new, hqueue, hhands⟩ := hL.wf.handsOver r
  rw [t.self] at ho ⊢
  obtain ⟨-, a, ha, hid⟩ := hL.placed_of_noted hhands hqueue ho
  have hname : (((Ls X).step r).1.order (Ls X).nextOrder).id = a.id := (hL.wf.step_new ha).id
  rcases hid with hid | ⟨e, he⟩
  · obtain ⟨hid, hlt⟩ := t.newId a.id hid
    exact Or.inl ⟨hname.trans hid, hlt⟩
  · exact Or.inr ⟨a, e, he, hname⟩

/-- **Who else has the id of the new order** is the order that it replaces. -/
theorem replaced (hn : (Ls' X).Noted (Ls X).nextOrder) (ho : (Ls Y).Noted o)
    (hid : ((Ls Y).order o).id = ((Ls' X).order (Ls X).nextOrder).id) :
    Y = X ∧ ∃ a, Ledger.Replaces (Ls X) r a o ∧ ((Ls Y).order o).id = a.id := by
  rcases hb.newName t hn with ⟨hnew, -⟩ | ⟨a, e, he, hname⟩
  · exact absurd (hid.trans hnew) (hb.fresh Y o ho generated le_rfl)
  · obtain ⟨rfl, rfl⟩ := hb.sole X a.id e he.entry Y o ho (hid.trans hname)
    exact ⟨rfl, a, he, hid.trans hname⟩

theorem fresh_step (huuid : Function.Injective uuid) (ho : (Ls' Y).Noted o) {k : ℕ} (hk : g ≤ k) :
    ((Ls' Y).order o).id ≠ uuid k := by
  rcases hb.noted t ho with hold | ⟨rfl, rfl⟩
  · rw [(hb.aged t hold).keeps.id]
    exact hb.fresh Y o hold k (t.le.trans hk)
  · rcases hb.newName t ho with ⟨hname, hlt⟩ | ⟨a, e, he, hname⟩ <;> rw [hname]
    · exact fun hk' => (hlt.trans_le hk).ne (huuid hk')
    · have hentry := hb.fresh Y e (Or.inr (Or.inl ⟨a.id, he.entry⟩)) k (t.le.trans hk)
      rwa [(hb.sturdy Y).wf.entry_id a.id e he.entry] at hentry

theorem entry_step {Z : String} {e : ℕ} (he : (Ls' Z).orders.lookup id = some e) :
    (Ls Z).orders.lookup id = some e ∨ Z = X ∧ e = (Ls X).nextOrder ∧ id = uuid generated := by
  by_cases hZ : Z = X
  · subst hZ
    rw [t.self] at he
    rcases ((hb.sturdy Z).wf.recorded r).entry id e he with hold | ⟨hnew, hid⟩
    · exact Or.inl hold
    · exact Or.inr ⟨rfl, hnew, (t.newId id hid).1⟩
  · rw [t.other Z hZ] at he
    exact Or.inl he

theorem sole_step {Z : String} {e : ℕ} (he : (Ls' Z).orders.lookup id = some e)
    (ho : (Ls' Y).Noted o) (hid : ((Ls' Y).order o).id = id) : Y = Z ∧ o = e := by
  rcases hb.entry_step t he with hold | ⟨rfl, rfl, rfl⟩
  · have hnoted : (Ls Z).Noted e := Or.inr (Or.inl ⟨id, hold⟩)
    have heid : ((Ls Z).order e).id = id := (hb.sturdy Z).wf.entry_id id e hold
    rcases hb.noted t ho with ho' | ⟨rfl, rfl⟩
    · exact hb.sole Z id e hold Y o ho' ((hb.aged t ho').keeps.id.symm.trans hid)
    · -- an order that is replaced is no longer in the index
      obtain ⟨rfl, a, hrep, ha⟩ := hb.replaced t ho hnoted (heid.trans hid.symm)
      have hgone := hrep.gone
      rw [← ha, heid, ← t.self, he] at hgone
      exact absurd hgone (by simp)
  · rcases hb.noted t ho with ho' | hnew
    · exact absurd ((hb.aged t ho').keeps.id.symm.trans hid) (hb.fresh Y o ho' generated le_rfl)
    · exact hnew

/-- **The books afterwards.** -/
theorem step (huuid : Function.Injective uuid) : Books uuid Ls' g where
  sturdy := fun Y => by
    by_cases hY : Y = X
    · subst hY
      rw [t.self]
      exact (hb.sturdy Y).step t.wf t.sized
    · rw [t.other Y hY]
      exact hb.sturdy Y
  fresh := fun _ _ ho _ hk => hb.fresh_step t huuid ho hk
  sole := fun _ _ _ he _ _ ho hid => hb.sole_step t he ho hid

/-- **What is sent about the id of an order** says that the order is marked. -/
theorem marked_of_sent (hqueue : ((Ls X).step r).1.orderQueue = (Ls X).orderQueue ++ new)
    (hhands : Ledger.HandsOver (Ls X) r new) (hn : n ∈ new) (ho : (Ls Y).Noted o)
    (hid : ((Ls' X).order n).id = ((Ls Y).order o).id) : ((Ls' Y).order o).cancelled = true := by
  have hnoted : (Ls' X).Noted n := by
    rw [t.self]
    exact Or.inr (Or.inr (hqueue ▸ List.mem_append_right _ hn))
  cases hhands with
  | placed a ha _ =>
    rw [List.mem_singleton] at hn
    subst hn
    obtain ⟨rfl, b, hrep, -⟩ := hb.replaced t hnoted ho hid.symm
    rw [t.self]
    exact hrep.mark
  | found new _ _ hfound =>
    obtain ⟨⟨id, he⟩, hmark⟩ := hfound n hn
    have hold : (Ls X).Noted n := Or.inr (Or.inl ⟨id, he⟩)
    rw [(hb.aged t hold).keeps.id, (hb.sturdy X).wf.entry_id id n he] at hid
    obtain ⟨rfl, rfl⟩ := hb.sole X id n he Y o ho hid.symm
    rw [t.self]
    exact hmark

end Books

/-! ### The repository -/

/-- What the repository will hold for an id, if the books do nothing more. -/
abbrev WillHold (E : Exchange) (Ls : String → Ledger) (id : String) (P : Message → Prop)
    (Q : Option OrderData → Prop) : Prop :=
  AtLast (Message.id Ls) E.store.get E.queue id P Q

/-- The record says what the order says, and nothing is missing from it that the order has. -/
def Records (x : OrderData) (v : Option OrderData) : Prop :=
  ∃ d, v = some d ∧ x.archived.Keeps d.archived ∧ x.currentQty ≤ d.currentQty

/-- **Whatever rests or is parked will be in the repository.** -/
structure Durable (uuid : ℕ → String) (E : Exchange) (Ls : String → Ledger) : Prop where
  books : Books uuid Ls E.generated
  refines : ∀ X s, E.books.lookup X = some s → Refines s (Ls X)
  handle : ∀ m ∈ E.queue, ∃ X s o, m = .handle X o ∧ E.books.lookup X = some s ∧
    o ∈ (Ls X).orderQueue
  record : ∀ d ∈ E.store.records, 0 < d.currentQty ∧ ∀ k, E.generated ≤ k → d.id ≠ uuid k
  backed : ∀ X o, (Ls X).Held o → ((Ls X).order o).cancelled = false →
    WillHold E Ls ((Ls X).order o).id (· = .handle X o) (Records ((Ls X).order o))

/-- **Nothing will be in the repository under the id.** -/
structure Forgotten (uuid : ℕ → String) (E : Exchange) (Ls : String → Ledger) (id : String) :
    Prop where
  fresh : ∀ k, E.generated ≤ k → id ≠ uuid k
  marked : ∀ X o, (Ls X).Noted o → ((Ls X).order o).id = id → ((Ls X).order o).cancelled = true
  gone : WillHold E Ls id (fun m => (m.order Ls).cancelled = true) (· = none)

theorem Records.refl (x : OrderData) : Records x (some x.archived) := ⟨_, rfl, .refl _, le_rfl⟩

theorem Records.aged {x y : OrderData} {v : Option OrderData} (h : Records x v) (hy : y.Aged x) :
    Records y v := by
  obtain ⟨d, rfl, hkeeps, hle⟩ := h
  exact ⟨d, rfl, hy.keeps.archived.trans hkeeps, hy.qty.trans hle⟩

/-- What the repository does with an order that has something left. -/
theorem outcome_eq_some {x : OrderData} (hc : x.cancelled = false) (hq : 0 < x.currentQty) :
    OrderStore.outcome x = some x.archived := by
  rw [OrderStore.outcome, if_neg]
  simp [hc, OrderData.isFullfilled, hq.ne']

theorem outcome_eq_none {x : OrderData} (hc : x.cancelled = true) :
    OrderStore.outcome x = none := by
  rw [OrderStore.outcome, hc, if_pos (Bool.true_or _)]

namespace Durable

variable (hd : Durable uuid E Ls)

include hd

theorem usable : E.Usable where
  book := fun X s hs => ⟨Ls X, hd.refines X s hs⟩
  message := fun m hm => by
    obtain ⟨X, s, o, rfl, hs, -⟩ := hd.handle m hm
    exact ⟨_, by rw [Exchange.read, hs]; rfl⟩

/-- A message leads to an order that the repository knows. -/
theorem read {m : Message} (hm : m ∈ E.queue) :
    E.read m = some (m.order Ls) ∧ ∃ X o, m = .handle X o ∧ (Ls X).Noted o := by
  obtain ⟨X, s, o, rfl, hs, ho⟩ := hd.handle m hm
  refine ⟨?_, X, o, rfl, Or.inr (Or.inr ho)⟩
  rw [Exchange.read, hs, Message.order, ← (hd.refines X s hs).order o]
  rfl

/-! ### A step of the repository -/

theorem persist {m : Message} {rest : List Message} {y : OrderData} (hq : E.queue = m :: rest)
    (hy : E.read m = some y) :
    Durable uuid { E with queue := rest, store := E.store.processMessage y } Ls := by
  have hm : m ∈ E.queue := by simp [hq]
  obtain ⟨hread, X, o, rfl, ho⟩ := hd.read hm
  obtain rfl : y = (Ls X).order o := Option.some.inj (hy.symm.trans hread)
  refine ⟨hd.books, hd.refines, fun m' hm' => hd.handle m' (by simp [hq, hm']), fun d hmem => ?_,
    fun Y p hp hc => ?_⟩
  · rcases OrderStore.eq_of_mem_processMessage hmem with ⟨rfl, -, hful⟩ | hmem
    · have hL := hd.books.sturdy X
      have hne : (Ls X).qty o ≠ 0 := of_decide_eq_false hful
      exact ⟨lt_of_le_of_ne (hL.nonneg (hL.lt_of_noted ho)) hne.symm, hd.books.fresh X o ho⟩
    · exact hd.record d hmem
  · have hback := hd.backed Y p hp hc
    rw [WillHold, hq] at hback
    rw [WillHold, OrderStore.get_processMessage]
    refine hback.write (fun m => OrderStore.outcome (m.order Ls)) fun hsame => ?_
    obtain ⟨rfl, rfl⟩ := Message.handle.inj hsame
    rw [Message.order, outcome_eq_some hc ((hd.books.sturdy X).pos hp)]
    exact .refl _

end Durable

theorem Forgotten.persist {m : Message} {rest : List Message} {y : OrderData}
    (hf : Forgotten uuid E Ls id) (hd : Durable uuid E Ls) (hq : E.queue = m :: rest)
    (hy : E.read m = some y) :
    Forgotten uuid { E with queue := rest, store := E.store.processMessage y } Ls id := by
  obtain ⟨hread, -⟩ := hd.read (m := m) (by simp [hq])
  obtain rfl : y = m.order Ls := Option.some.inj (hy.symm.trans hread)
  refine ⟨hf.fresh, hf.marked, ?_⟩
  have hgone := hf.gone
  rw [WillHold, hq] at hgone
  rw [WillHold, OrderStore.get_processMessage]
  exact hgone.write (fun m => OrderStore.outcome (m.order Ls)) outcome_eq_none

/-! ### A request to a book -/

section Request

variable {s s' : OrderBook} (hd : Durable uuid E Ls) (t : Turn uuid Ls Ls' X r E.generated g)
  (hX : E.books.lookup X = some s) (h' : Refines s' (Ls' X))

include hd t hX h'

/-- What the repository will hold is what it would have held, but for the new messages. -/
theorem WillHold.setBook {P P' : Message → Prop} {Q Q' : Option OrderData → Prop}
    (hw : WillHold E Ls id P Q) (hP : ∀ m ∈ E.queue, P m → P' m) (hQ : ∀ v, Q v → Q' v)
    (hqueue : ((Ls X).step r).1.orderQueue = (Ls X).orderQueue ++ new)
    (hnew : ∀ n ∈ new, ((Ls' X).order n).id = id → P' (.handle X n)) :
    WillHold (E.setBook X s s' g) Ls' id P' Q' := by
  have hkey : ∀ m ∈ E.queue, Message.id Ls' m = Message.id Ls m := fun m hm => by
    obtain ⟨-, Y, o, rfl, ho⟩ := hd.read hm
    exact (hd.books.aged t ho).keeps.id
  rw [← t.self] at hqueue
  rw [WillHold, E.queue_setBook (hd.refines X s hX) h' hqueue]
  refine (hw.imp hkey hP hQ).append fun m hm hid => ?_
  obtain ⟨n, hn, rfl⟩ := List.mem_map.mp hm
  exact hnew n hn hid

theorem Durable.setBook (huuid : Function.Injective uuid) :
    Durable uuid (E.setBook X s s' g) Ls' := by
  obtain ⟨new, hqueue, hhands⟩ := (hd.books.sturdy X).wf.handsOver r
  have hself : (Ls' X).orderQueue = (Ls X).orderQueue ++ new := by rw [t.self, hqueue]
  have hsent := E.queue_setBook (X := X) (g := g) (hd.refines X s hX) h' hself
  refine ⟨hd.books.step t huuid, fun Y u hu => ?_, fun m hm => ?_, fun d hmem => ?_,
    fun Y o ho hc => ?_⟩
  · by_cases hY : Y = X
    · subst hY
      rw [Exchange.setBook, AList.lookup_insert, Option.some.injEq] at hu
      exact hu ▸ h'
    · rw [Exchange.setBook, AList.lookup_insert_ne hY] at hu
      rw [t.other Y hY]
      exact hd.refines Y u hu
  · rw [hsent] at hm
    rcases List.mem_append.mp hm with hm | hm
    · obtain ⟨Y, u, o, rfl, hu, ho⟩ := hd.handle m hm
      by_cases hY : Y = X
      · subst hY
        exact ⟨Y, s', o, rfl, AList.lookup_insert _, hself ▸ List.mem_append_left _ ho⟩
      · exact ⟨Y, u, o, rfl, (AList.lookup_insert_ne hY).trans hu, t.other Y hY ▸ ho⟩
    · obtain ⟨n, hn, rfl⟩ := List.mem_map.mp hm
      exact ⟨X, s', n, rfl, AList.lookup_insert _, hself ▸ List.mem_append_right _ hn⟩
  · exact ⟨(hd.record d hmem).1, fun k hk => (hd.record d hmem).2 k (t.le.trans hk)⟩
  · rcases hd.books.held t ho with hold | ⟨rfl, rfl⟩
    · -- nothing is sent about an order that is not marked
      have haged := hd.books.aged t (Or.inl hold)
      have hcold : ((Ls Y).order o).cancelled = false := Bool.eq_false_iff.mpr fun hmark =>
        absurd (haged.mark hmark) (by simp [hc])
      rw [haged.keeps.id]
      exact (hd.backed Y o hold hcold).setBook hd t hX h' (fun _ _ hm => hm)
        (fun _ hv => hv.aged haged) hqueue fun n hn hid => absurd
          (hd.books.marked_of_sent t hqueue hhands hn (Or.inl hold) hid) (by simp [hc])
    · have hheld : ((Ls Y).step r).1.Noted (Ls Y).nextOrder := t.self ▸ Or.inl ho
      obtain ⟨rfl, -⟩ := (hd.books.sturdy Y).placed_of_noted hhands hqueue hheld
      rw [WillHold, hsent]
      exact AtLast.concat rfl rfl

/-- **An id stays forgotten.** -/
theorem Forgotten.setBook (hf : Forgotten uuid E Ls id) :
    Forgotten uuid (E.setBook X s s' g) Ls' id := by
  obtain ⟨new, hqueue, hhands⟩ := (hd.books.sturdy X).wf.handsOver r
  have hmarked : ∀ Y o, (Ls' Y).Noted o → ((Ls' Y).order o).id = id →
      ((Ls' Y).order o).cancelled = true := fun Y o ho hid => by
    rcases hd.books.noted t ho with hold | ⟨rfl, rfl⟩
    · have haged := hd.books.aged t hold
      exact haged.mark (hf.marked Y o hold (haged.keeps.id.symm.trans hid))
    · rcases hd.books.newName t ho with ⟨hname, -⟩ | ⟨a, e, he, hname⟩
      · exact absurd (hid.symm.trans hname) (hf.fresh _ le_rfl)
      · -- a marked order is not replaced
        have heid := (hd.books.sturdy Y).wf.entry_id a.id e he.entry
        have hmark := hf.marked Y e (Or.inr (Or.inl ⟨a.id, he.entry⟩))
          (heid.trans (hname.symm.trans hid))
        exact absurd hmark (by simp [he.live])
  refine ⟨fun k hk => hf.fresh k (t.le.trans hk), hmarked, ?_⟩
  refine hf.gone.setBook hd t hX h' (fun m hm hc => ?_) (fun _ hv => hv) hqueue fun n hn hid => ?_
  · obtain ⟨-, Y, o, rfl, ho⟩ := hd.read hm
    exact (hd.books.aged t ho).mark hc
  · refine hmarked X n (Or.inr (Or.inr ?_)) hid
    rw [t.self, hqueue]
    exact List.mem_append_right _ hn

end Request

/-- **An id is forgotten** when its order is cancelled. -/
theorem Durable.forgotten_cancel {s s' : OrderBook} {e : ℕ} (hd : Durable uuid E Ls)
    (t : Turn uuid Ls Ls' X (.cancel id) E.generated g) (hX : E.books.lookup X = some s)
    (h' : Refines s' (Ls' X)) (he : (Ls X).orders.lookup id = some e) :
    Forgotten uuid (E.setBook X s s' g) Ls' id := by
  have hL := hd.books.sturdy X
  have hnoted : (Ls X).Noted e := Or.inr (Or.inl ⟨id, he⟩)
  have heid : ((Ls X).order e).id = id := hL.wf.entry_id id e he
  have hmark : ((Ls' X).order e).cancelled = true := by
    rw [t.self]
    exact Ledger.marked_cancelOrder he
  have hqueue : ((Ls X).step (.cancel id)).1.orderQueue = (Ls X).orderQueue ++ [e] := by
    have hsent := (Ls X).cancelOrder_orderQueue id
    rwa [he] at hsent
  refine ⟨fun k hk => heid ▸ hd.books.fresh X e hnoted k (t.le.trans hk), fun Y o ho hid => ?_, ?_⟩
  · rcases hd.books.noted t ho with hold | ⟨rfl, rfl⟩
    · obtain ⟨rfl, rfl⟩ := hd.books.sole X id e he Y o hold
        ((hd.books.aged t hold).keeps.id.symm.trans hid)
      exact hmark
    · obtain ⟨new, hnew, hhands⟩ := hL.wf.handsOver (.cancel id)
      obtain ⟨-, a, ha, -⟩ := hL.placed_of_noted hhands hnew (t.self ▸ ho)
      exact absurd ha (by simp [Ledger.submitted])
  · rw [WillHold, E.queue_setBook (hd.refines X s hX) h' (t.self ▸ hqueue)]
    exact AtLast.concat ((hd.books.aged t hnoted).keeps.id.trans heid) hmark

/-! ### A restart -/

/-- **New books** over a repository that has written everything. -/
theorem exists_durable (hq : E.queue = [])
    (hrec : ∀ d ∈ E.store.records, 0 < d.currentQty ∧ ∀ k, E.generated ≤ k → d.id ≠ uuid k)
    (hbooks : ∀ X s, E.books.lookup X = some s →
      ∃ price, Refines s ((Ledger.empty X price).recover E.store.getAll)) :
    ∃ Ls, Durable uuid E Ls ∧ ∀ id, E.store.get id = none →
      (∀ k, E.generated ≤ k → id ≠ uuid k) → Forgotten uuid E Ls id := by
  have hprice : ∀ X, ∃ price, ∀ s, E.books.lookup X = some s →
      Refines s ((Ledger.empty X price).recover E.store.getAll) := fun X => by
    rcases hX : E.books.lookup X with _ | s
    · exact ⟨0, fun s hs => absurd hs (by simp)⟩
    · obtain ⟨price, hs⟩ := hbooks X s hX
      exact ⟨price, fun s' hs' => Option.some.inj hs' ▸ hs⟩
  choose price hprice using hprice
  have hrecord : ∀ X o, ((Ledger.empty X (price X)).recover E.store.getAll).Noted o →
      ∃ x ∈ E.store.records, ((Ledger.empty X (price X)).recover E.store.getAll).order o = x :=
    fun X o ho => Ledger.exists_record_of_noted ho
  refine ⟨fun X => (Ledger.empty X (price X)).recover E.store.getAll, ?_, fun id hnone hfresh => ?_⟩
  · refine ⟨⟨fun X => ?_, fun X o ho => ?_, fun X id e he => ?_⟩, hprice, by simp [hq], hrec,
      fun X o ho _ => ?_⟩
    · exact Ledger.sturdy_recover X (price X) fun x hx => (hrec x hx).1
    · obtain ⟨x, hx, horder⟩ := hrecord X o ho
      rw [horder]
      exact (hrec x hx).2
    · rw [(Ledger.recovered_new X (price X) E.store.getAll).orders] at he
      exact absurd he (by simp)
    · obtain ⟨x, hx, horder⟩ := hrecord X o (Or.inl ho)
      rw [WillHold, hq, horder]
      exact AtLast.nil ⟨x, OrderStore.get_eq_some.mpr ⟨hx, rfl⟩, .refl _, le_rfl⟩
  · refine ⟨hfresh, fun X o ho hid => ?_, ?_⟩
    · obtain ⟨x, hx, horder⟩ := hrecord X o ho
      rw [horder] at hid
      rw [OrderStore.get_eq_some.mpr ⟨hx, hid⟩] at hnone
      exact absurd hnone (by simp)
    · rw [WillHold, hq]
      exact AtLast.nil hnone

/-! ### Every event -/

/-- A restart after which the repository still has its queue. -/
def Event.keepsQueue : Event → Bool
  | .restart _ keepsQueue => keepsQueue
  | _ => false

/-- **What a run must not do**: submit an order for nothing, or start the server again beside a
queue of messages about the old books. -/
structure Clean (toFloat : ℚ → ℚ) (E : Exchange) (e : Event) : Prop where
  sized : ∀ a ∈ e.order toFloat, 0 < a.qty
  queue : e.keepsQueue = true → E.queue = []

instance (toFloat : ℚ → ℚ) (E : Exchange) (e : Event) : Decidable (Clean toFloat E e) :=
  decidable_of_iff ((∀ a ∈ e.order toFloat, 0 < a.qty) ∧ (e.keepsQueue = true → E.queue = []))
    ⟨fun h => ⟨h.1, h.2⟩, fun h => ⟨h.1, h.2⟩⟩

/-- No message is lost: a restart finds none. -/
def Written (E : Exchange) (e : Event) : Prop := Restarts (e, none) → E.queue = []

instance (E : Exchange) (e : Event) : Decidable (Written E e) :=
  inferInstanceAs (Decidable (Restarts (e, none) → E.queue = []))

/-- **Every event** keeps what is durable, and what is forgotten if no message is lost. -/
theorem Durable.does (huuid : Function.Injective uuid) (hd : Durable uuid E Ls) {e : Event}
    {E' : Exchange} {reply : Option Reply} (hdoes : Does uuid toFloat E e E' reply)
    (hclean : Clean toFloat E e) : ∃ Ls', Durable uuid E' Ls' ∧ (Written E e →
      ∀ id, Forgotten uuid E Ls id ∨ Cancels id (e, reply) → Forgotten uuid E' Ls' id) := by
  cases hdoes with
  | nothing reply _ _ _ hcancels =>
    exact ⟨Ls, hd, fun _ id hid => hid.resolve_right (hcancels id)⟩
  | request X s s' r g reply hX hg hr =>
    obtain ⟨h', hreplied⟩ := hr (Ls X) (hd.refines X s hX)
    have hself : Function.update Ls X ((Ls X).step r).1 X = ((Ls X).step r).1 :=
      Function.update_self ..
    have t : Turn uuid Ls (Function.update Ls X ((Ls X).step r).1) X r E.generated g :=
      { self := hself
        other := fun Y hY => Function.update_of_ne hY ..
        le := hg
        sized := Request.sized_iff.mpr fun a ha => by
          obtain ⟨⟨b, hb, hqty⟩, -⟩ := hreplied.submits a ha
          exact hqty ▸ hclean.sized b hb
        wf := h'.wf
        newId := fun id hid => ⟨(hreplied.newId id hid).1, (hreplied.newId id hid).2.1⟩ }
    rw [← hself] at h'
    refine ⟨_, hd.setBook t hX h' huuid, fun _ id hid => ?_⟩
    rcases hid with hf | hid
    · exact hf.setBook hd t hX h'
    · obtain ⟨rfl, e, he⟩ := hreplied.cancels id hid
      exact hd.forgotten_cancel t hX h' he
  | restart instruments keepsQueue books he hbooks =>
    subst he
    have hqueue : (if keepsQueue then
        E.queue.filterMap fun m => (E.read m).map Message.orphan else []) = [] := by
      cases keepsQueue with
      | false => rfl
      | true => simp [hclean.queue rfl]
    obtain ⟨Ls', hd', hf'⟩ := @exists_durable uuid { E with
      books := books
      queue := if keepsQueue then E.queue.filterMap fun m => (E.read m).map .orphan else [] }
      hqueue hd.record hbooks
    refine ⟨Ls', hd', fun hwritten id hid => ?_⟩
    have hold := hid.resolve_right fun hx => hx
    have hgone := hold.gone
    rw [WillHold, hwritten trivial] at hgone
    exact hf' id hgone.of_nil hold.fresh
  | persist m rest d he hq hy =>
    subst he
    exact ⟨Ls, hd.persist hq hy, fun _ id hid =>
      (hid.resolve_right fun hx => hx).persist hd hq hy⟩

/-- **Whatever was cancelled is forgotten.** -/
def Lasting (uuid : ℕ → String) (E : Exchange) (h : List Entry) : Prop :=
  ∃ Ls, Durable uuid E Ls ∧ ∀ id, (∃ x ∈ h, Cancels id x) → Forgotten uuid E Ls id

theorem Lasting.usable {h : List Entry} (hl : Lasting uuid E h) : E.Usable := by
  obtain ⟨Ls, hd, -⟩ := hl
  exact hd.usable

theorem Lasting.does {h : List Entry} (huuid : Function.Injective uuid) (hl : Lasting uuid E h)
    {e : Event} {E' : Exchange} {reply : Option Reply} (hdoes : Does uuid toFloat E e E' reply)
    (hclean : Clean toFloat E e) (hwritten : Written E e) :
    Lasting uuid E' (h ++ [(e, reply)]) := by
  obtain ⟨Ls, hd, hf⟩ := hl
  obtain ⟨Ls', hd', hf'⟩ := hd.does huuid hdoes hclean
  refine ⟨Ls', hd', fun id hid => hf' hwritten id ?_⟩
  obtain ⟨x, hx, hid⟩ := hid
  rcases List.mem_append.mp hx with hx | hx
  · exact Or.inl (hf id ⟨x, hx, hid⟩)
  · exact Or.inr (List.mem_singleton.mp hx ▸ hid)

end Server

end LimitOrderBook
