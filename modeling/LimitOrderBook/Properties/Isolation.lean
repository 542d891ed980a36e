import LimitOrderBook.Exchange.Defs
import LimitOrderBook.Ledger.Outgoing
import LimitOrderBook.Ledger.Recovered

/-!
# Instruments do not mix

Whether every live order of a book names the instrument of that book, and no id is live in two
books at once (`LimitOrderBook.Exchange.Isolated`). The handler that creates orders takes the
book from the path of the request and the instrument from its body, and the constructor of an
exchange gives every book all the records of the repository; so this holds exactly as long as
the two agree for every order that stays, and the records that a restart finds name the
instrument of every book (`LimitOrderBook.isolation_iff`).
-/

namespace LimitOrderBook

open OrderBook (Request)

namespace Exchange

/-- **Every live order is in the book of its instrument**, and its id is live nowhere else. -/
structure Isolated (E : Exchange) : Prop where
  instrument : ∀ X s, E.books.lookup X = some s →
    ∃ live, s.liveOrders = .ok live ∧ ∀ o ∈ live, (s.order o).instrument = X
  apart : ∀ X Y s t, X ≠ Y → E.books.lookup X = some s → E.books.lookup Y = some t →
    ∀ live live', s.liveOrders = .ok live → t.liveOrders = .ok live' →
      ∀ o ∈ live, ∀ o' ∈ live', (s.order o).id ≠ (t.order o').id

/-- The condition on an event: the order of a request that is not refused names the instrument
of the path, unless it does not stay; the records that a restart puts into the books name the
instrument of every book. -/
def keepsApart (E : Exchange) : Event → Prop
  | .create _ instrument order => ∀ s, E.books.lookup instrument = some s → order.side ≠ .unkown →
      s.stays order = true → order.instrument = instrument
  | .restart instruments _ =>
      ∀ i ∈ instruments, ∀ x ∈ standing E.store.records, x.instrument = i.1
  | _ => True

/-- The instruments of an exchange are distinct. -/
def Event.Distinct : Event → Prop
  | .restart instruments _ => (instruments.map Prod.fst).Nodup
  | _ => True

/-- What holds of every book, if `generated` ids have been generated. -/
structure BookSound (uuid : ℕ → String) (generated : ℕ) (s : OrderBook) (L : Ledger) : Prop where
  refines : Refines s L
  inPlace : L.InPlace
  queued : ∀ o ∈ L.orderQueue, o < L.nextOrder
  fresh : ∀ o < L.nextOrder, ∀ k ≥ generated, (L.order o).id ≠ uuid k

/-- **No id that is still to come is held anywhere**, and the messages are about orders of the
books. -/
structure Sound (uuid : ℕ → String) (E : Exchange) : Prop where
  book : ∀ X s, E.books.lookup X = some s → ∃ L, BookSound uuid E.generated s L
  store : ∀ x ∈ E.store.records, ∀ k ≥ E.generated, x.id ≠ uuid k
  orphan : ∀ x, Message.orphan x ∈ E.queue → ∀ k ≥ E.generated, x.id ≠ uuid k
  handle : ∀ X o, Message.handle X o ∈ E.queue → ∃ s, E.books.lookup X = some s ∧ o < s.nextOrder

variable {uuid : ℕ → String} {E : Exchange} {X : String} {s s' : OrderBook} {L : Ledger} {g : ℕ}

theorem sound_closed {store : OrderStore} (hstore : ∀ x ∈ store.records, ∀ k, x.id ≠ uuid k) :
    Sound uuid (closed store) where
  book := by simp [closed]
  store := fun x hx k _ => hstore x hx k
  orphan := by simp [closed]
  handle := by simp [closed]

theorem isolated_closed (store : OrderStore) : Isolated (closed store) :=
  ⟨by simp [closed], by simp [closed]⟩

/-- What a message is about is not an order with an id that is still to come. -/
theorem Sound.read (h : E.Sound uuid) {m : Message} (hm : m ∈ E.queue) :
    ∃ x, E.read m = some x ∧ ∀ k ≥ E.generated, x.id ≠ uuid k := by
  cases m with
  | handle X o =>
    obtain ⟨s, hs, ho⟩ := h.handle X o hm
    obtain ⟨L, hL⟩ := h.book X s hs
    refine ⟨(s.order o).toOrderData, by rw [Exchange.read, hs]; rfl, ?_⟩
    rw [hL.refines.order]
    exact hL.fresh o (hL.refines.nextOrder ▸ ho)
  | orphan x => exact ⟨x, rfl, h.orphan x hm⟩

/-! ### Requests to one book -/

/-- The requests that the handlers make of a book. -/
def Handled : Request → Prop
  | .add _ _ => True
  | .cancel _ => True
  | _ => False

theorem Handled.keepsOrders {r : Request} (h : Handled r) : r.keepsOrders = true := by
  cases r with
  | modify a => exact absurd h (by simp [Handled])
  | _ => rfl

/-- What a request hands to the repository are orders of the book. -/
theorem BookSound.handed (h : BookSound uuid g s L) {r : Request} (hr : Handled r) :
    ∃ new, (L.step r).1.orderQueue = L.orderQueue ++ new ∧ ∀ o ∈ new, o < (L.step r).1.nextOrder := by
  have hnext := (h.inPlace.wf.stepFrame hr.keepsOrders).nextOrder
  cases r with
  | add now a =>
    refine ⟨_, L.step_add_orderQueue now a, fun o ho => ?_⟩
    rw [List.mem_singleton.mp ho, hnext]
    exact Nat.lt_succ_self _
  | cancel id =>
    refine ⟨_, L.cancelOrder_orderQueue id, fun o ho => ?_⟩
    rw [hnext]
    exact h.inPlace.wf.entry_lt id o (Option.mem_toList.mp ho)
  | _ => exact hr.elim

theorem BookSound.step (h : BookSound uuid E.generated s L) {r : Request} (hr : Handled r)
    (hg : E.generated ≤ g) (hnew : ∀ a, r.newOrder = some a → ∀ k ≥ g, a.id ≠ uuid k)
    (h' : Refines s' (L.step r).1) : BookSound uuid g s' (L.step r).1 := by
  have hf := h.inPlace.wf.stepFrame hr.keepsOrders
  obtain ⟨new, hqueue, hlt⟩ := h.handed hr
  refine ⟨h', h.inPlace.step hr.keepsOrders, fun o ho => ?_, fun o ho k hk => ?_⟩
  · rw [hqueue] at ho
    rcases List.mem_append.mp ho with ho | ho
    · have := h.queued o ho
      rw [hf.nextOrder]
      omega
    · exact hlt o ho
  · rcases lt_or_ge o L.nextOrder with hold | hold
    · rw [(hf.keeps o hold).id]
      exact h.fresh o hold k (hg.trans hk)
    · rw [hf.nextOrder] at ho
      rcases ha : r.newOrder with _ | a
      · simp [ha] at ho
        omega
      · have hlen : r.newOrder.toList.length = 1 := by rw [ha]; rfl
        obtain rfl : o = L.nextOrder := by omega
        rw [(hf.new a ha).id]
        exact hnew a ha k hk

theorem Sound.setBook (h : E.Sound uuid) (hX : E.books.lookup X = some s)
    (hL : BookSound uuid E.generated s L) {r : Request} (hr : Handled r)
    (hg : E.generated ≤ g) (hnew : ∀ a, r.newOrder = some a → ∀ k ≥ g, a.id ≠ uuid k)
    (h' : Refines s' (L.step r).1) : Sound uuid (E.setBook X s s' g) := by
  have hL' := hL.step hr hg hnew h'
  have hf := hL.inPlace.wf.stepFrame hr.keepsOrders
  obtain ⟨new, hqueue, hlt⟩ := hL.handed hr
  have hdrop : s'.orderQueue.drop s.orderQueue.length = new := by
    rw [h'.orderQueue, hqueue, hL.refines.orderQueue, List.drop_left]
  have hmem : ∀ m ∈ (E.setBook X s s' g).queue, m ∈ E.queue ∨ ∃ o ∈ new, m = .handle X o := by
    intro m hm
    rw [Exchange.setBook, hdrop, List.mem_append, List.mem_map] at hm
    exact hm.imp_right fun ⟨o, ho, he⟩ => ⟨o, ho, he.symm⟩
  refine ⟨fun Y t ht => ?_, fun x hx k hk => h.store x hx k (hg.trans hk), fun x hx k hk => ?_,
    fun Y o ho => ?_⟩
  · by_cases hY : Y = X
    · subst hY
      rw [Exchange.setBook, AList.lookup_insert, Option.some.injEq] at ht
      exact ⟨_, ht ▸ hL'⟩
    · rw [Exchange.setBook, AList.lookup_insert_ne hY] at ht
      obtain ⟨M, hM⟩ := h.book Y t ht
      exact ⟨M, { hM with fresh := fun o ho k hk => hM.fresh o ho k (hg.trans hk) }⟩
  · rcases hmem _ hx with hx | ⟨o, -, he⟩
    · exact h.orphan x hx k (hg.trans hk)
    · cases he
  · by_cases hY : Y = X
    · subst hY
      refine ⟨s', AList.lookup_insert _, ?_⟩
      rcases hmem _ ho with ho | ⟨o', ho', he⟩
      · obtain ⟨t, ht, hot⟩ := h.handle Y o ho
        obtain rfl : s = t := Option.some.inj (hX.symm.trans ht)
        rw [hL.refines.nextOrder] at hot
        rw [h'.nextOrder, hf.nextOrder]
        omega
      · cases he
        rw [h'.nextOrder]
        exact hlt o ho'
    · rcases hmem _ ho with ho | ⟨o', -, he⟩
      · obtain ⟨t, ht, hot⟩ := h.handle Y o ho
        exact ⟨t, (AList.lookup_insert_ne hY).trans ht, hot⟩
      · cases he
        exact absurd rfl hY

/-- **Isolation after a change of one book** whose live orders are old ones, or have an id that
no live order of another book has. -/
theorem Isolated.setBook (hp : E.Isolated) (hX : E.books.lookup X = some s) (h : Refines s L)
    {L' : Ledger} (h' : Refines s' L')
    (hlive : ∀ o ∈ L'.live, (o ∈ L.live ∧ (L'.order o).id = (L.order o).id) ∨
      ∀ Y t live, E.books.lookup Y = some t → t.liveOrders = .ok live →
        ∀ o' ∈ live, (L'.order o).id ≠ (t.order o').id) :
    (E.setBook X s s' g).Isolated ↔ ∀ o ∈ L'.live, (L'.order o).instrument = X := by
  have hdata : ∀ o, (s'.order o).id = (L'.order o).id ∧
      (s'.order o).instrument = (L'.order o).instrument := fun o =>
    ⟨congrArg OrderData.id (h'.order o), congrArg OrderData.instrument (h'.order o)⟩
  have hid : ∀ Y t live, Y ≠ X → E.books.lookup Y = some t → t.liveOrders = .ok live →
      ∀ o ∈ L'.live, ∀ o' ∈ live, (s'.order o).id ≠ (t.order o').id := by
    intro Y t live hY ht hlv o ho o' ho'
    rw [(hdata o).1]
    rcases hlive o ho with ⟨hold, hsame⟩ | hnew
    · rw [hsame, ← h.order]
      exact hp.apart X Y s t (Ne.symm hY) hX ht _ _ h.liveOrders hlv o hold o' ho'
    · exact hnew Y t live ht hlv o' ho'
  constructor
  · intro hiso o ho
    obtain ⟨live, hlv, hall⟩ := hiso.instrument X s' (AList.lookup_insert _)
    rw [h'.liveOrders, Except.ok.injEq] at hlv
    subst hlv
    rw [← (hdata o).2]
    exact hall o ho
  · intro hall
    refine ⟨fun Y t ht => ?_, fun Y Z t u hYZ ht hu live live' hlv hlv' o ho o' ho' => ?_⟩
    · by_cases hY : Y = X
      · subst hY
        rw [Exchange.setBook, AList.lookup_insert, Option.some.injEq] at ht
        subst ht
        refine ⟨_, h'.liveOrders, fun o ho => ?_⟩
        rw [(hdata o).2]
        exact hall o ho
      · rw [Exchange.setBook, AList.lookup_insert_ne hY] at ht
        exact hp.instrument Y t ht
    · by_cases hY : Y = X
      · subst hY
        rw [Exchange.setBook, AList.lookup_insert, Option.some.injEq] at ht
        rw [Exchange.setBook, AList.lookup_insert_ne (Ne.symm hYZ)] at hu
        subst ht
        rw [h'.liveOrders, Except.ok.injEq] at hlv
        subst hlv
        exact hid Z u live' (Ne.symm hYZ) hu hlv' o ho o' ho'
      · rw [Exchange.setBook, AList.lookup_insert_ne hY] at ht
        by_cases hZ : Z = X
        · subst hZ
          rw [Exchange.setBook, AList.lookup_insert, Option.some.injEq] at hu
          subst hu
          rw [h'.liveOrders, Except.ok.injEq] at hlv'
          subst hlv'
          exact (hid Y t live hY ht hlv o' ho' o ho).symm
        · rw [Exchange.setBook, AList.lookup_insert_ne hZ] at hu
          exact hp.apart Y Z t u hYZ ht hu live live' hlv hlv' o ho o' ho'

/-- The live orders of an isolated book name its instrument. -/
theorem Isolated.named (hp : E.Isolated) (hX : E.books.lookup X = some s) (h : Refines s L) :
    ∀ o ∈ L.live, (L.order o).instrument = X := by
  obtain ⟨live, hlv, hall⟩ := hp.instrument X s hX
  rw [h.liveOrders, Except.ok.injEq] at hlv
  subst hlv
  intro o ho
  rw [← h.order]
  exact hall o ho

/-! ### Events -/

theorem Sound.cancel (h : E.Sound uuid) (hp : E.Isolated) (X id : String) :
    ∃ E' answer, E.cancel X id = .ok (E', answer) ∧ E'.Sound uuid ∧ E'.Isolated := by
  rw [Exchange.cancel]
  split
  · exact ⟨E, none, rfl, h, hp⟩
  · next s hX =>
    obtain ⟨L, hL⟩ := h.book X s hX
    obtain ⟨s', hs', h'⟩ := hL.refines.step (.cancel id)
    have hf := hL.inPlace.wf.stepFrame (r := .cancel id) rfl
    have hold : ∀ o ∈ (L.step (.cancel id)).1.live,
        o ∈ L.live ∧ ((L.step (.cancel id)).1.order o).Keeps (L.order o) := by
      intro o ho
      rcases hL.inPlace.mem_live_step (r := .cancel id) rfl ho with ho | ⟨hnew, -⟩
      · exact ⟨ho, hf.keeps o (hL.inPlace.wf.live_lt ho)⟩
      · exact absurd hnew (by simp [Request.newOrder])
    refine ⟨E.setBook X s s' E.generated, _, by rw [hs']; rfl, ?_, ?_⟩
    · exact h.setBook (g := E.generated) hX hL (r := .cancel id) trivial le_rfl
        (fun a ha => absurd ha (by simp [Request.newOrder])) h'
    · refine (hp.setBook (g := E.generated) hX hL.refines h' fun o ho => ?_).mpr fun o ho => ?_
      · exact Or.inl ⟨(hold o ho).1, (hold o ho).2.id⟩
      · rw [(hold o ho).2.instrument]
        exact hp.named hX hL.refines o (hold o ho).1

theorem Sound.create (huuid : Function.Injective uuid) (h : E.Sound uuid) (hp : E.Isolated)
    (now : ℤ) (X : String) (a : OrderArgs) :
    ∃ E' answer, E.create uuid now X a = .ok (E', answer) ∧ E'.Sound uuid ∧
      (E'.Isolated ↔ E.keepsApart (.create now X a)) := by
  rw [Exchange.create]
  split
  · next hX =>
    refine ⟨E, none, rfl, h, iff_of_true hp fun s hs => ?_⟩
    rw [hX] at hs
    exact absurd hs (by simp)
  next s hX =>
  split
  · next hside =>
    exact ⟨E, none, rfl, h, iff_of_true hp fun _ _ hne => absurd hside hne⟩
  next hside =>
  obtain ⟨L, hL⟩ := h.book X s hX
  obtain ⟨a', ha'⟩ : ∃ a', a' = { a with id := uuid E.generated } := ⟨_, rfl⟩
  obtain ⟨s', hs', h'⟩ := hL.refines.step (.add now a')
  have hf := hL.inPlace.wf.stepFrame (r := .add now a') rfl
  have hid : a'.id = uuid E.generated := by rw [ha']
  have hnew := hf.new a' rfl
  have hsplit : ∀ o ∈ (L.step (.add now a')).1.live, o = L.nextOrder ∨
      o ∈ L.live ∧ ((L.step (.add now a')).1.order o).Keeps (L.order o) := by
    intro o ho
    rcases hL.inPlace.mem_live_step (r := .add now a') rfl ho with ho | ⟨-, ho⟩
    · exact Or.inr ⟨ho, hf.keeps o (hL.inPlace.wf.live_lt ho)⟩
    · exact Or.inl ho
  have hiso := hp.setBook (g := E.generated + 1) hX hL.refines h' fun o ho => by
    rcases hsplit o ho with rfl | ⟨hold, hkeep⟩
    · -- the new id is held by no order of any book
      refine Or.inr fun Y t live ht hlv o' ho' => ?_
      obtain ⟨M, hM⟩ := h.book Y t ht
      rw [hM.refines.liveOrders, Except.ok.injEq] at hlv
      subst hlv
      rw [hnew.id, hM.refines.order]
      change a'.id ≠ _
      rw [hid]
      exact (hM.fresh o' (hM.inPlace.wf.live_lt ho') E.generated le_rfl).symm
    · exact Or.inl ⟨hold, hkeep.id⟩
  refine ⟨E.setBook X s s' (E.generated + 1), _, by rw [← ha', hs']; rfl, ?_,
    hiso.trans ?_⟩
  · refine h.setBook hX hL (r := .add now a') trivial (Nat.le_succ _) (fun b hb k hk => ?_) h'
    obtain rfl : a' = b := Option.some.inj hb
    rw [hid]
    intro he
    have := huuid he
    omega
  · have hsame : s.stays a' = s.stays a := by rw [ha', OrderBook.stays_id]
    have hstays : s.stays a = true ↔ L.nextOrder ∈ (L.step (.add now a')).1.live := by
      rw [hL.inPlace.new_mem_live_iff, ← hL.refines.stays_iff, hsame]
    constructor
    · rintro hall t ht - hstay
      obtain rfl : s = t := Option.some.inj (hX.symm.trans ht)
      have hinst := hall L.nextOrder (hstays.mp hstay)
      rw [hnew.instrument] at hinst
      rw [← hinst, ha']
      rfl
    · intro hcond o ho
      rcases hsplit o ho with rfl | ⟨hold, hkeep⟩
      · rw [hnew.instrument, ha']
        exact hcond s hX hside (hstays.mpr ho)
      · rw [hkeep.instrument]
        exact hp.named hX hL.refines o hold

/-- The books of a new exchange. -/
theorem exists_openBooks (store : OrderStore) {instruments : List (String × ℚ)}
    (hd : (instruments.map Prod.fst).Nodup) :
    ∃ books, openBooks store instruments = .ok books ∧
      (∀ X s, books.lookup X = some s → (∃ i ∈ instruments, i.1 = X) ∧
        ∃ L, Refines s L ∧ L.Recovered store.records ∧ L.orderQueue = []) ∧
      ∀ i ∈ instruments, ∃ s, books.lookup i.1 = some s := by
  induction instruments with
  | nil => exact ⟨∅, rfl, by simp, by simp⟩
  | cons i rest ih =>
    obtain ⟨hi, hd⟩ := List.nodup_cons.mp hd
    obtain ⟨books, hbooks, hlook, hall⟩ := ih hd
    obtain ⟨s, hs, h⟩ := refines_new i.1 i.2 store.getAll
    refine ⟨books.insert i.1 s, by rw [openBooks, hbooks, ok_bind, hs]; rfl, fun X t ht => ?_,
      fun j hj => ?_⟩
    · by_cases hX : X = i.1
      · subst hX
        rw [AList.lookup_insert, Option.some.injEq] at ht
        subst ht
        exact ⟨⟨i, by simp, rfl⟩, _, h, Ledger.recovered_new _ _ _, Ledger.recover_orderQueue _ _ _⟩
      · rw [AList.lookup_insert_ne hX] at ht
        obtain ⟨⟨j, hj, hjX⟩, hL⟩ := hlook X t ht
        exact ⟨⟨j, by simp [hj], hjX⟩, hL⟩
    · rcases List.mem_cons.mp hj with rfl | hj
      · exact ⟨s, AList.lookup_insert _⟩
      · obtain ⟨t, ht⟩ := hall j hj
        have hne : j.1 ≠ i.1 := fun he => hi (he ▸ List.mem_map_of_mem hj)
        exact ⟨t, (AList.lookup_insert_ne hne).trans ht⟩

theorem Sound.restart (h : E.Sound uuid) {instruments : List (String × ℚ)}
    (hd : (instruments.map Prod.fst).Nodup) (keepsQueue : Bool) :
    ∃ E', E.restart instruments keepsQueue = .ok E' ∧ E'.Sound uuid ∧
      (E'.Isolated ↔ E.keepsApart (.restart instruments keepsQueue)) := by
  obtain ⟨books, hbooks, hlook, hall⟩ := exists_openBooks E.store hd
  refine ⟨{ E with
      books := books
      queue := if keepsQueue then E.queue.filterMap fun m => (E.read m).map .orphan else [] },
    by rw [Exchange.restart, hbooks]; rfl, ⟨fun X s hs => ?_, h.store, fun x hx => ?_,
    fun X o ho => ?_⟩, ?_, ?_⟩
  · obtain ⟨-, L, hL, hrec, hqueue⟩ := hlook X s hs
    refine ⟨L, hL, hrec.inPlace, by simp [hqueue], fun o ho k hk => ?_⟩
    rw [hrec.nextOrder] at ho
    rw [hrec.order o _ (List.getElem?_eq_getElem ho)]
    exact h.store _ (List.getElem_mem ho) k hk
  · dsimp only at hx
    split at hx
    · obtain ⟨m, hm, he⟩ := List.mem_filterMap.mp hx
      obtain ⟨y, hy, hfresh⟩ := h.read hm
      rw [hy] at he
      cases he
      exact hfresh
    · exact absurd hx (by simp)
  · dsimp only at ho
    split at ho
    · obtain ⟨m, -, he⟩ := List.mem_filterMap.mp ho
      obtain ⟨y, -, he⟩ := Option.map_eq_some_iff.mp he
      cases he
    · exact absurd ho (by simp)
  · intro hiso i hi x hx
    obtain ⟨s, hs⟩ := hall i hi
    obtain ⟨-, L, hL, hrec, -⟩ := hlook _ s hs
    obtain ⟨o, ho, rfl⟩ := hrec.exists_live_iff.mpr hx
    exact hiso.named hs hL o ho
  · intro hcond
    have hlive : ∀ X s live, books.lookup X = some s → s.liveOrders = .ok live → ∀ o ∈ live,
        (s.order o).instrument = X ∧ (s.order o).toOrderData ∈ standing E.store.records := by
      intro X s live hs hlv o ho
      obtain ⟨⟨i, hi, rfl⟩, L, hL, hrec, -⟩ := hlook X s hs
      rw [hL.liveOrders, Except.ok.injEq] at hlv
      subst hlv
      have hx := hrec.exists_live_iff.mp ⟨o, ho, rfl⟩
      rw [← hL.order] at hx
      exact ⟨hcond i hi _ hx, hx⟩
    refine ⟨fun X s hs => ?_, fun X Y s t hXY hs ht live live' hlv hlv' o ho => ?_⟩
    · obtain ⟨-, L, hL, -, -⟩ := hlook X s hs
      exact ⟨_, hL.liveOrders, fun o ho => (hlive X s _ hs hL.liveOrders o ho).1⟩
    · -- a record that is left names the instruments of both books
      obtain ⟨hX, hx⟩ := hlive X s live hs hlv o ho
      obtain ⟨⟨i, hi, rfl⟩, -⟩ := hlook Y t ht
      exact absurd (hX.symm.trans (hcond i hi _ hx)) hXY

theorem Sound.persist (h : E.Sound uuid) (hp : E.Isolated) :
    ∃ E', E.persist = .ok E' ∧ E'.Sound uuid ∧ E'.Isolated := by
  rw [Exchange.persist]
  split
  · exact ⟨E, rfl, h, hp⟩
  · next m rest hq =>
    have hsub : ∀ m' ∈ rest, m' ∈ E.queue := fun m' hm' => by simp [hq, hm']
    obtain ⟨x, hx, hfresh⟩ := h.read (m := m) (by simp [hq])
    refine ⟨{ E with queue := rest, store := E.store.processMessage x }, by rw [hx]; rfl,
      ⟨h.book, fun y hy k hk => ?_, fun y hy => h.orphan y (hsub _ hy),
      fun X o ho => h.handle X o (hsub _ ho)⟩, ⟨hp.instrument, hp.apart⟩⟩
    rcases OrderStore.mem_processMessage hy with rfl | hy
    · exact hfresh k hk
    · exact h.store y hy k hk

/-- **One event** keeps the instruments apart exactly under the condition. -/
theorem Sound.step (huuid : Function.Injective uuid) (h : E.Sound uuid) (hp : E.Isolated)
    {e : Event} (he : e.Distinct) : ∃ E' answer, E.step uuid e = .ok (E', answer) ∧
      E'.Sound uuid ∧ (E'.Isolated ↔ E.keepsApart e) := by
  cases e with
  | create now X a => exact h.create huuid hp now X a
  | cancel X id =>
    obtain ⟨E', answer, hE', h', hp'⟩ := h.cancel hp X id
    exact ⟨E', answer, hE', h', iff_of_true hp' trivial⟩
  | restart instruments keepsQueue =>
    obtain ⟨E', hE', h'⟩ := h.restart he keepsQueue
    exact ⟨E', none, by rw [Exchange.step, hE']; rfl, h'⟩
  | persist =>
    obtain ⟨E', hE', h', hp'⟩ := h.persist hp
    exact ⟨E', none, by rw [Exchange.step, hE']; rfl, h', iff_of_true hp' trivial⟩

end Exchange

open Exchange (Event)

/-- **The instruments of an exchange are kept apart** throughout a run – over any contents of
the repository, of any requests, restarts and steps of the repository – exactly if every order
that stays names the instrument of its book, and every record that a restart puts into the
books names the instrument of each. -/
theorem isolation_iff {uuid : ℕ → String} (huuid : Function.Injective uuid) (store : OrderStore)
    (hstore : ∀ x ∈ store.records, ∀ k, x.id ≠ uuid k) {es : List Event}
    (hes : ∀ e ∈ es, e.Distinct) :
    Throughout (Exchange.step uuid) Exchange.Isolated (.closed store) es ↔
      Meets (Exchange.step uuid) Exchange.keepsApart (.closed store) es :=
  throughout_iff_meets (I := Exchange.Sound uuid) (Q := Event.Distinct)
    (fun _ _ he hI hp => hI.step huuid hp he) hes (Exchange.sound_closed hstore)
    (Exchange.isolated_closed store)

/-- Ids of different lengths. -/
def unaryIds (n : ℕ) : String := String.ofList (List.replicate n 'u')

theorem unaryIds_injective : Function.Injective unaryIds := by
  intro m n h
  have hlen : (unaryIds m).toList.length = (unaryIds n).toList.length := by rw [h]
  simpa [unaryIds] using hlen

/-- Two instruments, over an empty repository. -/
theorem isolation_iff_two :
    Throughout (Exchange.step unaryIds) Exchange.Isolated (.closed .empty)
        [.restart [("X", 10), ("Y", 10)] false, .create 0 "X" (.limit "" .buy 5 10), .persist] ↔
      Meets (Exchange.step unaryIds) Exchange.keepsApart (.closed .empty)
        [.restart [("X", 10), ("Y", 10)] false, .create 0 "X" (.limit "" .buy 5 10), .persist] :=
  isolation_iff unaryIds_injective .empty (fun x hx => absurd hx (by simp [OrderStore.empty]))
    (fun e he => by
      simp only [List.mem_cons, List.not_mem_nil, or_false] at he
      rcases he with rfl | rfl | rfl
      · exact (by decide : ([("X", 10), ("Y", 10)].map Prod.fst : List String).Nodup)
      · trivial
      · trivial)

/-- **A restart puts an order of one instrument into the book of another.** -/
theorem restart_mixes : ∃ E answers,
    runAll (Exchange.step unaryIds) (.closed .empty)
        [.restart [("X", 10), ("Y", 10)] false, .create 0 "X" (.limit "" .buy 5 10), .persist,
          .restart [("X", 10), ("Y", 10)] false] = .ok (E, answers) ∧
      ¬ Exchange.Isolated E := by
  obtain ⟨⟨E, answers⟩, hrun, hE⟩ := exists_ok_of_map
    (f := fun r : Exchange × List (Option OrderStatus) => (r.1.books.lookup "Y").bind fun s =>
      s.liveOrders.toOption.map (List.map fun o => (s.order o).instrument))
    (b := some ["X"])
    (show (runAll (Exchange.step unaryIds) (.closed .empty)
      [.restart [("X", 10), ("Y", 10)] false, .create 0 "X" (.limit "" .buy 5 10), .persist,
        .restart [("X", 10), ("Y", 10)] false]).toOption.map _ = _ by decide +kernel)
  refine ⟨E, answers, hrun, fun hiso => ?_⟩
  obtain ⟨s, hs, hlive⟩ := Option.bind_eq_some_iff.mp hE
  obtain ⟨live, hlv, hall⟩ := hiso.instrument "Y" s hs
  rw [hlv] at hlive
  have hmap : live.map (fun o => (s.order o).instrument) = ["X"] := by
    simpa [Except.toOption] using hlive
  obtain ⟨o, ho, hX⟩ := List.mem_map.mp (hmap ▸ List.mem_singleton.mpr rfl : "X" ∈ live.map _)
  exact absurd ((hall o ho).symm.trans hX) (by decide)

end LimitOrderBook
