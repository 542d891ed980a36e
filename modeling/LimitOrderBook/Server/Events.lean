import LimitOrderBook.Ledger.Register
import LimitOrderBook.Ledger.Runs
import LimitOrderBook.Server.History

/-!
# What an event does

Whatever happens, the server does one of four things (`LimitOrderBook.Server.Does`): it leaves the
exchange as it is, makes one request to one book, starts again over its repository, or lets the
repository take a message. It always does one of them (`LimitOrderBook.Exchange.Usable.does`), so
what is to hold in every state of the server, or of every reply, is shown for these four.
-/

namespace LimitOrderBook

open OrderBook (Request)

/-- **The exchange can go on**: no book is damaged, and no message leads nowhere. -/
structure Exchange.Usable (E : Exchange) : Prop where
  book : ∀ X s, E.books.lookup X = some s → ∃ L, Refines s L
  message : ∀ m ∈ E.queue, ∃ d, E.read m = some d

/-- The books of a new exchange, whose instruments need not be distinct. -/
theorem Exchange.lookup_openBooks (store : OrderStore) (instruments : List (String × ℚ)) :
    ∃ books, openBooks store instruments = .ok books ∧ ∀ X s, books.lookup X = some s →
      ∃ price, Refines s ((Ledger.empty X price).recover store.getAll) := by
  induction instruments with
  | nil => exact ⟨∅, rfl, by simp⟩
  | cons i rest ih =>
    obtain ⟨books, hbooks, hlook⟩ := ih
    obtain ⟨s, hs, h⟩ := refines_new i.1 i.2 store.getAll
    refine ⟨books.insert i.1 s, by rw [openBooks, hbooks, ok_bind, hs]; rfl, fun X t ht => ?_⟩
    by_cases hX : X = i.1
    · subst hX
      rw [AList.lookup_insert, Option.some.injEq] at ht
      subst ht
      exact ⟨i.2, h⟩
    · rw [AList.lookup_insert_ne hX] at ht
      exact hlook X t ht

/-- A request of a book is the request of its ledger. -/
theorem Refines.of_step {s s' : OrderBook} {L : Ledger} {r : Request}
    {answer : Option OrderStatus} (h : Refines s L) (hs : s.step r = .ok (s', answer)) :
    Refines s' (L.step r).1 ∧ (L.step r).2 = answer := by
  obtain ⟨s₁, hs₁, h₁⟩ := h.step r
  obtain ⟨rfl, rfl⟩ := Prod.mk.inj (Except.ok.inj (hs₁.symm.trans hs))
  exact ⟨h₁, rfl⟩

/-- What a request hands to the repository is sent there. -/
theorem Exchange.queue_setBook (E : Exchange) {s s' : OrderBook} {L L' : Ledger} {X : String}
    {g : ℕ} {new : List ℕ} (h : Refines s L) (h' : Refines s' L')
    (hqueue : L'.orderQueue = L.orderQueue ++ new) :
    (E.setBook X s s' g).queue = E.queue ++ new.map (.handle X) := by
  rw [setBook, h'.orderQueue, hqueue, h.orderQueue, List.drop_left]

namespace Server

/-- The order in the body of a request. -/
def Event.order (toFloat : ℚ → ℚ) : Event → Option OrderArgs
  | .create now _ _ content => content.mapJsonToOrder toFloat now
  | .update now _ _ content => content.mapJsonToOrder toFloat now
  | _ => none

/-- The answer to a request whose order is put into the book. -/
def placedAs : Request → OrderStatus
  | .modify _ => .modified
  | _ => .accepted

/-- **How the reply to a request of a book is related to what the book does**, where `x` is the
request with its reply. -/
structure Replied (uuid : ℕ → String) (toFloat : ℚ → ℚ) (X : String) (L : Ledger) (r : Request)
    (generated g : ℕ) (x : Entry) : Prop where
  restart : ¬ Restarts x
  settles : ∀ Y id, Settles Y id x →
    Y = X ∧ (∃ o, L.orders.lookup id = some o) ∧ (L.step r).1.orders.lookup id = none
  cancels : ∀ id, Cancels id x → r = .cancel id ∧ ∃ o, L.orders.lookup id = some o
  hands : ∀ Y id, Hands Y id x → Y = X ∧ id = uuid generated ∧ generated < g
  newId : ∀ id, Ledger.newId r = some id → id = uuid generated ∧ generated < g ∧
    ((L.step r).2 = some .accepted → Hands X id x)
  submits : ∀ a, Ledger.submitted r = some a → (∃ b ∈ x.1.order toFloat, a.qty = b.qty) ∧
    ((L.step r).2 = some (placedAs r) → Submits toFloat a.toData.archived x)

/-- **What an event does**, with its reply. -/
inductive Does (uuid : ℕ → String) (toFloat : ℚ → ℚ) (E : Exchange) (e : Event) :
    Exchange → Option Reply → Prop
  | nothing (reply : Option Reply) (hrestart : ¬ Restarts (e, reply))
      (hhands : ∀ Y id, ¬ Hands Y id (e, reply)) (hsettles : ∀ Y id, ¬ Settles Y id (e, reply))
      (hcancels : ∀ id, ¬ Cancels id (e, reply))
      (hreturns : ∀ id order, Returns id order (e, reply) →
        ∃ d ∈ E.store.records, order = d.toJson ∧ d.id = id) : Does uuid toFloat E e E reply
  | request (X : String) (s s' : OrderBook) (r : Request) (g : ℕ) (reply : Option Reply)
      (hX : E.books.lookup X = some s) (hg : E.generated ≤ g)
      (hr : ∀ L, Refines s L → Refines s' (L.step r).1 ∧
        Replied uuid toFloat X L r E.generated g (e, reply))
      (hreturns : ∀ id order, ¬ Returns id order (e, reply)) :
      Does uuid toFloat E e (E.setBook X s s' g) reply
  | restart (instruments : List (String × ℚ)) (keepsQueue : Bool)
      (books : AList fun _ : String => OrderBook) (he : e = .restart instruments keepsQueue)
      (hbooks : ∀ X s, books.lookup X = some s →
        ∃ price, Refines s ((Ledger.empty X price).recover E.store.getAll)) :
      Does uuid toFloat E e { E with
        books := books
        queue := if keepsQueue then E.queue.filterMap fun m => (E.read m).map .orphan else [] } none
  | persist (m : Message) (rest : List Message) (d : OrderData) (he : e = .persist)
      (hq : E.queue = m :: rest) (hd : E.read m = some d) :
      Does uuid toFloat E e { E with queue := rest, store := E.store.processMessage d } none

variable {uuid : ℕ → String} {toFloat : ℚ → ℚ} {E : Exchange} {X id : String}

/-! ### Events that change nothing -/

/-- A refusal hands out, settles and returns nothing. -/
theorem Check.Refuses.does {α : Type} {c : Check α} (hc : c.Refuses) {e : Event}
    {reply : Option Reply} (hreply : c = .error reply) (hrestart : ∀ is k, e ≠ .restart is k) :
    Does uuid toFloat E e E reply := by
  rcases reply with _ | reply
  · refine .nothing none ?_ ?_ ?_ ?_ ?_ <;> cases e <;>
      first | exact absurd rfl (hrestart _ _) | simp [Restarts, Hands, Settles, Cancels, Returns]
  · obtain ⟨hstatus, message, hbody⟩ := hc reply hreply
    refine .nothing (some reply) ?_ ?_ ?_ ?_ ?_ <;> cases e <;>
      first
        | exact absurd rfl (hrestart _ _)
        | simp [Restarts, Hands, Settles, Cancels, Returns, hstatus, hbody]

/-- What is asked of the repository. -/
theorem does_get (E : Exchange) (working : Bool) (params : PathParams) :
    ∃ E' reply, Server.step uuid toFloat E (.get working params) = .ok (E', reply) ∧
      Does uuid toFloat E (.get working params) E' reply := by
  rcases hadmit : admitGet working params with reply | orderId
  · refine ⟨E, reply, ?_, (refuses_admitGet working params).does hadmit (by simp)⟩
    rw [Server.step, Server.getOrder, hadmit]
  have horderId := admitGet_eq_ok hadmit
  rcases hget : E.store.get orderId with _ | d
  · refine ⟨E, some { status := .notFound }, ?_, .nothing _ id (fun _ _ => id) (fun _ _ => id)
      (fun _ => id) fun _ _ hx => absurd hx.2 (by simp)⟩
    rw [Server.step, Server.getOrder, hadmit]
    dsimp only
    rw [Exchange.getOrder, hget]
  · obtain ⟨hmem, rfl⟩ := OrderStore.get_eq_some.mp hget
    refine ⟨E, some { body := some (.order d.toJson) }, ?_, .nothing _ id (fun _ _ => id)
      (fun _ _ => id) (fun _ => id) ?_⟩
    · rw [Server.step, Server.getOrder, hadmit]
      dsimp only
      rw [Exchange.getOrder, hget]
    · rintro id order ⟨hid, hbody⟩
      obtain rfl : d.toJson = order := by simpa using hbody
      exact ⟨d, hmem, rfl, Option.some.inj (horderId.symm.trans hid)⟩

/-! ### Requests to a book -/

theorem does_snapshot (hE : E.Usable) (params : PathParams) :
    ∃ E' reply, Server.step uuid toFloat E (.snapshot params) = .ok (E', reply) ∧
      Does uuid toFloat E (.snapshot params) E' reply := by
  rcases hadmit : validateInstrumentParameter E params with reply | X
  · refine ⟨E, reply, ?_, (refuses_validateInstrumentParameter E params).does hadmit (by simp)⟩
    rw [Server.step, Server.snapshot, hadmit]
  obtain ⟨-, s, hX⟩ := validateInstrumentParameter_eq_ok hadmit
  obtain ⟨L, hL⟩ := hE.book X s hX
  obtain ⟨shot, hshot⟩ : ∃ shot, s.getSnapshot = .ok shot := by
    obtain ⟨spread, hspread⟩ := hL.getSnapshot
    exact ⟨_, hspread⟩
  refine ⟨E, some { body := some (.snapshot shot) }, ?_, .nothing _ id (fun _ _ => id)
    (fun _ _ => id) (fun _ => id) fun _ _ => False.elim⟩
  rw [Server.step, Server.snapshot, hadmit]
  dsimp only
  rw [Exchange.getOrderbookSnapshot, hX]
  change (s.getSnapshot >>= _) = _
  rw [hshot]
  rfl

theorem does_create (hE : E.Usable) (now : ℤ) (working : Bool) (params : PathParams)
    (content : OrderJson) :
    ∃ E' reply, Server.step uuid toFloat E (.create now working params content) = .ok (E', reply) ∧
      Does uuid toFloat E (.create now working params content) E' reply := by
  rcases hadmit : admitCreate toFloat E now working params content with reply | ⟨X, a⟩
  · refine ⟨E, reply, ?_, Check.Refuses.does (refuses_admitCreate E now working params content)
      hadmit (by simp)⟩
    rw [Server.step, createOrder, hadmit]
  obtain ⟨hparams, ⟨s, hX⟩, hcontent, hside, -⟩ := admitCreate_eq_ok hadmit
  obtain ⟨L, hL⟩ := hE.book X s hX
  obtain ⟨a', ha'⟩ : ∃ a', a' = { a with id := uuid E.generated } := ⟨_, rfl⟩
  obtain ⟨s', hs', -⟩ := hL.step (.add now a')
  obtain ⟨status, hstatus⟩ : ∃ status, (L.step (.add now a')).2 = some status := ⟨_, rfl⟩
  rw [hstatus] at hs'
  refine ⟨E.setBook X s s' (E.generated + 1),
    some { body := some (.orderInfo (uuid E.generated) status.toUInt8) }, ?_,
    .request X s s' (.add now a') (E.generated + 1) _ hX (Nat.le_succ _) (fun M hM => ?_)
      fun _ _ => id⟩
  · rw [Server.step, createOrder, hadmit]
    dsimp only
    rw [Exchange.create, hX]
    dsimp only
    rw [if_neg hside, ← ha', hs']
    rfl
  obtain ⟨hM', hsame⟩ := hM.of_step hs'
  refine ⟨hM', id, fun _ _ => False.elim, fun _ => False.elim, fun Y id hY => ?_, fun id hid => ?_,
    fun b hb => ⟨⟨a, hcontent, ?_⟩, fun haccepted => ?_⟩⟩
  · obtain ⟨hY, hbody⟩ := hY
    obtain ⟨hid, -⟩ : uuid E.generated = id ∧ status.toUInt8 = OrderStatus.accepted.toUInt8 := by
      simpa using hbody
    exact ⟨Option.some.inj (hY.symm.trans hparams), hid.symm, Nat.lt_succ_self _⟩
  · obtain rfl : a'.id = id := Option.some.inj hid
    refine ⟨by rw [ha'], Nat.lt_succ_self _, fun haccepted => ?_⟩
    obtain rfl : status = .accepted := Option.some.inj (hsame.symm.trans haccepted)
    rw [ha']
    exact ⟨hparams, rfl⟩
  · obtain rfl : a' = b := Option.some.inj hb
    rw [ha']
  · obtain rfl : a' = b := Option.some.inj hb
    obtain rfl : status = .accepted := Option.some.inj (hsame.symm.trans haccepted)
    refine ⟨a, hcontent, ?_, ?_⟩
    · rw [ha']
      rfl
    · rw [ha']
      exact .refl _

theorem does_update (hE : E.Usable) (now : ℤ) (working : Bool) (params : PathParams)
    (content : OrderJson) :
    ∃ E' reply, Server.step uuid toFloat E (.update now working params content) = .ok (E', reply) ∧
      Does uuid toFloat E (.update now working params content) E' reply := by
  rcases hadmit : admitUpdate toFloat E now working params content with reply | ⟨X, a⟩
  · refine ⟨E, reply, ?_, Check.Refuses.does (refuses_admitUpdate E now working params content)
      hadmit (by simp)⟩
    rw [Server.step, updateOrder, hadmit]
  obtain ⟨hparams, ⟨s, hX⟩, hcontent⟩ := admitUpdate_eq_ok hadmit
  obtain ⟨L, hL⟩ := hE.book X s hX
  obtain ⟨s', hs', -⟩ := hL.step (.modify a)
  obtain ⟨status, hstatus⟩ : ∃ status, (L.step (.modify a)).2 = some status := ⟨_, rfl⟩
  rw [hstatus] at hs'
  refine ⟨E.setBook X s s' E.generated, some { body := some (.orderInfo a.id status.toUInt8) }, ?_,
    .request X s s' (.modify a) E.generated _ hX le_rfl (fun M hM => ?_) fun _ _ => id⟩
  · rw [Server.step, updateOrder, hadmit]
    dsimp only
    rw [Exchange.modify, hX]
    dsimp only
    rw [hs']
    rfl
  obtain ⟨hM', hsame⟩ := hM.of_step hs'
  refine ⟨hM', id, fun Y id hY => ?_, fun _ => False.elim, fun _ _ => False.elim,
    fun id hid => absurd hid (by simp [Ledger.newId]),
    fun b hb => ⟨⟨a, hcontent, ?_⟩, fun hmod => ?_⟩⟩
  · obtain ⟨hY, hbody⟩ := hY
    obtain ⟨rfl, hst⟩ : a.id = id ∧ status.toUInt8 = OrderStatus.modified.toUInt8 := by
      simpa using hbody
    rw [OrderStatus.toUInt8_injective hst] at hsame
    obtain ⟨e, he, -⟩ := (hM.wf.step_modified_iff a).mp hsame
    have hnone := hM.wf.lookup_modified hsame
    rw [(hM.wf.step_new (r := .modify a) rfl).id] at hnone
    exact ⟨Option.some.inj (hY.symm.trans hparams), ⟨e, he⟩, hnone⟩
  · obtain rfl : a = b := Option.some.inj hb
    rfl
  · obtain rfl : a = b := Option.some.inj hb
    obtain rfl : status = .modified := Option.some.inj (hsame.symm.trans hmod)
    exact ⟨a, hcontent, rfl, .refl _⟩

theorem does_cancel (hE : E.Usable) (working : Bool) (params : PathParams) :
    ∃ E' reply, Server.step uuid toFloat E (.cancel working params) = .ok (E', reply) ∧
      Does uuid toFloat E (.cancel working params) E' reply := by
  rcases hadmit : admitCancel E working params with reply | ⟨X, orderId⟩
  · refine ⟨E, reply, ?_, (refuses_admitCancel E working params).does hadmit (by simp)⟩
    rw [Server.step, cancelOrder, hadmit]
  obtain ⟨hparams, horderId, ⟨s, hX⟩, -⟩ := admitCancel_eq_ok hadmit
  obtain ⟨L, hL⟩ := hE.book X s hX
  obtain ⟨s', hs', -⟩ := hL.step (.cancel orderId)
  obtain ⟨status, hstatus⟩ : ∃ status, (L.step (.cancel orderId)).2 = some status := ⟨_, rfl⟩
  rw [hstatus] at hs'
  refine ⟨E.setBook X s s' E.generated, some { status := cancelStatus status }, ?_,
    .request X s s' (.cancel orderId) E.generated _ hX le_rfl (fun M hM => ?_) fun _ _ => id⟩
  · rw [Server.step, cancelOrder, hadmit]
    dsimp only
    rw [Exchange.cancel, hX]
    dsimp only
    rw [hs']
    rfl
  obtain ⟨hM', hsame⟩ := hM.of_step hs'
  have hcancel : (M.cancelOrder orderId).2 = status := Option.some.inj hsame
  -- an order that is not found is answered 404
  have hfound : cancelStatus status = .ok → ∃ o, M.orders.lookup orderId = some o := fun hok => by
    refine Option.isSome_iff_exists.mp (Option.isSome_iff_ne_none.mpr fun hnone => ?_)
    obtain rfl : .notFound = status := by
      rw [← hcancel, Ledger.cancelOrder, hnone]
    exact absurd hok (by decide)
  refine ⟨hM', id, fun Y id hY => ?_, fun id hid => ?_, fun _ _ => False.elim,
    fun id hid => absurd hid (by simp [Ledger.newId]),
    fun b hb => absurd hb (by simp [Ledger.submitted])⟩
  · obtain ⟨hY, hid, hok⟩ := hY
    obtain rfl : orderId = id := Option.some.inj (horderId.symm.trans hid)
    obtain ⟨o, hlook⟩ := hfound hok
    refine ⟨Option.some.inj (hY.symm.trans hparams), ⟨o, hlook⟩, hM.wf.lookup_cancelled ?_⟩
    rw [Ledger.cancelOrder, hlook]
  · obtain ⟨hid, hok⟩ := hid
    obtain rfl : orderId = id := Option.some.inj (horderId.symm.trans hid)
    exact ⟨rfl, hfound hok⟩

theorem does_checkDate (hE : E.Usable) (now : ℤ) (instrument : String) :
    ∃ E' reply, Server.step uuid toFloat E (.checkDate now instrument) = .ok (E', reply) ∧
      Does uuid toFloat E (.checkDate now instrument) E' reply := by
  rcases hX : E.books.lookup instrument with _ | s
  · refine ⟨E, none, ?_, .nothing _ id (fun _ _ => id) (fun _ _ => id) (fun _ => id)
      fun _ _ => False.elim⟩
    rw [Server.step, Exchange.checkDate, hX]
    rfl
  · obtain ⟨L, hL⟩ := hE.book instrument s hX
    obtain ⟨s', hs', -⟩ := hL.step (.checkDate now)
    refine ⟨E.setBook instrument s s' E.generated, none, ?_, .request instrument s s'
      (.checkDate now) E.generated _ hX le_rfl (fun M hM => ⟨(hM.of_step hs').1, id,
        fun _ _ => False.elim, fun _ => False.elim, fun _ _ => False.elim,
        fun id hid => absurd hid (by simp [Ledger.newId]),
        fun b hb => absurd hb (by simp [Ledger.submitted])⟩) fun _ _ => id⟩
    rw [Server.step, Exchange.checkDate, hX]
    dsimp only
    rw [hs']
    rfl

end Server

/-- **Every event** is one of these. -/
theorem Exchange.Usable.does {uuid : ℕ → String} {toFloat : ℚ → ℚ} {E : Exchange} (hE : E.Usable)
    (e : Server.Event) : ∃ E' reply, Server.step uuid toFloat E e = .ok (E', reply) ∧
      Server.Does uuid toFloat E e E' reply := by
  cases e with
  | create now working params content => exact Server.does_create hE now working params content
  | update now working params content => exact Server.does_update hE now working params content
  | get working params => exact Server.does_get E working params
  | cancel working params => exact Server.does_cancel hE working params
  | snapshot params => exact Server.does_snapshot hE params
  | checkDate now instrument => exact Server.does_checkDate hE now instrument
  | restart instruments keepsQueue =>
    obtain ⟨books, hbooks, hlook⟩ := Exchange.lookup_openBooks E.store instruments
    refine ⟨_, none, ?_, .restart instruments keepsQueue books rfl hlook⟩
    rw [Server.step, Exchange.restart, hbooks]
    rfl
  | persist =>
    rcases hq : E.queue with _ | ⟨m, rest⟩
    · refine ⟨E, none, ?_, .nothing _ id (fun _ _ => id) (fun _ _ => id) (fun _ => id)
        fun _ _ => False.elim⟩
      rw [Server.step, Exchange.persist, hq]
      rfl
    · obtain ⟨d, hd⟩ := hE.message m (by simp [hq])
      refine ⟨_, none, ?_, .persist m rest d rfl hq hd⟩
      rw [Server.step, Exchange.persist, hq]
      dsimp only
      rw [hd]
      rfl

end LimitOrderBook
