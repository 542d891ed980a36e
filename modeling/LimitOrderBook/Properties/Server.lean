import LimitOrderBook.Lib.History
import LimitOrderBook.Properties.Isolation
import LimitOrderBook.Server.Kept

/-!
# The server over its whole life

Whether the replies of the server agree with each other, over any contents of the repository, any
requests – well formed or not –, any checks of dates, any restarts and any steps of the repository.
An order is cancelled or replaced at most once, and only if it was accepted for the same instrument
since the last restart (`LimitOrderBook.settled_open`). What is returned under an id was accepted
under this id, with nothing changed but the quantity that is left and the flags, and has not been
filled or cancelled as far as the repository knows (`LimitOrderBook.returned_submitted`).
-/

namespace LimitOrderBook

namespace Server

variable {uuid : ℕ → String} {toFloat : ℚ → ℚ} {store : OrderStore} {h : List Entry} {x : Entry}
  {X id : String} {E : Exchange} {s : OrderBook} {L : Ledger}

/-- **The reply agrees with the history.** -/
structure Faithful (toFloat : ℚ → ℚ) (store : OrderStore) (h : List Entry) (x : Entry) : Prop where
  settles : ∀ X id, Settles X id x → Open h X id
  returns : ∀ id order, Returns id order x → ∃ d : OrderData, order = d.toJson ∧ d.id = id ∧
    (d ∈ store.records ∨ Submitted toFloat h d ∧ d.cancelled = false ∧ d.currentQty ≠ 0)

/-! ### The exchange behind the handlers -/

/-- A handler leaves the exchange as its call of the exchange does. -/
theorem map_reply {call : Except Fault (Exchange × Option OrderStatus)} (f : OrderStatus → Reply)
    (hcall : ∀ E' status, call = .ok (E', status) → ∃ answer, status = some answer) :
    (do
      let (E', status) ← call
      let status ← deref status
      Except.ok (E', some (f status))).map Prod.fst = call.map Prod.fst := by
  rcases call with fault | ⟨E', status⟩
  · rfl
  · obtain ⟨answer, rfl⟩ := hcall E' status rfl
    rfl

theorem create_answer {E' : Exchange} {now : ℤ} {a : OrderArgs} {status : Option OrderStatus}
    (hs : E.books.lookup X = some s) (hside : a.side ≠ .unkown)
    (h : E.create uuid now X a = .ok (E', status)) : ∃ answer, status = some answer := by
  rw [Exchange.create, hs] at h
  dsimp only at h
  rw [if_neg hside] at h
  obtain ⟨⟨s', answer⟩, hstep, h⟩ := bind_eq_ok.mp h
  obtain ⟨-, rfl⟩ := Prod.mk.inj (Except.ok.inj h)
  obtain ⟨⟨s'', answer'⟩, -, he⟩ := bind_eq_ok.mp hstep
  exact ⟨answer', (Prod.mk.inj (Except.ok.inj he)).2.symm⟩

theorem cancel_answer {E' : Exchange} {status : Option OrderStatus}
    (hs : E.books.lookup X = some s) (h : E.cancel X id = .ok (E', status)) :
    ∃ answer, status = some answer := by
  rw [Exchange.cancel, hs] at h
  dsimp only at h
  obtain ⟨⟨s', answer⟩, hstep, h⟩ := bind_eq_ok.mp h
  obtain ⟨-, rfl⟩ := Prod.mk.inj (Except.ok.inj h)
  obtain ⟨⟨s'', answer'⟩, -, he⟩ := bind_eq_ok.mp hstep
  exact ⟨answer', (Prod.mk.inj (Except.ok.inj he)).2.symm⟩

/-- **A create request does to the exchange** what it does as a request of the API. -/
theorem createOrder_exchange (E : Exchange) (now : ℤ) (working : Bool) {params : PathParams}
    (hX : params.instrument = some X) (content : OrderJson) :
    (createOrder uuid toFloat E now working params content).map Prod.fst =
      (Admission.createOrder uuid toFloat E now working X content).map Prod.fst := by
  rcases hadmit : admitCreate toFloat E now working params content with reply | ⟨X', a⟩
  · have hE : Admission.createOrder uuid toFloat E now working X content = .ok (E, none) := by
      rw [Admission.createOrder]
      split
      · rfl
      next a ha =>
      split
      · next hworking =>
        rw [Exchange.create]
        split
        · rfl
        next s hs =>
        rw [if_pos]
        by_contra hside
        have hmem : X ∈ E.books := AList.lookup_isSome.mp (by rw [hs]; rfl)
        exact absurd hadmit (by
          simp [admitCreate, validateInstrumentParameter, validateParameter, hX, hmem, mapOrder, ha,
            validateOrderSide, hside, checkIfExchangeIsWorking, hworking, bind, Except.bind])
      · rfl
    rw [createOrder, hadmit, hE]
    rfl
  · obtain ⟨hX', ⟨s, hs⟩, ha, hside, rfl⟩ := admitCreate_eq_ok hadmit
    obtain rfl : X = X' := Option.some.inj (hX.symm.trans hX')
    rw [createOrder, hadmit, Admission.createOrder, ha]
    exact map_reply _ fun E' status => create_answer hs hside

/-- **A cancel request does to the exchange** what it does as a request of the API. -/
theorem cancelOrder_exchange (E : Exchange) (working : Bool) {params : PathParams}
    (hX : params.instrument = some X) (hid : params.orderId = some id) :
    (cancelOrder E working params).map Prod.fst =
      (Admission.cancelOrder E working X id).map Prod.fst := by
  rcases hadmit : admitCancel E working params with reply | ⟨X', id'⟩
  · have hE : Admission.cancelOrder E working X id = .ok (E, none) := by
      rw [Admission.cancelOrder]
      split
      · next hworking =>
        rw [Exchange.cancel]
        split
        · rfl
        next s hs =>
        have hmem : X ∈ E.books := AList.lookup_isSome.mp (by rw [hs]; rfl)
        exact absurd hadmit (by
          simp [admitCancel, validateInstrumentParameter, validateParameter, hX, hid, hmem,
            checkIfExchangeIsWorking, hworking, bind, Except.bind])
      · rfl
    rw [cancelOrder, hadmit, hE]
    rfl
  · obtain ⟨hX', hid', ⟨s, hs⟩, rfl⟩ := admitCancel_eq_ok hadmit
    obtain rfl : X = X' := Option.some.inj (hX.symm.trans hX')
    obtain rfl : id = id' := Option.some.inj (hid.symm.trans hid')
    rw [cancelOrder, hadmit, Admission.cancelOrder, if_pos rfl]
    exact map_reply _ fun E' status => cancel_answer hs

/-! ### One event -/

theorem Kept.faithful {E' : Exchange} {e : Event} {reply : Option Reply}
    (hk : Kept uuid toFloat store E h) (hdoes : Does uuid toFloat E e E' reply) :
    Faithful toFloat store h (e, reply) := by
  cases hdoes with
  | nothing reply _ _ hsettles _ hreturns =>
    refine ⟨fun X id hx => absurd hx (hsettles X id), fun id order hx => ?_⟩
    obtain ⟨d, hd, horder, hid⟩ := hreturns id order hx
    exact ⟨d, horder, hid, hk.record d hd⟩
  | request X s s' r g reply hX hg hr hreturns =>
    refine ⟨fun Y id hY => ?_, fun id order hx => absurd hx (hreturns id order)⟩
    obtain ⟨L, hL⟩ := hk.book X s hX
    obtain ⟨rfl, ⟨o, hlook⟩, -⟩ := (hr L hL.refines).2.settles Y id hY
    exact (hL.entry id o hlook).1
  | restart instruments keepsQueue books he =>
    subst he
    exact ⟨fun _ _ => False.elim, fun _ _ => False.elim⟩
  | persist m rest d he =>
    subst he
    exact ⟨fun _ _ => False.elim, fun _ _ => False.elim⟩

/-- **Every run** ends in a state that agrees with its history, and so does every reply. -/
theorem exists_faithful (huuid : Function.Injective uuid) (store : OrderStore) (es : List Event) :
    ∃ E replies, runAll (Server.step uuid toFloat) (.closed store) es = .ok (E, replies) ∧
      Kept uuid toFloat store E (es.zip replies) ∧
        Follows (Faithful toFloat store) (es.zip replies) :=
  runAll_history (fun E h e hk _ => by
    obtain ⟨E', reply, hstep, hdoes⟩ := hk.usable.does e
    exact ⟨E', reply, hstep, hk.faithful hdoes, hk.does huuid hdoes⟩) (kept_closed store)
    (meets_of_forall (P := fun _ => True) (fun _ _ => trivial) _)

end Server

open Server (Event)

/-- **Every order is settled at most once**: a cancel request that is answered with 200, and an
update request that is answered with MODIFIED, name an id that a create request was accepted with
for the same instrument since the last restart, and that no earlier request has settled; throughout
any run, over any contents of the repository. -/
theorem settled_open {uuid : ℕ → String} (huuid : Function.Injective uuid) (toFloat : ℚ → ℚ)
    (store : OrderStore) (es : List Event) :
    ∃ E replies, runAll (Server.step uuid toFloat) (.closed store) es = .ok (E, replies) ∧
      Follows (fun h x => ∀ X id, Server.Settles X id x → Server.Open h X id) (es.zip replies) := by
  obtain ⟨E, replies, hrun, -, hfaithful⟩ := Server.exists_faithful huuid store es
  exact ⟨E, replies, hrun, hfaithful.imp fun _ _ hx => hx.settles⟩

/-- The body of a request for five units at ten. -/
def bidForFive : OrderJson where
  orderId := none
  instrument := some "X"
  userId := some "u"
  qty := some 5
  price := some 10
  side := some "BUY"
  type := some "LIMIT"
  params := some 0
  expireTime := none
  stopPrice := none

/-- An order is created and cancelled twice. -/
def cancelTwice : List Event :=
  [.restart [("X", 10)] false, .create 0 true ⟨some "X", none⟩ bidForFive,
    .cancel true ⟨some "X", some (unaryIds 0)⟩, .cancel true ⟨some "X", some (unaryIds 0)⟩]

/-- It is not found the second time. -/
theorem settled_open_cancel :
    (∃ E replies, runAll (Server.step unaryIds id) (.closed .empty) cancelTwice = .ok (E, replies) ∧
      Follows (fun h x => ∀ X id, Server.Settles X id x → Server.Open h X id)
        (cancelTwice.zip replies)) ∧
    (runAll (Server.step unaryIds id) (.closed .empty) cancelTwice).toOption.map
      (fun r => r.2.map (Option.map Reply.status)) =
        some [none, some .ok, some .ok, some .notFound] :=
  ⟨settled_open unaryIds_injective id .empty cancelTwice, by decide +kernel⟩

end LimitOrderBook
