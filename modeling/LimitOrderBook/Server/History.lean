import LimitOrderBook.Server.Handlers

/-!
# What the server has answered

The history of a server is the list of what happened with the replies. An id is handed out by the
reply to a create request whose order is accepted, and settled by the reply to a cancel or an update
request that says that the order was found. An id can be settled as long as it is
`LimitOrderBook.Server.Open`: it was handed out for the instrument since the last restart, and has
not been settled.
-/

namespace LimitOrderBook

theorem OrderData.Keeps.archived {x y : OrderData} (h : x.Keeps y) : x.archived.Keeps y.archived :=
  { h with stopPrice := rfl }

theorem OrderStatus.toUInt8_injective : Function.Injective OrderStatus.toUInt8 := by
  intro x y h
  cases x <;> cases y <;> first | rfl | exact absurd h (by decide)

namespace Server

/-- Something that happened, with its reply. -/
abbrev Entry : Type := Event × Option Reply

/-- A create request for the instrument `X` was accepted with the id. -/
def Hands (X id : String) : Entry → Prop
  | (.create _ _ params _, some reply) => params.instrument = some X ∧
    reply.body = some (.orderInfo id OrderStatus.accepted.toUInt8)
  | _ => False

/-- The order with the id was cancelled or replaced, on a request for the instrument `X`. -/
def Settles (X id : String) : Entry → Prop
  | (.cancel _ params, some reply) =>
    params.instrument = some X ∧ params.orderId = some id ∧ reply.status = .ok
  | (.update _ _ params _, some reply) => params.instrument = some X ∧
    reply.body = some (.orderInfo id OrderStatus.modified.toUInt8)
  | _ => False

/-- The order with the id was cancelled. -/
def Cancels (id : String) : Entry → Prop
  | (.cancel _ params, some reply) => params.orderId = some id ∧ reply.status = .ok
  | _ => False

/-- The order `order` is returned under the id. -/
def Returns (id : String) (order : SeastarOrderJson) : Entry → Prop
  | (.get _ params, some reply) => params.orderId = some id ∧ reply.body = some (.order order)
  | _ => False

def Restarts : Entry → Prop
  | (.restart _ _, _) => True
  | _ => False

instance : DecidablePred Restarts
  | (.restart _ _, _) => .isTrue trivial
  | (.create .., _) | (.update .., _) | (.get .., _) | (.cancel .., _) | (.snapshot _, _) |
    (.checkDate .., _) | (.persist, _) => .isFalse not_false

/-- A request has brought the order `x` into a book, where the order is taken as the repository
keeps it: with the id that the reply gives, and no stop price. -/
def Submits (toFloat : ℚ → ℚ) (x : OrderData) : Entry → Prop
  | (.create now _ _ content, some reply) => ∃ a,
    content.mapJsonToOrder toFloat now = some a ∧
      reply.body = some (.orderInfo x.id OrderStatus.accepted.toUInt8) ∧
      x.Keeps ({ a with id := x.id } : OrderArgs).toData.archived
  | (.update now _ _ content, some reply) => ∃ a,
    content.mapJsonToOrder toFloat now = some a ∧
      reply.body = some (.orderInfo x.id OrderStatus.modified.toUInt8) ∧ x.Keeps a.toData.archived
  | _ => False

/-- **The id can still be settled**: it was handed out for the instrument since the last restart,
and nobody has settled it. -/
def Open (h : List Entry) (X id : String) : Prop :=
  (∃ p x q, h = p ++ x :: q ∧ Hands X id x ∧ ∀ y ∈ q, ¬ Restarts y) ∧
    ∀ y ∈ h, ∀ Y, ¬ Settles Y id y

def Submitted (toFloat : ℚ → ℚ) (h : List Entry) (x : OrderData) : Prop :=
  ∃ y ∈ h, Submits toFloat x y

variable {uuid : ℕ → String} {toFloat : ℚ → ℚ} {store : OrderStore} {h : List Entry} {x : Entry}
  {X Y id : String} {d d' : OrderData}

theorem Open.hands (ho : Open h X id) : ∃ y ∈ h, Hands X id y := by
  obtain ⟨⟨p, x, q, rfl, hx, -⟩, -⟩ := ho
  exact ⟨x, by simp, hx⟩

/-- An id stays open. -/
theorem Open.concat (ho : Open h X id) (hrestart : ¬ Restarts x) (hsettle : ∀ Y, ¬ Settles Y id x) :
    Open (h ++ [x]) X id := by
  obtain ⟨⟨p, y, q, rfl, hy, hq⟩, hno⟩ := ho
  refine ⟨⟨p, y, q ++ [x], by simp, hy, fun z hz => ?_⟩, fun z hz => ?_⟩
  · rcases List.mem_append.mp hz with hz | hz
    · exact hq z hz
    · rwa [List.mem_singleton.mp hz]
  · rcases List.mem_append.mp hz with hz | hz
    · exact hno z hz
    · rwa [List.mem_singleton.mp hz]

/-- An id that has just been handed out is open. -/
theorem Hands.open (hx : Hands X id x) (hno : ∀ y ∈ h ++ [x], ∀ Y, ¬ Settles Y id y) :
    Open (h ++ [x]) X id :=
  ⟨⟨h, x, [], rfl, hx, by simp⟩, hno⟩

theorem Submits.congr (hx : Submits toFloat d x) (hkeep : d'.Keeps d) : Submits toFloat d' x := by
  rcases x with ⟨e, _ | reply⟩
  · cases e <;> exact hx.elim
  · cases e with
    | create now working params content =>
      obtain ⟨a, ha, hbody, hd⟩ := hx
      refine ⟨a, ha, hkeep.id ▸ hbody, ?_⟩
      rw [hkeep.id]
      exact hkeep.trans hd
    | update now working params content =>
      obtain ⟨a, ha, hbody, hd⟩ := hx
      exact ⟨a, ha, hkeep.id ▸ hbody, hkeep.trans hd⟩
    | _ => exact hx.elim

theorem Submitted.congr (hd : Submitted toFloat h d) (hkeep : d'.Keeps d) :
    Submitted toFloat h d' := by
  obtain ⟨y, hy, hyd⟩ := hd
  exact ⟨y, hy, hyd.congr hkeep⟩

theorem Submitted.concat (hd : Submitted toFloat h d) (x : Entry) :
    Submitted toFloat (h ++ [x]) d := by
  obtain ⟨y, hy, hyd⟩ := hd
  exact ⟨y, List.mem_append_left _ hy, hyd⟩

end Server

end LimitOrderBook
