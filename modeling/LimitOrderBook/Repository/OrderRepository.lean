import LimitOrderBook.DataStructures
import LimitOrderBook.Lib.SortedKeys
import Mathlib.Data.String.Basic

/-!
# The class `OrderRepository`

The store of `repository/order_repository.cpp`: records keyed by the ids of the orders,
read back in ascending order of the keys (`LimitOrderBook.OrderStore`). A record is an
order as the archive restores it (`LimitOrderBook.OrderData.archived`): the stop price is
not among the fields of `Order::serialize` and comes back as its default.

The order of strings is that of their code points, which is the order of their bytes in
UTF-8. `Put` and `Delete` always succeed, and the message queue is part of the systems
that use the repository.
-/

namespace LimitOrderBook

/-- The fields that `Order::serialize` passes to the archive, in its order. -/
structure OrderRecord where
  id : String
  instrument : String
  userId : String
  timestamp : ℤ
  qty : ℚ
  currentQty : ℚ
  price : ℚ
  cancelled : Bool
  side : Side
  type : OrderType
  params : OrderParams
  expireTime : ℤ

/-- What `save` writes. -/
def OrderData.serialize (o : OrderData) : OrderRecord where
  id := o.id
  instrument := o.instrument
  userId := o.userId
  timestamp := o.timestamp
  qty := o.qty
  currentQty := o.currentQty
  price := o.price
  cancelled := o.cancelled
  side := o.side
  type := o.type
  params := o.params
  expireTime := o.expireTime

/-- The fields of a record, restored into an order that is new. -/
def OrderRecord.restore (r : OrderRecord) : OrderData where
  id := r.id
  instrument := r.instrument
  userId := r.userId
  timestamp := r.timestamp
  qty := r.qty
  currentQty := r.currentQty
  price := r.price
  stopPrice := 0
  side := r.side
  cancelled := r.cancelled
  params := r.params
  type := r.type
  expireTime := r.expireTime

/-- An order that was written by `save` and read back. -/
def OrderData.archived (o : OrderData) : OrderData := { o with stopPrice := 0 }

theorem OrderData.restore_serialize (o : OrderData) : o.serialize.restore = o.archived := rfl

@[simp] theorem OrderData.archived_archived (o : OrderData) : o.archived.archived = o.archived :=
  rfl

@[simp] theorem OrderData.archived_id (o : OrderData) : o.archived.id = o.id := rfl

/-- The order of the keys. -/
def recordLess (x y : OrderData) : Bool := x.id < y.id

theorem recordLess_strictWeak : StrictWeak recordLess :=
  strictWeak_of_key OrderData.id fun x y => by simp [recordLess]

theorem equiv_recordLess {x y : OrderData} : Equiv recordLess x y ↔ x.id = y.id := by
  rw [Equiv, recordLess, recordLess, decide_eq_false_iff_not, decide_eq_false_iff_not, not_lt,
    not_lt]
  exact ⟨fun h => le_antisymm h.2 h.1, fun h => ⟨h.ge, h.le⟩⟩

/-- The records, one for a key, in ascending order. -/
structure OrderStore where
  records : List OrderData
  sorted : SortedKeys recordLess records

namespace OrderStore

/-- `Put`, of what `save` writes. -/
def save (r : OrderStore) (order : OrderData) : OrderStore where
  records := insertKey recordLess order.archived r.records
  sorted := r.sorted.insertKey recordLess_strictWeak _

/-- `Delete`. -/
def remove (r : OrderStore) (orderId : String) : OrderStore where
  records := r.records.filter fun x => x.id ≠ orderId
  sorted := r.sorted.sublist List.filter_sublist

/-- `get_all`. -/
def getAll (r : OrderStore) : List OrderData := r.records

/-- `get`. -/
def get (r : OrderStore) (orderId : String) : Option OrderData :=
  r.records.find? fun x => x.id = orderId

/-- What `process_messages` does with an order that it has popped. -/
def processMessage (r : OrderStore) (order : OrderData) : OrderStore :=
  if order.cancelled || order.isFullfilled then r.remove order.id else r.save order

def empty : OrderStore := ⟨[], List.Pairwise.nil⟩

variable {r : OrderStore} {x y : OrderData} {id : String}

/-! ### Reading and writing records -/

/-- Two records with the same key are the same. -/
theorem eq_of_id (hx : x ∈ r.records) (hy : y ∈ r.records) (h : x.id = y.id) : x = y :=
  r.sorted.eq_of_equiv hx hy (equiv_recordLess.mpr h)

theorem get_eq_some : r.get id = some x ↔ x ∈ r.records ∧ x.id = id := by
  rw [get]
  constructor
  · intro h
    exact ⟨List.mem_of_find?_eq_some h, by simpa using List.find?_some h⟩
  · rintro ⟨hx, rfl⟩
    obtain ⟨y, hy⟩ : ∃ y, r.records.find? (fun z => z.id = x.id) = some y :=
      Option.isSome_iff_exists.mp (List.find?_isSome.mpr ⟨x, hx, by simp⟩)
    have hyx : y.id = x.id := by simpa using List.find?_some hy
    rw [hy, r.eq_of_id (List.mem_of_find?_eq_some hy) hx hyx]

theorem mem_save : x ∈ (r.save y).records ↔ x = y.archived ∨ x ∈ r.records ∧ x.id ≠ y.id := by
  rw [save, mem_insertKey recordLess_strictWeak r.sorted, equiv_recordLess]
  exact or_congr_right (and_congr_right fun _ => ne_comm)

theorem mem_remove : x ∈ (r.remove id).records ↔ x ∈ r.records ∧ x.id ≠ id := by
  simp [remove]

@[simp] theorem get_save_self : (r.save x).get x.id = some x.archived :=
  get_eq_some.mpr ⟨mem_save.mpr (Or.inl rfl), rfl⟩

theorem get_save_of_ne (h : id ≠ x.id) : (r.save x).get id = r.get id := by
  refine Option.ext fun y => ?_
  rw [get_eq_some, get_eq_some, mem_save]
  constructor
  · rintro ⟨rfl | ⟨hy, -⟩, hid⟩
    · exact absurd hid.symm h
    · exact ⟨hy, hid⟩
  · rintro ⟨hy, rfl⟩
    exact ⟨Or.inr ⟨hy, h⟩, rfl⟩

@[simp] theorem get_remove_self : (r.remove id).get id = none := by
  refine Option.eq_none_iff_forall_ne_some.mpr fun y hy => ?_
  obtain ⟨hmem, hid⟩ := get_eq_some.mp hy
  exact (mem_remove.mp hmem).2 hid

theorem get_remove_of_ne {id' : String} (h : id ≠ id') : (r.remove id').get id = r.get id := by
  refine Option.ext fun y => ?_
  rw [get_eq_some, get_eq_some, mem_remove]
  constructor
  · rintro ⟨⟨hy, -⟩, hid⟩
    exact ⟨hy, hid⟩
  · rintro ⟨hy, rfl⟩
    exact ⟨⟨hy, h⟩, rfl⟩

/-- A record after a message was processed is that of the message, or an old one. -/
theorem mem_processMessage (h : x ∈ (r.processMessage y).records) :
    x = y.archived ∨ x ∈ r.records := by
  rw [processMessage] at h
  split at h
  · exact Or.inr (mem_remove.mp h).1
  · exact (mem_save.mp h).imp_right And.left

/-- A record that is new is that of an order that is neither cancelled nor filled. -/
theorem eq_of_mem_processMessage (h : x ∈ (r.processMessage y).records) :
    x = y.archived ∧ y.cancelled = false ∧ y.isFullfilled = false ∨ x ∈ r.records := by
  rcases hdone : y.cancelled || y.isFullfilled with _ | _
  · exact (mem_processMessage h).imp_left fun he => ⟨he, Bool.or_eq_false_iff.mp hdone⟩
  · rw [processMessage, hdone, if_pos rfl] at h
    exact Or.inr (mem_remove.mp h).1

/-- What the store holds for the id of a message after it was processed. -/
def outcome (order : OrderData) : Option OrderData :=
  if order.cancelled || order.isFullfilled then none else some order.archived

theorem get_processMessage_self : (r.processMessage x).get x.id = outcome x := by
  rw [processMessage, outcome]
  split
  · exact get_remove_self
  · exact get_save_self

theorem get_processMessage_of_ne (h : id ≠ x.id) : (r.processMessage x).get id = r.get id := by
  rw [processMessage]
  split
  · exact get_remove_of_ne h
  · exact get_save_of_ne h

theorem get_processMessage (r : OrderStore) (x : OrderData) :
    (r.processMessage x).get = Function.update r.get x.id (outcome x) := by
  funext id
  by_cases hid : id = x.id
  · rw [hid, Function.update_self, get_processMessage_self]
  · rw [Function.update_of_ne hid, get_processMessage_of_ne hid]

end OrderStore

end LimitOrderBook
