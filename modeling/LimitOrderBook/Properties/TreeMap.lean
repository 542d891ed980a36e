import LimitOrderBook.Lib.ClassMap
import LimitOrderBook.Storage.Clear

/-!
# The tree is a map

The container for those who only see what its operations return: a sequence of calls of
`insert`, `remove`, `clear`, `find`, `contains` and `size` on a red-black tree in memory
returns what the same sequence returns on a map from the classes of equivalent values to
their representatives (`LimitOrderBook.treeMap`). The relation that is kept is that the keys
of the tree, read in order, represent the map (`LimitOrderBook.RBTree.Refines`).
-/

namespace LimitOrderBook

/-- A call of one of the operations of the container. -/
inductive MapCall (α : Type) where
  /-- One of those that change it. -/
  | update (c : TreeCall α)
  | find (value : α)
  | contains (value : α)
  | size

/-- What a call returns. -/
inductive MapAnswer (α : Type) where
  /-- Whether something was removed, where that was asked. -/
  | update (removed : Option Bool)
  | find (found : Option α)
  | contains (found : Bool)
  | size (n : UInt64)

variable {α : Type} {lt : α → α → Bool}

/-- One call on a tree in memory. -/
def RBTree.mapCall (lt : α → α → Bool) (t : RBTree α) :
    MapCall α → Except Fault (RBTree α × MapAnswer α)
  | .update c => do
    let (t, removed) ← t.call lt c
    .ok (t, .update removed)
  | .find value => do
    .ok (t, .find (← t.find lt value))
  | .contains value => do
    .ok (t, .contains (← t.contains lt value))
  | .size => .ok (t, .size t.size)

namespace ClassMap

variable {hlt : StrictWeak lt}

/-- What a call does to a map. -/
def update (m : ClassMap hlt) : TreeCall α → ClassMap hlt
  | .insert value => m.insert value
  | .remove value => m.remove value
  | .clear => empty

/-- What a call that changes the map returns. -/
def removed (m : ClassMap hlt) : TreeCall α → Option Bool
  | .insert _ => none
  | .remove value => some (m.find value).isSome
  | .clear => none

/-- One call on a map. -/
noncomputable def mapCall (m : ClassMap hlt) : MapCall α → ClassMap hlt × MapAnswer α
  | .update c => (m.update c, .update (m.removed c))
  | .find value => (m, .find (m.find value))
  | .contains value => (m, .contains (m.find value).isSome)
  | .size => (m, .size (UInt64.ofNat m.size))

/-- What a sequence of calls on a map returns. -/
noncomputable def answers (m : ClassMap hlt) : List (MapCall α) → List (MapAnswer α)
  | [] => []
  | c :: cs => (m.mapCall c).2 :: answers (m.mapCall c).1 cs

/-- A call keeps that sorted keys represent the map. -/
theorem Represents.update {m : ClassMap hlt} {ks : List α} (h : m.Represents ks)
    (c : TreeCall α) : (m.update c).Represents (RBTree.callKeys lt ks c) := by
  cases c with
  | insert value => exact h.insert value
  | remove value => exact h.remove value
  | clear => exact Represents.nil

end ClassMap

namespace RBTree

variable {hlt : StrictWeak lt} {t : RBTree α} {m : ClassMap hlt}

/-- **The keys of the tree represent the map.** -/
def Refines (t : RBTree α) (m : ClassMap hlt) : Prop :=
  ∃ T, Usable t T ∧ m.Represents (T.items.map Prod.snd)

theorem refines_empty : Refines empty (ClassMap.empty : ClassMap hlt) :=
  ⟨.nil, Or.inl valid_empty, ClassMap.Represents.nil⟩

theorem Refines.find (h : Refines t m) (v : α) : t.find lt v = .ok (m.find v) := by
  obtain ⟨T, hT, hm⟩ := h
  rw [hT.find hlt hm.sorted, hm.find]

theorem Refines.size (h : Refines t m) : t.size = UInt64.ofNat m.size := by
  obtain ⟨T, hT, hm⟩ := h
  rw [hT.size, hm.size]

/-- The calls that change the tree change the map alike. -/
theorem Refines.call (h : Refines t m) (c : TreeCall α) :
    ∃ t', t.call lt c = .ok (t', m.removed c) ∧ Refines t' (m.update c) := by
  obtain ⟨T, hT, hm⟩ := h
  obtain ⟨t', T', ht', hT', hk⟩ := hT.call_answer hlt hm.sorted c
  refine ⟨t', ?_, T', hT', hk ▸ hm.update c⟩
  have hanswer : callAnswer lt (T.items.map Prod.snd) c = m.removed c := by
    cases c with
    | insert value => rfl
    | remove value => exact congrArg (fun o : Option α => some o.isSome) (hm.find value)
    | clear => rfl
  rw [ht', hanswer]

/-- **A call** returns what it returns on the map. -/
theorem Refines.mapCall (h : Refines t m) (c : MapCall α) :
    ∃ t', t.mapCall lt c = .ok (t', (m.mapCall c).2) ∧ Refines t' (m.mapCall c).1 := by
  cases c with
  | update c =>
    obtain ⟨t', ht', h'⟩ := h.call c
    exact ⟨t', by rw [RBTree.mapCall, ht']; rfl, h'⟩
  | find value => exact ⟨t, by rw [RBTree.mapCall, h.find]; rfl, h⟩
  | contains value => exact ⟨t, by rw [RBTree.mapCall, RBTree.contains, h.find]; rfl, h⟩
  | size => exact ⟨t, by rw [RBTree.mapCall, h.size]; rfl, h⟩

theorem Refines.runAll (h : Refines t m) (cs : List (MapCall α)) :
    ∃ t', LimitOrderBook.runAll (RBTree.mapCall lt) t cs = .ok (t', m.answers cs) := by
  induction cs generalizing t m with
  | nil => exact ⟨t, rfl⟩
  | cons c cs ih =>
    obtain ⟨t₁, h₁, href⟩ := h.mapCall c
    obtain ⟨t₂, h₂⟩ := ih href
    exact ⟨t₂, runAll_cons h₁ h₂⟩

end RBTree

/-- **Every sequence of calls on an empty tree**, with any strict weak order, returns what it
returns on the map from classes of equivalent values to representatives. -/
theorem treeMap (hlt : StrictWeak lt) (cs : List (MapCall α)) :
    ∃ t, runAll (RBTree.mapCall lt) RBTree.empty cs =
      .ok (t, (ClassMap.empty : ClassMap hlt).answers cs) :=
  RBTree.refines_empty.runAll cs

/-- Natural numbers: the one that is inserted last is removed. -/
theorem treeMap_nat : ∃ t, runAll (RBTree.mapCall fun a b : ℕ => decide (a < b)) RBTree.empty
      [.update (.insert 1), .update (.insert 2), .update (.remove 2), .find 1, .contains 2] =
    .ok (t, [.update none, .update none, .update (some true), .find (some 1), .contains false]) :=
  treeMap strictWeak_nat _

end LimitOrderBook
