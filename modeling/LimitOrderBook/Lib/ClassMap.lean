import LimitOrderBook.Lib.SortedKeys
import Mathlib.Data.Set.Card

/-!
# Maps from classes to representatives

A strict weak order divides a type into classes of equivalent values. A map from the classes to
their representatives (`LimitOrderBook.ClassMap`) is what a container that is ordered by the
comparator and replaces equivalent values is for: insertion makes a value the representative of
its class, removal takes the representative of a class away. The size is the number of classes
that have a representative.

A sorted list of keys represents such a map when its search function is the map
(`LimitOrderBook.ClassMap.Represents`).
-/

namespace LimitOrderBook

variable {α : Type} {lt : α → α → Bool}

theorem StrictWeak.equivalence (hlt : StrictWeak lt) : Equivalence (Equiv lt) where
  refl := fun _ => ⟨hlt.irrefl, hlt.irrefl⟩
  symm := And.symm
  trans := fun {a b c} hab hbc => by
    obtain ⟨h₁, h₂⟩ := hbc
    constructor
    · rw [Bool.eq_false_iff]
      intro hac
      rw [hlt.lt_of_equiv_of_lt (And.symm hab) hac] at h₁
      exact absurd h₁ (by simp)
    · rw [Bool.eq_false_iff]
      intro hca
      rw [hlt.lt_of_lt_of_equiv hca hab] at h₂
      exact absurd h₂ (by simp)

instance : DecidableRel (Equiv lt) := fun a b =>
  inferInstanceAs (Decidable (lt a b = false ∧ lt b a = false))

/-- The classes of equivalent values. -/
def StrictWeak.classes (hlt : StrictWeak lt) : Setoid α := ⟨Equiv lt, hlt.equivalence⟩

instance (hlt : StrictWeak lt) : DecidableEq (Quotient hlt.classes) :=
  @Quotient.decidableEq α hlt.classes fun a b => inferInstanceAs (Decidable (Equiv lt a b))

/-- **A map from classes to representatives.** -/
def ClassMap (hlt : StrictWeak lt) : Type := Quotient hlt.classes → Option α

namespace ClassMap

variable {hlt : StrictWeak lt}

/-- The representative of the class of a value. -/
def find (m : ClassMap hlt) (v : α) : Option α := m (Quotient.mk hlt.classes v)

/-- No class has a representative. -/
def empty : ClassMap hlt := fun _ => none

/-- The value becomes the representative of its class. -/
def insert (m : ClassMap hlt) (v : α) : ClassMap hlt :=
  Function.update m (Quotient.mk hlt.classes v) (some v)

/-- The class of the value loses its representative. -/
def remove (m : ClassMap hlt) (v : α) : ClassMap hlt :=
  Function.update m (Quotient.mk hlt.classes v) none

/-- How many classes have a representative. -/
noncomputable def size (m : ClassMap hlt) : ℕ := {q | m q ≠ none}.ncard

variable {m m' : ClassMap hlt} {v w : α} {ks : List α}

theorem mk_eq_mk : Quotient.mk hlt.classes v = Quotient.mk hlt.classes w ↔ Equiv lt v w :=
  Quotient.eq

/-- Maps with the same search function are the same. -/
@[ext] theorem ext_find (h : ∀ v, m.find v = m'.find v) : m = m' := by
  funext q
  obtain ⟨v, rfl⟩ := Quotient.exists_rep q
  exact h v

theorem find_congr (h : Equiv lt v w) : m.find v = m.find w := congrArg m (mk_eq_mk.mpr h)

@[simp] theorem find_empty : (empty : ClassMap hlt).find v = none := rfl

theorem find_insert : (m.insert v).find w = if Equiv lt w v then some v else m.find w := by
  split
  · next h => exact (find_congr h).trans (Function.update_self _ _ _)
  · next h => exact Function.update_of_ne (mt mk_eq_mk.mp h) _ _

theorem find_remove : (m.remove v).find w = if Equiv lt w v then none else m.find w := by
  split
  · next h => exact (find_congr h).trans (Function.update_self _ _ _)
  · next h => exact Function.update_of_ne (mt mk_eq_mk.mp h) _ _

/-! ### Sorted lists of keys -/

/-- **The sorted list of the representatives.** -/
structure Represents (m : ClassMap hlt) (ks : List α) : Prop where
  sorted : SortedKeys lt ks
  find : ∀ v, findKey lt v ks = m.find v

namespace Represents

theorem nil : (empty : ClassMap hlt).Represents [] := ⟨List.Pairwise.nil, fun _ => rfl⟩

variable (h : m.Represents ks)

include h

/-- The keys are the representatives. -/
theorem mem_iff : w ∈ ks ↔ m.find w = some w := by
  rw [← h.find, findKey_eq_some hlt h.sorted]
  exact ⟨fun hw => ⟨hw, hlt.equivalence.refl w⟩, And.left⟩

theorem insert (v : α) : (m.insert v).Represents (insertKey lt v ks) where
  sorted := h.sorted.insertKey hlt v
  find := fun w => by
    refine Option.ext fun x => ?_
    rw [find_insert, findKey_eq_some hlt (h.sorted.insertKey hlt v), mem_insertKey hlt h.sorted]
    split
    · next hwv =>
      rw [Option.some.injEq]
      constructor
      · rintro ⟨rfl | ⟨-, hvx⟩, hwx⟩
        · rfl
        · exact absurd (hlt.equivalence.trans (hlt.equivalence.symm hwv) hwx) hvx
      · rintro rfl
        exact ⟨Or.inl rfl, hwv⟩
    · next hwv =>
      rw [← h.find, findKey_eq_some hlt h.sorted]
      constructor
      · rintro ⟨rfl | ⟨hx, -⟩, hwx⟩
        · exact absurd hwx hwv
        · exact ⟨hx, hwx⟩
      · rintro ⟨hx, hwx⟩
        refine ⟨Or.inr ⟨hx, fun hvx => hwv ?_⟩, hwx⟩
        exact hlt.equivalence.trans hwx (hlt.equivalence.symm hvx)

theorem remove (v : α) : (m.remove v).Represents (eraseKey lt v ks) where
  sorted := h.sorted.eraseKey v
  find := fun w => by
    refine Option.ext fun x => ?_
    rw [find_remove, findKey_eq_some hlt (h.sorted.eraseKey v), mem_eraseKey hlt h.sorted]
    split
    · next hwv =>
      refine iff_of_false ?_ (by simp)
      rintro ⟨⟨-, hvx⟩, hwx⟩
      exact hvx (hlt.equivalence.trans (hlt.equivalence.symm hwv) hwx)
    · next hwv =>
      rw [← h.find, findKey_eq_some hlt h.sorted]
      constructor
      · rintro ⟨⟨hx, -⟩, hwx⟩
        exact ⟨hx, hwx⟩
      · rintro ⟨hx, hwx⟩
        refine ⟨⟨hx, fun hvx => hwv ?_⟩, hwx⟩
        exact hlt.equivalence.trans hwx (hlt.equivalence.symm hvx)

/-- There are as many keys as classes with a representative. -/
theorem size : m.size = ks.length := by
  classical
  have hset : {q | m q ≠ none} = ((ks.map (Quotient.mk hlt.classes)).toFinset : Set _) := by
    ext q
    obtain ⟨v, rfl⟩ := Quotient.exists_rep q
    rw [Finset.mem_coe, List.mem_toFinset, List.mem_map]
    constructor
    · intro hv
      obtain ⟨x, hx⟩ := Option.ne_none_iff_exists'.mp hv
      obtain ⟨hmem, hvx⟩ := (findKey_eq_some hlt h.sorted).mp ((h.find v).trans hx)
      exact ⟨x, hmem, (mk_eq_mk.mpr hvx).symm⟩
    · rintro ⟨x, hx, hxv⟩
      rw [← hxv]
      exact Option.ne_none_iff_exists'.mpr ⟨x, h.mem_iff.mp hx⟩
  have hnd : (ks.map (Quotient.mk hlt.classes)).Nodup := by
    refine List.pairwise_map.mpr (h.sorted.imp fun {a b} hab he => ?_)
    rw [(mk_eq_mk.mp he).1] at hab
    exact absurd hab (by simp)
  rw [ClassMap.size, hset, Set.ncard_coe_finset, List.toFinset_card_of_nodup hnd, List.length_map]

end Represents

end ClassMap

end LimitOrderBook
