import LimitOrderBook.Storage.Iterate
import LimitOrderBook.Storage.Remove

/-!
# The tree as a sorted list of keys

The interface of a red-black tree for those who use it: a valid tree in memory is
known through the list of its keys (`LimitOrderBook.RBTree.HasKeys`), and each
operation does to that list what its namesake of
`LimitOrderBook.Lib.SortedKeys` does. No operation faults.
-/

namespace LimitOrderBook

namespace RBTree

open ColorTree ColorCtx

variable {α : Type} {t : RBTree α} {ks : List α} {lt : α → α → Bool}

/-- The tree is valid and has these keys, in this order. -/
def HasKeys (t : RBTree α) (ks : List α) : Prop :=
  ∃ T, Valid t T ∧ T.items.map Prod.snd = ks

theorem hasKeys_empty : HasKeys (empty : RBTree α) [] := ⟨.nil, valid_empty, rfl⟩

theorem HasKeys.insert (hlt : StrictWeak lt) (h : HasKeys t ks) (hs : SortedKeys lt ks) (v : α) :
    ∃ t', t.insert lt v = .ok t' ∧ HasKeys t' (insertKey lt v ks) := by
  obtain ⟨T, hT, rfl⟩ := h
  obtain ⟨t', T', ht', hT', hk⟩ := insert_spec hlt hT hs v
  exact ⟨t', ht', T', hT', hk⟩

theorem HasKeys.remove (hlt : StrictWeak lt) (h : HasKeys t ks) (hs : SortedKeys lt ks) (v : α) :
    ∃ t', t.remove lt v = .ok (t', (findKey lt v ks).isSome) ∧ HasKeys t' (eraseKey lt v ks) := by
  obtain ⟨T, hT, rfl⟩ := h
  obtain ⟨t', T', ht', hT', hk⟩ := remove_spec hlt hT hs v
  exact ⟨t', ht', T', hT', hk⟩

theorem HasKeys.find (hlt : StrictWeak lt) (h : HasKeys t ks) (hs : SortedKeys lt ks) (v : α) :
    t.find lt v = .ok (findKey lt v ks) := by
  obtain ⟨T, hT, rfl⟩ := h
  exact find_spec hlt hT.toHolds hs v

theorem HasKeys.keys (h : HasKeys t ks) : t.keys = .ok ks := by
  obtain ⟨T, hT, rfl⟩ := h
  exact keys_spec hT

/-- The pointer to the first node is that of the sentinel only when there is none. -/
theorem HasKeys.first_eq_nil (h : HasKeys t ks) : t.first = nil ↔ ks = [] := by
  obtain ⟨T, hT, rfl⟩ := h
  rw [hT.first, List.map_eq_nil_iff]
  constructor
  · intro hf
    by_contra hne
    obtain ⟨p, ps, hp⟩ := List.exists_cons_of_ne_nil hne
    rw [hp, firstPtr_cons] at hf
    refine hT.nil_not_mem ?_
    rw [ColorTree.addrs, hp, ← hf]
    simp
  · rintro hi
    rw [hi, firstPtr_nil]

/-- **`first()`** is the first key. -/
theorem HasKeys.firstKey (h : HasKeys t ks) : t.firstKey = .ok ks.head? := by
  by_cases hks : ks = []
  · rw [RBTree.firstKey, if_pos (h.first_eq_nil.mpr hks), hks, List.head?_nil]
  · rw [RBTree.firstKey, if_neg (mt h.first_eq_nil.mp hks)]
    obtain ⟨T, hT, rfl⟩ := h
    obtain ⟨⟨a, k⟩, ps, hp⟩ := List.exists_cons_of_ne_nil (mt List.map_eq_nil_iff.mpr hks)
    have hi : T.items = [] ++ (a, k) :: ps := hp
    obtain ⟨c, b, l, r, rfl, -, -⟩ := exists_position hi hT.nodup
    have hkey : t.key a = .ok k := key_eq (Holds.mem_eq (d := .left) hT.toHolds) rfl
    rw [hT.first, hp, firstPtr_cons, hkey]
    rfl

/-- **`last()`** is the last key, provided the pointer of an empty tree does not
dangle. -/
theorem HasKeys.lastKey (h : HasKeys t ks) (hlast : t.first = nil → t.last = nil) :
    t.lastKey = .ok ks.getLast? := by
  by_cases hks : ks = []
  · rw [RBTree.lastKey, if_pos (hlast (h.first_eq_nil.mpr hks)), hks, List.getLast?_nil]
  · obtain ⟨T, hT, rfl⟩ := h
    have hne : T.items ≠ [] := mt List.map_eq_nil_iff.mpr hks
    obtain ⟨xs, ⟨a, k⟩, hi⟩ := (List.eq_nil_or_concat T.items).resolve_left hne
    rw [List.concat_eq_append] at hi
    have hlast' : t.last = a := by
      rw [hT.last (mt items_eq_nil.mpr hne), hi, lastPtr_concat]
    obtain ⟨c, b, l, r, rfl, -, -⟩ := exists_position hi hT.nodup
    have hkey : t.key a = .ok k := key_eq (Holds.mem_eq (d := .left) hT.toHolds) rfl
    have hanil : a ≠ nil := fun he =>
      hT.nil_not_mem (mem_addrs_plug.mpr (Or.inl (by simp [he])))
    rw [RBTree.lastKey, hlast', if_neg hanil, hkey, hi]
    simp

end RBTree

end LimitOrderBook
