import Mathlib.Data.List.Dedup
import Mathlib.Data.List.Perm.Basic

/-!
# Tables of rows with a key

A table is a list of rows no two of which have the same key. Writing a row replaces the one
with its key (`LimitOrderBook.putRow`); a sequence of writes keeps all rows exactly if their
keys are pairwise distinct (`LimitOrderBook.length_putRows_eq_iff`).
-/

namespace LimitOrderBook

variable {α κ : Type} [DecidableEq κ] (key : α → κ)

/-- Write a row. -/
def putRow (rows : List α) (row : α) : List α := rows.filter (fun x => key x ≠ key row) ++ [row]

/-- Read the row with a key. -/
def findRow (k : κ) (rows : List α) : Option α := rows.find? fun x => key x = k

/-- Write the rows of a list, one after the other. -/
def putRows (rows xs : List α) : List α := xs.foldl (putRow key) rows

variable {key} {rows xs : List α} {row : α}

theorem mem_keys_putRow {k : κ} :
    k ∈ (putRow key rows row).map key ↔ k ∈ rows.map key ∨ k = key row := by
  simp only [putRow, List.map_append, List.mem_append, List.mem_map, List.mem_filter,
    decide_eq_true_eq, List.map_cons, List.map_nil, List.mem_singleton]
  constructor
  · rintro (⟨x, ⟨hx, -⟩, rfl⟩ | rfl)
    · exact Or.inl ⟨x, hx, rfl⟩
    · exact Or.inr rfl
  · rintro (⟨x, hx, rfl⟩ | rfl)
    · by_cases hk : key x = key row
      · exact Or.inr hk
      · exact Or.inl ⟨x, ⟨hx, hk⟩, rfl⟩
    · exact Or.inr rfl

/-- Writing a row keeps the keys distinct. -/
theorem nodup_putRow (h : (rows.map key).Nodup) : ((putRow key rows row).map key).Nodup := by
  rw [putRow, List.map_append, List.nodup_append]
  refine ⟨h.sublist (List.filter_sublist.map key), List.nodup_singleton _, ?_⟩
  intro k hk k' hk' he
  obtain ⟨x, hx, rfl⟩ := List.mem_map.mp hk
  rw [List.map_cons, List.map_nil, List.mem_singleton] at hk'
  exact (of_decide_eq_true (List.mem_filter.mp hx).2) (he.trans hk')

/-- A row is found by its key. -/
theorem findRow_eq_some (h : (rows.map key).Nodup) {k : κ} :
    findRow key k rows = some row ↔ row ∈ rows ∧ key row = k := by
  constructor
  · intro hf
    rw [findRow] at hf
    have hk := List.find?_some hf
    exact ⟨List.mem_of_find?_eq_some hf, by simpa using hk⟩
  · rintro ⟨hrow, rfl⟩
    obtain ⟨y, hy⟩ : ∃ y, rows.find? (fun x => key x = key row) = some y :=
      Option.isSome_iff_exists.mp (List.find?_isSome.mpr ⟨row, hrow, by simp⟩)
    have hk : key y = key row := by simpa using List.find?_some hy
    rw [findRow, hy, List.inj_on_of_nodup_map h (List.mem_of_find?_eq_some hy) hrow hk]

theorem nodup_putRows (h : (rows.map key).Nodup) : ((putRows key rows xs).map key).Nodup := by
  induction xs generalizing rows with
  | nil => exact h
  | cons x xs ih => exact ih (nodup_putRow h)

theorem mem_keys_putRows {k : κ} :
    k ∈ (putRows key rows xs).map key ↔ k ∈ rows.map key ∨ k ∈ xs.map key := by
  induction xs generalizing rows with
  | nil => simp [putRows]
  | cons x xs ih => rw [putRows, List.foldl_cons, ← putRows, ih, mem_keys_putRow, List.map_cons,
      List.mem_cons, or_assoc]

/-- Rows with distinct keys are all kept. -/
theorem putRows_eq_append (h : ((rows ++ xs).map key).Nodup) : putRows key rows xs = rows ++ xs := by
  induction xs generalizing rows with
  | nil => exact (List.append_nil rows).symm
  | cons x xs ih =>
    have hput : putRow key rows x = rows ++ [x] := by
      rw [putRow, List.filter_eq_self.mpr]
      intro y hy
      rw [List.map_append, List.nodup_append] at h
      exact decide_eq_true (h.2.2 _ (List.mem_map_of_mem hy) _ (by simp))
    rw [putRows, List.foldl_cons, hput, ← putRows, ih (by rwa [List.append_assoc]),
      List.append_assoc]
    rfl

/-- **All rows are kept** exactly if their keys are pairwise distinct. -/
theorem length_putRows_eq_iff : (putRows key [] xs).length = xs.length ↔ (xs.map key).Nodup := by
  constructor
  · intro hlen
    have hnd : ((putRows key [] xs).map key).Nodup := nodup_putRows List.nodup_nil
    have hperm : ((putRows key [] xs).map key).Perm (xs.map key).dedup :=
      (List.perm_ext_iff_of_nodup hnd (List.nodup_dedup _)).mpr
        fun k => by rw [mem_keys_putRows, List.mem_dedup]; simp
    have hdedup : (xs.map key).dedup.length = (xs.map key).length := by
      rw [← hperm.length_eq, List.length_map, List.length_map, hlen]
    exact List.dedup_eq_self.mp ((List.dedup_sublist _).eq_of_length hdedup)
  · intro h
    rw [putRows_eq_append h, List.nil_append]

end LimitOrderBook
