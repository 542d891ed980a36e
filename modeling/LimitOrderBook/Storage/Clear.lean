import LimitOrderBook.Storage.Keys

/-!
# Clearing, and sequences of operations

`clear` frees the nodes from the leaves up (`LimitOrderBook.RBTree.clearFrom_spec`) and
leaves `_first` and `_last` at freed nodes. Only the next insertion looks at them, and an
insertion into an empty tree sets them first
(`LimitOrderBook.RBTree.insert_of_root_nil`), so that a cleared tree is as good as a new
one (`LimitOrderBook.RBTree.Usable`).
-/

namespace LimitOrderBook

/-- A call of `insert`, `remove` or `clear`. -/
inductive TreeCall (α : Type) where
  | insert (value : α)
  | remove (value : α)
  | clear

namespace RBTree

open ColorTree ColorCtx

variable {α : Type} {t : RBTree α} {T : ColorTree α} {lt : α → α → Bool}

/-- One call; only `remove` returns something. -/
def call (lt : α → α → Bool) (t : RBTree α) : TreeCall α → Except Fault (RBTree α × Option Bool)
  | .insert value => do
    .ok (← t.insert lt value, none)
  | .remove value => do
    let (t, removed) ← t.remove lt value
    .ok (t, some removed)
  | .clear => do
    .ok (← t.clear, none)

/-! ### Clearing -/

/-- The nodes at the addresses in `S` have been freed, and nothing else has changed. -/
structure Freed (S : List ℕ) (t t' : RBTree α) : Prop where
  mem : ∀ p, p ∉ S → t'.mem p = t.mem p
  fresh : t'.fresh = t.fresh
  root : t'.root = t.root
  first : t'.first = t.first
  last : t'.last = t.last
  size : t'.size = t.size - UInt64.ofNat S.length

theorem Freed.trans {S S' : List ℕ} {t' t'' : RBTree α} (h : Freed S t t') (h' : Freed S' t' t'') :
    Freed (S ++ S') t t'' where
  mem := fun p hp => by
    rw [List.mem_append, not_or] at hp
    exact (h'.mem p hp.2).trans (h.mem p hp.1)
  fresh := h'.fresh.trans h.fresh
  root := h'.root.trans h.root
  first := h'.first.trans h.first
  last := h'.last.trans h.last
  size := by
    rw [h'.size, h.size, List.length_append, UInt64.ofNat_add]
    grind

theorem freed_delete (p : ℕ) : Freed [p] t { t.delete p with size := t.size - 1 } where
  mem := fun _ hq => delete_mem_of_ne fun he => hq (List.mem_singleton.mpr he)
  fresh := rfl
  root := rfl
  first := rfl
  last := rfl
  size := rfl

/-- **The recursion of `clear`** frees the nodes of the subtree. -/
theorem clearFrom_spec {N par : ℕ} (hN : T.addrs.length < N) (h : Rep t.mem par T)
    (hnd : T.addrs.Nodup) (hnil : nil ∉ T.addrs) :
    ∃ t', clearFrom N t (ptr T) = .ok t' ∧ ∃ S, S.Perm T.addrs ∧ Freed S t t' := by
  induction N generalizing t T par with
  | zero => exact absurd hN (Nat.not_lt_zero _)
  | succ N ih =>
    rcases T with _ | ⟨a, b, l, k, r⟩
    · refine ⟨t, by rw [clearFrom, ptr_nil, if_pos rfl], [], List.Perm.refl _, ?_⟩
      exact ⟨fun _ _ => rfl, rfl, rfl, rfl, rfl, by simp⟩
    · obtain ⟨ha, hl, hr⟩ := h
      obtain ⟨hal, har, hndl, hndr, hdisj⟩ := nodup_addrs_bin (d := .left) |>.mp hnd
      have hane : a ≠ nil := fun he => hnil (mem_addrs_bin (d := .left) |>.mpr (Or.inl he.symm))
      simp only [addrs_node, List.length_append, List.length_cons] at hN
      obtain ⟨t₁, ht₁, S₁, hS₁, h₁⟩ := ih (by omega) hl hndl fun hmem =>
        hnil (mem_addrs_bin (d := .left) |>.mpr (Or.inr (Or.inl hmem)))
      -- the right subtree and the node are not touched by the first call
      have hr₁ : Rep t₁.mem a r := hr.congr fun p hp => h₁.mem p fun hmem =>
        hdisj p (hS₁.mem_iff.mp hmem) hp
      have ha₁ : t₁.mem a = t.mem a := h₁.mem a fun hmem => hal (hS₁.mem_iff.mp hmem)
      obtain ⟨t₂, ht₂, S₂, hS₂, h₂⟩ := ih (by omega) hr₁ hndr fun hmem =>
        hnil (mem_addrs_bin (d := .left) |>.mpr (Or.inr (Or.inr hmem)))
      refine ⟨{ t₂.delete a with size := t₂.size - 1 }, ?_, S₁ ++ S₂ ++ [a], ?_,
        (h₁.trans h₂).trans (freed_delete a)⟩
      · rw [clearFrom, ptr_node, if_neg hane]
        have hleft : t.left a = .ok (ptr l) := child_eq ha .left
        have hright : t₁.right a = .ok (ptr r) := child_eq (ha₁.trans ha) .right
        simp only [hleft, ht₁, hright, ht₂, ok_bind]
        rfl
      · rw [addrs_node, List.append_assoc]
        exact hS₁.append ((hS₂.append_right [a]).trans List.perm_append_comm)

/-! ### An empty tree -/

/-- The tree with its end pointers set back. -/
def resetEnds (t : RBTree α) : RBTree α := { t with first := nil, last := nil }

/-- The tree holds these nodes, or it is empty and only its end pointers are not valid. -/
def Usable (t : RBTree α) (T : ColorTree α) : Prop :=
  Valid t T ∨ T = .nil ∧ Valid t.resetEnds .nil

theorem Valid.usable (h : Valid t T) : Usable t T := Or.inl h

/-- `clear` empties the tree, and does not touch its end pointers. -/
theorem Usable.clear_ends (h : Usable t T) : ∃ t', t.clear = .ok t' ∧ Usable t' .nil ∧
    t'.first = t.first ∧ t'.last = t.last := by
  obtain ⟨hholds, hsize⟩ : Holds t T ∧ t.size = UInt64.ofNat T.items.length := by
    rcases h with h | ⟨rfl, h⟩
    · exact ⟨h.toHolds, h.size⟩
    · exact ⟨⟨h.rep, h.root, h.nodup, h.range, h.sentinel, h.fresh⟩, h.size⟩
  have hlen := hholds.length_add_two_le
  obtain ⟨t', ht', S, hS, hfreed⟩ := clearFrom_spec (N := t.fuel) (by omega) hholds.rep
    hholds.nodup hholds.nil_not_mem
  refine ⟨{ t' with root := nil }, ?_, Or.inr ⟨rfl, ?_⟩, hfreed.first, hfreed.last⟩
  · rw [RBTree.clear, hholds.root, ht', ok_bind]
  · refine ⟨⟨trivial, rfl, List.nodup_nil, by simp, ?_, ?_⟩, ⟨0, .nil⟩, rfl,
      fun hne => absurd rfl hne, ?_⟩
    · obtain ⟨n, hn, hsent⟩ := hholds.sentinel
      exact ⟨n, (hfreed.mem nil fun hmem => hholds.nil_not_mem (hS.mem_iff.mp hmem)).trans hn,
        hsent⟩
    · exact lt_of_lt_of_eq hholds.fresh hfreed.fresh.symm
    · change t'.size = _
      rw [hfreed.size, hsize, hS.length_eq, ColorTree.addrs, List.length_map]
      simp

theorem Usable.clear (h : Usable t T) : ∃ t', t.clear = .ok t' ∧ Usable t' .nil := by
  obtain ⟨t', ht', hT', -⟩ := h.clear_ends
  exact ⟨t', ht', hT'⟩

/-- An insertion into an empty tree does not look at the end pointers. -/
theorem insert_of_root_nil (hroot : t.root = nil) (hfresh : 0 < t.fresh) (v : α) :
    t.insert lt v = t.resetEnds.insert lt v := by
  obtain ⟨n, hn⟩ := Nat.exists_eq_succ_of_ne_zero hfresh.ne'
  have hpos : ∀ s : RBTree α, s.insertPosition lt v (n + 1) nil nil true = .ok (.inr (nil, true)) :=
    fun s => by rw [insertPosition, if_pos rfl]
  have hfuel : t.fuel = n + 1 := hn
  have hfuel' : t.resetEnds.fuel = n + 1 := hn
  have hroot' : t.resetEnds.root = nil := hroot
  rw [insert, insert, hfuel, hfuel', hroot, hroot', hpos, hpos]
  rfl

/-- A search in an empty tree does not look at them either. -/
theorem remove_of_root_nil (hroot : t.root = nil) (hfresh : 0 < t.fresh) (v : α) :
    t.remove lt v = .ok (t, false) := by
  obtain ⟨n, hn⟩ := Nat.exists_eq_succ_of_ne_zero hfresh.ne'
  have hfuel : t.fuel = n + 1 := hn
  rw [remove, hfuel, hroot, searchTree, if_pos rfl, ok_bind, if_pos rfl]

/-! ### Sequences of operations -/

/-- What a call does to the list of keys. -/
def callKeys (lt : α → α → Bool) (ks : List α) : TreeCall α → List α
  | .insert value => insertKey lt value ks
  | .remove value => eraseKey lt value ks
  | .clear => []

theorem sortedKeys_callKeys (hlt : StrictWeak lt) {ks : List α} (hs : SortedKeys lt ks)
    (c : TreeCall α) : SortedKeys lt (callKeys lt ks c) := by
  cases c with
  | insert v => exact hs.insertKey hlt v
  | remove v => exact hs.eraseKey v
  | clear => exact List.Pairwise.nil

/-- What a call returns. -/
def callAnswer (lt : α → α → Bool) (ks : List α) : TreeCall α → Option Bool
  | .insert _ => none
  | .remove value => some (findKey lt value ks).isSome
  | .clear => none

/-- **A call** on a usable tree returns what it should, and does to the keys what it
should. -/
theorem Usable.call_answer (hlt : StrictWeak lt) (h : Usable t T)
    (hs : SortedKeys lt (T.items.map Prod.snd)) (c : TreeCall α) :
    ∃ t' T', t.call lt c = .ok (t', callAnswer lt (T.items.map Prod.snd) c) ∧ Usable t' T' ∧
      T'.items.map Prod.snd = callKeys lt (T.items.map Prod.snd) c := by
  rcases c with v | v | _
  · obtain ⟨t', T', ht', hT', hk⟩ : ∃ t' T', t.insert lt v = .ok t' ∧ Valid t' T' ∧
        T'.items.map Prod.snd = insertKey lt v (T.items.map Prod.snd) := by
      rcases h with h | ⟨rfl, h⟩
      · exact insert_spec hlt h hs v
      · rw [insert_of_root_nil (t := t) h.root (Nat.zero_lt_of_lt h.fresh)]
        exact insert_spec hlt h hs v
    exact ⟨t', T', by rw [RBTree.call, ht']; rfl, Or.inl hT', hk⟩
  · rcases h with h | ⟨rfl, h⟩
    · obtain ⟨t', T', ht', hT', hk⟩ := remove_spec hlt h hs v
      exact ⟨t', T', by rw [RBTree.call, ht']; rfl, Or.inl hT', hk⟩
    · refine ⟨t, .nil, ?_, Or.inr ⟨rfl, h⟩, rfl⟩
      rw [RBTree.call, remove_of_root_nil (t := t) h.root (Nat.zero_lt_of_lt h.fresh)]
      rfl
  · obtain ⟨t', ht', hT'⟩ := h.clear
    exact ⟨t', .nil, by rw [RBTree.call, ht']; rfl, hT', rfl⟩

theorem Usable.call (hlt : StrictWeak lt) (h : Usable t T)
    (hs : SortedKeys lt (T.items.map Prod.snd)) (c : TreeCall α) :
    ∃ t' answer T', t.call lt c = .ok (t', answer) ∧ Usable t' T' ∧
      T'.items.map Prod.snd = callKeys lt (T.items.map Prod.snd) c := by
  obtain ⟨t', T', ht', hT', hk⟩ := h.call_answer hlt hs c
  exact ⟨t', _, T', ht', hT', hk⟩

/-- A search in a usable tree. -/
theorem Usable.find (hlt : StrictWeak lt) (h : Usable t T)
    (hs : SortedKeys lt (T.items.map Prod.snd)) (v : α) :
    t.find lt v = .ok (findKey lt v (T.items.map Prod.snd)) := by
  rcases h with h | ⟨rfl, h⟩
  · exact find_spec hlt h.toHolds hs v
  · obtain ⟨n, hn⟩ := Nat.exists_eq_succ_of_ne_zero (Nat.zero_lt_of_lt h.fresh).ne'
    have hfuel : t.fuel = n + 1 := hn
    have hroot : t.root = nil := h.root
    rw [RBTree.find, hfuel, hroot, searchTree, if_pos rfl, ok_bind, if_pos rfl]
    rfl

/-- The size of a usable tree. -/
theorem Usable.size (h : Usable t T) : t.size = UInt64.ofNat (T.items.map Prod.snd).length := by
  rw [List.length_map]
  rcases h with h | ⟨rfl, h⟩
  · exact h.size
  · exact h.size

/-- **A sequence of calls from an empty tree** returns, and leaves a tree with sorted
keys. -/
theorem exists_run (hlt : StrictWeak lt) (cs : List (TreeCall α)) :
    ∃ t answers, runAll (RBTree.call lt) empty cs = .ok (t, answers) ∧
      ∃ T, Usable t T ∧ SortedKeys lt (T.items.map Prod.snd) := by
  refine runAll_invariant
    (I := fun t _ => ∃ T, Usable t T ∧ SortedKeys lt (T.items.map Prod.snd))
    (fun t c _ hT _ => ?_) ⟨.nil, Or.inl valid_empty, List.Pairwise.nil⟩
    (meets_of_forall (fun _ _ => trivial) _)
  obtain ⟨T, hT, hs⟩ := hT
  obtain ⟨t', answer, T', ht', hT', hk⟩ := hT.call hlt hs c
  exact ⟨t', answer, ht', T', hT', hk ▸ sortedKeys_callKeys hlt hs c⟩

end RBTree

end LimitOrderBook
