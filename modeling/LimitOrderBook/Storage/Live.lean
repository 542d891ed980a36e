import LimitOrderBook.Storage.Bounds
import LimitOrderBook.Storage.Keys

/-!
# Loops over a live tree

What a loop with an iterator relies on when its body calls operations of the tree it goes
over. An iterator goes along a list of items if each step leads from one to the next
(`LimitOrderBook.RBTree.Scans`); both iterators do so in a valid tree, and inserting a key that
the tree holds writes nothing new (`LimitOrderBook.RBTree.HasKeys.insert_self`).

An iterator made from `_last` starts at the sentinel in a tree that is empty, or at a node that
has been freed (`LimitOrderBook.RBTree.LastFreed`).
-/

namespace LimitOrderBook

namespace RBTree

open ColorTree ColorCtx

variable {α : Type} {t : RBTree α} {T : ColorTree α} {ks : List α} {lt : α → α → Bool}

/-! ### The way of an iterator -/

/-- The iterator goes along these items, and ends at the sentinel. -/
def Scans (t : RBTree α) (next : ℕ → Except Fault ℕ) : List (ℕ × α) → Prop
  | [] => True
  | (p, k) :: zs => p ≠ nil ∧ t.key p = .ok k ∧ next p = .ok (firstPtr zs) ∧ Scans t next zs

theorem Holds.scans {next : ℕ → Except Fault ℕ} (h : Holds t T) {zs : List (ℕ × α)}
    (hz : ∀ x ∈ zs, x ∈ T.items)
    (hnext : ∀ xs p k ys, zs = xs ++ (p, k) :: ys → next p = .ok (firstPtr ys)) :
    Scans t next zs := by
  induction zs with
  | nil => trivial
  | cons z zs ih =>
    have hmem := hz z List.mem_cons_self
    refine ⟨fun hp => h.nil_not_mem ?_, h.key_item hmem, hnext [] z.1 z.2 zs rfl,
      ih (fun x hx => hz x (List.mem_cons_of_mem z hx)) fun xs p k ys hzs => ?_⟩
    · exact hp ▸ List.mem_map_of_mem hmem
    · exact hnext (z :: xs) p k ys (by rw [hzs, List.cons_append])

/-- **The iterator from `begin()` on** sees the keys in their order. -/
theorem HasKeys.scans_first (h : HasKeys t ks) : ∃ zs, Scans t t.successor zs ∧
    zs.map Prod.snd = ks ∧ t.first = firstPtr zs ∧ zs.length < t.fuel := by
  obtain ⟨T, h, rfl⟩ := h
  have hlen := h.length_add_two_le
  rw [ColorTree.addrs, List.length_map] at hlen
  refine ⟨T.items, h.toHolds.scans (fun _ hx => hx) fun _ _ _ _ hi => ?_, rfl, h.first, by omega⟩
  exact h.toHolds.successor_eq hi

/-- **The iterator from `rbegin()` on** sees them backwards. -/
theorem HasKeys.scans_last (h : HasKeys t ks) (hlast : ks = [] → t.last = nil) :
    ∃ zs, Scans t t.predecessor zs ∧ zs.map Prod.snd = ks.reverse ∧ t.last = firstPtr zs ∧
      zs.length < t.fuel := by
  obtain ⟨T, h, rfl⟩ := h
  have hlen := h.length_add_two_le
  rw [ColorTree.addrs, List.length_map] at hlen
  have hfirst : firstPtr T.items.reverse = lastPtr T.items := by
    rw [lastPtr_eq, firstPtr_eq, List.map_reverse]
  have hptr : t.last = firstPtr T.items.reverse := by
    rw [hfirst]
    by_cases hT : T = .nil
    · subst hT
      exact hlast rfl
    · exact h.last hT
  refine ⟨T.items.reverse, h.toHolds.scans (fun x hx => List.mem_reverse.mp hx)
    fun xs p k ys hi => ?_, List.map_reverse, hptr, by rw [List.length_reverse]; omega⟩
  have hi : T.items = ys.reverse ++ (p, k) :: xs.reverse := by
    have hrev := congrArg List.reverse hi
    rw [List.reverse_reverse, List.reverse_append, List.reverse_cons, List.append_assoc] at hrev
    exact hrev
  rw [h.toHolds.predecessor_eq hi, lastPtr_eq, firstPtr_eq, List.map_reverse, List.reverse_reverse]

/-! ### A key that is there -/

/-- A node is overwritten with what it holds. -/
theorem setKey_self {n : Node α} {p : ℕ} {k : α} (h : t.mem p = some n) (hk : n.key = some k) :
    t.setKey p k = .ok t := by
  have hn : { n with key := some k } = n := by rw [← hk]
  rw [setKey_eq h, hn, write, ← h, Function.update_eq_self]

/-- **Inserting a key that the tree holds** changes nothing. -/
theorem HasKeys.insert_self (hlt : StrictWeak lt) (h : HasKeys t ks) (hs : SortedKeys lt ks)
    {v : α} (hv : v ∈ ks) : t.insert lt v = .ok t := by
  obtain ⟨T, hT, rfl⟩ := h
  have hfuel : T.addrs.length < t.fuel := by
    have := hT.length_add_two_le
    omega
  rcases insertPosition_spec (c := top) hlt t.fuel hfuel hT.toHolds hs
      ⟨by simp [before], by simp [after]⟩ (show OnSide top true from trivial) with
    ⟨c, a, b, l, k, r, hpos, hc, hk, -⟩ | ⟨c, less, -, hc, hv', -⟩
  · rw [plug_top] at hc
    subst hc
    have hmem : k ∈ (c.plug (node a b l k r)).items.map Prod.snd := by simp [items_plug]
    obtain rfl : v = k := hs.eq_of_equiv hv hmem hk
    have hroot : t.insertPosition lt v t.fuel nil t.root true = .ok (.inl a) := by
      rw [hT.root]
      exact hpos
    rw [RBTree.insert, hroot]
    exact setKey_self (Holds.mem_eq (d := .left) hT.toHolds) dirNode_key
  · -- the key would be between two others
    rw [plug_top] at hc
    subst hc
    have hirrefl : lt v v = false := hlt.irrefl
    obtain ⟨⟨p, k⟩, hp, rfl⟩ := List.mem_map.mp hv
    rw [items_plug, items_nil, List.append_nil] at hp
    rcases List.mem_append.mp hp with hp | hp
    · exact absurd (hv'.1 _ hp).1 (by simpa using hirrefl)
    · exact absurd (hv'.2 _ hp) (by simpa using hirrefl)

/-! ### The last node of an empty tree -/

/-- The last pointer of an empty tree is that of the sentinel, or of a node that has been
freed. -/
def LastFreed (t : RBTree α) : Prop := t.first = nil → t.last = nil ∨ t.mem t.last = none

theorem lastFreed_empty : LastFreed (empty : RBTree α) := fun _ => Or.inl rfl

theorem HasKeys.lastFreed (h : HasKeys t ks) (hne : ks ≠ []) : LastFreed t := fun hf =>
  absurd (h.first_eq_nil.mp hf) hne

/-- There is nothing to rebalance in an empty tree. -/
theorem rebalanceDelete_nil {n : Node α} (hroot : t.root = nil) (hfresh : 0 < t.fresh)
    (hn : t.mem nil = some n) :
    t.rebalanceDelete nil = .ok (t.write nil { n with isBlack := true }) := by
  obtain ⟨m, hm⟩ : ∃ m, t.fuel = m + 1 := Nat.exists_eq_add_of_lt hfresh |>.imp fun m hm => by
    rw [fuel, hm, Nat.zero_add]
  rw [rebalanceDelete, hm, rebalanceDeleteLoop, if_pos hroot.symm]
  exact setBlack_eq hn true

/-- The only node is freed when it is removed. -/
theorem removeNode_single {a : ℕ} {b : Bool} {k : α} (h : Holds t (node a b .nil k .nil))
    (hfirst : t.first = a) {t' : RBTree α} (hrun : t.removeNode a = .ok t') : t'.mem a = none := by
  have hanil : a ≠ nil := fun he => h.nil_not_mem (by simp [he])
  have ha : t.mem a = some ⟨some k, b, nil, nil, nil⟩ := Holds.mem_eq (d := .left) (c := top) h
  obtain ⟨n, hn, -⟩ := h.sentinel
  -- the tree when the node has been unlinked, and when it has been deleted
  obtain ⟨t₁, ht₁⟩ : ∃ t₁, t₁ =
      ({ t with first := nil, root := nil }).write nil { n with parent := nil } := ⟨_, rfl⟩
  have hret : t.retireEnds a = .ok { t with first := nil } := by
    simp [retireEnds, hfirst, RBTree.right, child_eq ha .right, parent_eq ha, Node.child]
  have hunlink : RBTree.unlink { t with first := nil } a = .ok (t₁, nil, b) := by
    simp [ht₁, unlink, RBTree.left, RBTree.right, transplant, relink, isBlack, child, parent,
      setParent, modify, fetch, ha, hn, Node.child]
  have hmem : (t₁.delete a).mem a = none := by simp [delete]
  rw [removeNode, hret, ok_bind, hunlink] at hrun
  cases b with
  | false =>
    rw [← Except.ok.inj hrun]
    exact hmem
  | true =>
    have hnil : (t₁.delete a).mem nil = some { n with parent := nil } := by
      rw [delete_mem_of_ne hanil.symm, ht₁, write_mem_self]
    have hfresh : 0 < (t₁.delete a).fresh := by
      rw [ht₁]
      exact Nat.zero_lt_of_lt h.fresh
    have hrun : (t₁.delete a).rebalanceDelete nil = .ok t' := hrun
    rw [rebalanceDelete_nil (by rw [ht₁]; rfl) hfresh hnil] at hrun
    rw [← Except.ok.inj hrun, write_mem_of_ne hanil]
    exact hmem

/-- **Removing a key** from a tree. -/
theorem LastFreed.remove (hlt : StrictWeak lt) (h : HasKeys t ks) (hs : SortedKeys lt ks)
    (hf : LastFreed t) {v : α} {t' : RBTree α} {found : Bool}
    (hrun : t.remove lt v = .ok (t', found)) : LastFreed t' := by
  obtain ⟨T, hT, rfl⟩ := h
  obtain ⟨t₁, T₁, ht₁, hT₁, hk₁, hlast⟩ := remove_effect hlt hT hs v
  obtain ⟨rfl, -⟩ := Prod.mk.inj (Except.ok.inj (ht₁.symm.trans hrun))
  by_cases hne : eraseKey lt v (T.items.map Prod.snd) = []
  · have hnil : T₁ = .nil := by rwa [hne, List.map_eq_nil_iff, items_eq_nil] at hk₁
    intro _
    obtain ⟨N, hN⟩ : ∃ N, t.fuel = N + 2 := ⟨t.fuel - 2, by have := hT.length_add_two_le; omega⟩
    rw [RBTree.remove, hN, searchTree, hT.root] at hrun
    cases T with
    | nil =>
      -- nothing is found
      obtain ⟨rfl, -⟩ : t = t₁ ∧ false = found := by simpa using hrun
      exact hf hT.first
    | node a b l k r =>
      have hkeys : (node a b l k r).items.map Prod.snd ≠ [] := by simp
      obtain ⟨k', hk', hvk⟩ := exists_of_eraseKey_eq_nil hkeys hne
      have hlen : (node a b l k r).items.length = 1 := by
        rw [← List.length_map (f := Prod.snd), hk']
        rfl
      rw [items_node, List.length_append, List.length_cons] at hlen
      obtain rfl : l = .nil := items_eq_nil.mp (List.eq_nil_of_length_eq_zero (by omega))
      obtain rfl : r = .nil := items_eq_nil.mp (List.eq_nil_of_length_eq_zero (by omega))
      obtain rfl : k = k' := by simpa using hk'
      have hanil : a ≠ nil := fun he => hT.nil_not_mem (by simp [he])
      have hkey : t.key a = .ok k := key_eq (Holds.mem_eq (d := .left) (c := top) hT.toHolds) rfl
      simp only [ptr_node, if_neg hanil, hkey, ok_bind, hvk.1, hvk.2, Bool.false_eq_true,
        if_false] at hrun
      obtain ⟨t₂, ht₂, hrun⟩ := bind_eq_ok.mp hrun
      have hfree : t₂.mem a = none := removeNode_single hT.toHolds hT.first ht₂
      have hmem : t₁.mem a = none := by
        rw [← (Prod.mk.inj (Except.ok.inj hrun)).1]
        exact hfree
      have hlast' : t₁.last = a := (hlast hnil).trans (hT.last (by simp))
      exact Or.inr (hlast' ▸ hmem)
  · exact HasKeys.lastFreed ⟨T₁, hT₁, hk₁⟩ hne

end RBTree

end LimitOrderBook
