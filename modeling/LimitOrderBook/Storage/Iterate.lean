import LimitOrderBook.Storage.Insert

/-!
# Searching and iterating

Searching ends at the node with an equivalent key or at the empty place where
the key belongs (`LimitOrderBook.RBTree.searchTree_spec`). Iterating steps from
each node to its neighbour in key order – the end of the subtree beyond it, or
the first ancestor on the way up that lies beyond it
(`LimitOrderBook.RBTree.neighbour_spec`) – so that the loop from `begin()` reads
the keys of the tree in order (`LimitOrderBook.RBTree.keys_spec`).
-/

namespace LimitOrderBook

namespace RBTree

open ColorTree ColorCtx

variable {α : Type} {t : RBTree α}

/-! ### Searching -/

section Search

variable {lt : α → α → Bool} {v : α}

/-- **Searching** finds the node with an equivalent key, or the empty place where
the key belongs. -/
theorem searchTree_spec (hlt : StrictWeak lt) (N : ℕ) {c : ColorCtx α} {y : ColorTree α}
    (hN : y.addrs.length < N) (h : Holds t (c.plug y))
    (hs : SortedKeys lt ((c.plug y).items.map Prod.snd)) (hv : Around lt v c) :
    (∃ (c' : ColorCtx α) (a : ℕ) (b : Bool) (l : ColorTree α) (k : α) (r : ColorTree α),
      t.searchTree lt v N (ptr y) = .ok a ∧ c.plug y = c'.plug (node a b l k r) ∧
      Equiv lt v k ∧ ∀ p ∈ c'.before ++ l.items, lt p.2 v = true ∧ lt v p.2 = false) ∨
    ∃ c' : ColorCtx α, t.searchTree lt v N (ptr y) = .ok nil ∧ c.plug y = c'.plug .nil ∧
      Around lt v c' := by
  induction y generalizing c N with
  | nil =>
    cases N with
    | zero => omega
    | succ N => exact Or.inr ⟨c, by simp [searchTree], rfl, hv⟩
  | node a b l k r ihl ihr =>
    cases N with
    | zero => omega
    | succ N =>
      have ha := Holds.mem_eq (d := .left) h
      have hkey : t.key a = .ok k := key_eq ha rfl
      have hleft : t.left a = .ok (ptr l) := child_eq ha .left
      have hright : t.right a = .ok (ptr r) := child_eq ha .right
      have hanil : a ≠ nil := fun he => h.nil_not_mem (mem_addrs_plug.mpr (Or.inl (by simp [he])))
      rw [addrs_node, List.length_append, List.length_cons] at hN
      rcases hvk : lt v k with _ | _
      · rcases hkv : lt k v with _ | _
        · refine Or.inl ⟨c, a, b, l, k, r, ?_, rfl, ⟨hvk, hkv⟩, hv.before_of_equiv hlt ⟨hvk, hkv⟩ hs⟩
          simp [searchTree, hanil, hkey, hvk, hkv]
        · have hrun : t.searchTree lt v (N + 1) a = t.searchTree lt v N (ptr r) := by
            simp [searchTree, hanil, hkey, hvk, hkv, hright]
          rw [ptr_node, hrun]
          exact ihr N (c := step .right a b k l c) (by omega) h hs (hv.step_right hlt hkv hs)
      · have hrun : t.searchTree lt v (N + 1) a = t.searchTree lt v N (ptr l) := by
          simp [searchTree, hanil, hkey, hvk, hleft]
        rw [ptr_node, hrun]
        exact ihl N (c := step .left a b k r c) (by omega) h hs (hv.step_left hlt hvk hs)

/-- **`find` on a valid tree** returns the stored key that is equivalent. -/
theorem find_spec (hlt : StrictWeak lt) {T : ColorTree α} (h : Holds t T)
    (hs : SortedKeys lt (T.items.map Prod.snd)) (v : α) :
    t.find lt v = .ok (findKey lt v (T.items.map Prod.snd)) := by
  have hfuel : T.addrs.length < t.fuel := by
    have := h.length_add_two_le
    omega
  rcases searchTree_spec (c := top) hlt t.fuel hfuel h hs
      ⟨by simp [before], by simp [after]⟩ with
    ⟨c, a, b, l, k, r, hpos, hT, hk, hbefore⟩ | ⟨c, hpos, hT, hv⟩
  · rw [plug_top] at hT
    subst hT
    have ha := Holds.mem_eq (d := .left) h
    have hanil : a ≠ nil := fun he => h.nil_not_mem (mem_addrs_plug.mpr (Or.inl (by simp [he])))
    have hfind : findKey lt v ((c.plug (node a b l k r)).items.map Prod.snd) = some k := by
      rw [items_plug, show c.before ++ (node a b l k r).items ++ c.after =
        (c.before ++ l.items) ++ (a, k) :: (r.items ++ c.after) by simp, List.map_append,
        List.map_cons]
      refine findKey_split_equiv (fun x hx => ?_) hk
      obtain ⟨p, hp, rfl⟩ := List.mem_map.mp hx
      exact hbefore p hp
    have hkey : t.key a = .ok k := key_eq ha rfl
    simp [find, h.root, hpos, hanil, hkey, hfind]
  · rw [plug_top] at hT
    subst hT
    have hfind : findKey lt v ((c.plug ColorTree.nil).items.map Prod.snd) = none := by
      rw [items_plug, items_nil, List.append_nil, List.map_append]
      refine findKey_split (fun x hx => ?_) fun y hy => ?_
      · obtain ⟨p, hp, rfl⟩ := List.mem_map.mp hx
        exact hv.1 p hp
      · obtain ⟨p, hp, rfl⟩ := List.mem_map.mp hy
        exact hv.2 p hp
    simp [find, h.root, hpos, hfind]

end Search

/-! ### Neighbours -/

/-- The address of the outermost item of a list on a side, or the sentinel. -/
def endPtr : Dir → List (ℕ × α) → ℕ
  | .left, l => firstPtr l
  | .right, l => lastPtr l

/-- The items beyond a position on a side. -/
def beyond : Dir → ColorCtx α → List (ℕ × α)
  | .left, c => c.before
  | .right, c => c.after

/-- The items beyond a node on a side whose subtree there is `x`. -/
def onward : Dir → ColorCtx α → ColorTree α → List (ℕ × α)
  | .left, c, x => c.before ++ x.items
  | .right, c, x => x.items ++ c.after

/-- The loops of `most_left` and `most_right` end at the outermost node of a
subtree. -/
theorem most_spec (d : Dir) (N : ℕ) {c : ColorCtx α} {y : ColorTree α} (hN : y.addrs.length ≤ N)
    (h : Holds t (c.plug y)) (hy : y ≠ .nil) : most d t N (ptr y) = .ok (endPtr d y.items) := by
  induction N generalizing c y with
  | zero =>
    cases y with
    | nil => exact absurd rfl hy
    | node a b l k r => simp at hN
  | succ N ih =>
    cases y with
    | nil => exact absurd rfl hy
    | node a b l k r =>
      obtain ⟨x, z, hxz⟩ := exists_bin d a b l k r
      rw [hxz] at h hN ⊢
      have hchild : t.child d a = .ok (ptr x) := by
        rw [child_eq h.mem_eq, dirNode_child]
      rw [ptr_bin, most, hchild, ok_bind]
      by_cases hx : x = .nil
      · subst hx
        rw [if_neg (by simp)]
        cases d <;> simp [endPtr]
      · have hxmem : ptr x ∈ x.addrs := ptr_mem_addrs hx
        have hne : ptr x ≠ nil := fun he => h.nil_not_mem
          (mem_addrs_plug.mpr (Or.inl (mem_addrs_bin.mpr (Or.inr (Or.inl (he ▸ hxmem))))))
        have hitems : x.items ≠ [] := mt items_eq_nil.mp hx
        have hlen : x.addrs.length ≤ N := by
          cases d <;> simp at hN <;> omega
        rw [if_pos hne, ih (c := step d a b k z c) hlen h hx]
        cases d with
        | left => simp [endPtr, firstPtr_append hitems]
        | right =>
          have hcons : (a, k) :: x.items = [(a, k)] ++ x.items := rfl
          simp only [endPtr, bin_right, items_node]
          rw [lastPtr_append (by simp), hcons, lastPtr_append hitems]

/-- The climb ends at the nearest node beyond the position. -/
theorem climb_spec (d : Dir) {stop : ℕ → Bool} (hstop : stop nil = true)
    (hgo : ∀ p, nil < p → stop p = false) (N : ℕ) {c : ColorCtx α} {x : ColorTree α}
    (hN : c.length < N) (h : Holds t (c.plug x)) (hx : x ≠ .nil) :
    climb d stop t N (ptr x) (ctxPtr c) = .ok (endPtr d.flip (beyond d c)) := by
  induction N generalizing c x with
  | zero => omega
  | succ N ih =>
    cases c with
    | top =>
      rw [ctxPtr_top, climb, if_pos hstop]
      cases d <;> rfl
    | step e a b k s up =>
      have ha : t.mem a = some (dirNode e k b (ctxPtr up) (ptr x) (ptr s)) := h.mem_ctx
      have hgt : nil < a := (h.range a (mem_addrs_plug.mpr (Or.inr
        (mem_addrs_step.mpr (Or.inl rfl))))).1
      rw [ctxPtr_step, climb, hgo a hgt, child_eq ha, ok_bind, parent_eq ha]
      rcases eq_or_ne e d with rfl | hne
      · -- still inside the part below
        have hup : climb e stop t N a (ctxPtr up) = .ok (endPtr e.flip (beyond e up)) := by
          have h' : Holds t (up.plug (bin e a b k x s)) := h
          have hne : bin e a b k x s ≠ .nil := by cases e <;> simp
          have := ih (by simp only [ColorCtx.length] at hN; omega) h' hne
          rwa [ptr_bin] at this
        rw [dirNode_child, dirNode_parent, if_neg (by simp), if_pos rfl, ok_bind, hup]
        cases e <;> rfl
      · obtain rfl : e = d.flip := by
          cases e <;> cases d <;> simp_all
        have hps : ptr x ≠ ptr s := by
          intro he
          have hxm : ptr x ∈ x.addrs := ptr_mem_addrs hx
          cases s with
          | nil => exact h.nil_not_mem (mem_addrs_plug.mpr (Or.inl (by rw [he] at hxm; exact hxm)))
          | node sa sb sl sk sr =>
            refine (nodup_addrs_plug.mp h.nodup).2.2 _ hxm (mem_addrs_step.mpr (Or.inr (Or.inl ?_)))
            rw [he]
            simp
        have hch : (dirNode d.flip k b (ctxPtr up) (ptr x) (ptr s)).child d = ptr s := by
          cases d <;> rfl
        rw [hch, if_neg (by simp), if_neg hps]
        cases d with
        | left => simp only [Dir.flip_left, endPtr, beyond, before, lastPtr_concat]
        | right => simp [endPtr, beyond, after]

/-- **The neighbour of a node in key order.** -/
theorem neighbour_spec (d : Dir) {stop : ℕ → Bool} (hstop : stop nil = true)
    (hgo : ∀ p, nil < p → stop p = false) {c : ColorCtx α} {a : ℕ} {b : Bool} {k : α}
    {x y : ColorTree α} (h : Holds t (c.plug (bin d a b k x y))) :
    t.neighbour d stop a = .ok (endPtr d.flip (onward d c x)) := by
  have ha := h.mem_eq
  have hle := h.length_add_two_le
  rw [addrs_plug, List.length_append, List.length_append] at hle
  rw [neighbour, child_eq ha, dirNode_child, ok_bind]
  by_cases hx : x = .nil
  · subst hx
    have hlen : c.length < t.fuel := by
      have := h.length_ctx
      omega
    have hne : bin d a b k ColorTree.nil y ≠ .nil := by cases d <;> simp
    have hc := climb_spec d hstop hgo t.fuel hlen h hne
    rw [ptr_bin] at hc
    rw [if_neg (by simp), parent_eq ha, dirNode_parent, ok_bind, hc]
    cases d <;> simp [onward, beyond]
  · have hxmem : ptr x ∈ x.addrs := ptr_mem_addrs hx
    have hne : ptr x ≠ nil := fun he => h.nil_not_mem
      (mem_addrs_plug.mpr (Or.inl (mem_addrs_bin.mpr (Or.inr (Or.inl (he ▸ hxmem))))))
    have hlen : x.addrs.length ≤ t.fuel := by
      cases d <;> simp at hle <;> omega
    have hi : x.items ≠ [] := mt items_eq_nil.mp hx
    rw [if_pos hne, most_spec d.flip t.fuel (c := step d a b k y c) hlen h hx]
    cases d with
    | left => rw [onward, Dir.flip_left, endPtr, endPtr, lastPtr_append hi]
    | right => rw [onward, Dir.flip_right, endPtr, endPtr, firstPtr_append hi]

/-- The step of the forward iterator. -/
theorem successor_spec {c : ColorCtx α} {a : ℕ} {b : Bool} {k : α} {l r : ColorTree α}
    (h : Holds t (c.plug (node a b l k r))) :
    t.successor a = .ok (firstPtr (r.items ++ c.after)) := by
  have hgo : ∀ p, nil < p → (p == nullptr || p == nil) = false := by
    intro p hp
    simp only [nil, nullptr] at hp ⊢
    simp
    omega
  exact neighbour_spec .right (by simp) hgo (c := c) (x := r) (y := l) h

/-! ### The loop over all keys -/

/-- From any node on, the iterator reads the keys that are left. -/
theorem keysFrom_spec {T : ColorTree α} (h : Holds t T) (N : ℕ) {xs ys : List (ℕ × α)}
    (hN : ys.length < N) (hi : T.items = xs ++ ys) :
    t.keysFrom N (firstPtr ys) = .ok (ys.map Prod.snd) := by
  induction ys generalizing xs N with
  | nil =>
    cases N with
    | zero => omega
    | succ N => simp [keysFrom]
  | cons p ys ih =>
    obtain ⟨a, k⟩ := p
    cases N with
    | zero => omega
    | succ N =>
      obtain ⟨c, b, l, r, rfl, -, hys⟩ := exists_position hi h.nodup
      have ha := Holds.mem_eq (d := .left) h
      have hanil : a ≠ nil := fun he => h.nil_not_mem (mem_addrs_plug.mpr (Or.inl (by simp [he])))
      have hkey : t.key a = .ok k := key_eq ha rfl
      have hrest := ih N (by simpa using hN) (hi.trans (List.append_cons xs (a, k) ys))
      have hsucc := successor_spec h
      rw [← hys] at hsucc
      simp [keysFrom, hanil, hkey, hsucc, hrest]

/-- **Iterating a valid tree** reads its keys in order. -/
theorem keys_spec {T : ColorTree α} (h : Valid t T) : t.keys = .ok (T.items.map Prod.snd) := by
  have hlen := h.length_add_two_le
  rw [ColorTree.addrs, List.length_map] at hlen
  rw [keys, h.first]
  exact keysFrom_spec h.toHolds t.fuel (by omega) (List.nil_append _).symm

end RBTree

end LimitOrderBook
