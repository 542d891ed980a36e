import LimitOrderBook.Properties.RedBlack

/-!
# The first and the last key

What `first()` and `last()` have to read (`LimitOrderBook.RBTree.Ends`). The two pointers are
moved by local rules, and there are two calls after which one of them stays at a node that
has been freed:

* `clear` does not touch them;
* `remove` sets back `_last` only when the node is not the one at `_first`, so that after the
  removal of the only node `_last` is still there.

Every other call leaves both pointers at the ends (`LimitOrderBook.treeEnds_iff`).
-/

namespace LimitOrderBook

open ColorTree ColorCtx

namespace RBTree

variable {α : Type} {lt : α → α → Bool} {t : RBTree α} {T : ColorTree α}

/-- What `first()` and `last()` return for the pointer they look at. -/
def keyAt (t : RBTree α) (p : ℕ) : Except Fault (Option α) :=
  if p = nil then .ok none else do
    .ok (some (← t.key p))

theorem firstKey_eq : t.firstKey = t.keyAt t.first := rfl

theorem lastKey_eq : t.lastKey = t.keyAt t.last := rfl

/-- The pointer is that of a node of the tree or of the sentinel, and what is read there is
none exactly when the tree is empty, and otherwise a key of which all others are on the
side `d`. -/
structure EndAt (lt : α → α → Bool) (t : RBTree α) (d : Dir) (p : ℕ)
    (read : Except Fault (Option α)) : Prop where
  current : p = nil ∨ p ∈ t.nodes
  none_iff : read = .ok none ↔ t.nodes = ∅
  extreme : t.nodes.Nonempty → ∃ k, read = .ok (some k) ∧ t.key p = .ok k ∧
    ∀ q ∈ t.nodes, q ≠ p → ∀ k', t.key q = .ok k' → OnSideOf lt d k k'

/-- **`first()` and `last()` are the extremes.** -/
structure Ends (lt : α → α → Bool) (t : RBTree α) : Prop where
  first : EndAt lt t .right t.first t.firstKey
  last : EndAt lt t .left t.last t.lastKey

/-- What is read at an end is never a freed node. -/
theorem EndAt.ne_error {d : Dir} {p : ℕ} {read : Except Fault (Option α)}
    (h : EndAt lt t d p read) {e : Fault} : read ≠ .error e := by
  rintro rfl
  by_cases hnodes : t.nodes = ∅
  · exact absurd (h.none_iff.mpr hnodes) (by simp)
  · obtain ⟨k, hk, -⟩ := h.extreme (Set.nonempty_iff_ne_empty.mpr hnodes)
    exact absurd hk (by simp)

/-! ### The ends of a valid tree -/

theorem Holds.nodes_eq_empty (h : Holds t T) : t.nodes = ∅ ↔ T = .nil := by
  rw [h.nodes_eq]
  constructor
  · intro he
    by_contra hT
    have hmem : ptr T ∈ {p | p ∈ T.addrs} := ptr_mem_addrs hT
    rw [he] at hmem
    exact hmem
  · rintro rfl
    exact Set.eq_empty_iff_forall_notMem.mpr fun p hp => List.not_mem_nil hp

/-- An empty tree, with the pointer at the sentinel. -/
theorem endAt_nil (h : t.nodes = ∅) (d : Dir) : EndAt lt t d nil (t.keyAt nil) where
  current := Or.inl rfl
  none_iff := iff_of_true (if_pos rfl) h
  extreme := fun hne => absurd h hne.ne_empty

/-- The pointer is at an item of which all others are on one side. -/
theorem Holds.endAt (h : Holds t T) {d : Dir} {a : ℕ} {k : α} (hmem : (a, k) ∈ T.items)
    (hside : ∀ x ∈ T.items, x.1 ≠ a → OnSideOf lt d k x.2) : EndAt lt t d a (t.keyAt a) := by
  have haddr : a ∈ T.addrs := List.mem_map.mpr ⟨(a, k), hmem, rfl⟩
  have hnodes : a ∈ t.nodes := by
    rw [h.nodes_eq]
    exact haddr
  obtain ⟨xs, ys, hi⟩ := List.append_of_mem hmem
  obtain ⟨c, b, l, r, rfl, -, -⟩ := exists_position hi h.nodup
  have hkey : t.key a = .ok k := key_eq (Holds.mem_eq (d := .left) h) rfl
  have hread : t.keyAt a = .ok (some k) := by
    rw [keyAt, if_neg fun he : a = nil => h.nil_not_mem (he ▸ haddr), hkey]
    rfl
  refine ⟨Or.inr hnodes, ?_, fun _ => ⟨k, hread, hkey, fun q hq hqa k' hk' => ?_⟩⟩
  · refine iff_of_false ?_ (Set.nonempty_iff_ne_empty.mp ⟨a, hnodes⟩)
    rw [hread]
    simp
  · exact hside _ (h.mem_items hq hk') hqa

/-- A tree with nodes has both pointers at the ends. -/
theorem Valid.ends (h : Valid t T) (hs : SortedKeys lt (T.items.map Prod.snd)) (hT : T ≠ .nil) :
    Ends lt t := by
  have hne : T.items ≠ [] := mt items_eq_nil.mp hT
  have hpair := List.pairwise_map.mp hs
  constructor
  · obtain ⟨⟨a, k⟩, ys, hi⟩ := List.exists_cons_of_ne_nil hne
    rw [firstKey_eq, h.first, hi, firstPtr_cons]
    refine h.toHolds.endAt (k := k) (by rw [hi]; simp) fun x hx hxa => ?_
    rw [hi] at hx hpair
    rcases List.mem_cons.mp hx with rfl | hx
    · exact absurd rfl hxa
    · exact (List.pairwise_cons.mp hpair).1 x hx
  · obtain ⟨xs, ⟨a, k⟩, hi⟩ := (List.eq_nil_or_concat T.items).resolve_left hne
    rw [List.concat_eq_append] at hi
    rw [lastKey_eq, h.last hT, hi, lastPtr_concat]
    refine h.toHolds.endAt (k := k) (by rw [hi]; simp) fun x hx hxa => ?_
    rw [hi] at hx hpair
    rcases List.mem_append.mp hx with hx | hx
    · exact (List.pairwise_append.mp hpair).2.2 x hx (a, k) (by simp)
    · rw [List.mem_singleton.mp hx] at hxa
      exact absurd rfl hxa

/-- **The ends of a usable tree** are right exactly if it is valid and, when empty, has its
last pointer at the sentinel. -/
theorem Usable.ends_iff (h : Usable t T) (hs : SortedKeys lt (T.items.map Prod.snd)) :
    Ends lt t ↔ Valid t T ∧ (T = .nil → t.last = nil) := by
  constructor
  · intro he
    have hend : ∀ {d p read}, EndAt lt t d p read → t.nodes = ∅ → p = nil := fun hp hnodes =>
      hp.current.resolve_right fun hmem => by
        rw [hnodes] at hmem
        exact hmem
    rcases h with h | ⟨rfl, h⟩
    · exact ⟨h, fun hT => hend he.last (h.toHolds.nodes_eq_empty.mpr hT)⟩
    · have hholds : Holds t .nil := ⟨h.rep, h.root, h.nodup, h.range, h.sentinel, h.fresh⟩
      have hnodes := hholds.nodes_eq_empty.mpr rfl
      exact ⟨⟨hholds, h.bal, hend he.first hnodes, fun hne => absurd rfl hne, h.size⟩,
        fun _ => hend he.last hnodes⟩
  · rintro ⟨h, hlast⟩
    by_cases hT : T = .nil
    · have hnodes := h.toHolds.nodes_eq_empty.mpr hT
      have hfirst : t.first = nil := by rw [h.first, hT]; rfl
      constructor
      · rw [firstKey_eq, hfirst]
        exact endAt_nil hnodes _
      · rw [lastKey_eq, hlast hT]
        exact endAt_nil hnodes _
    · exact h.ends hs hT

/-! ### Every sequence of calls -/

/-- A `clear` finds an empty tree, and a `remove` does not take the only node. -/
def KeepsEnds (lt : α → α → Bool) (t : RBTree α) : TreeCall α → Prop
  | .insert _ => True
  | .remove value => ∀ p, t.nodes = {p} → ∀ k, t.key p = .ok k → ¬ Equiv lt value k
  | .clear => t.nodes = ∅

/-- The tree has one node, and it has this key. -/
theorem Holds.nodes_eq_singleton (h : Holds t T) {p : ℕ} :
    t.nodes = {p} ↔ ∃ k, T.items = [(p, k)] := by
  constructor
  · intro he
    have hlen : T.items.length = 1 := by rw [← h.ncard_nodes, he, Set.ncard_singleton]
    obtain ⟨⟨q, k⟩, hi⟩ := List.length_eq_one_iff.mp hlen
    have hq : q ∈ t.nodes := by
      rw [h.nodes_eq]
      simp [ColorTree.addrs, hi]
    rw [he] at hq
    exact ⟨k, by rw [hi, Set.mem_singleton_iff.mp hq]⟩
  · rintro ⟨k, hk⟩
    rw [h.nodes_eq]
    ext q
    simp [ColorTree.addrs, hk]

/-- The only key is taken away exactly when it is equivalent to the value. -/
theorem Holds.eraseKey_eq_nil (h : Holds t T) (hT : T ≠ .nil) (v : α) :
    eraseKey lt v (T.items.map Prod.snd) = [] ↔ ¬ KeepsEnds lt t (.remove v) := by
  have hkey : ∀ {p k}, T.items = [(p, k)] → t.key p = .ok k := fun {p k} hi => by
    have hi' : T.items = [] ++ (p, k) :: [] := hi
    obtain ⟨c, b, l, r, rfl, -, -⟩ := exists_position hi' h.nodup
    exact key_eq (Holds.mem_eq (d := .left) h) rfl
  constructor
  · intro he hkeeps
    have hne : T.items.map Prod.snd ≠ [] := mt (List.map_eq_nil_iff.trans items_eq_nil).mp hT
    obtain ⟨k, hk, hvk⟩ := exists_of_eraseKey_eq_nil hne he
    obtain ⟨⟨p, k'⟩, hi, rfl⟩ := List.map_eq_singleton_iff.mp hk
    exact hkeeps p (h.nodes_eq_singleton.mpr ⟨k', hi⟩) k' (hkey hi) hvk
  · intro hnot
    by_contra he
    refine hnot fun p hp k hk heq => he ?_
    obtain ⟨k', hi⟩ := h.nodes_eq_singleton.mp hp
    obtain rfl : k' = k := Except.ok.inj ((hkey hi).symm.trans hk)
    rw [hi, List.map_cons, eraseKey, heq.1, heq.2]
    rfl

/-- **A call** on a tree with the right ends leaves one with the right ends exactly under the
condition. -/
theorem Usable.ends_call (hlt : StrictWeak lt) (h : Usable t T)
    (hs : SortedKeys lt (T.items.map Prod.snd)) (he : Ends lt t) (c : TreeCall α) :
    ∃ t' answer T', t.call lt c = .ok (t', answer) ∧ Usable t' T' ∧
      T'.items.map Prod.snd = callKeys lt (T.items.map Prod.snd) c ∧
      (Ends lt t' ↔ KeepsEnds lt t c) := by
  obtain ⟨hvalid, hlast⟩ := (h.ends_iff hs).mp he
  cases c with
  | insert v =>
    obtain ⟨t', T', ht', hT', hk⟩ := insert_spec hlt hvalid hs v
    refine ⟨t', none, T', by rw [RBTree.call, ht']; rfl, Or.inl hT', hk, ?_⟩
    refine iff_of_true (hT'.ends (hk ▸ hs.insertKey hlt v) ?_) trivial
    rintro rfl
    have hv : v ∈ insertKey lt v (T.items.map Prod.snd) := (mem_insertKey hlt hs).mpr (Or.inl rfl)
    rw [← hk] at hv
    exact List.not_mem_nil hv
  | remove v =>
    obtain ⟨t', T', ht', hT', hk, hkept⟩ := remove_effect hlt hvalid hs v
    refine ⟨t', _, T', by rw [RBTree.call, ht']; rfl, Or.inl hT', hk, ?_⟩
    rw [hT'.usable.ends_iff (hk ▸ hs.eraseKey v)]
    by_cases hT : T = .nil
    · -- nothing is removed from an empty tree
      subst hT
      refine iff_of_true ⟨hT', fun hnil => (hkept hnil).trans (hlast rfl)⟩ fun p hp => ?_
      rw [hvalid.toHolds.nodes_eq_empty.mpr rfl] at hp
      exact absurd hp (Set.singleton_ne_empty p).symm
    · have hempty : T' = .nil ↔ ¬ KeepsEnds lt t (.remove v) := by
        rw [← hvalid.toHolds.eraseKey_eq_nil hT, ← hk, List.map_eq_nil_iff, items_eq_nil]
      constructor
      · rintro ⟨-, hnil⟩
        by_contra hcond
        have hnil' := hempty.mpr hcond
        -- the pointer is still at the node that was there
        have hp : t.last = nil := (hkept hnil').symm.trans (hnil hnil')
        obtain ⟨k, hk, -⟩ := he.last.extreme (Set.nonempty_iff_ne_empty.mpr
          (mt hvalid.toHolds.nodes_eq_empty.mp hT))
        rw [lastKey_eq, keyAt, if_pos hp] at hk
        exact absurd hk (by simp)
      · intro hcond
        exact ⟨hT', fun hnil => absurd hcond (hempty.mp hnil)⟩
  | clear =>
    obtain ⟨t', ht', hT', hfirst', hlast'⟩ := h.clear_ends
    refine ⟨t', none, .nil, by rw [RBTree.call, ht']; rfl, hT', rfl, ?_⟩
    rw [hT'.ends_iff List.Pairwise.nil, KeepsEnds, hvalid.toHolds.nodes_eq_empty]
    constructor
    · rintro ⟨hvalid', -⟩
      have hnil : t.first = nil := hfirst'.symm.trans hvalid'.first
      by_contra hT
      obtain ⟨k, hk, -⟩ := he.first.extreme (Set.nonempty_iff_ne_empty.mpr
        (mt hvalid.toHolds.nodes_eq_empty.mp hT))
      rw [firstKey_eq, keyAt, if_pos hnil] at hk
      exact absurd hk (by simp)
    · rintro rfl
      refine ⟨?_, fun _ => hlast'.trans (hlast rfl)⟩
      rcases hT' with hT' | ⟨-, hT'⟩
      · exact hT'
      · exact ⟨⟨hT'.rep, hT'.root, hT'.nodup, hT'.range, hT'.sentinel, hT'.fresh⟩, hT'.bal,
          hfirst'.trans hvalid.first, fun hne => absurd rfl hne, hT'.size⟩

end RBTree

/-- **In every sequence of calls from an empty tree**, with any strict weak order, the ends are
right after each call if and only if no `clear` finds a tree with nodes and no `remove` takes
the only node. -/
theorem treeEnds_iff {α : Type} {lt : α → α → Bool} (hlt : StrictWeak lt)
    (cs : List (TreeCall α)) :
    Throughout (RBTree.call lt) (RBTree.Ends lt) RBTree.empty cs ↔
      Meets (RBTree.call lt) (RBTree.KeepsEnds lt) RBTree.empty cs := by
  refine throughout_iff_meets (Q := fun _ => True)
    (I := fun t => ∃ T, RBTree.Usable t T ∧ SortedKeys lt (T.items.map Prod.snd))
    (fun t c _ hT he => ?_) (fun _ _ => trivial)
    ⟨.nil, RBTree.valid_empty.usable, List.Pairwise.nil⟩
    ((RBTree.valid_empty.usable.ends_iff List.Pairwise.nil).mpr
      ⟨RBTree.valid_empty, fun _ => rfl⟩)
  obtain ⟨T, hT, hs⟩ := hT
  obtain ⟨t', answer, T', ht', hT', hk, hiff⟩ := hT.ends_call hlt hs he c
  exact ⟨t', answer, ht', ⟨T', hT', hk ▸ RBTree.sortedKeys_callKeys hlt hs c⟩, hiff⟩

/-- Two keys, one of which is removed. -/
theorem treeEnds_iff_two : Throughout (RBTree.call fun a b : ℕ => decide (a < b))
    (RBTree.Ends fun a b : ℕ => decide (a < b)) RBTree.empty [.insert 2, .insert 1, .remove 2] ↔
    Meets (RBTree.call fun a b : ℕ => decide (a < b))
      (RBTree.KeepsEnds fun a b : ℕ => decide (a < b)) RBTree.empty
      [.insert 2, .insert 1, .remove 2] :=
  treeEnds_iff strictWeak_nat _

/-- After `clear` the first pointer dangles, after the removal of the only node the last one. -/
theorem treeEnds_dangle :
    (∃ t answers, runAll (RBTree.call fun a b : ℕ => decide (a < b)) RBTree.empty
        [.insert 1, .clear] = .ok (t, answers) ∧ t.firstKey = .error .badPointer ∧
      ¬ RBTree.Ends (fun a b : ℕ => decide (a < b)) t) ∧
    ∃ t answers, runAll (RBTree.call fun a b : ℕ => decide (a < b)) RBTree.empty
        [.insert 1, .remove 1] = .ok (t, answers) ∧ t.lastKey = .error .badPointer ∧
      ¬ RBTree.Ends (fun a b : ℕ => decide (a < b)) t := by
  refine ⟨⟨_, _, rfl, rfl, fun h => ?_⟩, ⟨_, _, rfl, rfl, fun h => ?_⟩⟩
  · exact h.first.ne_error rfl
  · exact h.last.ne_error rfl

end LimitOrderBook
