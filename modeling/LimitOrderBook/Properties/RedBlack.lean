import LimitOrderBook.Lib.TreePaths
import LimitOrderBook.Storage.Clear
import Mathlib.Data.Set.Card

/-!
# The tree stays a red-black tree

What the memory of a tree has to look like for it to be a red-black tree, in terms of the
pointers that are met on the way down from the root (`LimitOrderBook.RBTree.walk`), and
that every sequence of operations from an empty tree returns and leads to such a memory
(`LimitOrderBook.redBlack`).
-/

namespace LimitOrderBook

open ColorTree

namespace RBTree

variable {α : Type}

/-- The pointer at the end of a path of child links from `p`, and the number of black
nodes above it; there is none beyond the sentinel. -/
def walk (t : RBTree α) (p : ℕ) : List Dir → Option (ℕ × ℕ)
  | [] => some (p, 0)
  | d :: ds =>
    if p = nil then none
    else (t.mem p).bind fun n =>
      (walk t (n.child d) ds).map fun e => (e.1, e.2 + n.isBlack.toNat)

/-- The key `k'` is on side `d` of the key `k`. -/
def OnSideOf (lt : α → α → Bool) : Dir → α → α → Prop
  | .left, k, k' => lt k' k = true
  | .right, k, k' => lt k k' = true

/-- The nodes of the tree. -/
def nodes (t : RBTree α) : Set ℕ := {p | p ≠ nil ∧ ∃ ds n, t.walk t.root ds = some (p, n)}

/-- **The memory is a red-black tree** for the comparator. -/
structure RedBlack (lt : α → α → Bool) (t : RBTree α) : Prop where
  /-- Every pointer is that of a node with a key, or that of the sentinel. -/
  hasKey : ∀ p ∈ t.nodes, ∃ k, t.key p = .ok k
  /-- The keys below a node on one side are on that side of its key. -/
  ordered : ∀ ds p n d es q m k k', t.walk t.root ds = some (p, n) →
    t.walk t.root (ds ++ d :: es) = some (q, m) → t.key p = .ok k → t.key q = .ok k' →
      OnSideOf lt d k k'
  distinct : ∀ p ∈ t.nodes, ∀ q ∈ t.nodes, p ≠ q → ∀ k k', t.key p = .ok k → t.key q = .ok k' →
    ¬ Equiv lt k k'
  rootBlack : t.isBlack t.root = .ok true
  redChild : ∀ p ∈ t.nodes, t.isBlack p = .ok false → ∀ d c, t.child d p = .ok c →
    t.isBlack c = .ok true
  blackHeight : ∃ h, ∀ ds n, t.walk t.root ds = some (nil, n) → n = h
  parentOf : ∀ p ∈ t.nodes, ∀ d c, t.child d p = .ok c → c ≠ nil → t.parent c = .ok p
  rootParent : t.root ≠ nil → t.parent t.root = .ok nil
  height : ∀ ds p n, t.walk t.root ds = some (p, n) →
    ds.length ≤ 2 * Nat.log 2 (t.nodes.ncard + 1)
  size : t.size = UInt64.ofNat t.nodes.ncard

/-! ### Paths in memory -/

section Paths

variable {t : RBTree α} {T S : ColorTree α} {par : ℕ} {ds : List Dir} {n : ℕ}

/-- Paths in memory are those of the tree it represents. -/
theorem Rep.walk (h : Rep t.mem par T) (hnil : nil ∉ T.addrs) (ds : List Dir) :
    t.walk (ptr T) ds = (T.descend ds).map fun s => (ptr s.1, s.2) := by
  induction ds generalizing T par with
  | nil => rfl
  | cons d ds ih =>
    rcases T with _ | ⟨a, b, l, k, r⟩
    · rw [RBTree.walk, if_pos ptr_nil]
      rfl
    · obtain ⟨ha, hl, hr⟩ := h
      have hane : a ≠ nil := fun he => hnil (mem_addrs_bin (d := .left) |>.mpr (Or.inl he.symm))
      rw [RBTree.walk, ptr_node, if_neg hane, ha, Option.bind_some]
      cases d with
      | left =>
        have hx := ih hl fun hm => hnil (mem_addrs_bin (d := .left) |>.mpr (Or.inr (Or.inl hm)))
        simp only [Node.child, hx, descend_left, Option.map_map]
        rfl
      | right =>
        have hx := ih hr fun hm => hnil (mem_addrs_bin (d := .left) |>.mpr (Or.inr (Or.inr hm)))
        simp only [Node.child, hx, descend_right, Option.map_map]
        rfl

/-- The subtrees of what is represented are represented. -/
theorem Rep.descend (h : Rep t.mem par T) (hds : T.descend ds = some (S, n)) :
    ∃ par', Rep t.mem par' S := by
  induction ds generalizing T par n with
  | nil =>
    obtain ⟨rfl, -⟩ := Prod.mk.inj (Option.some.inj hds)
    exact ⟨par, h⟩
  | cons d ds ih =>
    obtain ⟨a, b, k, x, y, n', rfl, hx, -⟩ := exists_of_descend_cons hds
    exact ih (rep_bin.mp h).2.1 hx

theorem Holds.walk (h : Holds t T) (ds : List Dir) :
    t.walk t.root ds = (T.descend ds).map fun s => (ptr s.1, s.2) := by
  rw [h.root]
  exact h.rep.walk h.nil_not_mem ds

/-- The end of a path in memory is that of a path in the tree. -/
theorem Holds.exists_descend (h : Holds t T) {p : ℕ} (hp : t.walk t.root ds = some (p, n)) :
    ∃ S, T.descend ds = some (S, n) ∧ ptr S = p := by
  rw [h.walk, Option.map_eq_some_iff] at hp
  obtain ⟨⟨S, m⟩, hS, he⟩ := hp
  obtain ⟨rfl, rfl⟩ := Prod.mk.inj he
  exact ⟨S, hS, rfl⟩

/-- The nodes in memory are those of the tree. -/
theorem Holds.nodes_eq (h : Holds t T) : t.nodes = {p | p ∈ T.addrs} := by
  ext p
  constructor
  · rintro ⟨hne, ds, n, hp⟩
    obtain ⟨S, hS, rfl⟩ := h.exists_descend hp
    have hSne : S ≠ .nil := fun he => hne (by rw [he]; rfl)
    exact ((descend_items hS).map Prod.fst).subset (ptr_mem_addrs hSne)
  · intro hp
    obtain ⟨ds, b, l, k, r, n, hds⟩ := ColorTree.exists_descend hp
    exact ⟨fun he => h.nil_not_mem (he ▸ hp), ds, n, by rw [h.walk, hds]; rfl⟩

theorem Holds.ncard_nodes (h : Holds t T) : t.nodes.ncard = T.items.length := by
  have hset : {p | p ∈ T.addrs} = (T.addrs.toFinset : Set ℕ) := by
    ext p
    simp
  rw [h.nodes_eq, hset, Set.ncard_coe_finset, List.toFinset_card_of_nodup h.nodup, ColorTree.addrs,
    List.length_map]

/-- A node in memory, with its place in the tree. -/
theorem Holds.exists_node (h : Holds t T) {p : ℕ} (hp : p ∈ t.nodes) :
    ∃ ds b l k r n par, T.descend ds = some (node p b l k r, n) ∧
      t.mem p = some ⟨some k, b, par, ptr l, ptr r⟩ ∧ Rep t.mem p l ∧ Rep t.mem p r := by
  rw [h.nodes_eq] at hp
  obtain ⟨ds, b, l, k, r, n, hds⟩ := ColorTree.exists_descend hp
  obtain ⟨par, hrep⟩ := h.rep.descend hds
  exact ⟨ds, b, l, k, r, n, par, hds, hrep⟩

/-- A subtree whose pointer has a key is a node with this key. -/
theorem Holds.eq_node (h : Holds t T) (hds : T.descend ds = some (S, n)) {k : α}
    (hk : t.key (ptr S) = .ok k) : ∃ b l r, S = node (ptr S) b l k r := by
  rcases S with _ | ⟨a, b, l, k', r⟩
  · obtain ⟨m, hm, hnone, -⟩ := h.sentinel
    simp [RBTree.key, fetch, hm, hnone, deref, bind, Except.bind] at hk
  · obtain ⟨par', hrep⟩ := h.rep.descend hds
    have hk' : t.key a = .ok k' := key_eq hrep.1 rfl
    rw [ptr_node, hk'] at hk
    exact ⟨b, l, r, by rw [Except.ok.inj hk]; rfl⟩

/-- The colour of a subtree in memory. -/
theorem Holds.isBlack_of_bal (h : Holds t T) (hrep : Rep t.mem par S) {c : Bool}
    (hbal : Bal S c n) : t.isBlack (ptr S) = .ok c := by
  cases hbal with
  | nil =>
    obtain ⟨m, hm, -, hb, -⟩ := h.sentinel
    rw [ptr_nil, isBlack_eq hm, hb]
  | red _ _ => exact isBlack_eq hrep.1
  | black _ _ => exact isBlack_eq hrep.1

/-- A child in memory, and the subtree it is the pointer of. -/
theorem exists_child {p c k} {b : Bool} {l r : ColorTree α} {d : Dir}
    (hmem : t.mem p = some ⟨some k, b, par, ptr l, ptr r⟩) (hc : t.child d p = .ok c) :
    c = ptr (match d with | .left => l | .right => r) := by
  rw [child_eq hmem, Except.ok.injEq] at hc
  rw [← hc]
  cases d <;> rfl

end Paths

/-! ### Every sequence of operations -/

section RedBlack

variable {t : RBTree α} {T : ColorTree α} {lt : α → α → Bool} {m : ℕ}

/-- The keys of a sorted tree, along its paths in memory. -/
theorem Holds.ordered (h : Holds t T) (hs : SortedKeys lt (T.items.map Prod.snd)) {ds es : List Dir}
    {p n q i : ℕ} {d : Dir} {k k' : α} (hp : t.walk t.root ds = some (p, n))
    (hq : t.walk t.root (ds ++ d :: es) = some (q, i)) (hk : t.key p = .ok k)
    (hk' : t.key q = .ok k') : OnSideOf lt d k k' := by
  obtain ⟨P, hP, rfl⟩ := h.exists_descend hp
  obtain ⟨Q, hQ, rfl⟩ := h.exists_descend hq
  obtain ⟨b', l', r', hQnode⟩ := h.eq_node hQ hk'
  obtain ⟨b, l, r, hPnode⟩ := h.eq_node hP hk
  rw [hPnode] at hP
  rw [descend_append hP, Option.map_eq_some_iff] at hQ
  obtain ⟨⟨S, j⟩, hS, hSQ⟩ := hQ
  obtain rfl : S = Q := congrArg Prod.fst hSQ
  -- the lower node is in the subtree on side `d`
  have hmem : ∀ x : ColorTree α, ∀ j', x.descend es = some (S, j') → k' ∈ x.items.map Prod.snd :=
    fun x j' hx => by
      refine ((descend_items hx).map Prod.snd).subset ?_
      rw [hQnode]
      simp
  obtain ⟨hleft, hright⟩ := lt_of_descend hs hP
  cases d with
  | left =>
    rw [descend_left, Option.map_eq_some_iff] at hS
    obtain ⟨⟨x, j'⟩, hx, he⟩ := hS
    obtain rfl : x = S := congrArg Prod.fst he
    exact hleft k' (hmem l j' hx)
  | right =>
    rw [descend_right, Option.map_eq_some_iff] at hS
    obtain ⟨⟨x, j'⟩, hx, he⟩ := hS
    obtain rfl : x = S := congrArg Prod.fst he
    exact hright k' (hmem r j' hx)

/-- The key of a node is among the items of the tree. -/
theorem Holds.mem_items (h : Holds t T) {p : ℕ} {k : α} (hp : p ∈ t.nodes)
    (hk : t.key p = .ok k) : (p, k) ∈ T.items := by
  obtain ⟨ds, b, l, y, r, n, par, hds, hmem, -, -⟩ := h.exists_node hp
  rw [key_eq hmem rfl, Except.ok.injEq] at hk
  rw [← hk]
  exact (descend_items hds).subset (by simp)

/-- Different nodes of a sorted tree have different keys. -/
theorem Holds.distinct (h : Holds t T) (hs : SortedKeys lt (T.items.map Prod.snd)) {p q : ℕ}
    (hp : p ∈ t.nodes) (hq : q ∈ t.nodes) (hpq : p ≠ q) {k k' : α} (hk : t.key p = .ok k)
    (hk' : t.key q = .ok k') : ¬ Equiv lt k k' := by
  have hpair : T.items.Pairwise fun x y => lt x.2 y.2 = true ∨ lt y.2 x.2 = true :=
    (List.pairwise_map.mp hs).imp fun hxy => Or.inl hxy
  have : Std.Symm fun x y : ℕ × α => lt x.2 y.2 = true ∨ lt y.2 x.2 = true :=
    ⟨fun _ _ hxy => hxy.symm⟩
  have hcases := hpair.forall (h.mem_items hp hk) (h.mem_items hq hk') fun he =>
    hpq (congrArg Prod.fst he)
  rintro ⟨h₁, h₂⟩
  rcases hcases with hlt | hlt
  · rw [h₁] at hlt
    exact absurd hlt (by simp)
  · rw [h₂] at hlt
    exact absurd hlt (by simp)

/-- **What is held is a red-black tree in memory.** -/
theorem Holds.isRedBlack (h : Holds t T) (hbal : Bal T true m)
    (hs : SortedKeys lt (T.items.map Prod.snd)) (hsize : t.size = UInt64.ofNat T.items.length) :
    RedBlack lt t where
  hasKey := fun p hp => by
    obtain ⟨ds, b, l, k, r, n, par, -, hmem, -, -⟩ := h.exists_node hp
    exact ⟨k, key_eq hmem rfl⟩
  ordered := fun ds p n d es q i k k' hp hq hk hk' => h.ordered hs hp hq hk hk'
  distinct := fun p hp q hq hpq k k' hk hk' => h.distinct hs hp hq hpq hk hk'
  rootBlack := by
    rw [h.root]
    exact h.isBlack_of_bal h.rep hbal
  redChild := fun p hp hred d c hc => by
    obtain ⟨ds, b, l, k, r, n, par, hds, hmem, hl, hr⟩ := h.exists_node hp
    obtain rfl : b = false := by simpa [isBlack_eq hmem] using hred
    obtain ⟨c', m', hnode, -, -⟩ := hbal.descend hds
    obtain ⟨-, hbl, hbr⟩ := Bal.of_bin_red (d := .left) hnode
    rw [exists_child hmem hc]
    cases d with
    | left => exact h.isBlack_of_bal hl hbl
    | right => exact h.isBlack_of_bal hr hbr
  blackHeight := by
    refine ⟨m, fun ds n hn => ?_⟩
    obtain ⟨S, hS, hnil⟩ := h.exists_descend hn
    obtain ⟨c', m', hSbal, hm, -⟩ := hbal.descend hS
    rcases S with _ | ⟨a, b, l, k, r⟩
    · cases hSbal
      omega
    · have hmem := ((descend_items hS).map Prod.fst).subset (ptr_mem_addrs (by simp))
      exact absurd (hnil ▸ hmem) h.nil_not_mem
  parentOf := fun p hp d c hc hne => by
    obtain ⟨ds, b, l, k, r, n, par, -, hmem, hl, hr⟩ := h.exists_node hp
    have hx : ∀ x : ColorTree α, Rep t.mem p x → c = ptr x → t.parent c = .ok p := by
      rintro (_ | ⟨a, b', l', k', r'⟩) hrep rfl
      · exact absurd rfl hne
      · exact parent_eq hrep.1
    cases d with
    | left => exact hx l hl (exists_child hmem hc)
    | right => exact hx r hr (exists_child hmem hc)
  rootParent := fun hne => by
    rw [h.root] at hne ⊢
    rcases T with _ | ⟨a, b, l, k, r⟩
    · exact absurd rfl hne
    · exact parent_eq h.rep.1
  height := fun ds p n hp => by
    obtain ⟨S, hS, -⟩ := h.exists_descend hp
    rw [h.ncard_nodes]
    exact hbal.length_le hS
  size := by rw [h.ncard_nodes, hsize]

end RedBlack

end RBTree

/-- **Every sequence of `insert`, `remove` and `clear`** from an empty tree, with any
strict weak order, returns without following a null pointer, and the memory is a red-black
tree. -/
theorem redBlack {α : Type} {lt : α → α → Bool} (hlt : StrictWeak lt) (cs : List (TreeCall α)) :
    ∃ t answers, runAll (RBTree.call lt) RBTree.empty cs = .ok (t, answers) ∧
      RBTree.RedBlack lt t := by
  obtain ⟨t, answers, hrun, T, hT, hs⟩ := RBTree.exists_run hlt cs
  refine ⟨t, answers, hrun, ?_⟩
  rcases hT with h | ⟨rfl, h⟩
  · obtain ⟨m, hm⟩ := h.bal
    exact h.toHolds.isRedBlack hm hs h.size
  · obtain ⟨m, hm⟩ := h.bal
    have hholds : RBTree.Holds t .nil :=
      ⟨h.rep, h.root, h.nodup, h.range, h.sentinel, h.fresh⟩
    exact hholds.isRedBlack hm hs h.size

/-- Natural numbers in increasing order. -/
theorem redBlack_nat : ∃ t answers, runAll (RBTree.call fun a b : ℕ => decide (a < b))
      RBTree.empty [.insert 2, .insert 1, .remove 2, .clear, .insert 3] = .ok (t, answers) ∧
    RBTree.RedBlack (fun a b : ℕ => decide (a < b)) t :=
  redBlack strictWeak_nat _

end LimitOrderBook
