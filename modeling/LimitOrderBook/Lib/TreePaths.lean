import LimitOrderBook.Lib.ColorTree
import LimitOrderBook.Lib.SortedKeys
import Mathlib.Algebra.Group.Nat.Defs
import Mathlib.Data.Nat.Log

/-!
# Paths down a red-black tree

A list of sides leads from the root of a tree to one of its subtrees
(`LimitOrderBook.ColorTree.descend`), past a number of black nodes. The subtrees of a
balanced tree are balanced, with what is left of the black height
(`LimitOrderBook.ColorTree.Bal.descend`); hence the bound on the height of a tree by the
number of its keys (`LimitOrderBook.ColorTree.Bal.length_le`).
-/

namespace LimitOrderBook

namespace ColorTree

variable {α : Type} {T S : ColorTree α} {ds es : List Dir} {m n : ℕ} {c : Bool}

/-- The subtree at the end of a path, and the number of black nodes above it. -/
def descend (T : ColorTree α) : List Dir → Option (ColorTree α × ℕ)
  | [] => some (T, 0)
  | d :: ds =>
    match T with
    | nil => none
    | node _ b l _ r =>
      (descend (match d with | .left => l | .right => r) ds).map fun s => (s.1, s.2 + b.toNat)

@[simp] theorem descend_root : T.descend [] = some (T, 0) := rfl

@[simp] theorem descend_nil {d : Dir} : (nil : ColorTree α).descend (d :: ds) = none := rfl

@[simp] theorem descend_left {a : ℕ} {b : Bool} {l r : ColorTree α} {k : α} :
    (node a b l k r).descend (.left :: ds) = (l.descend ds).map fun s => (s.1, s.2 + b.toNat) :=
  rfl

@[simp] theorem descend_right {a : ℕ} {b : Bool} {l r : ColorTree α} {k : α} :
    (node a b l k r).descend (.right :: ds) = (r.descend ds).map fun s => (s.1, s.2 + b.toNat) :=
  rfl

/-- A step down. -/
theorem exists_of_descend_cons {d : Dir} (h : T.descend (d :: ds) = some (S, n)) :
    ∃ a b k x y n', T = bin d a b k x y ∧ x.descend ds = some (S, n') ∧ n = n' + b.toNat := by
  rcases T with _ | ⟨a, b, l, k, r⟩
  · exact absurd h (by simp)
  · cases d with
    | left =>
      rw [descend_left, Option.map_eq_some_iff] at h
      obtain ⟨⟨S', n'⟩, hs, he⟩ := h
      obtain ⟨rfl, rfl⟩ := Prod.mk.inj he
      exact ⟨a, b, k, l, r, n', rfl, hs, rfl⟩
    | right =>
      rw [descend_right, Option.map_eq_some_iff] at h
      obtain ⟨⟨S', n'⟩, hs, he⟩ := h
      obtain ⟨rfl, rfl⟩ := Prod.mk.inj he
      exact ⟨a, b, k, r, l, n', rfl, hs, rfl⟩

@[simp] theorem descend_bin {d : Dir} {a : ℕ} {b : Bool} {k : α} {x y : ColorTree α} :
    (bin d a b k x y).descend (d :: ds) = (x.descend ds).map fun s => (s.1, s.2 + b.toNat) := by
  cases d <;> rfl

/-- A path that goes on. -/
theorem descend_append (h : T.descend ds = some (S, n)) :
    T.descend (ds ++ es) = (S.descend es).map fun s => (s.1, s.2 + n) := by
  induction ds generalizing T n with
  | nil =>
    obtain ⟨rfl, rfl⟩ := Prod.mk.inj (Option.some.inj h)
    simp
  | cons d ds ih =>
    obtain ⟨a, b, k, x, y, n', rfl, hx, rfl⟩ := exists_of_descend_cons h
    rw [List.cons_append, descend_bin, ih hx, Option.map_map]
    exact congrArg (Option.map · _) (funext fun s => Prod.ext rfl (Nat.add_assoc _ _ _))

/-- The keys of a subtree are a part of those of the tree. -/
theorem descend_items (h : T.descend ds = some (S, n)) : S.items <:+: T.items := by
  induction ds generalizing T n with
  | nil =>
    obtain ⟨rfl, -⟩ := Prod.mk.inj (Option.some.inj h)
    exact List.infix_rfl
  | cons d ds ih =>
    obtain ⟨a, b, k, x, y, n', rfl, hx, -⟩ := exists_of_descend_cons h
    refine (ih hx).trans ?_
    cases d with
    | left => exact (List.prefix_append _ _).isInfix
    | right => exact ((List.suffix_cons _ _).trans (List.suffix_append _ _)).isInfix

/-- Every label is that of a node at the end of a path. -/
theorem exists_descend {a : ℕ} (h : a ∈ T.addrs) :
    ∃ ds b l k r n, T.descend ds = some (node a b l k r, n) := by
  induction T with
  | nil => exact absurd h (by simp)
  | node a' b l k r ihl ihr =>
    rcases mem_addrs_bin (d := .left).mp h with rfl | hl | hr
    · exact ⟨[], b, l, k, r, 0, rfl⟩
    · obtain ⟨ds, b', l', k', r', n, hds⟩ := ihl hl
      exact ⟨.left :: ds, b', l', k', r', n + b.toNat, by rw [descend_left, hds]; rfl⟩
    · obtain ⟨ds, b', l', k', r', n, hds⟩ := ihr hr
      exact ⟨.right :: ds, b', l', k', r', n + b.toNat, by rw [descend_right, hds]; rfl⟩

/-! ### Order -/

/-- In a sorted tree the keys below a node on one side are on that side of its key. -/
theorem lt_of_descend {lt : α → α → Bool} (hs : SortedKeys lt (T.items.map Prod.snd)) {a : ℕ}
    {b : Bool} {l r : ColorTree α} {k : α} (h : T.descend ds = some (node a b l k r, n)) :
    (∀ k' ∈ l.items.map Prod.snd, lt k' k = true) ∧
      ∀ k' ∈ r.items.map Prod.snd, lt k k' = true := by
  have hsub : (node a b l k r).items.map Prod.snd <:+: T.items.map Prod.snd :=
    (descend_items h).map Prod.snd
  have hsorted := hs.sublist hsub.sublist
  rw [items_node, List.map_append, List.map_cons, List.pairwise_append, List.pairwise_cons]
    at hsorted
  exact ⟨fun k' hk' => hsorted.2.2 k' hk' k List.mem_cons_self, hsorted.2.1.1⟩

/-! ### Height -/

/-- The longest path that a black height and a colour of the root allow. -/
def maxLength (c : Bool) (n : ℕ) : ℕ := 2 * n + (!c).toNat

/-- **The subtrees of a balanced tree are balanced**, with the black height that is left. -/
theorem Bal.descend (hT : Bal T c m) (h : T.descend ds = some (S, n)) :
    ∃ c' m', Bal S c' m' ∧ m = m' + n ∧ ds.length + maxLength c' m' ≤ maxLength c m := by
  induction ds generalizing T c m n with
  | nil =>
    obtain ⟨rfl, rfl⟩ := Prod.mk.inj (Option.some.inj h)
    exact ⟨c, m, hT, rfl, by simp⟩
  | cons d ds ih =>
    obtain ⟨a, b, k, x, y, n', rfl, hx, rfl⟩ := exists_of_descend_cons h
    cases b with
    | false =>
      obtain ⟨rfl, hbal, -⟩ := hT.of_bin_red
      obtain ⟨c', m', hS, rfl, hlen⟩ := ih hbal hx
      refine ⟨c', m', hS, by simp, ?_⟩
      simp only [maxLength, List.length_cons, Bool.not_true, Bool.not_false, Bool.toNat_true,
        Bool.toNat_false] at hlen ⊢
      omega
    | true =>
      obtain ⟨rfl, m₁, c₁, c₂, rfl, hbal, -⟩ := hT.of_bin_black
      obtain ⟨c', m', hS, rfl, hlen⟩ := ih hbal hx
      refine ⟨c', m', hS, by simp [Nat.add_assoc], ?_⟩
      have hc := Bool.toNat_le (!c₁)
      simp only [maxLength, List.length_cons, Bool.not_true, Bool.toNat_false] at hlen ⊢
      omega

/-- A balanced tree has at least the keys that its black nodes need. -/
theorem Bal.pow_le (h : Bal T c n) : 2 ^ n ≤ T.items.length + 1 := by
  induction h with
  | nil => simp
  | red _ _ ihl _ =>
    simp only [items_node, List.length_append, List.length_cons]
    omega
  | black _ _ ihl ihr =>
    simp only [items_node, List.length_append, List.length_cons, Nat.pow_succ]
    omega

/-- **The height of a balanced tree** with a black root is at most twice the logarithm of
the number of its keys. -/
theorem Bal.length_le (hT : Bal T true m) (h : T.descend ds = some (S, n)) :
    ds.length ≤ 2 * Nat.log 2 (T.items.length + 1) := by
  obtain ⟨c', m', -, -, hlen⟩ := hT.descend h
  have hlog : m ≤ Nat.log 2 (T.items.length + 1) :=
    Nat.le_log_of_pow_le (by decide) hT.pow_le
  simp only [maxLength, Bool.not_true, Bool.toNat_false] at hlen
  omega

end ColorTree

end LimitOrderBook
