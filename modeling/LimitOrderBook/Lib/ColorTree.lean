import Mathlib.Data.List.Basic
import Mathlib.Data.List.Nodup

/-!
# Red-black trees with labelled nodes, and their zippers

The mathematics behind a pointer-based red-black tree. A tree of
`LimitOrderBook.ColorTree` carries at each node, beside its colour and its key, a
*label* – for a tree in memory, the address of the node. A tree is read through
its list of labelled keys in order (`LimitOrderBook.ColorTree.items`), which is
what a search tree is about and what a rotation does not change.

A position inside a tree is a zipper: a subtree in a context
(`LimitOrderBook.ColorCtx`), the context listing the nodes from the position up
to the root. The two sides of the tree are mirror images, so everything is
indexed by a side `LimitOrderBook.Dir` and `LimitOrderBook.ColorTree.bin` builds a
node from its child on that side and its child on the other.

The balance is `LimitOrderBook.ColorTree.Bal` for trees, with the colour of the
root and the black height, and `LimitOrderBook.ColorCtx.Fits` for contexts, with
the colour and the height of the trees that fit the hole.
-/

namespace LimitOrderBook

/-- One of the two sides of a node. -/
inductive Dir where
  | left : Dir
  | right : Dir
  deriving DecidableEq, Repr

/-- The other side. -/
def Dir.flip : Dir → Dir
  | .left => .right
  | .right => .left

@[simp] theorem Dir.flip_left : Dir.left.flip = .right := rfl

@[simp] theorem Dir.flip_right : Dir.right.flip = .left := rfl

@[simp] theorem Dir.flip_flip (d : Dir) : d.flip.flip = d := by cases d <;> rfl

/-- A binary tree whose nodes carry a label, a colour (`true` for black) and a
key. -/
inductive ColorTree (α : Type) where
  | nil : ColorTree α
  | node (a : ℕ) (b : Bool) (l : ColorTree α) (k : α) (r : ColorTree α) : ColorTree α

/-- The nodes from a position of a tree up to the root: `step d a b k sib up` is
a node labelled `a` whose child on side `d` is the position and whose other
child is `sib`. -/
inductive ColorCtx (α : Type) where
  | top : ColorCtx α
  | step (d : Dir) (a : ℕ) (b : Bool) (k : α) (sib : ColorTree α) (up : ColorCtx α) : ColorCtx α

variable {α : Type}

namespace ColorTree

/-- The node with child `x` on side `d` and child `y` on the other side. -/
def bin (d : Dir) (a : ℕ) (b : Bool) (k : α) (x y : ColorTree α) : ColorTree α :=
  match d with
  | .left => node a b x k y
  | .right => node a b y k x

@[simp] theorem bin_left (a : ℕ) (b : Bool) (k : α) (x y : ColorTree α) :
    bin .left a b k x y = node a b x k y := rfl

@[simp] theorem bin_right (a : ℕ) (b : Bool) (k : α) (x y : ColorTree α) :
    bin .right a b k x y = node a b y k x := rfl

theorem bin_flip (d : Dir) (a : ℕ) (b : Bool) (k : α) (x y : ColorTree α) :
    bin d.flip a b k x y = bin d a b k y x := by
  cases d <;> rfl

/-- Every node is built from its children on either side. -/
theorem exists_bin (d : Dir) (a : ℕ) (b : Bool) (l : ColorTree α) (k : α) (r : ColorTree α) :
    ∃ x y, node a b l k r = bin d a b k x y := by
  cases d
  · exact ⟨l, r, rfl⟩
  · exact ⟨r, l, rfl⟩

/-- The labelled keys of a tree, in order. -/
def items : ColorTree α → List (ℕ × α)
  | nil => []
  | node a _ l k r => l.items ++ (a, k) :: r.items

@[simp] theorem items_nil : (nil : ColorTree α).items = [] := rfl

@[simp] theorem items_node (a : ℕ) (b : Bool) (l : ColorTree α) (k : α) (r : ColorTree α) :
    (node a b l k r).items = l.items ++ (a, k) :: r.items := rfl

/-- The labels of a tree, in order. -/
def addrs (t : ColorTree α) : List ℕ := t.items.map Prod.fst

theorem items_eq_nil {t : ColorTree α} : t.items = [] ↔ t = nil := by
  cases t with
  | nil => simp
  | node a b l k r => simp

@[simp] theorem addrs_nil : (nil : ColorTree α).addrs = [] := rfl

@[simp] theorem addrs_node (a : ℕ) (b : Bool) (l : ColorTree α) (k : α) (r : ColorTree α) :
    (node a b l k r).addrs = l.addrs ++ a :: r.addrs := by
  simp [addrs]

theorem mem_addrs_bin {d : Dir} {a : ℕ} {b : Bool} {k : α} {x y : ColorTree α} {p : ℕ} :
    p ∈ (bin d a b k x y).addrs ↔ p = a ∨ p ∈ x.addrs ∨ p ∈ y.addrs := by
  cases d <;> simp only [bin_left, bin_right, addrs_node, List.mem_append, List.mem_cons] <;> tauto

/-- The labels of a node are distinct when its own label and those of its two
children are. -/
theorem nodup_addrs_bin {d : Dir} {a : ℕ} {b : Bool} {k : α} {x y : ColorTree α} :
    (bin d a b k x y).addrs.Nodup ↔ a ∉ x.addrs ∧ a ∉ y.addrs ∧ x.addrs.Nodup ∧
      y.addrs.Nodup ∧ ∀ p ∈ x.addrs, p ∉ y.addrs := by
  cases d <;>
    simp only [bin_left, bin_right, addrs_node, List.nodup_append, List.nodup_cons,
      List.mem_cons, ne_eq]
  · constructor
    · rintro ⟨hx, ⟨hay, hy⟩, hd⟩
      exact ⟨fun h => hd a h a (Or.inl rfl) rfl, hay, hx, hy,
        fun p hp hp' => hd p hp p (Or.inr hp') rfl⟩
    · rintro ⟨hax, hay, hx, hy, hd⟩
      refine ⟨hx, ⟨hay, hy⟩, ?_⟩
      rintro p hp q (rfl | hq) rfl
      · exact hax hp
      · exact hd p hp hq
  · constructor
    · rintro ⟨hy, ⟨hax, hx⟩, hd⟩
      exact ⟨hax, fun h => hd a h a (Or.inl rfl) rfl, hx, hy,
        fun p hp hp' => hd p hp' p (Or.inr hp) rfl⟩
    · rintro ⟨hax, hay, hx, hy, hd⟩
      refine ⟨hy, ⟨hax, hx⟩, ?_⟩
      rintro p hp q (rfl | hq) rfl
      · exact hay hp
      · exact hd p hq hp

/-- A rotation towards side `d` does not change the order of the keys. -/
theorem items_rotate (d : Dir) (a c : ℕ) (b b' e e' : Bool) (k k' : α) (x y z : ColorTree α) :
    (bin d c e' k' (bin d a e k x y) z).items =
      (bin d a b k x (bin d c b' k' y z)).items := by
  cases d <;> simp

/-- The colour of a node does not matter to the order of the keys. -/
theorem items_recolor (d : Dir) (a : ℕ) (b b' : Bool) (k : α) (x y : ColorTree α) :
    (bin d a b k x y).items = (bin d a b' k x y).items := by
  cases d <;> rfl

/-! ### Balance -/

/-- **Balance**: no red node has a red child, and every path down has the same
number `n` of black nodes; `c` is the colour of the root. -/
inductive Bal : ColorTree α → Bool → ℕ → Prop where
  | nil : Bal nil true 0
  | red {a n l k r} : Bal l true n → Bal r true n → Bal (node a false l k r) false n
  | black {a n l k r c c'} : Bal l c n → Bal r c' n → Bal (node a true l k r) true (n + 1)

theorem Bal.bin_red {d : Dir} {a n : ℕ} {k : α} {x y : ColorTree α} (hx : Bal x true n)
    (hy : Bal y true n) : Bal (bin d a false k x y) false n := by
  cases d
  · exact .red hx hy
  · exact .red hy hx

theorem Bal.bin_black {d : Dir} {a n : ℕ} {k : α} {x y : ColorTree α} {c c' : Bool}
    (hx : Bal x c n) (hy : Bal y c' n) : Bal (bin d a true k x y) true (n + 1) := by
  cases d
  · exact .black hx hy
  · exact .black hy hx

theorem Bal.of_bin_red {d : Dir} {a n : ℕ} {k : α} {x y : ColorTree α} {c : Bool}
    (h : Bal (bin d a false k x y) c n) : c = false ∧ Bal x true n ∧ Bal y true n := by
  cases d <;> cases h <;> exact ⟨rfl, by assumption, by assumption⟩

theorem Bal.of_bin_black {d : Dir} {a n : ℕ} {k : α} {x y : ColorTree α} {c : Bool}
    (h : Bal (bin d a true k x y) c n) :
    c = true ∧ ∃ m c₁ c₂, n = m + 1 ∧ Bal x c₁ m ∧ Bal y c₂ m := by
  cases d <;> cases h <;> exact ⟨rfl, _, _, _, rfl, by assumption, by assumption⟩

/-- A tree with a red root, at its root. -/
theorem Bal.of_red {t : ColorTree α} {n : ℕ} (h : Bal t false n) :
    ∃ a k l r, t = node a false l k r ∧ Bal l true n ∧ Bal r true n := by
  cases h with
  | red hl hr => exact ⟨_, _, _, _, rfl, hl, hr⟩

/-- A tree with a black root is empty, or a black node. -/
theorem Bal.exists_black {t : ColorTree α} {n : ℕ} (h : Bal t true n) (hne : t ≠ ColorTree.nil) :
    ∃ a l k r, t = node a true l k r := by
  cases h with
  | nil => exact absurd rfl hne
  | black _ _ => exact ⟨_, _, _, _, rfl⟩

/-- A balanced tree of height `0` has at most one node. -/
theorem Bal.of_height_zero {t : ColorTree α} {c : Bool} (h : Bal t c 0) :
    t = ColorTree.nil ∧ c = true ∨
      ∃ a k, t = node a false ColorTree.nil k ColorTree.nil ∧ c = false := by
  cases h with
  | nil => exact Or.inl ⟨rfl, rfl⟩
  | red hl hr =>
    cases hl
    cases hr
    exact Or.inr ⟨_, _, rfl, rfl⟩

end ColorTree

/-! ### Contexts -/

namespace ColorCtx

open ColorTree

/-- The tree obtained by filling the hole of a context. -/
def plug : ColorCtx α → ColorTree α → ColorTree α
  | top, t => t
  | step d a b k s up, t => up.plug (bin d a b k t s)

@[simp] theorem plug_top (t : ColorTree α) : top.plug t = t := rfl

@[simp] theorem plug_step (d : Dir) (a : ℕ) (b : Bool) (k : α) (s : ColorTree α)
    (up : ColorCtx α) (t : ColorTree α) :
    (step d a b k s up).plug t = up.plug (bin d a b k t s) := rfl

/-- The position of the child on the other side. -/
theorem plug_bin_flip (c : ColorCtx α) (d : Dir) (a : ℕ) (b : Bool) (k : α)
    (x y : ColorTree α) : c.plug (bin d a b k x y) = (step d.flip a b k x c).plug y := by
  rw [plug_step, bin_flip]

/-- The items of the filled tree before those of the hole. -/
def before : ColorCtx α → List (ℕ × α)
  | top => []
  | step .left _ _ _ _ up => up.before
  | step .right a _ k s up => up.before ++ s.items ++ [(a, k)]

/-- The items of the filled tree after those of the hole. -/
def after : ColorCtx α → List (ℕ × α)
  | top => []
  | step .left a _ k s up => (a, k) :: s.items ++ up.after
  | step .right _ _ _ _ up => up.after

theorem items_plug (c : ColorCtx α) (t : ColorTree α) :
    (c.plug t).items = c.before ++ t.items ++ c.after := by
  induction c generalizing t with
  | top => simp [before, after]
  | step d a b k s up ih =>
    rw [plug_step, ih]
    cases d <;> simp [before, after]

/-- The labels of a context. -/
def addrs (c : ColorCtx α) : List ℕ := (c.before ++ c.after).map Prod.fst

@[simp] theorem addrs_top : (top : ColorCtx α).addrs = [] := rfl

theorem addrs_plug (c : ColorCtx α) (t : ColorTree α) :
    (c.plug t).addrs = c.before.map Prod.fst ++ t.addrs ++ c.after.map Prod.fst := by
  rw [ColorTree.addrs, items_plug, List.map_append, List.map_append, ColorTree.addrs]

theorem mem_addrs_plug {c : ColorCtx α} {t : ColorTree α} {p : ℕ} :
    p ∈ (c.plug t).addrs ↔ p ∈ t.addrs ∨ p ∈ c.addrs := by
  rw [addrs_plug, addrs, List.map_append]
  simp only [List.mem_append]
  tauto

theorem mem_addrs_step {d : Dir} {a : ℕ} {b : Bool} {k : α} {s : ColorTree α}
    {up : ColorCtx α} {p : ℕ} :
    p ∈ (step d a b k s up).addrs ↔ p = a ∨ p ∈ s.addrs ∨ p ∈ up.addrs := by
  cases d <;>
    simp only [addrs, before, after, ColorTree.addrs, List.map_append, List.mem_append,
      List.map_cons, List.mem_cons, List.map_nil, List.not_mem_nil] <;>
    tauto

theorem nodup_addrs_plug {c : ColorCtx α} {t : ColorTree α} :
    (c.plug t).addrs.Nodup ↔ t.addrs.Nodup ∧ c.addrs.Nodup ∧ ∀ p ∈ t.addrs, p ∉ c.addrs := by
  rw [addrs_plug, addrs, List.map_append, List.append_assoc]
  have hp : (c.before.map Prod.fst ++ (t.addrs ++ c.after.map Prod.fst)).Perm
      (t.addrs ++ (c.before.map Prod.fst ++ c.after.map Prod.fst)) := by
    rw [← List.append_assoc, ← List.append_assoc]
    exact List.perm_append_comm.append_right _
  rw [hp.nodup_iff, List.nodup_append]
  refine and_congr_right fun _ => and_congr_right fun _ => ?_
  exact ⟨fun h p hp hp' => h p hp p hp' rfl, fun h p hp q hq he => h p hp (he ▸ hq)⟩

theorem nodup_addrs_step {d : Dir} {a : ℕ} {b : Bool} {k : α} {s : ColorTree α}
    {up : ColorCtx α} :
    (step d a b k s up).addrs.Nodup ↔ a ∉ s.addrs ∧ a ∉ up.addrs ∧ s.addrs.Nodup ∧
      up.addrs.Nodup ∧ ∀ p ∈ s.addrs, p ∉ up.addrs := by
  have h := nodup_addrs_plug (c := step d a b k s up) (t := ColorTree.nil)
  rw [plug_step, nodup_addrs_plug, nodup_addrs_bin] at h
  simp only [addrs_nil, List.not_mem_nil, not_false_eq_true, List.nodup_nil, false_implies,
    implies_true, true_and, and_true, mem_addrs_bin, false_or] at h
  rw [← h]
  constructor
  · rintro ⟨⟨has, hs⟩, hup, hd⟩
    exact ⟨has, hd a (Or.inl rfl), hs, hup, fun p hp => hd p (Or.inr hp)⟩
  · rintro ⟨has, hau, hs, hup, hd⟩
    refine ⟨⟨has, hs⟩, hup, ?_⟩
    rintro p (rfl | hp)
    · exact hau
    · exact hd p hp

/-- The number of nodes from the hole to the root. -/
def length : ColorCtx α → ℕ
  | top => 0
  | step _ _ _ _ _ up => up.length + 1

theorem length_le_addrs (c : ColorCtx α) : c.length ≤ c.addrs.length := by
  induction c with
  | top => exact Nat.le_refl 0
  | step d a b k s up ih =>
    cases d <;> simp only [length, addrs, before, after, List.length_map, List.length_append,
      List.length_cons, List.length_nil] at ih ⊢ <;> omega

/-- Contexts compose: `c.append up` is the hole of `c` inside the hole of `up`. -/
def append : ColorCtx α → ColorCtx α → ColorCtx α
  | top, up => up
  | step d a b k s c, up => step d a b k s (c.append up)

theorem plug_append (c up : ColorCtx α) (t : ColorTree α) :
    (c.append up).plug t = up.plug (c.plug t) := by
  induction c generalizing t with
  | top => rfl
  | step d a b k s c ih => exact ih _

/-! ### Balance of contexts -/

/-- **Balance of a context**: `Fits c col n` when a balanced tree of root colour
`col` and height `n` in the hole gives a balanced tree with a black root. A black
node accepts a hole of either colour. -/
inductive Fits : ColorCtx α → Bool → ℕ → Prop where
  | top {n} : Fits top true n
  | red {d a n k s up} : Bal s true n → Fits up false n → Fits (step d a false k s up) true n
  | black {d a n k s up c' col} : Bal s c' n → Fits up true (n + 1) →
      Fits (step d a true k s up) col n

theorem Fits.toTrue {c : ColorCtx α} {col : Bool} {n : ℕ} (h : Fits c col n) : Fits c true n := by
  cases h with
  | top => exact .top
  | red hs hup => exact .red hs hup
  | black hs hup => exact .black hs hup

/-- A hole that accepts a red tree is the child of a black node. -/
theorem Fits.of_false {c : ColorCtx α} {n : ℕ} (h : Fits c false n) :
    ∃ d a k s up c', c = step d a true k s up ∧ Bal s c' n ∧ Fits up true (n + 1) := by
  cases h with
  | black hs hup => exact ⟨_, _, _, _, _, _, rfl, hs, hup⟩

theorem Fits.of_step_red {d : Dir} {a n : ℕ} {k : α} {s : ColorTree α} {up : ColorCtx α}
    {col : Bool} (h : Fits (step d a false k s up) col n) :
    col = true ∧ Bal s true n ∧ Fits up false n := by
  cases h with
  | red hs hup => exact ⟨rfl, hs, hup⟩

theorem Fits.of_step_black {d : Dir} {a n : ℕ} {k : α} {s : ColorTree α} {up : ColorCtx α}
    {col : Bool} (h : Fits (step d a true k s up) col n) :
    ∃ c', Bal s c' n ∧ Fits up true (n + 1) := by
  cases h with
  | black hs hup => exact ⟨_, hs, hup⟩

/-- The tree of a filled context is balanced, with a black root. -/
theorem Fits.plug {c : ColorCtx α} {col : Bool} {n : ℕ} {t : ColorTree α} (h : Fits c col n)
    (ht : Bal t col n) : ∃ m, Bal (c.plug t) true m := by
  induction h generalizing t with
  | top => exact ⟨_, ht⟩
  | red hs _ ih => exact ih (Bal.bin_red ht hs)
  | black hs _ ih => exact ih (Bal.bin_black ht hs)

/-- Conversely, a position of a balanced tree is balanced, and fits. -/
theorem Fits.of_plug {c : ColorCtx α} {t : ColorTree α} {m : ℕ} (h : Bal (c.plug t) true m) :
    ∃ col n, Bal t col n ∧ Fits c col n := by
  induction c generalizing t with
  | top => exact ⟨true, m, h, .top⟩
  | step d a b k s up ih =>
    obtain ⟨col, n, hb, hf⟩ := ih h
    cases b with
    | false =>
      obtain ⟨rfl, ht, hs⟩ := hb.of_bin_red
      exact ⟨true, n, ht, .red hs hf⟩
    | true =>
      obtain ⟨rfl, n', c₁, c₂, rfl, ht, hs⟩ := hb.of_bin_black
      exact ⟨c₁, n', ht, .black hs hf⟩

/-- The labels and keys of a context play no part in its balance. -/
theorem Fits.relabel {c up : ColorCtx α} {d : Dir} {a a' : ℕ} {b : Bool} {k k' : α}
    {s : ColorTree α} {col : Bool} {n : ℕ} (h : Fits (c.append (step d a b k s up)) col n) :
    Fits (c.append (step d a' b k' s up)) col n := by
  induction c generalizing col n with
  | top =>
    cases h with
    | red hs hup => exact .red hs hup
    | black hs hup => exact .black hs hup
  | step e a₁ b₁ k₁ s₁ c ih =>
    cases h with
    | red hs hup => exact .red hs (ih hup)
    | black hs hup => exact .black hs (ih hup)

end ColorCtx

/-! ### Positions -/

open ColorTree ColorCtx

/-- Every item of a tree sits at a position of it. -/
theorem ColorTree.exists_position {t : ColorTree α} {xs ys : List (ℕ × α)} {a : ℕ} {k : α}
    (h : t.items = xs ++ (a, k) :: ys) (hn : t.addrs.Nodup) :
    ∃ (c : ColorCtx α) (b : Bool) (l r : ColorTree α), t = c.plug (node a b l k r) ∧
      xs = c.before ++ l.items ∧ ys = r.items ++ c.after := by
  -- descend from the root, with the context of the part already passed
  suffices ∀ (t : ColorTree α) (c : ColorCtx α) , (c.plug t).addrs.Nodup → (a, k) ∈ t.items →
      ∃ (c' : ColorCtx α) (b : Bool) (l r : ColorTree α), c.plug t = c'.plug (node a b l k r) by
    obtain ⟨c, b, l, r, ht⟩ := this t top hn (by rw [h]; simp)
    have hi : xs ++ (a, k) :: ys = (c.before ++ l.items) ++ (a, k) :: (r.items ++ c.after) := by
      rw [← h, show t = c.plug (node a b l k r) from ht, items_plug]
      simp
    have hnd : ((xs ++ (a, k) :: ys).map Prod.fst).Nodup := by
      rw [← h]
      exact hn
    have hxs : xs = c.before ++ l.items := by
      have hnx : (a, k) ∉ xs := fun hmem => by
        rw [List.map_append, List.nodup_append] at hnd
        exact hnd.2.2 a (List.mem_map_of_mem hmem) a (by simp) rfl
      have hnc : (a, k) ∉ c.before ++ l.items := fun hmem => by
        rw [hi, List.map_append, List.nodup_append] at hnd
        exact hnd.2.2 a (List.mem_map_of_mem hmem) a (by simp) rfl
      rcases List.append_eq_append_iff.mp hi with ⟨w, h₁, h₂⟩ | ⟨w, h₁, h₂⟩
      · cases w with
        | nil => simpa using h₁.symm
        | cons p w =>
          rw [List.cons_append, List.cons.injEq] at h₂
          exact absurd (by rw [h₁, ← h₂.1]; simp) hnc
      · cases w with
        | nil => simpa using h₁
        | cons p w =>
          rw [List.cons_append, List.cons.injEq] at h₂
          exact absurd (by rw [h₁, ← h₂.1]; simp) hnx
    refine ⟨c, b, l, r, ht, hxs, ?_⟩
    rw [hxs] at hi
    simpa using List.append_cancel_left hi
  intro t
  induction t with
  | nil => exact fun _ _ hmem => absurd hmem (by simp)
  | node a' b' l k' r ihl ihr =>
    intro c hnd hmem
    rw [items_node, List.mem_append, List.mem_cons] at hmem
    rcases hmem with hl | heq | hr
    · exact ihl (step .left a' b' k' r c) hnd hl
    · obtain ⟨rfl, rfl⟩ := Prod.mk.inj heq
      exact ⟨c, b', l, r, rfl⟩
    · exact ihr (step .right a' b' k' l c) hnd hr

/-- A position with nothing before it: the hole is a leftmost child, or the
root. -/
theorem ColorCtx.of_before_nil {c : ColorCtx α} (h : c.before = []) :
    c = top ∨ ∃ a b k s up, c = step .left a b k s up ∧ up.before = [] := by
  cases c with
  | top => exact Or.inl rfl
  | step d a b k s up =>
    cases d with
    | left => exact Or.inr ⟨a, b, k, s, up, rfl, h⟩
    | right => simp [before] at h

/-- A position with nothing after it: the hole is a rightmost child, or the
root. -/
theorem ColorCtx.of_after_nil {c : ColorCtx α} (h : c.after = []) :
    c = top ∨ ∃ a b k s up, c = step .right a b k s up ∧ up.after = [] := by
  cases c with
  | top => exact Or.inl rfl
  | step d a b k s up =>
    cases d with
    | left => simp [after] at h
    | right => exact Or.inr ⟨a, b, k, s, up, rfl, h⟩

end LimitOrderBook
