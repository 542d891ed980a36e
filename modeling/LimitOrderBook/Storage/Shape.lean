import LimitOrderBook.Storage.RBTree
import Mathlib.Data.List.Intervals
import Mathlib.Data.List.Perm.Subperm
import Mathlib.Tactic.Tauto

/-!
# What the memory of a tree holds

A `LimitOrderBook.RBTree` in memory *holds* a tree of `LimitOrderBook.ColorTree`
when following its links from the root reads that tree back, each node at the
address its label says and each parent link pointing up
(`LimitOrderBook.RBTree.Holds`). The addresses are pairwise distinct, so a write
to one node is not seen by the rest of the tree; that is what the frame lemmas
`LimitOrderBook.RBTree.Rep.congr` and `LimitOrderBook.RBTree.RepCtx.congr` say.

At a position of the tree – a subtree in a context – the memory splits into what
represents the subtree and what represents the context
(`LimitOrderBook.RBTree.rep_plug`), and the pointer manipulations of the source
are described there: relinking a child, painting a node
(`LimitOrderBook.RBTree.Holds.setBlack`) and rotating
(`LimitOrderBook.RBTree.Holds.rotate`).
-/

namespace LimitOrderBook

namespace RBTree

open ColorTree ColorCtx

variable {α : Type}

/-! ### The pieces of a tree in memory -/

/-- The pointer to a subtree. -/
def ptr : ColorTree α → ℕ
  | .nil => nil
  | .node a _ _ _ _ => a

@[simp] theorem ptr_nil : ptr (.nil : ColorTree α) = nil := rfl

@[simp] theorem ptr_node (a : ℕ) (b : Bool) (l : ColorTree α) (k : α) (r : ColorTree α) :
    ptr (.node a b l k r) = a := rfl

/-- The parent pointer of a position. -/
def ctxPtr : ColorCtx α → ℕ
  | .top => nil
  | .step _ a _ _ _ _ => a

@[simp] theorem ctxPtr_top : ctxPtr (.top : ColorCtx α) = nil := rfl

@[simp] theorem ctxPtr_step (d : Dir) (a : ℕ) (b : Bool) (k : α) (s : ColorTree α)
    (up : ColorCtx α) : ctxPtr (.step d a b k s up) = a := rfl

/-- The root pointer of a tree one of whose positions is at `p`. -/
def rootOf : ColorCtx α → ℕ → ℕ
  | .top, p => p
  | .step _ a _ _ _ up, _ => rootOf up a

/-- A node with child `x` on side `d` and child `y` on the other side. -/
def dirNode (d : Dir) (k : α) (b : Bool) (par x y : ℕ) : Node α :=
  match d with
  | .left => ⟨some k, b, par, x, y⟩
  | .right => ⟨some k, b, par, y, x⟩

/-- The memory represents a subtree whose parent is at `par`. -/
def Rep (m : ℕ → Option (Node α)) : ℕ → ColorTree α → Prop
  | _, .nil => True
  | par, .node a b l k r => m a = some ⟨some k, b, par, ptr l, ptr r⟩ ∧ Rep m a l ∧ Rep m a r

/-- The memory represents a context whose hole is at `hole`. -/
def RepCtx (m : ℕ → Option (Node α)) : ℕ → ColorCtx α → Prop
  | _, .top => True
  | hole, .step d a b k s up =>
    m a = some (dirNode d k b (ctxPtr up) hole (ptr s)) ∧ Rep m a s ∧ RepCtx m a up

section DirNode

variable {d : Dir} {k : α} {b : Bool} {par x y : ℕ}

@[simp] theorem dirNode_key : (dirNode d k b par x y).key = some k := by cases d <;> rfl

@[simp] theorem dirNode_isBlack : (dirNode d k b par x y).isBlack = b := by cases d <;> rfl

@[simp] theorem dirNode_parent : (dirNode d k b par x y).parent = par := by cases d <;> rfl

@[simp] theorem dirNode_child : (dirNode d k b par x y).child d = x := by cases d <;> rfl

@[simp] theorem dirNode_child_flip : (dirNode d k b par x y).child d.flip = y := by
  cases d <;> rfl

@[simp] theorem dirNode_setChild {q : ℕ} :
    (dirNode d k b par x y).setChild d q = dirNode d k b par q y := by
  cases d <;> rfl

@[simp] theorem dirNode_setChild_flip {q : ℕ} :
    (dirNode d k b par x y).setChild d.flip q = dirNode d k b par x q := by
  cases d <;> rfl

@[simp] theorem dirNode_setParent {q : ℕ} :
    { dirNode d k b par x y with parent := q } = dirNode d k b q x y := by
  cases d <;> rfl

@[simp] theorem dirNode_setBlack {b' : Bool} :
    { dirNode d k b par x y with isBlack := b' } = dirNode d k b' par x y := by
  cases d <;> rfl

end DirNode

theorem rep_bin {m : ℕ → Option (Node α)} {par : ℕ} {d : Dir} {a : ℕ} {b : Bool} {k : α}
    {x y : ColorTree α} :
    Rep m par (bin d a b k x y) ↔
      m a = some (dirNode d k b par (ptr x) (ptr y)) ∧ Rep m a x ∧ Rep m a y := by
  cases d
  · exact Iff.rfl
  · exact and_congr_right fun _ => and_comm

@[simp] theorem ptr_bin {d : Dir} {a : ℕ} {b : Bool} {k : α} {x y : ColorTree α} :
    ptr (bin d a b k x y) = a := by
  cases d <;> rfl

theorem ptr_plug (c : ColorCtx α) (t : ColorTree α) : ptr (c.plug t) = rootOf c (ptr t) := by
  induction c generalizing t with
  | top => rfl
  | step d a b k s up ih => rw [plug_step, ih, ptr_bin, rootOf]

/-- **The memory splits at a position** into what represents the subtree there
and what represents its context. -/
theorem rep_plug {m : ℕ → Option (Node α)} {c : ColorCtx α} {t : ColorTree α} :
    Rep m nil (c.plug t) ↔ Rep m (ctxPtr c) t ∧ RepCtx m (ptr t) c := by
  induction c generalizing t with
  | top => simp [RepCtx, ctxPtr]
  | step d a b k s up ih =>
    rw [plug_step, ih, rep_bin, ptr_bin, RepCtx, ctxPtr]
    tauto

/-- Below the root, the root pointer is one of the context. -/
theorem rootOf_mem {d : Dir} {a : ℕ} {b : Bool} {k : α} {s : ColorTree α} {up : ColorCtx α}
    (p : ℕ) : rootOf (step d a b k s up) p ∈ (step d a b k s up).addrs := by
  induction up generalizing d a b k s p with
  | top => exact mem_addrs_step.mpr (Or.inl rfl)
  | step e a' b' k' s' up ih => exact mem_addrs_step.mpr (Or.inr (Or.inr (ih a)))

/-- A subtree only depends on the memory at its own addresses. -/
theorem Rep.congr {m m' : ℕ → Option (Node α)} {par : ℕ} {t : ColorTree α}
    (h : Rep m par t) (hm : ∀ p ∈ t.addrs, m' p = m p) : Rep m' par t := by
  induction t generalizing par with
  | nil => trivial
  | node a b l k r ihl ihr =>
    simp only [addrs_node, List.mem_append, List.mem_cons] at hm
    obtain ⟨ha, hl, hr⟩ := h
    exact ⟨(hm a (Or.inr (Or.inl rfl))).trans ha, ihl hl fun p hp => hm p (Or.inl hp),
      ihr hr fun p hp => hm p (Or.inr (Or.inr hp))⟩

/-- A context only depends on the memory at its own addresses. -/
theorem RepCtx.congr {m m' : ℕ → Option (Node α)} {hole : ℕ} {c : ColorCtx α}
    (h : RepCtx m hole c) (hm : ∀ p ∈ c.addrs, m' p = m p) : RepCtx m' hole c := by
  induction c generalizing hole with
  | top => trivial
  | step d a b k s up ih =>
    simp only [mem_addrs_step] at hm
    obtain ⟨ha, hs, hup⟩ := h
    exact ⟨(hm a (Or.inl rfl)).trans ha, hs.congr fun p hp => hm p (Or.inr (Or.inl hp)),
      ih hup fun p hp => hm p (Or.inr (Or.inr hp))⟩

theorem ptr_mem_addrs {t : ColorTree α} (h : t ≠ .nil) : ptr t ∈ t.addrs := by
  cases t with
  | nil => exact absurd rfl h
  | node a b l k r => simp [ptr]

/-! ### Reads and writes -/

section Access

variable {t : RBTree α} {p : ℕ} {n : Node α}

theorem key_eq {k : α} (h : t.mem p = some n) (hk : n.key = some k) : t.key p = .ok k := by
  simp [key, fetch, h, hk]

theorem isBlack_eq (h : t.mem p = some n) : t.isBlack p = .ok n.isBlack := by
  simp [isBlack, fetch, h]

theorem parent_eq (h : t.mem p = some n) : t.parent p = .ok n.parent := by
  simp [parent, fetch, h]

theorem child_eq (h : t.mem p = some n) (d : Dir) : t.child d p = .ok (n.child d) := by
  simp [child, fetch, h]

theorem setKey_eq (h : t.mem p = some n) (value : α) :
    t.setKey p value = .ok (t.write p { n with key := some value }) := by
  simp [setKey, modify, fetch, h]

theorem setBlack_eq (h : t.mem p = some n) (b : Bool) :
    t.setBlack p b = .ok (t.write p { n with isBlack := b }) := by
  simp [setBlack, modify, fetch, h]

theorem setParent_eq (h : t.mem p = some n) (q : ℕ) :
    t.setParent p q = .ok (t.write p { n with parent := q }) := by
  simp [setParent, modify, fetch, h]

theorem setChild_eq (h : t.mem p = some n) (d : Dir) (q : ℕ) :
    t.setChild d p q = .ok (t.write p (n.setChild d q)) := by
  simp [setChild, modify, fetch, h]

@[simp] theorem write_mem_self : (t.write p n).mem p = some n := by simp [write]

theorem write_mem_of_ne {q : ℕ} (h : q ≠ p) : (t.write p n).mem q = t.mem q := by
  simp [write, h]

@[simp] theorem write_root : (t.write p n).root = t.root := rfl

end Access

/-- `t'` differs from `t` at most in the root pointer and in the memory at the
addresses in `S`. -/
structure Frame (S : List ℕ) (t t' : RBTree α) : Prop where
  mem : ∀ p, p ∉ S → t'.mem p = t.mem p
  fresh : t'.fresh = t.fresh
  first : t'.first = t.first
  last : t'.last = t.last
  size : t'.size = t.size

theorem Frame.refl (S : List ℕ) (t : RBTree α) : Frame S t t :=
  ⟨fun _ _ => rfl, rfl, rfl, rfl, rfl⟩

theorem Frame.trans {S : List ℕ} {t t' t'' : RBTree α} (h : Frame S t t')
    (h' : Frame S t' t'') : Frame S t t'' :=
  ⟨fun p hp => (h'.mem p hp).trans (h.mem p hp), h'.fresh.trans h.fresh, h'.first.trans h.first,
    h'.last.trans h.last, h'.size.trans h.size⟩

theorem Frame.mono {S S' : List ℕ} {t t' : RBTree α} (h : Frame S t t') (hS : S ⊆ S') :
    Frame S' t t' :=
  ⟨fun p hp => h.mem p fun hq => hp (hS hq), h.fresh, h.first, h.last, h.size⟩

theorem frame_write {S : List ℕ} {t : RBTree α} {p : ℕ} {n : Node α} (h : p ∈ S) :
    Frame S t (t.write p n) :=
  ⟨fun _ hq => write_mem_of_ne fun he => hq (he ▸ h), rfl, rfl, rfl, rfl⟩

/-- `t'` has the fields of `t` other than the root. -/
structure Same (t t' : RBTree α) : Prop where
  fresh : t'.fresh = t.fresh
  first : t'.first = t.first
  last : t'.last = t.last
  size : t'.size = t.size

theorem Same.refl (t : RBTree α) : Same t t := ⟨rfl, rfl, rfl, rfl⟩

theorem Same.trans {t t' t'' : RBTree α} (h : Same t t') (h' : Same t' t'') : Same t t'' :=
  ⟨h'.fresh.trans h.fresh, h'.first.trans h.first, h'.last.trans h.last, h'.size.trans h.size⟩

theorem Frame.same {S : List ℕ} {t t' : RBTree α} (h : Frame S t t') : Same t t' :=
  ⟨h.fresh, h.first, h.last, h.size⟩

/-- `t'` has the fields of `t` other than the root, and its sentinel. -/
structure Kept (t t' : RBTree α) : Prop extends Same t t' where
  sentinel : t'.mem nil = t.mem nil

theorem Kept.refl (t : RBTree α) : Kept t t := ⟨Same.refl t, rfl⟩

theorem Kept.trans {t t' t'' : RBTree α} (h : Kept t t') (h' : Kept t' t'') : Kept t t'' :=
  ⟨h.toSame.trans h'.toSame, h'.sentinel.trans h.sentinel⟩

theorem Frame.kept {S : List ℕ} {t t' : RBTree α} (h : Frame S t t') (hnil : nil ∉ S) :
    Kept t t' :=
  ⟨h.same, h.mem nil hnil⟩

/-- Changing the parent link of a subtree. -/
theorem setParent_rep {t : RBTree α} {par q : ℕ} {y : ColorTree α} (hy : Rep t.mem par y)
    (hne : y ≠ .nil) (hn : y.addrs.Nodup) :
    ∃ t', t.setParent (ptr y) q = .ok t' ∧ Rep t'.mem q y ∧ Frame [ptr y] t t' ∧
      t'.root = t.root := by
  cases y with
  | nil => exact absurd rfl hne
  | node a b l k r =>
    obtain ⟨hal, har, -, -, -⟩ := nodup_addrs_bin (d := .left) |>.mp hn
    obtain ⟨ha, hl, hr⟩ := hy
    refine ⟨_, setParent_eq ha q, ⟨write_mem_self, ?_, ?_⟩, frame_write (by simp [ptr]), rfl⟩
    · exact hl.congr fun p hp => write_mem_of_ne fun he => hal (he ▸ hp)
    · exact hr.congr fun p hp => write_mem_of_ne fun he => har (he ▸ hp)

/-- The same for a subtree that may be empty, where nothing is written. -/
theorem adopt_rep {t : RBTree α} {par q : ℕ} {y : ColorTree α} (hy : Rep t.mem par y)
    (hn : y.addrs.Nodup) (hnil : nil ∉ y.addrs) :
    ∃ t', t.adopt (ptr y) q = .ok t' ∧ Rep t'.mem q y ∧ Frame y.addrs t t' ∧
      t'.root = t.root := by
  cases y with
  | nil => exact ⟨t, rfl, trivial, .refl _ _, rfl⟩
  | node a b l k r =>
    have hmem : ptr (.node a b l k r) ∈ (ColorTree.node a b l k r).addrs := ptr_mem_addrs (by simp)
    obtain ⟨t', h', hy', hf, hr⟩ := setParent_rep (q := q) hy (by simp) hn
    have hne : ptr (.node a b l k r) ≠ nil := fun hcon => hnil (hcon ▸ hmem)
    refine ⟨t', ?_, hy', hf.mono fun p hp => ?_, hr⟩
    · rw [adopt, if_pos hne]
      exact h'
    · rw [List.mem_singleton.mp hp]
      exact hmem

/-- Hanging another subtree into a context. -/
theorem relink_rep {t : RBTree α} {c : ColorCtx α} {old q : ℕ} (d : Dir)
    (hc : RepCtx t.mem old c) (hn : c.addrs.Nodup) (hnil : nil ∉ c.addrs)
    (hold : old ∉ c.addrs) (hold' : old ≠ nil) (hroot : t.root = rootOf c old) :
    ∃ t', t.relink d (ctxPtr c) old q = .ok t' ∧ RepCtx t'.mem q c ∧
      Frame c.addrs t t' ∧ (∀ p, p ≠ ctxPtr c → t'.mem p = t.mem p) ∧
      t'.root = rootOf c q := by
  cases c with
  | top =>
    refine ⟨{ t with root := q }, by simp [relink, ctxPtr], trivial,
      ⟨fun _ _ => rfl, rfl, rfl, rfl, rfl⟩, fun _ _ => rfl, rfl⟩
  | step e a b k s up =>
    obtain ⟨ha, hs, hup⟩ := hc
    obtain ⟨has, hau, -, -, -⟩ := nodup_addrs_step.mp hn
    have hane : a ≠ nil := fun he => hnil (mem_addrs_step.mpr (Or.inl he.symm))
    have hsne : old ≠ ptr s := by
      rintro rfl
      cases s with
      | nil => exact hold' rfl
      | node _ _ _ _ _ =>
        exact hold (mem_addrs_step.mpr (Or.inr (Or.inl (ptr_mem_addrs (by simp)))))
    -- whichever side is tested first, the side of the hole is written
    have hset : t.relink d a old q =
        .ok (t.write a (dirNode e k b (ctxPtr up) q (ptr s))) := by
      rw [relink, if_neg hane, child_eq ha]
      rcases eq_or_ne d e with rfl | hde
      · simp [setChild_eq ha]
      · obtain rfl : d = e.flip := by
          cases d <;> cases e <;> simp_all
        simp [hsne, setChild_eq ha]
    refine ⟨_, hset, ⟨write_mem_self, ?_, ?_⟩, frame_write (mem_addrs_step.mpr (Or.inl rfl)),
      fun p hp => write_mem_of_ne hp, ?_⟩
    · exact hs.congr fun p hp => write_mem_of_ne fun he => has (he ▸ hp)
    · exact hup.congr fun p hp => write_mem_of_ne fun he => hau (he ▸ hp)
    · exact hroot

/-! ### Holding a tree -/

/-- The sentinel: black, without key or links, whatever its parent field. -/
def IsSentinel (n : Node α) : Prop :=
  n.key = none ∧ n.isBlack = true ∧ n.left = nullptr ∧ n.right = nullptr

/-- **The memory holds a tree**: it represents it under the root pointer, at
pairwise distinct allocated addresses, and the sentinel is in place. -/
structure Holds (t : RBTree α) (T : ColorTree α) : Prop where
  rep : Rep t.mem nil T
  root : t.root = ptr T
  nodup : T.addrs.Nodup
  range : ∀ p ∈ T.addrs, nil < p ∧ p < t.fresh
  sentinel : ∃ n, t.mem nil = some n ∧ IsSentinel n
  fresh : nil < t.fresh

theorem holds_empty : Holds (empty : RBTree α) .nil where
  rep := trivial
  root := rfl
  nodup := List.nodup_nil
  range := by simp
  sentinel := ⟨⟨none, true, nullptr, nullptr, nullptr⟩, by simp [empty], rfl, rfl, rfl, rfl⟩
  fresh := by simp [empty, nil]

section Holds

variable {t : RBTree α} {T : ColorTree α}

theorem Holds.nil_not_mem (h : Holds t T) : nil ∉ T.addrs := fun hmem =>
  lt_irrefl _ (h.range nil hmem).1

/-- The number of nodes is below the fuel of the loops. -/
theorem Holds.length_add_two_le (h : Holds t T) : T.addrs.length + 2 ≤ t.fuel := by
  have hsub : T.addrs ⊆ List.Ico 2 t.fresh := fun p hp => by
    obtain ⟨h₁, h₂⟩ := h.range p hp
    exact List.Ico.mem.mpr ⟨Nat.succ_le_of_lt h₁, h₂⟩
  have hle := (List.subperm_of_subset h.nodup hsub).length_le
  rw [List.Ico.length] at hle
  have hfresh : 2 ≤ t.fresh := Nat.succ_le_of_lt h.fresh
  rw [fuel]
  omega

/-- A frame that stays inside the tree keeps the sentinel and the allocated
addresses. -/
theorem Holds.of_frame {t' : RBTree α} {T' : ColorTree α} (h : Holds t T)
    (hf : Frame T.addrs t t') (hrep : Rep t'.mem nil T') (hroot : t'.root = ptr T')
    (haddrs : T'.addrs = T.addrs) : Holds t' T' where
  rep := hrep
  root := hroot
  nodup := haddrs ▸ h.nodup
  range := fun p hp => by
    rw [hf.fresh]
    exact h.range p (haddrs ▸ hp)
  sentinel := by
    rw [hf.mem nil h.nil_not_mem]
    exact h.sentinel
  fresh := by
    rw [hf.fresh]
    exact h.fresh

variable {c : ColorCtx α} {d : Dir} {a e : ℕ} {b b' : Bool} {k k' : α} {x y z : ColorTree α}

/-- The pointer of a position is in no part of the context. -/
theorem Holds.ptr_not_mem (h : Holds t (c.plug y)) : ptr y ∉ c.addrs := by
  intro hmem
  cases y with
  | nil => exact h.nil_not_mem (mem_addrs_plug.mpr (Or.inr hmem))
  | node a b l k r => exact (nodup_addrs_plug.mp h.nodup).2.2 a (by simp) hmem

/-- A position below the root is not the root. -/
theorem Holds.ptr_ne_root {up : ColorCtx α} (h : Holds t ((step d a b k x up).plug y)) :
    ptr y ≠ t.root := by
  intro he
  refine h.ptr_not_mem ?_
  rw [he, h.root, ptr_plug]
  exact rootOf_mem (ptr y)

/-- The number of nodes above a position is below the fuel of the loops. -/
theorem Holds.length_ctx (h : Holds t (c.plug y)) : c.length + 2 ≤ t.fuel := by
  have h₁ := h.length_add_two_le
  have h₂ := c.length_le_addrs
  rw [addrs_plug, List.length_append, List.length_append] at h₁
  rw [ColorCtx.addrs, List.map_append, List.length_append] at h₂
  omega

/-- The node at a position. -/
theorem Holds.mem_eq (h : Holds t (c.plug (bin d a b k x y))) :
    t.mem a = some (dirNode d k b (ctxPtr c) (ptr x) (ptr y)) :=
  (rep_bin.mp (rep_plug.mp h.rep).1).1

/-- The node above a position. -/
theorem Holds.mem_ctx {up : ColorCtx α} (h : Holds t ((step d a b k x up).plug y)) :
    t.mem a = some (dirNode d k b (ctxPtr up) (ptr y) (ptr x)) :=
  (rep_plug.mp h.rep).2.1

/-- The pointer to a balanced subtree shows the colour of its root. -/
theorem Holds.isBlack_ptr {col : Bool} {n : ℕ} (h : Holds t (c.plug x)) (hx : Bal x col n) :
    t.isBlack (ptr x) = .ok col := by
  cases hx with
  | nil =>
    obtain ⟨s, hs, hsent⟩ := h.sentinel
    rw [ptr, isBlack_eq hs, hsent.2.1]
  | red hl hr => exact isBlack_eq (Holds.mem_eq (d := .left) h)
  | black hl hr => exact isBlack_eq (Holds.mem_eq (d := .left) h)

/-- **Painting a node** changes its colour and nothing else. -/
theorem Holds.setBlack (h : Holds t (c.plug (bin d a b k x y))) (b' : Bool) :
    ∃ t', t.setBlack a b' = .ok t' ∧ Holds t' (c.plug (bin d a b' k x y)) ∧
      Kept t t' := by
  obtain ⟨hr, hc⟩ := rep_plug.mp h.rep
  obtain ⟨ha, hx, hy⟩ := rep_bin.mp hr
  obtain ⟨hn, -, hd⟩ := nodup_addrs_plug.mp h.nodup
  obtain ⟨hax, hay, -, -, -⟩ := nodup_addrs_bin.mp hn
  have hac : a ∉ c.addrs := hd a (mem_addrs_bin.mpr (Or.inl rfl))
  have hframe : Frame (c.plug (bin d a b k x y)).addrs t
      (t.write a (dirNode d k b' (ctxPtr c) (ptr x) (ptr y))) :=
    frame_write (mem_addrs_plug.mpr (Or.inl (mem_addrs_bin.mpr (Or.inl rfl))))
  refine ⟨_, by rw [setBlack_eq ha, dirNode_setBlack], h.of_frame hframe ?_ ?_ ?_,
    hframe.kept h.nil_not_mem⟩
  · refine rep_plug.mpr ⟨rep_bin.mpr ⟨write_mem_self, ?_, ?_⟩, ?_⟩
    · exact hx.congr fun p hp => write_mem_of_ne fun he => hax (he ▸ hp)
    · exact hy.congr fun p hp => write_mem_of_ne fun he => hay (he ▸ hp)
    · rw [ptr_bin] at hc ⊢
      exact hc.congr fun p hp => write_mem_of_ne fun he => hac (he ▸ hp)
  · rw [write_root, h.root, ptr_plug, ptr_plug, ptr_bin, ptr_bin]
  · rw [addrs_plug, addrs_plug, ColorTree.addrs, ColorTree.addrs, items_recolor d a b b' k x y]

/-- **Rotating**: the node at the position moves down on side `d`, its child on
the other side takes its place, and the order of the keys stays as it was. -/
theorem Holds.rotate (h : Holds t (c.plug (bin d a b k x (bin d e b' k' y z)))) :
    ∃ t', t.rotate d a = .ok t' ∧ Holds t' (c.plug (bin d e b' k' (bin d a b k x y) z)) ∧
      Kept t t' := by
  obtain ⟨hr, hc⟩ := rep_plug.mp h.rep
  obtain ⟨ha, hx, hrest⟩ := rep_bin.mp hr
  obtain ⟨he, hy, hz⟩ := rep_bin.mp hrest
  obtain ⟨hn, hcn, hd⟩ := nodup_addrs_plug.mp h.nodup
  obtain ⟨hax, hae, -, hen, hxe⟩ := nodup_addrs_bin.mp hn
  obtain ⟨hey, hez, hyn, -, hyz⟩ := nodup_addrs_bin.mp hen
  simp only [mem_addrs_bin, not_or] at hae hxe hd
  have hnil := h.nil_not_mem
  simp only [mem_addrs_plug, mem_addrs_bin, not_or] at hnil
  obtain ⟨⟨hna, hnx, hne, hny, hnz⟩, hnc⟩ := hnil
  rw [ptr_bin] at ha hc
  -- the child gives its inner subtree to the node
  set t₁ := t.write a (dirNode d k b (ctxPtr c) (ptr x) (ptr y)) with ht₁
  have hm₁ : ∀ p, p ≠ a → t₁.mem p = t.mem p := fun p hp => write_mem_of_ne hp
  have ha₁ : t₁.mem a = some (dirNode d k b (ctxPtr c) (ptr x) (ptr y)) := write_mem_self
  have he₁ : t₁.mem e = some (dirNode d k' b' a (ptr y) (ptr z)) := (hm₁ e (Ne.symm hae.1)).trans he
  have hy₁ : Rep t₁.mem e y := hy.congr fun p hp => hm₁ p fun hpa => hae.2.1 (hpa ▸ hp)
  obtain ⟨t₂, ht₂, hy₂, hf₂, hroot₂⟩ := adopt_rep (q := a) hy₁ hyn hny
  have ha₂ : t₂.mem a = some (dirNode d k b (ctxPtr c) (ptr x) (ptr y)) :=
    (hf₂.mem a hae.2.1).trans ha₁
  have he₂ : t₂.mem e = some (dirNode d k' b' a (ptr y) (ptr z)) := (hf₂.mem e hey).trans he₁
  -- the child takes the place of the node under the parent
  set t₃ := t₂.write e (dirNode d k' b' (ctxPtr c) (ptr y) (ptr z)) with ht₃
  have hm₃ : ∀ p, p ≠ e → t₃.mem p = t₂.mem p := fun p hp => write_mem_of_ne hp
  have ha₃ : t₃.mem a = some (dirNode d k b (ctxPtr c) (ptr x) (ptr y)) :=
    (hm₃ a hae.1).trans ha₂
  have hac : a ∉ c.addrs := hd a (Or.inl rfl)
  have hec : e ∉ c.addrs := hd e (Or.inr (Or.inr (Or.inl rfl)))
  have hc₃ : RepCtx t₃.mem a c := hc.congr fun p hp => by
    have hpa : p ≠ a := fun he => hac (he ▸ hp)
    have hpe : p ≠ e := fun he => hec (he ▸ hp)
    have hpy : p ∉ y.addrs := fun hpy => hd p (Or.inr (Or.inr (Or.inr (Or.inl hpy)))) hp
    rw [hm₃ p hpe, hf₂.mem p hpy, hm₁ p hpa]
  have hroot₃ : t₃.root = rootOf c a := by
    rw [ht₃, write_root, hroot₂, ht₁, write_root, h.root, ptr_plug, ptr_bin]
  obtain ⟨t₄, ht₄, hc₄, hf₄, -, hroot₄⟩ :=
    relink_rep (q := e) d hc₃ hcn hnc hac (fun he => hna he.symm) hroot₃
  have ha₄ : t₄.mem a = some (dirNode d k b (ctxPtr c) (ptr x) (ptr y)) :=
    (hf₄.mem a hac).trans ha₃
  have he₄ : t₄.mem e = some (dirNode d k' b' (ctxPtr c) (ptr y) (ptr z)) :=
    (hf₄.mem e hec).trans write_mem_self
  -- the node becomes its child
  set t₅ := t₄.write e (dirNode d k' b' (ctxPtr c) a (ptr z)) with ht₅
  have ha₅ : t₅.mem a = some (dirNode d k b (ctxPtr c) (ptr x) (ptr y)) :=
    (write_mem_of_ne hae.1).trans ha₄
  set t₆ := t₅.write a (dirNode d k b e (ptr x) (ptr y)) with ht₆
  have hm₆ : ∀ p, p ≠ a → p ≠ e → t₆.mem p = t₄.mem p := fun p hpa hpe => by
    rw [ht₆, write_mem_of_ne hpa, ht₅, write_mem_of_ne hpe]
  have hrun : t.rotate d a = .ok t₆ := by
    simp only [RBTree.rotate, child_eq ha, child_eq he, child_eq he₁, setChild_eq ha, ok_bind,
      dirNode_child, dirNode_child_flip, dirNode_setChild_flip, ← ht₁, ht₂, parent_eq ha₂,
      dirNode_parent, setParent_eq he₂, dirNode_setParent, ← ht₃, parent_eq ha₃, ht₄,
      setChild_eq he₄, dirNode_setChild, ← ht₅, setParent_eq ha₅, ← ht₆]
  have hout : ∀ p, p ≠ a → p ≠ e → p ∉ c.addrs → t₆.mem p = t₂.mem p := fun p hpa hpe hpc => by
    rw [hm₆ p hpa hpe, hf₄.mem p hpc, hm₃ p hpe]
  have hframe : Frame (c.plug (bin d a b k x (bin d e b' k' y z))).addrs t t₆ := by
    refine ⟨fun p hp => ?_, ?_, ?_, ?_, ?_⟩
    · simp only [mem_addrs_plug, mem_addrs_bin, not_or] at hp
      rw [hout p hp.1.1 hp.1.2.2.1 hp.2, hf₂.mem p hp.1.2.2.2.1, hm₁ p hp.1.1]
    · exact hf₄.fresh.trans hf₂.fresh
    · exact hf₄.first.trans hf₂.first
    · exact hf₄.last.trans hf₂.last
    · exact hf₄.size.trans hf₂.size
  refine ⟨t₆, hrun, h.of_frame hframe ?_ ?_ ?_,
    hframe.kept h.nil_not_mem⟩
  · refine rep_plug.mpr ⟨rep_bin.mpr ⟨?_, rep_bin.mpr ⟨?_, ?_, ?_⟩, ?_⟩, ?_⟩
    · rw [ptr_bin]
      exact (write_mem_of_ne (Ne.symm hae.1)).trans write_mem_self
    · exact write_mem_self
    · refine hx.congr fun p hp => ?_
      obtain ⟨hpe, hpy, -⟩ := hxe p hp
      have hpa : p ≠ a := fun he => hax (he ▸ hp)
      rw [hout p hpa hpe (hd p (Or.inr (Or.inl hp))), hf₂.mem p hpy, hm₁ p hpa]
    · refine hy₂.congr fun p hp => hout p (fun he => hae.2.1 (he ▸ hp)) (fun he => hey (he ▸ hp))
        (hd p (Or.inr (Or.inr (Or.inr (Or.inl hp)))))
    · refine hz.congr fun p hp => ?_
      have hpa : p ≠ a := fun he => hae.2.2 (he ▸ hp)
      have hpe : p ≠ e := fun he => hez (he ▸ hp)
      rw [hout p hpa hpe (hd p (Or.inr (Or.inr (Or.inr (Or.inr hp))))),
        hf₂.mem p fun hpy => hyz p hpy hp, hm₁ p hpa]
    · rw [ptr_bin]
      exact hc₄.congr fun p hp => hm₆ p (fun he => hac (he ▸ hp)) fun he => hec (he ▸ hp)
  · rw [ptr_plug, ptr_bin]
    exact hroot₄
  · rw [addrs_plug, addrs_plug, ColorTree.addrs, ColorTree.addrs,
      items_rotate d a e b b' b b' k k' x y z]

end Holds

/-! ### Valid trees -/

/-- The address of the first item of a list, or the sentinel. -/
def firstPtr (l : List (ℕ × α)) : ℕ := (l.head?.map Prod.fst).getD nil

/-- The address of the last item of a list, or the sentinel. -/
def lastPtr (l : List (ℕ × α)) : ℕ := (l.getLast?.map Prod.fst).getD nil

@[simp] theorem firstPtr_nil : firstPtr ([] : List (ℕ × α)) = nil := rfl

@[simp] theorem firstPtr_cons (p : ℕ × α) (l : List (ℕ × α)) : firstPtr (p :: l) = p.1 := rfl

@[simp] theorem lastPtr_concat (l : List (ℕ × α)) (p : ℕ × α) : lastPtr (l ++ [p]) = p.1 := by
  simp [lastPtr]

theorem firstPtr_append {l l' : List (ℕ × α)} (h : l ≠ []) : firstPtr (l ++ l') = firstPtr l := by
  cases l with
  | nil => exact absurd rfl h
  | cons p l => rfl

theorem lastPtr_append {l l' : List (ℕ × α)} (h : l' ≠ []) : lastPtr (l ++ l') = lastPtr l' := by
  simp [lastPtr, List.getLast?_append_of_ne_nil _ h]

/-- The end pointers depend on the addresses only. -/
theorem ends_congr {T T' : ColorTree α} (h : T.addrs = T'.addrs) :
    firstPtr T.items = firstPtr T'.items ∧ lastPtr T.items = lastPtr T'.items := by
  simp only [firstPtr, lastPtr, ← List.head?_map, ← List.getLast?_map]
  exact ⟨congrArg (fun l : List ℕ => l.head?.getD nil) h,
    congrArg (fun l : List ℕ => l.getLast?.getD nil) h⟩

/-- **A valid red-black tree in memory**: balanced, with its two end pointers and
its size in place. Removing the only key leaves `_last` at the freed node, so
that pointer is only constrained while there are keys. -/
structure Valid (t : RBTree α) (T : ColorTree α) : Prop extends Holds t T where
  bal : ∃ n, Bal T true n
  first : t.first = firstPtr T.items
  last : T ≠ .nil → t.last = lastPtr T.items
  size : t.size = UInt64.ofNat T.items.length

theorem valid_empty : Valid (empty : RBTree α) .nil where
  toHolds := holds_empty
  bal := ⟨0, .nil⟩
  first := rfl
  last := fun h => absurd rfl h
  size := rfl

/-- The first node has no left child. -/
theorem Holds.left_first {t : RBTree α} {T : ColorTree α} (h : Holds t T) (hne : T ≠ .nil) :
    t.left (firstPtr T.items) = .ok nil := by
  obtain ⟨⟨a, k⟩, ys, hi⟩ := List.exists_cons_of_ne_nil (mt items_eq_nil.mp hne)
  have hi' : T.items = [] ++ (a, k) :: ys := hi
  obtain ⟨c, b, l, r, rfl, hl, -⟩ := exists_position hi' h.nodup
  obtain rfl : l = .nil := items_eq_nil.mp (List.append_eq_nil_iff.mp hl.symm).2
  rw [hi]
  exact child_eq (Holds.mem_eq (d := .left) h) .left

/-- The last node has no right child. -/
theorem Holds.right_last {t : RBTree α} {T : ColorTree α} (h : Holds t T) (hne : T ≠ .nil) :
    t.right (lastPtr T.items) = .ok nil := by
  obtain ⟨xs, ⟨a, k⟩, hi⟩ := List.eq_nil_or_concat T.items |>.resolve_left (mt items_eq_nil.mp hne)
  rw [List.concat_eq_append] at hi
  obtain ⟨c, b, l, r, rfl, -, hr⟩ := exists_position hi h.nodup
  obtain rfl : r = .nil := items_eq_nil.mp (List.append_eq_nil_iff.mp hr.symm).1
  rw [hi, lastPtr_concat]
  exact child_eq (Holds.mem_eq (d := .left) h) .right

end RBTree

end LimitOrderBook
