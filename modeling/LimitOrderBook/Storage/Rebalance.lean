import LimitOrderBook.Storage.Shape

/-!
# Rebalancing after a removal

When a black node has been unlinked, every path through the place it left has
lost one black node: the subtree there has height `n` in a place that fits height
`n + 1` (`LimitOrderBook.RBTree.Deficit`). Each round of `rebalance_delete` first
makes the sibling black, then either paints it red and moves the deficit one
level up, or repairs it with one or two rotations.

The place may hold the sentinel, whose parent field `transplant` has set for this
purpose; the invariant says that the parent link of the place is right whether
there is a node or not.
-/

namespace LimitOrderBook

namespace RBTree

open ColorTree ColorCtx

variable {α : Type} {t : RBTree α}

/-- **A deficit**: the subtree `y` at a position that fits trees one black node
higher. The subtree is balanced, or would be, with the missing height, if its red
root were black. -/
structure Deficit (t : RBTree α) (c : ColorCtx α) (y : ColorTree α) (n : ℕ) : Prop where
  holds : Holds t (c.plug y)
  parent : t.parent (ptr y) = .ok (ctxPtr c)
  fits : Fits c true (n + 1)
  bal : Bal y true n ∨
    ∃ a l k r, y = node a false l k r ∧ Bal (node a true l k r) true (n + 1)

/-- The parent link of a position survives whatever keeps the sentinel. -/
theorem Kept.parent_ptr {t' : RBTree α} {c c' : ColorCtx α} {y : ColorTree α}
    (hk : Kept t t') (h : t.parent (ptr y) = .ok (ctxPtr c)) (h' : Holds t' (c'.plug y))
    (hc : ctxPtr c' = ctxPtr c) : t'.parent (ptr y) = .ok (ctxPtr c') := by
  cases y with
  | nil =>
    rw [hc, ← h]
    simp only [RBTree.parent, fetch, ptr_nil, hk.sentinel]
  | node a b l k r => exact parent_eq (Holds.mem_eq (d := .left) h')

section Round

variable {d : Dir} {p n : ℕ} {b : Bool} {kp : α} {s y : ColorTree α} {up : ColorCtx α}

/-- A sibling subtree is not at the address of the position. -/
theorem Holds.ptr_ne_sibling (h : Holds t ((step d p b kp s up).plug y)) (hs : s ≠ .nil) :
    ptr y ≠ ptr s := by
  intro he
  refine h.ptr_not_mem (mem_addrs_step.mpr (Or.inr (Or.inl ?_)))
  rw [he]
  exact ptr_mem_addrs hs

/-- **A red sibling is replaced by a black one**, by a rotation that puts a red
node above the deficit. -/
theorem blackSibling_spec (h : Deficit t (step d p b kp s up) y n) :
    ∃ t' b' s' up', t.blackSibling d (ptr y) = .ok (t', ptr s') ∧ Bal s' true (n + 1) ∧
      Holds t' ((step d p b' kp s' up').plug y) ∧ t'.parent (ptr y) = .ok p ∧
      Fits (step d p b' kp s' up') true (n + 1) ∧
      ((step d p b' kp s' up').plug y).items = ((step d p b kp s up).plug y).items ∧
      (b' = false ∨ up' = up ∧ b' = b) ∧ Same t t' := by
  have hp := h.holds.mem_ctx
  have hsib : t.child d.flip p = .ok (ptr s) := by rw [child_eq hp, dirNode_child_flip]
  have hpar : t.parent (ptr y) = .ok p := h.parent
  -- the sibling is a node, of either colour
  obtain ⟨cs, hs⟩ : ∃ cs, Bal s cs (n + 1) := by
    cases b with
    | false => exact ⟨true, h.fits.of_step_red.2.1⟩
    | true =>
      obtain ⟨c', hs, -⟩ := h.fits.of_step_black
      exact ⟨c', hs⟩
  have hcol : t.isBlack (ptr s) = .ok cs := by
    have h' := h.holds
    rw [plug_step, plug_bin_flip] at h'
    exact h'.isBlack_ptr hs
  cases cs with
  | true =>
    refine ⟨t, b, s, up, ?_, hs, h.holds, hpar, h.fits, rfl, Or.inr ⟨rfl, rfl⟩, Same.refl t⟩
    simp [blackSibling, hpar, hsib, hcol]
  | false =>
    -- then the parent is black
    obtain ⟨sa, ks, sl, sr, rfl, hsl, hsr⟩ := hs.of_red
    cases b with
    | false => exact absurd h.fits.of_step_red.2.1 (by rintro ⟨⟩)
    | true =>
      obtain ⟨-, -, hup⟩ := h.fits.of_step_black
      obtain ⟨x, z, hxz⟩ := exists_bin d sa false sl ks sr
      rw [hxz] at hs
      obtain ⟨-, hx, hz⟩ := hs.of_bin_red
      have h₀ := h.holds
      rw [plug_step, plug_bin_flip, hxz] at h₀
      obtain ⟨t₁, ht₁, h₁, hk₁⟩ := h₀.setBlack true
      rw [← plug_bin_flip] at h₁
      obtain ⟨t₂, ht₂, h₂, hk₂⟩ := h₁.setBlack false
      obtain ⟨t₃, ht₃, h₃, hk₃⟩ := h₂.rotate
      have hk := hk₁.trans (hk₂.trans hk₃)
      have h₃' : Holds t₃ ((step d p false kp x (step d sa true ks z up)).plug y) := h₃
      have hpar₃ : t₃.parent (ptr y) = .ok p := hk.parent_ptr h.parent h₃' rfl
      have hx₃ : t₃.child d.flip p = .ok (ptr x) := by
        rw [child_eq h₃'.mem_ctx, dirNode_child_flip]
      refine ⟨t₃, false, x, step d sa true ks z up, ?_, hx, h₃', hpar₃,
        .red hx (.black hz hup), ?_, Or.inl rfl, hk.toSame⟩
      · rw [ptr_node] at hsib hcol
        simp [blackSibling, hpar, hsib, hcol, ht₁, ht₂, ht₃, hpar₃, hx₃]
      · rw [hxz]
        simp only [plug_step, items_plug]
        cases d <;> simp

/-- The far child of a black sibling is made red, if its near child is. -/
theorem alignSibling_spec {sa : ℕ} {ks : α} {x z : ColorTree α} {cx cz : Bool}
    (h : Holds t ((step d p b kp (bin d sa true ks x z) up).plug y))
    (hpar : t.parent (ptr y) = .ok p) (hx : Bal x cx n) (hz : Bal z cz n)
    (hnot : ¬(cx = true ∧ cz = true)) :
    ∃ t' sb kb x' z' cx', t.alignSibling d (ptr y) sa = .ok (t', sb) ∧
      Holds t' ((step d p b kp (bin d sb true kb x' z') up).plug y) ∧
      t'.parent (ptr y) = .ok p ∧ Bal x' cx' n ∧ Bal z' false n ∧
      ((step d p b kp (bin d sb true kb x' z') up).plug y).items =
        ((step d p b kp (bin d sa true ks x z) up).plug y).items ∧ Same t t' := by
  have h₀ := h
  rw [plug_step, plug_bin_flip] at h₀
  have hsa := h₀.mem_eq
  have hfar : t.child d.flip sa = .ok (ptr z) := by rw [child_eq hsa, dirNode_child_flip]
  have hnear : t.child d sa = .ok (ptr x) := by rw [child_eq hsa, dirNode_child]
  have hzcol : t.isBlack (ptr z) = .ok cz := by
    have h' := h₀
    rw [plug_bin_flip] at h'
    exact h'.isBlack_ptr hz
  cases cz with
  | false =>
    refine ⟨t, sa, ks, x, z, cx, ?_, h, hpar, hx, hz, rfl, Same.refl t⟩
    simp [alignSibling, hfar, hzcol]
  | true =>
    cases cx with
    | true => exact absurd ⟨rfl, rfl⟩ hnot
    | false =>
      obtain ⟨xa, kx, xl, xr, rfl, hxl, hxr⟩ := hx.of_red
      obtain ⟨x₁, x₂, hx₁₂⟩ := exists_bin d xa false xl kx xr
      rw [hx₁₂] at hx
      obtain ⟨-, hx₁, hx₂⟩ := hx.of_bin_red
      rw [hx₁₂] at h₀
      obtain ⟨t₁, ht₁, h₁, hk₁⟩ :=
        Holds.setBlack (c := step d sa true ks z (step d.flip p b kp y up)) h₀ true
      rw [plug_step] at h₁
      obtain ⟨t₂, ht₂, h₂, hk₂⟩ := h₁.setBlack false
      have h₂' : Holds t₂ ((step d.flip p b kp y up).plug
          (bin d.flip sa false ks z (bin d.flip xa true kx x₂ x₁))) := by
        rw [bin_flip, bin_flip]
        exact h₂
      obtain ⟨t₃, ht₃, h₃, hk₃⟩ := h₂'.rotate
      have hk := hk₁.trans (hk₂.trans hk₃)
      have h₃' : Holds t₃ ((step d p b kp (bin d xa true kx x₁ (bin d sa false ks x₂ z)) up).plug
          y) := by
        rw [plug_step, plug_bin_flip]
        rw [bin_flip, bin_flip] at h₃
        exact h₃
      have hpar₃ : t₃.parent (ptr y) = .ok p :=
        hk.parent_ptr (c := step d p b kp ColorTree.nil up) hpar h₃' rfl
      have hx₃ : t₃.child d.flip p = .ok xa := by
        rw [child_eq h₃'.mem_ctx, dirNode_child_flip, ptr_bin]
      refine ⟨t₃, xa, kx, x₁, bin d sa false ks x₂ z, true, ?_, h₃', hpar₃, hx₁,
        .bin_red hx₂ hz, ?_, hk.toSame⟩
      · rw [ptr_node] at hnear
        simp [alignSibling, hfar, hzcol, hnear, ht₁, ht₂, ht₃, hpar₃, hx₃]
      · rw [hx₁₂]
        simp only [plug_step, items_plug]
        cases d <;> simp

/-- What is left to do at the node where the loop ends: painting it black makes
the tree balanced. -/
def Settled (c : ColorCtx α) (y : ColorTree α) : Prop :=
  (c = top ∧ y = .nil) ∨
    ∃ a b l k r m, y = node a b l k r ∧ Bal (c.plug (node a true l k r)) true m

/-- **One round of `rebalance_delete`**: the deficit moves up, or is repaired. -/
theorem rebalanceDeleteStep_spec (h : Deficit t (step d p b kp s up) y n) (hy : Bal y true n) :
    ∃ t' c' y', t.rebalanceDeleteStep d (ptr y) = .ok (t', ptr y') ∧
      (c'.plug y').items = ((step d p b kp s up).plug y).items ∧ Same t t' ∧
      ((Deficit t' c' y' (n + 1) ∧ Bal y' true (n + 1) ∧ c' = up) ∨
        (Deficit t' c' y' n ∧ t'.isBlack (ptr y') = .ok false) ∨
        (Holds t' (c'.plug y') ∧ t'.root = ptr y' ∧ Settled c' y')) := by
  obtain ⟨t₁, b₁, s₁, up₁, ht₁, hs₁, h₁, hpar₁, hf₁, hi₁, hb₁, hk₁⟩ := blackSibling_spec h
  -- the black sibling and its children
  obtain ⟨sa, ks, x, z, cx, cz, rfl, hx, hz⟩ : ∃ sa ks x z cx cz, s₁ = bin d sa true ks x z ∧
      Bal x cx n ∧ Bal z cz n := by
    cases hs₁ with
    | @black sa _ l ks r c₁ c₂ hl hr =>
      cases d with
      | left => exact ⟨sa, ks, l, r, c₁, c₂, rfl, hl, hr⟩
      | right => exact ⟨sa, ks, r, l, c₂, c₁, rfl, hr, hl⟩
  have h₀ := h₁
  rw [plug_step, plug_bin_flip] at h₀
  have hsa := h₀.mem_eq
  have hboth : t₁.blackChildren d sa = .ok (cx && cz) := by
    have hxcol : t₁.isBlack (ptr x) = .ok cx :=
      Holds.isBlack_ptr (c := step d sa true ks z (step d.flip p b₁ kp y up₁)) h₀ hx
    have hzcol : t₁.isBlack (ptr z) = .ok cz := by
      have h' := h₀
      rw [plug_bin_flip] at h'
      exact h'.isBlack_ptr hz
    rw [blackChildren, child_eq hsa, child_eq hsa, dirNode_child, dirNode_child_flip, ok_bind,
      hxcol, ok_bind]
    cases cx <;> simp [hzcol]
  rw [ptr_bin] at ht₁
  by_cases hcc : cx = true ∧ cz = true
  · -- two black children: the sibling turns red and the deficit moves up
    obtain ⟨rfl, rfl⟩ := hcc
    obtain ⟨t₂, ht₂, h₂, hk₂⟩ := h₀.setBlack false
    rw [← plug_bin_flip] at h₂
    have hs₂ : Bal (bin d sa false ks x z) false n := .bin_red hx hz
    have h₂' : Holds t₂ ((step d p b₁ kp (bin d sa false ks x z) up₁).plug y) := h₂
    have hpar₂ : t₂.parent (ptr y) = .ok p :=
      hk₂.parent_ptr (c := step d p b₁ kp ColorTree.nil up₁) hpar₁ h₂' rfl
    have hrun : t.rebalanceDeleteStep d (ptr y) =
        .ok (t₂, ptr (bin d p b₁ kp y (bin d sa false ks x z))) := by
      simp [rebalanceDeleteStep, ht₁, hboth, ht₂, hpar₂]
    have hitems : (up₁.plug (bin d p b₁ kp y (bin d sa false ks x z))).items =
        ((step d p b kp s up).plug y).items := by
      rw [← hi₁]
      simp only [plug_step, items_plug]
      cases d <;> simp
    have hpar₂' : t₂.parent (ptr (bin d p b₁ kp y (bin d sa false ks x z))) =
        .ok (ctxPtr up₁) := by
      rw [ptr_bin, parent_eq h₂.mem_eq, dirNode_parent]
    refine ⟨t₂, up₁, _, hrun, hitems, hk₁.trans hk₂.toSame, ?_⟩
    cases b₁ with
    | true =>
      obtain ⟨rfl, -⟩ : up₁ = up ∧ true = b := by
        rcases hb₁ with hb₁ | hb₁
        · exact absurd hb₁ (by simp)
        · exact hb₁
      obtain ⟨-, -, hup⟩ := hf₁.of_step_black
      have hbal : Bal (bin d p true kp y (bin d sa false ks x z)) true (n + 1) :=
        .bin_black hy hs₂
      exact Or.inl ⟨⟨h₂, hpar₂', hup, Or.inl hbal⟩, hbal, rfl⟩
    | false =>
      obtain ⟨-, -, hup⟩ := hf₁.of_step_red
      refine Or.inr (Or.inl ⟨⟨h₂, hpar₂', hup.toTrue, Or.inr ?_⟩, ?_⟩)
      · have hbal : Bal (bin d p true kp y (bin d sa false ks x z)) true (n + 1) :=
          .bin_black hy hs₂
        cases d with
        | left => exact ⟨_, _, _, _, rfl, hbal⟩
        | right => exact ⟨_, _, _, _, rfl, hbal⟩
      · rw [ptr_bin, isBlack_eq h₂.mem_eq, dirNode_isBlack]
  · -- a red child: one last rotation
    obtain ⟨t₂, sb, kb, x', z', cx', ht₂, h₂, hpar₂, hx', hz', hi₂, hk₂⟩ :=
      alignSibling_spec h₁ hpar₁ hx hz hcc
    obtain ⟨za, kz, zl, zr, rfl, hzl, hzr⟩ := hz'.of_red
    have hpb : t₂.isBlack p = .ok b₁ := by rw [isBlack_eq h₂.mem_ctx, dirNode_isBlack]
    have h₃₀ := h₂
    rw [plug_step, plug_bin_flip] at h₃₀
    obtain ⟨t₃, ht₃, h₃, hk₃⟩ := h₃₀.setBlack b₁
    rw [← plug_bin_flip] at h₃
    obtain ⟨t₄, ht₄, h₄, hk₄⟩ := h₃.setBlack true
    have h₄₀ := h₄
    rw [plug_bin_flip] at h₄₀
    have hfar : t₄.child d.flip sb = .ok za := by
      rw [child_eq h₄₀.mem_eq, dirNode_child_flip, ptr_node]
    rw [plug_bin_flip] at h₄₀
    obtain ⟨t₅, ht₅, h₅, hk₅⟩ := Holds.setBlack (d := .left) h₄₀ true
    rw [← plug_bin_flip, ← plug_bin_flip] at h₅
    obtain ⟨t₆, ht₆, h₆, hk₆⟩ := h₅.rotate
    -- the whole tree, seen from its root
    have hbal : ∃ m, Bal (up₁.plug (bin d sb b₁ kb (bin d p true kp y x')
        (node za true zl kz zr))) true m := by
      have hp : Bal (bin d p true kp y x') true (n + 1) := .bin_black hy hx'
      have hz : Bal (node za true zl kz zr) true (n + 1) := .black hzl hzr
      cases b₁ with
      | true =>
        obtain ⟨-, -, hup⟩ := hf₁.of_step_black
        exact hup.plug (.bin_black hp hz)
      | false =>
        obtain ⟨-, -, hup⟩ := hf₁.of_step_red
        exact hup.plug (.bin_red hp hz)
    obtain ⟨m, hbal⟩ := hbal
    refine ⟨t₆, top, _, ?_, ?_, ?_, Or.inr (Or.inr ⟨h₆, h₆.root, Or.inr ?_⟩)⟩
    · have hroot := h₆.root
      simp [rebalanceDeleteStep, ht₁, hboth, hcc, ht₂, hpar₂, hpb, ht₃, ht₄, hfar, ht₅, ht₆,
        hroot]
    · rw [← hi₁, ← hi₂]
      simp only [plug_top, plug_step, items_plug]
      cases d <;> simp
    · exact hk₁.trans (hk₂.trans (hk₃.trans (hk₄.trans (hk₅.trans hk₆))).toSame)
    · obtain ⟨a, l, k, r, hT⟩ := hbal.exists_black (fun hnil => by
        have hi := congrArg ColorTree.items hnil
        rw [items_plug] at hi
        cases d <;> simp at hi)
      rw [hT] at hbal
      exact ⟨a, true, l, k, r, m, hT, hbal⟩

/-- The loop stops at the root and at a red node. -/
theorem rebalanceDeleteLoop_stop {N q : ℕ} (h : q = t.root ∨ t.isBlack q = .ok false) :
    rebalanceDeleteLoop (N + 1) t q = .ok (t, q) := by
  rw [rebalanceDeleteLoop]
  by_cases hroot : q = t.root
  · rw [if_pos hroot]
  · rw [if_neg hroot, h.resolve_left hroot]
    rfl

/-- At a red node, nothing is missing but a black colour. -/
theorem Deficit.settled {c : ColorCtx α} (h : Deficit t c y n)
    (hend : c = top ∨ t.isBlack (ptr y) = .ok false) : Settled c y := by
  rcases h.bal with hy | ⟨a, l, k, r, rfl, hbal⟩
  · rcases hend with rfl | hred
    · by_cases hne : y = .nil
      · exact Or.inl ⟨rfl, hne⟩
      · obtain ⟨a, l, k, r, rfl⟩ := hy.exists_black hne
        exact Or.inr ⟨a, true, l, k, r, n, rfl, hy⟩
    · rw [h.holds.isBlack_ptr hy] at hred
      exact absurd hred (by simp)
  · obtain ⟨m, hm⟩ := h.fits.plug hbal
    exact Or.inr ⟨a, false, l, k, r, m, rfl, hm⟩

/-- **The loop of `rebalance_delete`** ends, at a place where painting the node
black is all that is left to do. -/
theorem rebalanceDeleteLoop_spec (N : ℕ) {t : RBTree α} {c : ColorCtx α} {y : ColorTree α} {n : ℕ}
    (hN : c.length + 2 ≤ N) (h : Deficit t c y n) :
    ∃ t' c' y', rebalanceDeleteLoop N t (ptr y) = .ok (t', ptr y') ∧ Holds t' (c'.plug y') ∧
      Settled c' y' ∧ (c'.plug y').items = (c.plug y).items ∧ Same t t' := by
  induction N generalizing t c y n with
  | zero => omega
  | succ N ih =>
    cases c with
    | top =>
      have hroot : ptr y = t.root := h.holds.root.symm
      exact ⟨t, top, y, rebalanceDeleteLoop_stop (Or.inl hroot), h.holds,
        h.settled (Or.inl rfl), rfl, Same.refl t⟩
    | step d p b kp s up =>
      have hne : ptr y ≠ t.root := h.holds.ptr_ne_root
      rcases h.bal with hy | ⟨a, l, k, r, rfl, hbal⟩
      · have hs : s ≠ .nil := by
          rintro rfl
          cases b with
          | false => exact absurd h.fits.of_step_red.2.1 (by rintro ⟨⟩)
          | true =>
            obtain ⟨c', hs, -⟩ := h.fits.of_step_black
            exact absurd hs (by rintro ⟨⟩)
        have hblack : t.isBlack (ptr y) = .ok true := h.holds.isBlack_ptr hy
        have hp := h.holds.mem_ctx
        have hpar : t.parent (ptr y) = .ok p := h.parent
        -- the test of the source finds the side of the position
        have hside : ∃ l', t.left p = .ok l' ∧
            (if ptr y = l' then Dir.left else Dir.right) = d := by
          cases d with
          | left => exact ⟨ptr y, child_eq hp _, if_pos rfl⟩
          | right => exact ⟨ptr s, child_eq hp _, if_neg (h.holds.ptr_ne_sibling hs)⟩
        obtain ⟨l', hl', hd⟩ := hside
        obtain ⟨t₁, c₁, y₁, ht₁, hi₁, hk₁, hcase⟩ := rebalanceDeleteStep_spec h hy
        have hrun : rebalanceDeleteLoop (N + 1) t (ptr y) =
            rebalanceDeleteLoop N t₁ (ptr y₁) := by
          simp [rebalanceDeleteLoop, hne, hblack, hpar, hl', hd, ht₁]
        rw [hrun]
        obtain ⟨M, rfl⟩ : ∃ M, N = M + 1 := ⟨N - 1, by omega⟩
        rcases hcase with ⟨h₁, -, rfl⟩ | ⟨h₁, hred⟩ | ⟨h₁, hroot, hset⟩
        · obtain ⟨t₂, c₂, y₂, ht₂, h₂, hset, hi₂, hk₂⟩ :=
            ih (by simp only [ColorCtx.length] at hN; omega) h₁
          exact ⟨t₂, c₂, y₂, ht₂, h₂, hset, hi₂.trans hi₁, hk₁.trans hk₂⟩
        · exact ⟨t₁, c₁, y₁, rebalanceDeleteLoop_stop (Or.inr hred), h₁.holds,
            h₁.settled (Or.inr hred), hi₁, hk₁⟩
        · exact ⟨t₁, c₁, y₁, rebalanceDeleteLoop_stop (Or.inl hroot.symm), h₁, hset, hi₁, hk₁⟩
      · have hred : t.isBlack a = .ok false := isBlack_eq (Holds.mem_eq (d := .left) h.holds)
        exact ⟨t, _, _, rebalanceDeleteLoop_stop (Or.inr hred), h.holds, h.settled (Or.inr hred),
          rfl, Same.refl t⟩

end Round

/-- **`rebalance_delete` repairs a deficit** and keeps the order of the keys. -/
theorem rebalanceDelete_spec {c : ColorCtx α} {y : ColorTree α} {n : ℕ} (h : Deficit t c y n) :
    ∃ t' T m, t.rebalanceDelete (ptr y) = .ok t' ∧ Holds t' T ∧ Bal T true m ∧
      T.items = (c.plug y).items ∧ Same t t' := by
  obtain ⟨t₁, c₁, y₁, ht₁, h₁, hset, hi₁, hk₁⟩ :=
    rebalanceDeleteLoop_spec t.fuel h.holds.length_ctx h
  rcases hset with ⟨rfl, rfl⟩ | ⟨a, b, l, k, r, m, rfl, hbal⟩
  · -- an empty tree: the sentinel is painted
    obtain ⟨s, hs, hsent⟩ := h₁.sentinel
    refine ⟨t₁.write nil { s with isBlack := true }, .nil, 0, ?_, ⟨trivial, h₁.root, h₁.nodup,
      h₁.range, ⟨_, write_mem_self, hsent.1, rfl, hsent.2.2⟩, h₁.fresh⟩, .nil, hi₁,
      ⟨hk₁.fresh, hk₁.first, hk₁.last, hk₁.size⟩⟩
    rw [rebalanceDelete, ht₁, ok_bind, ptr_nil]
    exact setBlack_eq hs true
  · obtain ⟨t₂, ht₂, h₂, hk₂⟩ := Holds.setBlack (d := .left) h₁ true
    refine ⟨t₂, _, m, ?_, h₂, hbal, ?_, hk₁.trans hk₂.toSame⟩
    · rw [rebalanceDelete, ht₁, ok_bind]
      exact ht₂
    · rw [← hi₁, items_plug, items_plug]
      rfl

end RBTree

end LimitOrderBook
