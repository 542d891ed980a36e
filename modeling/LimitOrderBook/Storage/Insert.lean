import LimitOrderBook.Storage.Shape
import LimitOrderBook.Lib.SortedKeys

/-!
# Insertion

The new node is red. Painting it so breaks the balance at most between the node
and its parent, and each round of `rebalance_insert` either moves that place two
levels up or removes it (`LimitOrderBook.RBTree.rebalanceInsertStep_spec`). The
order of the keys is never touched. What insertion does to the list of keys is
then decided by the descent alone, `LimitOrderBook.RBTree.insertPosition_spec`.
-/

namespace LimitOrderBook

namespace RBTree

open ColorTree ColorCtx

variable {α : Type} {t : RBTree α}

/-! ### Rebalancing -/

section Rebalance

variable {d e : Dir} {a p g n : ℕ} {k kp kg : α} {l r s u : ColorTree α} {up : ColorCtx α}

/-- An inner child changes places with its parent; an outer child stays. Either
way a red node with black children is left on the outer side of a red node. -/
theorem straighten_spec
    (h : Holds t ((step e p false kp s (step d g true kg u up)).plug (node a false l k r)))
    (hl : Bal l true n) (hr : Bal r true n) (hs : Bal s true n) :
    ∃ t' q k₁ x s', t.straighten d a = .ok (t', ptr x) ∧ Bal x false n ∧ Bal s' true n ∧
      Holds t' ((step d q false k₁ s' (step d g true kg u up)).plug x) ∧
      ((step d q false k₁ s' (step d g true kg u up)).plug x).items =
        ((step e p false kp s (step d g true kg u up)).plug (node a false l k r)).items ∧
      Kept t t' := by
  have ha := Holds.mem_eq (d := .left) h
  have hp := h.mem_ctx
  have hnd := h.nodup
  rw [nodup_addrs_plug, nodup_addrs_step] at hnd
  have hpar : t.parent a = .ok p := parent_eq ha
  rcases eq_or_ne e d with rfl | hne
  · -- already on the outer side
    have has : a ≠ ptr s := by
      rintro rfl
      cases s with
      | nil => exact h.nil_not_mem (mem_addrs_plug.mpr (Or.inl (by simp)))
      | node sa sb sl sk sr =>
        refine hnd.2.2 sa (by simp) (mem_addrs_step.mpr (Or.inr (Or.inl ?_)))
        simp
    refine ⟨t, p, kp, node a false l k r, s, ?_, .red hl hr, hs, h, rfl, Kept.refl t⟩
    simp [straighten, hpar, child_eq hp, has]
  · obtain rfl : e = d.flip := by
      cases e <;> cases d <;> simp_all
    -- the children of the node, as seen from the outer side
    obtain ⟨x, y, hxy⟩ := exists_bin d a false l k r
    have hbal : Bal x true n ∧ Bal y true n := by
      have hb : Bal (node a false l k r) false n := .red hl hr
      rw [hxy] at hb
      exact hb.of_bin_red.2
    have h' : Holds t ((step d g true kg u up).plug
        (bin d p false kp s (bin d a false k x y))) := by
      rw [plug_bin_flip, ← hxy]
      exact h
    obtain ⟨t', ht', hh, hk⟩ := h'.rotate
    refine ⟨t', a, k, bin d p false kp s x, y, ?_, .bin_red hs hbal.1, hbal.2, hh, ?_, hk⟩
    · simp [straighten, hpar, child_eq hp, ht']
    · rw [plug_step, items_plug, items_rotate d p a false false false false kp k s x y,
        ← items_plug, plug_bin_flip, hxy]

/-- **One round of `rebalance_insert`**: the red node with a red parent moves up,
or its parent becomes black. -/
theorem rebalanceInsertStep_spec {c : Bool}
    (h : Holds t ((step e p false kp s (step d g true kg u up)).plug (node a false l k r)))
    (hl : Bal l true n) (hr : Bal r true n) (hs : Bal s true n) (hu : Bal u c n)
    (hup : Fits up true (n + 1)) :
    ∃ t' c' x m, t.rebalanceInsertStep d a = .ok (t', ptr x) ∧ Holds t' (c'.plug x) ∧
      Bal x false m ∧ Fits c' true m ∧ c'.length ≤ up.length + 1 ∧
      (c'.plug x).items =
        ((step e p false kp s (step d g true kg u up)).plug (node a false l k r)).items ∧
      Kept t t' := by
  have hpar : t.parent a = .ok p := parent_eq (Holds.mem_eq (d := .left) h)
  have hgr : t.parent p = .ok g := by
    rw [parent_eq h.mem_ctx, dirNode_parent]
    rfl
  have hg : t.mem g = some (dirNode d kg true (ctxPtr up) p (ptr u)) := by
    have h' : Holds t ((step d g true kg u up).plug (bin e p false kp (node a false l k r) s)) := h
    simpa using h'.mem_ctx
  have hunc : t.child d.flip g = .ok (ptr u) := by
    rw [child_eq hg, dirNode_child_flip]
  have hub : t.isBlack (ptr u) = .ok c := by
    have h' := h
    rw [plug_step, plug_step, plug_bin_flip] at h'
    exact h'.isBlack_ptr hu
  cases c with
  | false =>
    -- a red uncle: the grandparent takes over its two children's blackness
    obtain ⟨ua, ku, u₁, u₂, rfl, hu₁, hu₂⟩ := hu.of_red
    have h₀ := h
    rw [plug_step, plug_step, plug_bin_flip] at h₀
    obtain ⟨t₁, ht₁, h₁, hk₁⟩ := Holds.setBlack (d := .left) h₀ true
    rw [← plug_bin_flip] at h₁
    obtain ⟨t₂, ht₂, h₂, hk₂⟩ :=
      Holds.setBlack (d := e) (c := step d g true kg (node ua true u₁ ku u₂) up) h₁ true
    rw [plug_step] at h₂
    obtain ⟨t₃, ht₃, h₃, hk₃⟩ := h₂.setBlack false
    refine ⟨t₃, up, _, n + 1, ?_, h₃, .bin_red (.bin_black (.red hl hr) hs) (.black hu₁ hu₂), hup,
      Nat.le_succ _, ?_, hk₁.trans (hk₂.trans hk₃)⟩
    · rw [ptr_node] at hub hunc
      simp [rebalanceInsertStep, hpar, hgr, hunc, hub, ht₁, ht₂, ht₃]
    · simp only [plug_step, items_plug]
      cases d <;> cases e <;> simp
  | true =>
    -- a black uncle: one or two rotations, and the parent is black
    obtain ⟨t₁, q, k₁, x, s', ht₁, hx, hs', h₁, hi₁, hk₁⟩ := straighten_spec h hl hr hs
    obtain ⟨xa, xk, xl, xr, rfl, hxl, hxr⟩ := hx.of_red
    have hpar₁ : t₁.parent xa = .ok q := parent_eq (Holds.mem_eq (d := .left) h₁)
    obtain ⟨t₂, ht₂, h₂, hk₂⟩ := Holds.setBlack (d := d) (c := step d g true kg u up) h₁ true
    have hgr₂ : t₂.parent q = .ok g := by
      rw [parent_eq h₂.mem_eq, dirNode_parent]
      rfl
    rw [plug_step] at h₂
    obtain ⟨t₃, ht₃, h₃, hk₃⟩ := h₂.setBlack false
    have h₃' : Holds t₃ (up.plug (bin d.flip g false kg u
        (bin d.flip q true k₁ s' (node xa false xl xk xr)))) := by
      rw [bin_flip, bin_flip]
      exact h₃
    obtain ⟨t₄, ht₄, h₄, hk₄⟩ := h₃'.rotate
    rw [bin_flip] at h₄
    refine ⟨t₄, step d q true k₁ (bin d.flip g false kg u s') up, node xa false xl xk xr, n, ?_,
      h₄, .red hxl hxr, .black (.bin_red hu hs') hup, Nat.le_refl _, ?_,
      hk₁.trans (hk₂.trans (hk₃.trans hk₄))⟩
    · rw [ptr_node] at ht₁
      simp [rebalanceInsertStep, hpar, hgr, hunc, hub, ht₁, hpar₁, ht₂, hgr₂, ht₃, ht₄]
    · rw [← hi₁]
      simp only [plug_step, items_plug]
      cases d <;> simp

/-- The loop of `rebalance_insert`, from a red node whose place would fit a black
one: it ends at a red root or below a black node. -/
theorem rebalanceInsertLoop_spec (N : ℕ) {t : RBTree α} {c : ColorCtx α} {x : ColorTree α}
    {n : ℕ} (hN : c.length < N) (h : Holds t (c.plug x)) (hx : Bal x false n)
    (hc : Fits c true n) :
    ∃ t' c' x' m, rebalanceInsertLoop N t (ptr x) = .ok t' ∧ Holds t' (c'.plug x') ∧
      Bal x' false m ∧ (c' = top ∨ Fits c' false m) ∧
      (c'.plug x').items = (c.plug x).items ∧ Kept t t' := by
  induction N generalizing t c x n with
  | zero => omega
  | succ N ih =>
    obtain ⟨a, k, l, r, rfl, hl, hr⟩ := hx.of_red
    cases c with
    | top =>
      refine ⟨t, top, _, n, ?_, h, hx, Or.inl rfl, rfl, Kept.refl t⟩
      have hroot : a = t.root := h.root.symm
      simp [rebalanceInsertLoop, hroot]
    | step e p b kp s up =>
      have hne : a ≠ t.root := h.ptr_ne_root
      have hpar : t.parent a = .ok p := parent_eq (Holds.mem_eq (d := .left) h)
      have hpb : t.isBlack p = .ok b := by rw [isBlack_eq h.mem_ctx, dirNode_isBlack]
      cases b with
      | true =>
        obtain ⟨c', hs, hup⟩ := hc.of_step_black
        refine ⟨t, step e p true kp s up, _, n, ?_, h, hx, Or.inr (.black hs hup), rfl,
          Kept.refl t⟩
        simp [rebalanceInsertLoop, hne, hpar, hpb]
      | false =>
        obtain ⟨-, hs, hup⟩ := hc.of_step_red
        obtain ⟨d, g, kg, u, up', cu, rfl, hu, hup'⟩ := hup.of_false
        have hgr : t.parent p = .ok g := by
          rw [parent_eq h.mem_ctx, dirNode_parent]
          rfl
        have hg : t.mem g = some (dirNode d kg true (ctxPtr up') p (ptr u)) := by
          have h' : Holds t ((step d g true kg u up').plug
            (bin e p false kp (node a false l k r) s)) := h
          simpa using h'.mem_ctx
        -- the test of the source finds the side of the parent
        have hpu : p ≠ ptr u := by
          rintro rfl
          have hnd := (nodup_addrs_plug.mp h.nodup).2.1
          cases u with
          | nil => exact h.nil_not_mem (mem_addrs_plug.mpr (Or.inr (by
              rw [mem_addrs_step]; exact Or.inl rfl)))
          | node ua ub ul uk ur =>
            refine (nodup_addrs_step.mp hnd).2.1 (mem_addrs_step.mpr (Or.inr (Or.inl ?_)))
            simp
        have hside : ∃ r', t.right g = .ok r' ∧ (if p = r' then Dir.right else Dir.left) = d := by
          cases d with
          | left => exact ⟨ptr u, child_eq hg _, if_neg hpu⟩
          | right => exact ⟨p, child_eq hg _, if_pos rfl⟩
        obtain ⟨r', hr', hd⟩ := hside
        obtain ⟨t₁, c₁, x₁, m, ht₁, h₁, hx₁, hc₁, hlen, hi₁, hk₁⟩ :=
          rebalanceInsertStep_spec h hl hr hs hu hup'
        obtain ⟨t₂, c₂, x₂, m₂, ht₂, h₂, hx₂, hc₂, hi₂, hk₂⟩ :=
          ih (by simp only [ColorCtx.length] at hN; omega) h₁ hx₁ hc₁
        refine ⟨t₂, c₂, x₂, m₂, ?_, h₂, hx₂, hc₂, hi₂.trans hi₁, hk₁.trans hk₂⟩
        simp [rebalanceInsertLoop, hne, hpar, hpb, hgr, hr', hd, ht₁, ht₂]

end Rebalance

/-- **`rebalance_insert` restores the balance** and keeps the order of the keys. -/
theorem rebalanceInsert_spec {c : ColorCtx α} {x : ColorTree α} {n : ℕ}
    (h : Holds t (c.plug x)) (hx : Bal x false n) (hc : Fits c true n) :
    ∃ t' T m, t.rebalanceInsert (ptr x) = .ok t' ∧ Holds t' T ∧ Bal T true m ∧
      T.items = (c.plug x).items ∧ Kept t t' := by
  have hlen : c.length < t.fuel := by
    have := h.length_ctx
    omega
  obtain ⟨t₁, c₁, x₁, m, ht₁, h₁, hx₁, hc₁, hi₁, hk₁⟩ :=
    rebalanceInsertLoop_spec t.fuel hlen h hx hc
  -- in either case the root is a node that may be painted black
  obtain ⟨a, b, l, k, r, hT, hbal⟩ : ∃ a b l k r, c₁.plug x₁ = node a b l k r ∧
      ∃ m', Bal (node a true l k r) true m' := by
    rcases hc₁ with rfl | hc₁
    · obtain ⟨a, k, l, r, rfl, hl, hr⟩ := hx₁.of_red
      exact ⟨a, false, l, k, r, rfl, m + 1, .black hl hr⟩
    · obtain ⟨m', hm'⟩ := hc₁.plug hx₁
      generalize c₁.plug x₁ = T at hm' hi₁
      cases hm' with
      | nil =>
        have hmem : ptr x ∈ (c.plug x).addrs :=
          mem_addrs_plug.mpr (Or.inl (ptr_mem_addrs (by cases hx; simp)))
        rw [ColorTree.addrs, ← hi₁] at hmem
        exact absurd hmem (by simp)
      | black hl hr => exact ⟨_, true, _, _, _, rfl, _, .black hl hr⟩
  obtain ⟨m', hbal⟩ := hbal
  rw [hT] at h₁ hi₁
  obtain ⟨t₂, ht₂, h₂, hk₂⟩ := Holds.setBlack (d := .left) (c := top) h₁ true
  refine ⟨t₂, node a true l k r, m', ?_, h₂, hbal, hi₁, hk₁.trans hk₂⟩
  have hroot : t₁.root = a := h₁.root
  simp [rebalanceInsert, ht₁, hroot, ht₂]

/-! ### The descent -/

section Descent

variable {lt : α → α → Bool} {v : α}

/-- The keys around a position are on the right side of `v`. -/
def Around (lt : α → α → Bool) (v : α) (c : ColorCtx α) : Prop :=
  (∀ p ∈ c.before, lt p.2 v = true ∧ lt v p.2 = false) ∧ ∀ p ∈ c.after, lt v p.2 = true

/-- The flag says on which side of its parent a position hangs. -/
def OnSide : ColorCtx α → Bool → Prop
  | .top, _ => True
  | .step d _ _ _ _ _, less => less = true ↔ d = .left

theorem Around.step_left {c : ColorCtx α} {a : ℕ} {b : Bool} {k : α} {l r : ColorTree α}
    (hlt : StrictWeak lt) (h : Around lt v c) (hk : lt v k = true)
    (hs : SortedKeys lt ((c.plug (node a b l k r)).items.map Prod.snd)) :
    Around lt v (step .left a b k r c) := by
  refine ⟨h.1, ?_⟩
  rw [items_plug, items_node] at hs
  simp only [List.map_append, List.map_cons, List.append_assoc, List.cons_append] at hs
  have h₁ := (List.pairwise_cons.mp (List.pairwise_append.mp
    (List.pairwise_append.mp hs).2.1).2.1).1
  rintro p (_ | ⟨_, hp⟩)
  · exact hk
  · rcases List.mem_append.mp hp with hp | hp
    · exact hlt.trans hk (h₁ p.2 (List.mem_append_left _ (List.mem_map_of_mem hp)))
    · exact h.2 p hp

theorem Around.step_right {c : ColorCtx α} {a : ℕ} {b : Bool} {k : α} {l r : ColorTree α}
    (hlt : StrictWeak lt) (h : Around lt v c) (hk : lt k v = true)
    (hs : SortedKeys lt ((c.plug (node a b l k r)).items.map Prod.snd)) :
    Around lt v (step .right a b k l c) := by
  refine ⟨?_, h.2⟩
  rw [items_plug, items_node] at hs
  simp only [List.map_append, List.map_cons, List.append_assoc, List.cons_append] at hs
  have h₁ := (List.pairwise_append.mp (List.pairwise_append.mp hs).2.1).2.2
  intro p hp
  simp only [before, List.mem_append, List.mem_singleton] at hp
  rcases hp with (hp | hp) | rfl
  · exact h.1 p hp
  · have hpv := hlt.trans (h₁ p.2 (List.mem_map_of_mem hp) k (by simp)) hk
    exact ⟨hpv, hlt.asymm hpv⟩
  · exact ⟨hk, hlt.asymm hk⟩

/-- The keys before a node with a key equivalent to `v` are less than `v`. -/
theorem Around.before_of_equiv {c : ColorCtx α} {a : ℕ} {b : Bool} {k : α} {l r : ColorTree α}
    (hlt : StrictWeak lt) (h : Around lt v c) (hk : Equiv lt v k)
    (hs : SortedKeys lt ((c.plug (node a b l k r)).items.map Prod.snd)) :
    ∀ p ∈ c.before ++ l.items, lt p.2 v = true ∧ lt v p.2 = false := by
  intro p hp
  rcases List.mem_append.mp hp with hp | hp
  · exact h.1 p hp
  · rw [items_plug, items_node] at hs
    simp only [List.map_append, List.map_cons, List.append_assoc, List.cons_append] at hs
    have h₁ := (List.pairwise_append.mp (List.pairwise_append.mp hs).2.1).2.2
      p.2 (List.mem_map_of_mem hp) k (by simp)
    have hpv := hlt.lt_of_lt_of_equiv h₁ ⟨hk.2, hk.1⟩
    exact ⟨hpv, hlt.asymm hpv⟩

/-- **The descent of `insert`** finds the node with an equivalent key, or the
empty place where the key belongs. -/
theorem insertPosition_spec (hlt : StrictWeak lt) (N : ℕ) {c : ColorCtx α} {y : ColorTree α}
    {less : Bool} (hN : y.addrs.length < N) (h : Holds t (c.plug y))
    (hs : SortedKeys lt ((c.plug y).items.map Prod.snd)) (hv : Around lt v c)
    (hless : OnSide c less) :
    (∃ (c' : ColorCtx α) (a : ℕ) (b : Bool) (l : ColorTree α) (k : α) (r : ColorTree α),
      t.insertPosition lt v N (ctxPtr c) (ptr y) less = .ok (.inl a) ∧
      c.plug y = c'.plug (node a b l k r) ∧ Equiv lt v k ∧
      ∀ p ∈ c'.before ++ l.items, lt p.2 v = true ∧ lt v p.2 = false) ∨
    ∃ c' less', t.insertPosition lt v N (ctxPtr c) (ptr y) less = .ok (.inr (ctxPtr c', less')) ∧
      c.plug y = c'.plug .nil ∧ Around lt v c' ∧
      OnSide c' less' := by
  induction y generalizing c less N with
  | nil =>
    cases N with
    | zero => omega
    | succ N => exact Or.inr ⟨c, less, by simp [insertPosition], rfl, hv, hless⟩
  | node a b l k r ihl ihr =>
    cases N with
    | zero => omega
    | succ N =>
      have ha := Holds.mem_eq (d := .left) h
      have hkey : t.key a = .ok k := key_eq ha rfl
      have hleft : t.left a = .ok (ptr l) := child_eq ha .left
      have hright : t.right a = .ok (ptr r) := child_eq ha .right
      have hanil : a ≠ nil := fun he => h.nil_not_mem (mem_addrs_plug.mpr (Or.inl (by simp [he])))
      rw [addrs_node, List.length_append, List.length_cons] at hN
      rcases hvk : lt v k with _ | _
      · rcases hkv : lt k v with _ | _
        · -- an equivalent key
          refine Or.inl ⟨c, a, b, l, k, r, ?_, rfl, ⟨hvk, hkv⟩, hv.before_of_equiv hlt ⟨hvk, hkv⟩ hs⟩
          simp [insertPosition, hanil, hkey, hvk, hkv]
        · -- to the right
          have hrun : t.insertPosition lt v (N + 1) (ctxPtr c) a less =
              t.insertPosition lt v N a (ptr r) false := by
            simp [insertPosition, hanil, hkey, hvk, hkv, hright]
          rw [ptr_node, hrun]
          refine ihr N (c := step .right a b k l c) (by omega) h hs (hv.step_right hlt hkv hs) ?_
          simp [OnSide]
      · -- to the left
        have hrun : t.insertPosition lt v (N + 1) (ctxPtr c) a less =
            t.insertPosition lt v N a (ptr l) true := by
          simp [insertPosition, hanil, hkey, hvk, hleft]
        rw [ptr_node, hrun]
        refine ihl N (c := step .left a b k r c) (by omega) h hs (hv.step_left hlt hvk hs) ?_
        simp [OnSide]

end Descent

/-! ### The new node -/

section NewNode

variable {c : ColorCtx α} {v : α} {less : Bool}

/-- Hanging a fresh node into an empty place. -/
theorem link_spec (h : Holds t (c.plug .nil)) (hless : OnSide c less) :
    ∃ t', (t.alloc v (ctxPtr c)).link t.fresh (ctxPtr c) less = .ok t' ∧
      Holds t' (c.plug (node t.fresh false .nil v .nil)) ∧ t'.size = t.size ∧
      (c = top → t'.first = t.fresh ∧ t'.last = t.fresh) ∧
      (c ≠ top → t'.first = t.first ∧ t'.last = t.last) := by
  have hfresh : ∀ p ∈ c.addrs, p ≠ t.fresh := fun p hp he =>
    absurd (h.range p (mem_addrs_plug.mpr (Or.inr hp))).2 (by omega)
  have hm₀ : ∀ p, p ≠ t.fresh → (t.alloc v (ctxPtr c)).mem p = t.mem p := fun p hp => by
    simp [alloc, hp]
  have hnew : (t.alloc v (ctxPtr c)).mem t.fresh =
      some ⟨some v, false, ctxPtr c, nil, nil⟩ := by
    simp [alloc]
  have hctx : RepCtx (t.alloc v (ctxPtr c)).mem nil c :=
    (rep_plug.mp h.rep).2.congr fun p hp => hm₀ p (hfresh p hp)
  -- what does not depend on where the node hangs
  have hnd : (c.plug (node t.fresh false .nil v .nil)).addrs.Nodup := by
    refine nodup_addrs_plug.mpr ⟨by simp, (nodup_addrs_plug.mp h.nodup).2.1, fun p hp hpc => ?_⟩
    exact hfresh p hpc (by simpa using hp)
  have hrange : ∀ p ∈ (c.plug (node t.fresh false .nil v .nil)).addrs,
      nil < p ∧ p < t.fresh + 1 := by
    intro p hp
    rcases mem_addrs_plug.mp hp with hp | hp
    · obtain rfl : p = t.fresh := by simpa using hp
      exact ⟨h.fresh, Nat.lt_succ_self _⟩
    · have := h.range p (mem_addrs_plug.mpr (Or.inr hp))
      exact ⟨this.1, Nat.lt_succ_of_lt this.2⟩
  have hnil : nil ≠ t.fresh := ne_of_lt h.fresh
  cases c with
  | top =>
    refine ⟨{ t.alloc v nil with root := t.fresh, first := t.fresh, last := t.fresh }, ?_,
      ⟨⟨hnew, trivial, trivial⟩, rfl, hnd, hrange, ?_, Nat.lt_succ_of_lt h.fresh⟩, rfl,
      fun _ => ⟨rfl, rfl⟩, fun hne => absurd rfl hne⟩
    · simp [link, ctxPtr]
    · exact (hm₀ nil hnil) ▸ h.sentinel
  | step d a b k s up =>
    rw [ctxPtr_step] at hm₀ hnew hctx ⊢
    obtain ⟨ha, hs, hup⟩ := hctx
    have hnd' := nodup_addrs_step.mp (nodup_addrs_plug.mp h.nodup).2.1
    have hane : a ≠ t.fresh := hfresh a (mem_addrs_step.mpr (Or.inl rfl))
    have hanil : a ≠ nil := fun he => h.nil_not_mem
      (mem_addrs_plug.mpr (Or.inr (mem_addrs_step.mpr (Or.inl he.symm))))
    have hset : (t.alloc v a).link t.fresh a less =
        .ok ((t.alloc v a).write a (dirNode d k b (ctxPtr up) t.fresh (ptr s))) := by
      have hcase : (t.alloc v a).link t.fresh a less = (t.alloc v a).setChild d a t.fresh := by
        cases d with
        | left => rw [link, if_neg hanil, if_pos (hless.mpr rfl)]
        | right =>
          have hl : less ≠ true := fun hl => absurd (hless.mp hl) (by simp)
          rw [link, if_neg hanil, if_neg hl]
      rw [hcase, setChild_eq ha, dirNode_setChild]
    refine ⟨_, hset, ⟨?_, ?_, hnd, hrange, ?_, Nat.lt_succ_of_lt h.fresh⟩, rfl,
      fun he => absurd he (by simp), fun _ => ⟨rfl, rfl⟩⟩
    · refine rep_plug.mpr ⟨⟨?_, trivial, trivial⟩, write_mem_self, ?_, ?_⟩
      · exact (write_mem_of_ne (Ne.symm hane)).trans hnew
      · exact hs.congr fun p hp => write_mem_of_ne fun he => hnd'.1 (he ▸ hp)
      · exact hup.congr fun p hp => write_mem_of_ne fun he => hnd'.2.1 (he ▸ hp)
    · have hroot := h.root
      rw [ptr_plug] at hroot ⊢
      exact hroot
    · rw [write_mem_of_ne (Ne.symm hanil), hm₀ nil hnil]
      exact h.sentinel

/-- The end pointers after a node has been hung into an empty place. -/
theorem extendEnds_spec {t t₁ : RBTree α} {p : ℕ} (h : Valid t (c.plug .nil))
    (h₁ : Holds t₁ (c.plug (node p false .nil v .nil)))
    (htop : c = top → t₁.first = p ∧ t₁.last = p)
    (hnot : c ≠ top → t₁.first = t.first ∧ t₁.last = t.last) :
    ∃ t₂, t₁.extendEnds = .ok t₂ ∧ Holds t₂ (c.plug (node p false .nil v .nil)) ∧
      t₂.first = firstPtr (c.plug (node p false .nil v .nil)).items ∧
      t₂.last = lastPtr (c.plug (node p false .nil v .nil)).items ∧ t₂.size = t₁.size := by
  have hne : c.plug (node p false .nil v .nil) ≠ .nil := fun he => by
    have := congrArg ColorTree.items he
    rw [items_plug] at this
    simp at this
  have hpnil : p ≠ nil := fun he => h₁.nil_not_mem (mem_addrs_plug.mpr (Or.inl (by simp [he])))
  have hmemp := Holds.mem_eq (d := .left) h₁
  have hitems : (c.plug (node p false .nil v .nil)).items = c.before ++ (p, v) :: c.after := by
    rw [items_plug]
    simp
  have hold : (c.plug .nil).items = c.before ++ c.after := by
    rw [items_plug]
    simp
  -- each end either stays, with nothing beyond it, or moves to the new node
  have hfirst : ∃ l, t₁.left t₁.first = .ok l ∧ (if l ≠ nil then l else t₁.first) =
      firstPtr (c.plug (node p false .nil v .nil)).items := by
    by_cases hb : c.before = []
    · rcases of_before_nil hb with rfl | ⟨a, b, k, s, up, rfl, -⟩
      · refine ⟨nil, ?_, ?_⟩
        · rw [(htop rfl).1]
          exact child_eq hmemp .left
        · rw [if_neg (by simp), (htop rfl).1]
          rfl
      · have hf : t₁.first = a := by
          rw [(hnot (by simp)).1, h.first, hold, hb]
          rfl
        refine ⟨p, ?_, ?_⟩
        · rw [hf]
          exact child_eq h₁.mem_ctx .left
        · rw [if_pos hpnil, hitems, hb]
          rfl
    · have hct : c ≠ top := fun he => hb (by rw [he]; rfl)
      have hf : t₁.first = firstPtr (c.plug (node p false .nil v .nil)).items := by
        rw [(hnot hct).1, h.first, hold, hitems, firstPtr_append hb, firstPtr_append hb]
      exact ⟨nil, by rw [hf]; exact h₁.left_first hne, by rw [if_neg (by simp), hf]⟩
  have hlast : ∃ r, t₁.right t₁.last = .ok r ∧ (if r ≠ nil then r else t₁.last) =
      lastPtr (c.plug (node p false .nil v .nil)).items := by
    by_cases hb : c.after = []
    · rcases of_after_nil hb with rfl | ⟨a, b, k, s, up, rfl, -⟩
      · refine ⟨nil, ?_, ?_⟩
        · rw [(htop rfl).2]
          exact child_eq hmemp .right
        · rw [if_neg (by simp), (htop rfl).2]
          rfl
      · have hbn : (step .right a b k s up).before ≠ [] := by simp [before]
        have hf : t₁.last = a := by
          rw [(hnot (by simp)).2, h.last (fun he => hbn ?_), hold, hb, List.append_nil, before,
            lastPtr_concat]
          have := congrArg ColorTree.items he
          rw [hold] at this
          exact (List.append_eq_nil_iff.mp this).1
        refine ⟨p, ?_, ?_⟩
        · rw [hf]
          exact child_eq h₁.mem_ctx .right
        · rw [if_pos hpnil, hitems, hb, lastPtr_concat]
    · have hct : c ≠ top := fun he => hb (by rw [he]; rfl)
      have hf : t₁.last = lastPtr (c.plug (node p false .nil v .nil)).items := by
        rw [(hnot hct).2, h.last (fun he => hb ?_), hold, hitems, lastPtr_append hb,
          lastPtr_append (by simp), show (p, v) :: c.after = [(p, v)] ++ c.after from rfl,
          lastPtr_append hb]
        have := congrArg ColorTree.items he
        rw [hold] at this
        exact (List.append_eq_nil_iff.mp this).2
      exact ⟨nil, by rw [hf]; exact h₁.right_last hne, by rw [if_neg (by simp), hf]⟩
  obtain ⟨l, hl, hfl⟩ := hfirst
  obtain ⟨r, hr, hlr⟩ := hlast
  refine ⟨{ t₁ with first := if l ≠ nil then l else t₁.first,
                    last := if r ≠ nil then r else t₁.last }, ?_,
    ⟨h₁.rep, h₁.root, h₁.nodup, h₁.range, h₁.sentinel, h₁.fresh⟩, hfl, hlr, rfl⟩
  have hr' : ∀ f, ({ t₁ with first := f } : RBTree α).right t₁.last = .ok r := fun f => hr
  simp only [extendEnds, hl, ok_bind]
  by_cases h₁ : l = nil <;> by_cases h₂ : r = nil <;> simp [h₁, h₂, hr, hr']

end NewNode

/-! ### The operation -/

/-- **`insert` on a valid tree**: it returns, the tree stays valid, and its keys
are those of the sorted list with the value inserted. -/
theorem insert_spec {lt : α → α → Bool} (hlt : StrictWeak lt) {T : ColorTree α}
    (h : Valid t T) (hs : SortedKeys lt (T.items.map Prod.snd)) (v : α) :
    ∃ t' T', t.insert lt v = .ok t' ∧ Valid t' T' ∧
      T'.items.map Prod.snd = insertKey lt v (T.items.map Prod.snd) := by
  have hroot : t.root = ptr T := h.root
  have hfuel : T.addrs.length < t.fuel := by
    have := h.length_add_two_le
    omega
  rcases insertPosition_spec (c := top) hlt t.fuel hfuel h.toHolds hs
      ⟨by simp [before], by simp [after]⟩ (show OnSide top true from trivial) with
    ⟨c, a, b, l, k, r, hpos, hT, hk, hbefore⟩ | ⟨c, less, hpos, hT, hv, hless⟩
  · -- the key of an existing node is replaced
    rw [plug_top] at hT
    subst hT
    obtain ⟨hr, hc⟩ := rep_plug.mp h.rep
    obtain ⟨ha, hl, hrr⟩ := hr
    have hnd := nodup_addrs_plug.mp h.nodup
    obtain ⟨hal, har, -, -, -⟩ := nodup_addrs_bin (d := .left) |>.mp hnd.1
    have hac : a ∉ c.addrs := hnd.2.2 a (by simp)
    have hmem : a ∈ (c.plug (node a b l k r)).addrs := mem_addrs_plug.mpr (Or.inl (by simp))
    have hframe : Frame (c.plug (node a b l k r)).addrs t
        (t.write a ⟨some v, b, ctxPtr c, ptr l, ptr r⟩) := frame_write hmem
    have haddrs : (c.plug (node a b l v r)).addrs = (c.plug (node a b l k r)).addrs := by
      simp [addrs_plug]
    have hitems : ∀ w, ((c.plug (node a b l w r)).items.map Prod.snd) =
        (c.before ++ l.items).map Prod.snd ++ w :: (r.items ++ c.after).map Prod.snd := by
      intro w
      rw [items_plug]
      simp
    have hlen : (c.plug (node a b l v r)).items.length = (c.plug (node a b l k r)).items.length := by
      simp [items_plug]
    refine ⟨_, c.plug (node a b l v r), ?_, ⟨h.toHolds.of_frame hframe ?_ ?_ haddrs, ?_, ?_, ?_, ?_⟩,
      ?_⟩
    · rw [insert, hroot, show (nil : ℕ) = ctxPtr (top : ColorCtx α) from rfl, hpos, ok_bind]
      exact setKey_eq ha v
    · refine rep_plug.mpr ⟨⟨write_mem_self, ?_, ?_⟩, ?_⟩
      · exact hl.congr fun p hp => write_mem_of_ne fun he => hal (he ▸ hp)
      · exact hrr.congr fun p hp => write_mem_of_ne fun he => har (he ▸ hp)
      · exact hc.congr fun p hp => write_mem_of_ne fun he => hac (he ▸ hp)
    · rw [write_root, hroot, ptr_plug, ptr_plug]
      rfl
    · obtain ⟨n, hn⟩ := h.bal
      obtain ⟨col, m, hb, hf⟩ := Fits.of_plug hn
      refine hf.plug (t := node a b l v r) ?_
      cases hb with
      | red h₁ h₂ => exact .red h₁ h₂
      | black h₁ h₂ => exact .black h₁ h₂
    · exact h.first.trans (ends_congr haddrs).1.symm
    · intro _
      refine (h.last fun he => ?_).trans (ends_congr haddrs).2.symm
      rw [he] at hmem
      exact absurd hmem (by simp)
    · rw [hlen]
      exact h.size
    · rw [hitems, hitems, insertKey_split_equiv _ hk]
      intro x hx
      obtain ⟨p, hp, rfl⟩ := List.mem_map.mp hx
      exact hbefore p hp
  · -- a new node
    rw [plug_top] at hT
    subst hT
    obtain ⟨n, hn⟩ := h.bal
    obtain ⟨col, m, hb, hf⟩ := Fits.of_plug hn
    obtain ⟨rfl, rfl⟩ : col = true ∧ m = 0 := by cases hb; exact ⟨rfl, rfl⟩
    obtain ⟨t₁, ht₁, h₁, hsz₁, htop, hnot⟩ := link_spec (v := v) h.toHolds hless
    obtain ⟨t₂, ht₂, h₂, hf₂, hl₂, hsz₂⟩ := extendEnds_spec h h₁ htop hnot
    obtain ⟨t₃, T₃, m₃, ht₃, h₃, hb₃, hi₃, hk₃⟩ :=
      rebalanceInsert_spec h₂ (.red .nil .nil) hf
    have hlen : T₃.items.length = (c.plug ColorTree.nil).items.length + 1 := by
      rw [hi₃, items_plug, items_plug]
      simp
      omega
    refine ⟨{ t₃ with size := t₃.size + 1 }, T₃, ?_,
      ⟨⟨h₃.rep, h₃.root, h₃.nodup, h₃.range, h₃.sentinel, h₃.fresh⟩, ⟨m₃, hb₃⟩, ?_, fun _ => ?_, ?_⟩,
      ?_⟩
    · rw [insert, hroot, show (nil : ℕ) = ctxPtr (top : ColorCtx α) from rfl, hpos, ok_bind]
      simp only [ht₁, ht₂, ok_bind]
      rw [show t.fresh = ptr (node t.fresh false .nil v .nil) from rfl, ht₃, ok_bind]
    · rw [hi₃, ← hf₂]
      exact hk₃.first
    · rw [hi₃, ← hl₂]
      exact hk₃.last
    · rw [hlen]
      change t₃.size + 1 = _
      rw [hk₃.size, hsz₂, hsz₁, h.size]
      simp
    · rw [hi₃, items_plug, items_plug]
      simp only [items_node, items_nil, List.nil_append, List.append_nil, List.map_append,
        List.map_cons, List.append_assoc, List.cons_append]
      rw [insertKey_split]
      · intro x hx
        obtain ⟨p, hp, rfl⟩ := List.mem_map.mp hx
        exact hv.1 p hp
      · intro y hy
        obtain ⟨p, hp, rfl⟩ := List.mem_map.mp hy
        exact hv.2 p hp

end RBTree

end LimitOrderBook
