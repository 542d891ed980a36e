import LimitOrderBook.Storage.Rebalance
import LimitOrderBook.Storage.Iterate

/-!
# Removal

A node with an empty child is replaced by its other child; a node with two
children is replaced by its in-order successor, which is first taken out of the
right subtree. In both cases what leaves the tree is one node with an empty
child, and the place it leaves holds that node's other child
(`LimitOrderBook.RBTree.unlink_spec`). If the node was red the tree is still
balanced; if it was black there is a deficit at that place, which
`LimitOrderBook.RBTree.rebalanceDelete_spec` repairs.

The end pointers are moved before the node is unlinked, by a look at the node's
own links only; this is right because a node at an end of a balanced tree has at
most one child, a red leaf (`LimitOrderBook.RBTree.retireEnd_eq`).
-/

namespace LimitOrderBook

namespace RBTree

open ColorTree ColorCtx

variable {α : Type} {t : RBTree α}

/-! ### Transplanting -/

/-- **`transplant`** hangs a subtree into the context of a node and sets its
parent link – that of the sentinel, if the subtree is empty. -/
theorem transplant_spec {c : ColorCtx α} {a par : ℕ} {n : Node α} {r : ColorTree α}
    (ha : t.mem a = some n) (hpar : n.parent = ctxPtr c) (hc : RepCtx t.mem a c)
    (hr : Rep t.mem par r) (hroot : t.root = rootOf c a)
    (hsent : ∃ n, t.mem nil = some n ∧ IsSentinel n) (hcn : c.addrs.Nodup) (hcnil : nil ∉ c.addrs)
    (hac : a ∉ c.addrs) (hanil : a ≠ nil) (hrn : r.addrs.Nodup) (hrnil : nil ∉ r.addrs)
    (hd : ∀ p ∈ r.addrs, p ∉ c.addrs) :
    ∃ t', t.transplant a (ptr r) = .ok t' ∧ RepCtx t'.mem (ptr r) c ∧ Rep t'.mem (ctxPtr c) r ∧
      t'.root = rootOf c (ptr r) ∧ (∃ n, t'.mem nil = some n ∧ IsSentinel n) ∧
      t'.parent (ptr r) = .ok (ctxPtr c) ∧
      (∀ p, p ∉ c.addrs → p ≠ ptr r → t'.mem p = t.mem p) ∧ Same t t' := by
  obtain ⟨t₁, ht₁, hc₁, hf₁, -, hroot₁⟩ :=
    relink_rep (q := ptr r) .left hc hcn hcnil hac hanil hroot
  have hpa : t.parent a = .ok (ctxPtr c) := by rw [parent_eq ha, hpar]
  have hpa₁ : t₁.parent a = .ok (ctxPtr c) := by
    rw [parent_eq ((hf₁.mem a hac).trans ha), hpar]
  have hrun : t.transplant a (ptr r) = t₁.setParent (ptr r) (ctxPtr c) := by
    simp [transplant, hpa, ht₁, hpa₁]
  have hr₁ : Rep t₁.mem par r := hr.congr fun p hp => hf₁.mem p (hd p hp)
  have hs₁ : t₁.mem nil = t.mem nil := hf₁.mem nil hcnil
  rw [hrun]
  by_cases hne : r = .nil
  · -- the sentinel gets a parent
    subst hne
    obtain ⟨s, hs, hsent⟩ := hsent
    rw [← hs₁] at hs
    refine ⟨t₁.write nil { s with parent := ctxPtr c }, setParent_eq hs _, ?_, trivial, hroot₁,
      ⟨_, write_mem_self, hsent⟩, ?_, ?_, ⟨hf₁.fresh, hf₁.first, hf₁.last, hf₁.size⟩⟩
    · exact hc₁.congr fun p hp => write_mem_of_ne fun he => hcnil (he ▸ hp)
    · rw [ptr_nil, parent_eq write_mem_self]
    · intro p hp hpr
      exact (write_mem_of_ne hpr).trans (hf₁.mem p hp)
  · obtain ⟨t₂, ht₂, hr₂, hf₂, hroot₂⟩ := setParent_rep (q := ctxPtr c) hr₁ hne hrn
    have hmem : ptr r ∈ r.addrs := ptr_mem_addrs hne
    have hm₂ : ∀ p, p ≠ ptr r → t₂.mem p = t₁.mem p := fun p hp => hf₂.mem p (by simpa using hp)
    refine ⟨t₂, ht₂, ?_, hr₂, hroot₂.trans hroot₁, ?_, ?_, ?_, hf₁.same.trans hf₂.same⟩
    · exact hc₁.congr fun p hp => hm₂ p fun he => hd p (he ▸ hmem) hp
    · rw [hm₂ nil fun he => hrnil (he ▸ hmem), hs₁]
      exact hsent
    · cases r with
      | nil => exact absurd rfl hne
      | node a' b l k r => exact parent_eq hr₂.1
    · intro p hp hpr
      rw [hm₂ p hpr, hf₁.mem p hp]

/-- The parent link of a position, once the sentinel's is known. -/
theorem Holds.parent_ptr {c : ColorCtx α} {y : ColorTree α} (h : Holds t (c.plug y))
    (hs : y = .nil → t.parent nil = .ok (ctxPtr c)) : t.parent (ptr y) = .ok (ctxPtr c) := by
  cases y with
  | nil => exact hs rfl
  | node a b l k r => exact parent_eq (Holds.mem_eq (d := .left) h)

theorem delete_mem_of_ne {p q : ℕ} (h : q ≠ p) : (t.delete p).mem q = t.mem q := by
  simp [delete, h]

/-! ### Unlinking a node with an empty child -/

section OneChild

variable {c : ColorCtx α} {d : Dir} {a : ℕ} {b : Bool} {k : α} {r : ColorTree α}

/-- **A node with an empty child** is replaced by its other child. -/
theorem transplant_child (h : Holds t (c.plug (bin d a b k .nil r))) :
    ∃ t', t.transplant a (ptr r) = .ok t' ∧ Holds (t'.delete a) (c.plug r) ∧
      (t'.delete a).parent (ptr r) = .ok (ctxPtr c) ∧ Same t t' := by
  obtain ⟨hb, hc⟩ := rep_plug.mp h.rep
  obtain ⟨ha, -, hr⟩ := rep_bin.mp hb
  obtain ⟨hn, hcn, hdis⟩ := nodup_addrs_plug.mp h.nodup
  obtain ⟨-, har, -, hrn, -⟩ := nodup_addrs_bin.mp hn
  have hnil := h.nil_not_mem
  simp only [mem_addrs_plug, mem_addrs_bin, not_or] at hnil
  have hac : a ∉ c.addrs := hdis a (mem_addrs_bin.mpr (Or.inl rfl))
  have hrc : ∀ p ∈ r.addrs, p ∉ c.addrs := fun p hp =>
    hdis p (mem_addrs_bin.mpr (Or.inr (Or.inr hp)))
  rw [ptr_bin] at hc
  have hroot : t.root = rootOf c a := by rw [h.root, ptr_plug, ptr_bin]
  obtain ⟨t', ht', hc', hr', hroot', hs', hp', -, hk'⟩ := transplant_spec ha dirNode_parent hc hr
    hroot h.sentinel hcn hnil.2 hac (fun he => hnil.1.1 he.symm) hrn hnil.1.2.2 hrc
  have hpa : ptr r ≠ a := by
    intro he
    by_cases hne : r = .nil
    · rw [hne] at he
      exact hnil.1.1 he
    · exact har (he ▸ ptr_mem_addrs hne)
  refine ⟨t', ht', ⟨rep_plug.mpr ⟨?_, ?_⟩, ?_, ?_, ?_, ?_, ?_⟩, ?_, hk'⟩
  · exact hr'.congr fun p hp => delete_mem_of_ne fun he => har (he ▸ hp)
  · exact hc'.congr fun p hp => delete_mem_of_ne fun he => hac (he ▸ hp)
  · rw [ptr_plug]
    exact hroot'
  · exact nodup_addrs_plug.mpr ⟨hrn, hcn, hrc⟩
  · intro p hp
    rw [show (t'.delete a).fresh = t.fresh from hk'.fresh]
    refine h.range p (mem_addrs_plug.mpr ?_)
    rcases mem_addrs_plug.mp hp with hp | hp
    · exact Or.inl (mem_addrs_bin.mpr (Or.inr (Or.inr hp)))
    · exact Or.inr hp
  · rw [delete_mem_of_ne hnil.1.1]
    exact hs'
  · rw [show (t'.delete a).fresh = t.fresh from hk'.fresh]
    exact h.fresh
  · rw [← hp']
    simp only [RBTree.parent, fetch, delete_mem_of_ne hpa]

/-- What losing a node with an empty child means for the balance: nothing if it
was red, a deficit if it was black. -/
theorem lost_node {n : ℕ} (hbal : Bal (c.plug (bin d a b k .nil r)) true n) :
    (b = false → ∃ m, Bal (c.plug r) true m) ∧
      (b = true → Fits c true 1 ∧ (Bal r true 0 ∨
        ∃ a l k' r', r = node a false l k' r' ∧ Bal (node a true l k' r') true 1)) := by
  obtain ⟨col, m, hb, hf⟩ := Fits.of_plug hbal
  cases b with
  | false =>
    obtain ⟨rfl, hn, hr⟩ := hb.of_bin_red
    cases hn
    exact ⟨fun _ => hf.toTrue.plug hr, by simp⟩
  | true =>
    obtain ⟨rfl, m', c₁, c₂, rfl, hn, hr⟩ := hb.of_bin_black
    cases hn
    refine ⟨by simp, fun _ => ⟨hf, ?_⟩⟩
    rcases hr.of_height_zero with ⟨rfl, -⟩ | ⟨a', k', rfl, -⟩
    · exact Or.inl .nil
    · exact Or.inr ⟨a', .nil, k', .nil, rfl, .black .nil .nil⟩

end OneChild

/-! ### Unlinking a node with two children -/

section TwoChildren

variable {c c₂ : ColorCtx α} {a m : ℕ} {b bm : Bool} {k km : α} {l rr : ColorTree α}

/-- **The successor leaves the right subtree** and becomes the root of what is
left of it. -/
theorem detachSuccessor_spec
    (h : Holds t (c.plug (node a b l k (c₂.plug (node m bm .nil km rr))))) :
    ∃ t' par q, t.detachSuccessor a m = .ok t' ∧
      t'.mem a = some ⟨some k, b, ctxPtr c, ptr l, q⟩ ∧ Rep t'.mem a l ∧ RepCtx t'.mem a c ∧
      Rep t'.mem par (node m bm .nil km (c₂.plug rr)) ∧ t'.root = t.root ∧
      (∃ n, t'.mem nil = some n ∧ IsSentinel n) ∧
      (rr = .nil → t'.parent nil = .ok (ctxPtr (c₂.append (step .right m b km l c)))) ∧
      Same t t' := by
  have h₀ : Holds t ((c₂.append (step .right a b k l c)).plug (node m bm .nil km rr)) := by
    rw [plug_append]
    exact h
  obtain ⟨hnode, hc⟩ := rep_plug.mp h.rep
  obtain ⟨ha, hl, -⟩ := hnode
  obtain ⟨hm, hctx⟩ := rep_plug.mp h₀.rep
  obtain ⟨hmm, -, hrr⟩ := hm
  obtain ⟨hn, hcn, hdis⟩ := nodup_addrs_plug.mp h.nodup
  obtain ⟨hal, har, hln, hrn, hlr⟩ := nodup_addrs_bin (d := .left) |>.mp hn
  obtain ⟨hnm, hn₂, hdis₂⟩ := nodup_addrs_plug.mp hrn
  obtain ⟨-, hmr, -, hrrn, -⟩ := nodup_addrs_bin (d := .left) |>.mp hnm
  have hnil := h.nil_not_mem
  simp only [mem_addrs_plug, addrs_node, List.mem_append, List.mem_cons, not_or, addrs_nil,
    List.not_mem_nil, false_or] at hnil hdis har hlr
  obtain ⟨⟨hnl, hna, ⟨hnm', hnrr⟩, hnc₂⟩, hnc⟩ := hnil
  have hright : t.right m = .ok (ptr rr) := child_eq hmm .right
  have hmpar : t.parent m = .ok (ctxPtr (c₂.append (step .right a b k l c))) := parent_eq hmm
  cases c₂ with
  | top =>
    -- the successor is the right child itself
    rw [ColorCtx.append, ctxPtr_step] at hmm hmpar
    have hrun : t.detachSuccessor a m = t.setParent (ptr rr) m := by
      simp [detachSuccessor, hmpar, hright]
    have hma : m ≠ a := fun he => har.1.1 he.symm
    rw [hrun]
    by_cases hne : rr = .nil
    · subst hne
      obtain ⟨s, hs, hsent⟩ := h.sentinel
      have hm' : ∀ p, p ≠ nil → (t.write nil { s with parent := m }).mem p = t.mem p :=
        fun p hp => write_mem_of_ne hp
      refine ⟨t.write nil { s with parent := m }, a, m, setParent_eq hs m, ?_, ?_, ?_, ?_, rfl,
        ⟨_, write_mem_self, hsent⟩, fun _ => ?_, ⟨rfl, rfl, rfl, rfl⟩⟩
      · exact (hm' a fun he => hna he.symm).trans ha
      · exact hl.congr fun p hp => hm' p fun he => hnl (he ▸ hp)
      · exact hc.congr fun p hp => hm' p fun he => hnc (he ▸ hp)
      · exact ⟨(hm' m fun he => hnm' he.symm).trans hmm, trivial, trivial⟩
      · exact parent_eq write_mem_self
    · obtain ⟨t', ht', hrr', hf, hroot⟩ := setParent_rep (q := m) hrr hne hrrn
      have hmem : ptr rr ∈ rr.addrs := ptr_mem_addrs hne
      have hm' : ∀ p, p ∉ rr.addrs → t'.mem p = t.mem p := fun p hp =>
        hf.mem p fun he => hp (by rwa [List.mem_singleton.mp he])
      refine ⟨t', a, m, ht', ?_, ?_, ?_, ?_, hroot, ?_, fun he => absurd he hne, hf.same⟩
      · exact (hm' a har.1.2).trans ha
      · exact hl.congr fun p hp => hm' p fun hpr => (hlr p hp).1.2 hpr
      · exact hc.congr fun p hp => hm' p fun hpr =>
          hdis p (Or.inr (Or.inr (Or.inl (Or.inr hpr)))) hp
      · exact ⟨(hm' m hmr).trans hmm, trivial, hrr'⟩
      · rw [hm' nil hnrr]
        exact h.sentinel
  | step e a₂ b₂ k₂ s₂ up₂ =>
    -- the successor is further down: its right child takes its place
    have ha₂ : a ≠ a₂ := fun he => har.2 (mem_addrs_step.mpr (Or.inl he))
    have hnot : ctxPtr ((step e a₂ b₂ k₂ s₂ up₂).append (step .right a b k l c)) ≠ a :=
      fun he => ha₂ he.symm
    obtain ⟨hn₀, hctxn, hdis₀⟩ := nodup_addrs_plug.mp h₀.nodup
    have hnil₀ := h₀.nil_not_mem
    simp only [mem_addrs_plug, addrs_node, List.mem_append, List.mem_cons, not_or, addrs_nil,
      List.not_mem_nil, false_or] at hnil₀ hdis₀
    have hroot₀ : t.root =
        rootOf ((step e a₂ b₂ k₂ s₂ up₂).append (step .right a b k l c)) m := by
      rw [h₀.root, ptr_plug, ptr_node]
    obtain ⟨t₁, ht₁, hc₁, hr₁, hroot₁, hs₁, hp₁, hf₁, hk₁⟩ :=
      transplant_spec hmm rfl hctx hrr hroot₀ h₀.sentinel hctxn hnil₀.2 (hdis₀ m (Or.inl rfl))
        (fun he => hnm' he.symm) hrrn hnrr fun p hp => hdis₀ p (Or.inr hp)
    -- the tree without the successor
    have hrep₁ : Rep t₁.mem nil (c.plug (node a b l k ((step e a₂ b₂ k₂ s₂ up₂).plug rr))) := by
      have := rep_plug.mpr ⟨hr₁, hc₁⟩
      rw [plug_append] at this
      exact this
    generalize hr' : (step e a₂ b₂ k₂ s₂ up₂).plug rr = r' at hrep₁
    have hr'ne : r' ≠ .nil := by
      rintro rfl
      have hi := congrArg ColorTree.items hr'
      rw [plug_step, items_plug] at hi
      cases e <;> simp at hi
    have hr'mem : ∀ p, p ∈ r'.addrs ↔ p ∈ rr.addrs ∨ p ∈ (step e a₂ b₂ k₂ s₂ up₂).addrs := by
      intro p
      rw [← hr', mem_addrs_plug]
    have hr'n : r'.addrs.Nodup := by
      rw [← hr']
      exact nodup_addrs_plug.mpr ⟨hrrn, hn₂, fun p hp => hdis₂ p (by simp [hp])⟩
    obtain ⟨hnode₁, hcc₁⟩ := rep_plug.mp hrep₁
    obtain ⟨ha₁, hl₁, hrr₁⟩ := hnode₁
    have hm₁ : t₁.mem m = t.mem m := by
      refine hf₁ m (hdis₀ m (Or.inl rfl)) fun he => ?_
      by_cases hne : rr = .nil
      · rw [hne] at he
        exact hnm' he.symm
      · exact hmr (he ▸ ptr_mem_addrs hne)
    have hmr' : m ∉ r'.addrs := fun hmem => by
      rcases (hr'mem m).mp hmem with h' | h'
      · exact hmr h'
      · exact hdis₂ m (by simp) h'
    have hma : a ≠ m := fun he => har.1.1 he
    rw [← hm₁] at hmm
    -- it takes over what is left of the right subtree
    set t₂ := t₁.write m ⟨some km, bm,
      ctxPtr ((step e a₂ b₂ k₂ s₂ up₂).append (step .right a b k l c)), nil, ptr r'⟩ with ht₂
    have hm₂ : ∀ p, p ≠ m → t₂.mem p = t₁.mem p := fun p hp => write_mem_of_ne hp
    have hmm₂ : t₂.mem m = some ⟨some km, bm,
      ctxPtr ((step e a₂ b₂ k₂ s₂ up₂).append (step .right a b k l c)), nil, ptr r'⟩ :=
      write_mem_self
    have hrr₂ : Rep t₂.mem a r' := hrr₁.congr fun p hp => hm₂ p fun he => hmr' (he ▸ hp)
    obtain ⟨t₃, ht₃, hr₃, hf₃, hroot₃⟩ := setParent_rep (q := m) hrr₂ hr'ne hr'n
    have hm₃ : ∀ p, p ≠ m → p ∉ r'.addrs → t₃.mem p = t₁.mem p := fun p hpm hpr => by
      have hne : p ∉ [ptr r'] := fun he => hpr (by
        rw [List.mem_singleton.mp he]
        exact ptr_mem_addrs hr'ne)
      rw [hf₃.mem p hne, hm₂ p hpm]
    have hrun : t.detachSuccessor a m = .ok t₃ := by
      have h₁ : t₁.right a = .ok (ptr r') := child_eq ha₁ .right
      have h₂ : t₁.setChild .right m (ptr r') = .ok t₂ := setChild_eq hmm .right _
      have h₃ : t₂.right m = .ok (ptr r') := child_eq hmm₂ .right
      simp [detachSuccessor, hmpar, hnot, hright, ht₁, h₁, h₂, h₃, ht₃]
    have hcr : ∀ p ∈ c.addrs, p ∉ r'.addrs := fun p hp hpr => by
      rcases (hr'mem p).mp hpr with h' | h'
      · exact hdis p (Or.inr (Or.inr (Or.inl (Or.inr h')))) hp
      · exact hdis p (Or.inr (Or.inr (Or.inr h'))) hp
    have hlr' : ∀ p ∈ l.addrs, p ∉ r'.addrs := fun p hp hpr => by
      rcases (hr'mem p).mp hpr with h' | h'
      · exact (hlr p hp).1.2 h'
      · exact (hlr p hp).2 h'
    have hnr' : nil ∉ r'.addrs := fun hpr => by
      rcases (hr'mem nil).mp hpr with h' | h'
      · exact hnrr h'
      · exact hnc₂ h'
    have har' : a ∉ r'.addrs := fun hpr => by
      rcases (hr'mem a).mp hpr with h' | h'
      · exact har.1.2 h'
      · exact har.2 h'
    refine ⟨t₃, ctxPtr ((step e a₂ b₂ k₂ s₂ up₂).append (step .right a b k l c)), ptr r', hrun,
      ?_, ?_, ?_, ?_, ?_, ?_, ?_, ?_⟩
    · rw [hm₃ a hma har']
      exact ha₁
    · refine hl₁.congr fun p hp => hm₃ p (fun he => (hlr p hp).1.1 he) (hlr' p hp)
    · refine hcc₁.congr fun p hp => hm₃ p (fun he => ?_) (hcr p hp)
      exact hdis p (Or.inr (Or.inr (Or.inl (Or.inl he)))) hp
    · refine ⟨?_, trivial, hr₃⟩
      have hne : m ∉ [ptr r'] := fun he => hmr' (by
        rw [List.mem_singleton.mp he]
        exact ptr_mem_addrs hr'ne)
      rw [hf₃.mem m hne]
      exact hmm₂
    · rw [hroot₃, ht₂, write_root, hroot₁, hroot₀]
      rfl
    · rw [hm₃ nil hnm' hnr']
      exact hs₁
    · rintro rfl
      refine Eq.trans ?_ hp₁
      simp only [ptr_nil, RBTree.parent, fetch, hm₃ nil hnm' hnr']
    · exact ⟨hf₃.fresh.trans hk₁.fresh, hf₃.first.trans hk₁.first, hf₃.last.trans hk₁.last,
        hf₃.size.trans hk₁.size⟩

/-- **A node with two children** is replaced by its successor, which takes over
its colour and its left subtree. -/
theorem replace_spec (h : Holds t (c.plug (node a b l k (c₂.plug (node m bm .nil km rr)))))
    (hlne : l ≠ .nil) :
    ∃ t₁ t₂ t₃ t₄ t₅, t.detachSuccessor a m = .ok t₁ ∧ t₁.transplant a m = .ok t₂ ∧
      t₂.left a = .ok (ptr l) ∧ t₂.setChild .left m (ptr l) = .ok t₃ ∧
      t₃.left m = .ok (ptr l) ∧ t₃.setParent (ptr l) m = .ok t₄ ∧ t₄.isBlack a = .ok b ∧
      t₄.setBlack m b = .ok t₅ ∧
      Holds (t₅.delete a) ((c₂.append (step .right m b km l c)).plug rr) ∧
      (t₅.delete a).parent (ptr rr) = .ok (ctxPtr (c₂.append (step .right m b km l c))) ∧
      Same t t₅ := by
  obtain ⟨t₁, par, q, ht₁, ha₁, hl₁, hc₁, hm₁, hroot₁, hs₁, hp₁, hk₁⟩ := detachSuccessor_spec h
  obtain ⟨hn, hcn, hdis⟩ := nodup_addrs_plug.mp h.nodup
  obtain ⟨hal, har, hln, hrn, hlr⟩ := nodup_addrs_bin (d := .left) |>.mp hn
  obtain ⟨hnm, hn₂, hdis₂⟩ := nodup_addrs_plug.mp hrn
  obtain ⟨-, hmr, -, hrrn, -⟩ := nodup_addrs_bin (d := .left) |>.mp hnm
  have hnil := h.nil_not_mem
  simp only [mem_addrs_plug, addrs_node, List.mem_append, List.mem_cons, not_or, addrs_nil,
    List.not_mem_nil, false_or] at hnil hdis har hlr hdis₂
  obtain ⟨⟨hnl, hna, ⟨hnm', hnrr⟩, hnc₂⟩, hnc⟩ := hnil
  generalize hr' : c₂.plug rr = r' at hm₁
  have hr'mem : ∀ p, p ∈ r'.addrs ↔ p ∈ rr.addrs ∨ p ∈ c₂.addrs := by
    intro p
    rw [← hr', mem_addrs_plug]
  have hr'n : r'.addrs.Nodup := by
    rw [← hr']
    exact nodup_addrs_plug.mpr ⟨hrrn, hn₂, fun p hp => hdis₂ p (Or.inr hp)⟩
  have hmr' : m ∉ r'.addrs := fun hmem => by
    rcases (hr'mem m).mp hmem with h' | h'
    · exact hmr h'
    · exact hdis₂ m (Or.inl rfl) h'
  have hr'old : ∀ p ∈ r'.addrs, (p = m ∨ p ∈ rr.addrs) ∨ p ∈ c₂.addrs := fun p hp => by
    rcases (hr'mem p).mp hp with h' | h'
    · exact Or.inl (Or.inr h')
    · exact Or.inr h'
  have hnr' : nil ∉ r'.addrs := fun hmem => by
    rcases (hr'mem nil).mp hmem with h' | h'
    · exact hnrr h'
    · exact hnc₂ h'
  have har' : a ∉ r'.addrs := fun hmem => by
    rcases (hr'mem a).mp hmem with h' | h'
    · exact har.1.2 h'
    · exact har.2 h'
  have hlr' : ∀ p ∈ l.addrs, p ∉ r'.addrs := fun p hp hpr => by
    rcases (hr'mem p).mp hpr with h' | h'
    · exact (hlr p hp).1.2 h'
    · exact (hlr p hp).2 h'
  have hcr' : ∀ p ∈ r'.addrs, p ∉ c.addrs := fun p hp => hdis p (Or.inr (Or.inr (hr'old p hp)))
  have hmc : m ∉ c.addrs := hdis m (Or.inr (Or.inr (Or.inl (Or.inl rfl))))
  have hac : a ∉ c.addrs := hdis a (Or.inr (Or.inl rfl))
  have hlc : ∀ p ∈ l.addrs, p ∉ c.addrs := fun p hp => hdis p (Or.inl hp)
  have hml : ∀ p ∈ l.addrs, p ≠ m := fun p hp => (hlr p hp).1.1
  have hma : a ≠ m := har.1.1
  -- the successor takes the place of the node
  have hroot : t₁.root = rootOf c a := by rw [hroot₁, h.root, ptr_plug, ptr_node]
  obtain ⟨t₂, ht₂, hc₂, hm₂, hroot₂, hs₂, -, hf₂, hk₂⟩ :=
    transplant_spec (r := node m bm .nil km r') ha₁ rfl hc₁ hm₁ hroot hs₁ hcn hnc hac
      (fun he => hna he.symm) (nodup_addrs_bin (d := .left) |>.mpr
        ⟨by simp, hmr', by simp, hr'n, by simp⟩)
      (by simpa using ⟨hnm', hnr'⟩) (by
        intro p hp
        simp only [addrs_node, addrs_nil, List.nil_append, List.mem_cons] at hp
        rcases hp with rfl | hp
        · exact hmc
        · exact hcr' p hp)
  rw [ptr_node] at ht₂ hc₂ hroot₂ hf₂
  obtain ⟨hmm₂, -, hrr₂⟩ := hm₂
  have ha₂ : t₂.mem a = some ⟨some k, b, ctxPtr c, ptr l, q⟩ := (hf₂ a hac hma).trans ha₁
  have hl₂ : Rep t₂.mem a l := hl₁.congr fun p hp => hf₂ p (hlc p hp) (hml p hp)
  -- and takes over the left subtree
  set t₃ := t₂.write m ⟨some km, bm, ctxPtr c, ptr l, ptr r'⟩ with ht₃
  have hf₃ : ∀ p, p ≠ m → t₃.mem p = t₂.mem p := fun p hp => write_mem_of_ne hp
  have hmm₃ : t₃.mem m = some ⟨some km, bm, ctxPtr c, ptr l, ptr r'⟩ := write_mem_self
  have hl₃ : Rep t₃.mem a l := hl₂.congr fun p hp => hf₃ p (hml p hp)
  obtain ⟨t₄, ht₄, hl₄, hf₄, hroot₄⟩ := setParent_rep (q := m) hl₃ hlne hln
  have hplm : ptr l ∈ l.addrs := ptr_mem_addrs hlne
  have hm₄ : ∀ p, p ∉ l.addrs → t₄.mem p = t₃.mem p := fun p hp =>
    hf₄.mem p fun he => hp (by rwa [List.mem_singleton.mp he])
  have hmm₄ : t₄.mem m = some ⟨some km, bm, ctxPtr c, ptr l, ptr r'⟩ :=
    (hm₄ m fun hmem => hml m hmem rfl).trans hmm₃
  have ha₄ : t₄.mem a = some ⟨some k, b, ctxPtr c, ptr l, q⟩ := by
    rw [hm₄ a hal, hf₃ a hma, ha₂]
  set t₅ := t₄.write m ⟨some km, b, ctxPtr c, ptr l, ptr r'⟩ with ht₅
  -- what the memory is outside the successor, the left subtree and the removed node
  have hout : ∀ p, p ≠ m → p ∉ l.addrs → p ≠ a → (t₅.delete a).mem p = t₂.mem p := by
    intro p hpm hpl hpa
    rw [delete_mem_of_ne hpa, ht₅, write_mem_of_ne hpm, hm₄ p hpl, hf₃ p hpm]
  have hsame : Same t t₅ :=
    ⟨hf₄.fresh.trans (hk₂.fresh.trans hk₁.fresh), hf₄.first.trans (hk₂.first.trans hk₁.first),
      hf₄.last.trans (hk₂.last.trans hk₁.last), hf₄.size.trans (hk₂.size.trans hk₁.size)⟩
  have hfinal : Holds (t₅.delete a) ((c₂.append (step .right m b km l c)).plug rr) := by
    rw [plug_append, hr', plug_step, bin_right]
    refine ⟨rep_plug.mpr ⟨⟨?_, ?_, ?_⟩, ?_⟩, ?_, ?_, ?_, ?_, ?_⟩
    · exact (delete_mem_of_ne (Ne.symm hma)).trans write_mem_self
    · refine hl₄.congr fun p hp => ?_
      have hpa : p ≠ a := fun he => hal (he ▸ hp)
      rw [delete_mem_of_ne hpa, ht₅, write_mem_of_ne (hml p hp)]
    · exact hrr₂.congr fun p hp => hout p (fun he => hmr' (he ▸ hp))
        (fun hpl => hlr' p hpl hp) fun he => har' (he ▸ hp)
    · exact hc₂.congr fun p hp => hout p (fun he => hmc (he ▸ hp)) (fun hpl => hlc p hpl hp)
        fun he => hac (he ▸ hp)
    · rw [ptr_plug]
      exact hroot₄.trans hroot₂
    · refine nodup_addrs_plug.mpr ⟨nodup_addrs_bin (d := .left) |>.mpr
        ⟨fun hmem => hml m hmem rfl, hmr', hln, hr'n, hlr'⟩, hcn, fun p hp => ?_⟩
      simp only [addrs_node, List.mem_append, List.mem_cons] at hp
      rcases hp with hp | rfl | hp
      · exact hlc p hp
      · exact hmc
      · exact hcr' p hp
    · intro p hp
      rw [show (t₅.delete a).fresh = t.fresh from hsame.fresh]
      refine h.range p ?_
      simp only [mem_addrs_plug, addrs_node, List.mem_append, List.mem_cons, addrs_nil,
        List.not_mem_nil, false_or] at hp ⊢
      rcases hp with (hp | hp | hp) | hp
      · exact Or.inl (Or.inl hp)
      · exact Or.inl (Or.inr (Or.inr (Or.inl (Or.inl hp))))
      · exact Or.inl (Or.inr (Or.inr (hr'old p hp)))
      · exact Or.inr hp
    · rw [hout nil hnm' hnl hna]
      exact hs₂
    · rw [show (t₅.delete a).fresh = t.fresh from hsame.fresh]
      exact h.fresh
  refine ⟨t₁, t₂, t₃, t₄, t₅, ht₁, ht₂, child_eq ha₂ .left, setChild_eq hmm₂ .left _,
    child_eq hmm₃ .left, ht₄, isBlack_eq ha₄, setBlack_eq hmm₄ b, hfinal, ?_, hsame⟩
  refine hfinal.parent_ptr fun he => ?_
  rw [← hp₁ he]
  simp only [RBTree.parent, fetch, hout nil hnm' hnl hna, hf₂ nil hnc hnm']

end TwoChildren

/-! ### Unlinking -/

/-- The leftmost node of a subtree: its left child is empty and nothing of the
subtree comes before it. -/
theorem exists_leftmost {r : ColorTree α} (hr : r ≠ .nil) (hn : r.addrs.Nodup) :
    ∃ (c : ColorCtx α) (m : ℕ) (bm : Bool) (km : α) (rr : ColorTree α),
      r = c.plug (node m bm .nil km rr) ∧ firstPtr r.items = m ∧ c.before = [] := by
  obtain ⟨⟨m, km⟩, ys, hi⟩ := List.exists_cons_of_ne_nil (mt items_eq_nil.mp hr)
  have hi' : r.items = [] ++ (m, km) :: ys := hi
  obtain ⟨c, bm, l, rr, rfl, hl, -⟩ := exists_position hi' hn
  obtain ⟨hb, hl⟩ := List.append_eq_nil_iff.mp hl.symm
  obtain rfl : l = .nil := items_eq_nil.mp hl
  exact ⟨c, m, bm, km, rr, rfl, by rw [hi, firstPtr_cons], hb⟩

/-- **Unlinking a node**: the tree without it, and at the place of the node that
was lost a subtree with its parent link in place; if the lost node was red the
tree is balanced, if it was black there is a deficit. -/
theorem unlink_spec {c : ColorCtx α} {a n : ℕ} {b : Bool} {l r : ColorTree α} {k : α}
    (h : Holds t (c.plug (node a b l k r))) (hbal : Bal (c.plug (node a b l k r)) true n) :
    ∃ t' c' y col, t.unlink a = .ok (t', ptr y, col) ∧ Holds (t'.delete a) (c'.plug y) ∧
      (c'.plug y).items = (c.before ++ l.items) ++ (r.items ++ c.after) ∧ Same t t' ∧
      (col = false → ∃ m, Bal (c'.plug y) true m) ∧
      (col = true → Deficit (t'.delete a) c' y 0) := by
  have ha := Holds.mem_eq (d := .left) h
  have hcol : t.isBlack a = .ok b := isBlack_eq ha
  have hleft : t.left a = .ok (ptr l) := child_eq ha .left
  have hright : t.right a = .ok (ptr r) := child_eq ha .right
  by_cases hl : l = .nil
  · -- no left child
    subst hl
    obtain ⟨t', ht', h', hp', hk'⟩ := transplant_child (d := .left) h
    obtain ⟨hred, hblack⟩ := lost_node (d := .left) hbal
    refine ⟨t', c, r, b, ?_, h', ?_, hk', hred, fun hb => ?_⟩
    · simp [unlink, hcol, hleft, hright, ht']
    · simp [items_plug]
    · exact ⟨h', hp', (hblack hb).1, (hblack hb).2⟩
  have hlnil : ptr l ≠ nil := fun he => h.nil_not_mem (mem_addrs_plug.mpr (Or.inl (by
    simp [he ▸ ptr_mem_addrs hl])))
  by_cases hr : r = .nil
  · -- no right child
    subst hr
    obtain ⟨t', ht', h', hp', hk'⟩ := transplant_child (d := .right) h
    obtain ⟨hred, hblack⟩ := lost_node (d := .right) hbal
    refine ⟨t', c, l, b, ?_, h', ?_, hk', hred, fun hb => ?_⟩
    · simp [unlink, hcol, hleft, hright, hlnil, ht']
    · simp [items_plug]
    · exact ⟨h', hp', (hblack hb).1, (hblack hb).2⟩
  · -- two children: the lost node is the successor
    have hrnil : ptr r ≠ nil := fun he => h.nil_not_mem (mem_addrs_plug.mpr (Or.inl (by
      simp [he ▸ ptr_mem_addrs hr])))
    have hrn : r.addrs.Nodup :=
      (nodup_addrs_bin (d := .left) |>.mp (nodup_addrs_plug.mp h.nodup).1).2.2.2.1
    have hmost : t.mostLeft (ptr r) = .ok (firstPtr r.items) := by
      refine most_spec .left t.fuel (c := step .right a b k l c) ?_ h hr
      have hlen := h.length_add_two_le
      rw [addrs_plug, List.length_append, List.length_append, addrs_node, List.length_append,
        List.length_cons] at hlen
      omega
    obtain ⟨c₂, m, bm, km, rr, rfl, hfirst, hb₂⟩ := exists_leftmost hr hrn
    rw [hfirst] at hmost
    have h₀ : Holds t ((c₂.append (step .right a b k l c)).plug (node m bm .nil km rr)) := by
      rw [plug_append]
      exact h
    have hm := Holds.mem_eq (d := .left) h₀
    have hmcol : t.isBlack m = .ok bm := isBlack_eq hm
    have hmright : t.right m = .ok (ptr rr) := child_eq hm .right
    obtain ⟨t₁, t₂, t₃, t₄, t₅, ht₁, ht₂, hl₂, ht₃, hl₃, ht₄, hb₄, ht₅, h', hp', hk'⟩ :=
      replace_spec h hl
    have hbal₀ : Bal ((c₂.append (step .right a b k l c)).plug (node m bm .nil km rr)) true n := by
      rw [plug_append]
      exact hbal
    obtain ⟨hred, hblack⟩ : (bm = false →
          ∃ i, Bal ((c₂.append (step .right m b km l c)).plug rr) true i) ∧
        (bm = true → Fits (c₂.append (step .right m b km l c)) true 1 ∧ (Bal rr true 0 ∨
          ∃ a l k' r', rr = node a false l k' r' ∧ Bal (node a true l k' r') true 1)) := by
      -- the successor stands where the node stood
      obtain ⟨col, i, hb, hf⟩ := Fits.of_plug hbal₀
      have hf' : Fits (c₂.append (step .right m b km l c)) col i := hf.relabel
      obtain ⟨j, hj⟩ := hf'.plug hb
      exact lost_node (d := .left) hj
    refine ⟨t₅, _, rr, bm, ?_, h', ?_, hk', hred, fun hb => ?_⟩
    · simp [unlink, hcol, hleft, hright, hlnil, hrnil, hmost, hmcol, hmright, ht₁, ht₂, hl₂, ht₃,
        hl₃, ht₄, hb₄, ht₅]
    · rw [plug_append, plug_step, items_plug, bin_right, items_node, items_plug, items_plug, hb₂]
      simp
    · exact ⟨h', hp', (hblack hb).1, (hblack hb).2⟩

/-! ### The end pointers -/

/-- **A node at an end**: the child or the parent that `remove` moves the end
pointer to is the next node. -/
theorem retireEnd_eq (d : Dir) {c : ColorCtx α} {a n : ℕ} {b : Bool} {k : α} {x z : ColorTree α}
    (h : Holds t (c.plug (bin d a b k x z))) (hbal : Bal (c.plug (bin d a b k x z)) true n)
    (hend : onward d c x = []) :
    (if ptr z ≠ nil then ptr z else ctxPtr c) = endPtr d (onward d.flip c z) := by
  obtain ⟨hx, hb⟩ : x = .nil ∧ beyond d c = [] := by
    cases d with
    | left => exact ⟨items_eq_nil.mp (List.append_eq_nil_iff.mp hend).2,
        (List.append_eq_nil_iff.mp hend).1⟩
    | right => exact ⟨items_eq_nil.mp (List.append_eq_nil_iff.mp hend).1,
        (List.append_eq_nil_iff.mp hend).2⟩
  subst hx
  -- the other child is empty or a red leaf
  obtain ⟨col, m, hnode, -⟩ := Fits.of_plug hbal
  have hz : z = .nil ∨ ∃ a' k', z = node a' false .nil k' .nil := by
    cases b with
    | false =>
      obtain ⟨-, hn, hz⟩ := hnode.of_bin_red
      cases hn
      cases hz
      exact Or.inl rfl
    | true =>
      obtain ⟨-, m', c₁, c₂, -, hn, hz⟩ := hnode.of_bin_black
      cases hn
      rcases hz.of_height_zero with ⟨rfl, -⟩ | ⟨a', k', rfl, -⟩
      · exact Or.inl rfl
      · exact Or.inr ⟨a', k', rfl⟩
  rcases hz with rfl | ⟨a', k', rfl⟩
  · rw [if_neg (by simp)]
    cases d with
    | left =>
      rcases of_before_nil hb with rfl | ⟨a', b', k', s, up, rfl, -⟩
      · rfl
      · simp [endPtr, onward, after]
    | right =>
      rcases of_after_nil hb with rfl | ⟨a', b', k', s, up, rfl, -⟩
      · rfl
      · simp only [endPtr, onward, Dir.flip_right, before, items_nil, List.append_nil,
          lastPtr_concat, ctxPtr_step]
  · have hne : a' ≠ nil := fun he => h.nil_not_mem (mem_addrs_plug.mpr (Or.inl
      (mem_addrs_bin.mpr (Or.inr (Or.inr (by simp [he]))))))
    rw [ptr_node, if_pos hne]
    cases d with
    | left => simp [endPtr, onward]
    | right =>
      simp only [endPtr, onward, Dir.flip_right, items_node, items_nil, List.nil_append,
        lastPtr_concat]

/-- **The end pointers are moved** to the ends of the list without the node; an
emptied tree keeps its old last pointer. -/
theorem retireEnds_spec {c : ColorCtx α} {a : ℕ} {b : Bool} {l r : ColorTree α} {k : α}
    (h : Valid t (c.plug (node a b l k r))) :
    ∃ t', t.retireEnds a = .ok t' ∧ Holds t' (c.plug (node a b l k r)) ∧ t'.size = t.size ∧
      t'.first = firstPtr ((c.before ++ l.items) ++ (r.items ++ c.after)) ∧
      ((c.before ++ l.items) ++ (r.items ++ c.after) ≠ [] →
        t'.last = lastPtr ((c.before ++ l.items) ++ (r.items ++ c.after))) ∧
      ((c.before ++ l.items) ++ (r.items ++ c.after) = [] → t'.last = t.last) := by
  obtain ⟨n, hbal⟩ := h.bal
  have hitems : (c.plug (node a b l k r)).items =
      (c.before ++ l.items) ++ (a, k) :: (r.items ++ c.after) := by
    rw [items_plug]
    simp
  have hne : c.plug (node a b l k r) ≠ .nil := fun he => by
    have hi := congrArg ColorTree.items he
    rw [hitems] at hi
    simp at hi
  have hfirst := h.first
  have hlast := h.last hne
  have hnd := h.nodup
  rw [ColorTree.addrs] at hnd
  rw [hitems] at hfirst hlast hnd
  have ha := Holds.mem_eq (d := .left) h.toHolds
  have hpar : t.parent a = .ok (ctxPtr c) := parent_eq ha
  have hleft : t.left a = .ok (ptr l) := child_eq ha .left
  have hright : t.right a = .ok (ptr r) := child_eq ha .right
  have hstart := retireEnd_eq .left (x := l) (z := r) h.toHolds hbal
  have hstop := retireEnd_eq .right (x := r) (z := l) h.toHolds hbal
  have hh : ∀ f g, Holds { t with first := f, last := g } (c.plug (node a b l k r)) :=
    fun f g => ⟨h.rep, h.root, h.nodup, h.range, h.sentinel, h.fresh⟩
  simp only [onward, Dir.flip_left, Dir.flip_right, endPtr] at hstart hstop
  generalize c.before ++ l.items = xs at *
  generalize r.items ++ c.after = ys at *
  rw [List.map_append, List.map_cons, List.nodup_append, List.nodup_cons] at hnd
  obtain ⟨-, ⟨hays, -⟩, hxs⟩ := hnd
  by_cases hx : xs = []
  · -- the node is the first one
    subst hx
    have hf : a = t.first := by rw [hfirst]; rfl
    refine ⟨{ t with first := if ptr r ≠ nil then ptr r else ctxPtr c }, ?_, hh _ t.last, rfl,
      hstart rfl, fun hys => ?_, fun _ => rfl⟩
    · rw [retireEnds, if_pos hf, hright, ok_bind]
      by_cases hr : ptr r = nil <;> simp [hr, hpar]
    · have hys' : ys ≠ [] := hys
      rw [List.nil_append, show (a, k) :: ys = [(a, k)] ++ ys from rfl, lastPtr_append hys'] at hlast
      exact hlast
  · have hf : a ≠ t.first := by
      obtain ⟨p, ps, rfl⟩ := List.exists_cons_of_ne_nil hx
      rw [hfirst, List.cons_append, firstPtr_cons]
      exact fun he => hxs p.1 (by simp) a (by simp) he.symm
    rw [firstPtr_append hx] at hfirst
    by_cases hy : ys = []
    · -- the node is the last one
      subst hy
      rw [lastPtr_concat] at hlast
      refine ⟨{ t with last := if ptr l ≠ nil then ptr l else ctxPtr c }, ?_, hh t.first _, rfl, ?_,
        fun _ => ?_, fun he => absurd (List.append_eq_nil_iff.mp he).1 hx⟩
      · rw [retireEnds, if_neg hf, if_pos hlast.symm, hleft, ok_bind]
        by_cases hl : ptr l = nil <;> simp [hl, hpar]
      · rw [List.append_nil]
        exact hfirst
      · rw [List.append_nil]
        exact hstop rfl
    · have hl : a ≠ t.last := by
        obtain ⟨ps, p, hp⟩ := (List.eq_nil_or_concat ys).resolve_left hy
        rw [List.concat_eq_append] at hp
        rw [hlast, hp, show xs ++ (a, k) :: (ps ++ [p]) = (xs ++ (a, k) :: ps) ++ [p] by simp,
          lastPtr_concat]
        exact fun he => hays (by rw [hp, he]; simp)
      refine ⟨t, ?_, h.toHolds, rfl, ?_, fun _ => ?_, fun _ => rfl⟩
      · rw [retireEnds, if_neg hf, if_neg hl]
      · rw [firstPtr_append hx]
        exact hfirst
      · rw [lastPtr_append hy, hlast, lastPtr_append (by simp),
          show (a, k) :: ys = [(a, k)] ++ ys from rfl, lastPtr_append hy]

/-! ### The operation -/

/-- **`remove(Node*)` on a valid tree** takes the node out. -/
theorem removeNode_spec {c : ColorCtx α} {a : ℕ} {b : Bool} {l r : ColorTree α} {k : α}
    (h : Valid t (c.plug (node a b l k r))) :
    ∃ t' T, t.removeNode a = .ok t' ∧ Holds t' T ∧ (∃ m, Bal T true m) ∧
      T.items = (c.before ++ l.items) ++ (r.items ++ c.after) ∧ t'.size = t.size ∧
      t'.first = firstPtr T.items ∧ (T ≠ .nil → t'.last = lastPtr T.items) ∧
      (T = .nil → t'.last = t.last) := by
  obtain ⟨n, hbal⟩ := h.bal
  obtain ⟨t₁, ht₁, h₁, hsize₁, hfirst₁, hlast₁, hkept₁⟩ := retireEnds_spec h
  obtain ⟨t₂, c₂, y, col, ht₂, h₂, hi₂, hk₂, hred, hblack⟩ := unlink_spec h₁ hbal
  -- the tree after the rebalancing that the lost colour asks for
  obtain ⟨t₃, T, m, ht₃, h₃, hb₃, hi₃, hk₃⟩ : ∃ t₃ T m,
      (if col then (t₂.delete a).rebalanceDelete (ptr y) else .ok (t₂.delete a)) = .ok t₃ ∧
      Holds t₃ T ∧ Bal T true m ∧ T.items = (c₂.plug y).items ∧ Same (t₂.delete a) t₃ := by
    cases col with
    | false =>
      obtain ⟨m, hm⟩ := hred rfl
      exact ⟨t₂.delete a, _, m, rfl, h₂, hm, rfl, Same.refl _⟩
    | true =>
      obtain ⟨t₃, T, m, ht₃, hrest⟩ := rebalanceDelete_spec (hblack rfl)
      exact ⟨t₃, T, m, by simp [ht₃], hrest⟩
  rw [hi₂] at hi₃
  refine ⟨t₃, T, ?_, h₃, ⟨m, hb₃⟩, hi₃, ?_, ?_, fun hne => ?_, fun he => ?_⟩
  · simp only [removeNode, ht₁, ht₂, ok_bind]
    exact ht₃
  · exact hk₃.size.trans (hk₂.size.trans hsize₁)
  · rw [hi₃]
    exact hk₃.first.trans (hk₂.first.trans hfirst₁)
  · rw [hi₃]
    refine hk₃.last.trans (hk₂.last.trans (hlast₁ ?_))
    rw [← hi₃]
    exact mt items_eq_nil.mp hne
  · refine hk₃.last.trans (hk₂.last.trans (hkept₁ ?_))
    rw [← hi₃]
    exact items_eq_nil.mpr he

/-- What `remove` does to a valid tree, and to the last pointer when it takes the last key
away. -/
theorem remove_effect {lt : α → α → Bool} (hlt : StrictWeak lt) {T : ColorTree α}
    (h : Valid t T) (hs : SortedKeys lt (T.items.map Prod.snd)) (v : α) :
    ∃ t' T', t.remove lt v = .ok (t', (findKey lt v (T.items.map Prod.snd)).isSome) ∧
      Valid t' T' ∧ T'.items.map Prod.snd = eraseKey lt v (T.items.map Prod.snd) ∧
      (T' = .nil → t'.last = t.last) := by
  have hfuel : T.addrs.length < t.fuel := by
    have := h.length_add_two_le
    omega
  rcases searchTree_spec (c := top) hlt t.fuel hfuel h.toHolds hs
      ⟨by simp [before], by simp [after]⟩ with
    ⟨c, a, b, l, k, r, hpos, hT, hk, hbefore⟩ | ⟨c, hpos, hT, hv⟩
  · rw [plug_top] at hT
    subst hT
    have hanil : a ≠ nil := fun he => h.nil_not_mem (mem_addrs_plug.mpr (Or.inl (by simp [he])))
    obtain ⟨t₁, T₁, ht₁, h₁, hb₁, hi₁, hsize₁, hfirst₁, hlast₁, hkept₁⟩ := removeNode_spec h
    have hitems : (c.plug (node a b l k r)).items.map Prod.snd =
        (c.before ++ l.items).map Prod.snd ++ k :: (r.items ++ c.after).map Prod.snd := by
      rw [items_plug]
      simp
    have hxs : ∀ x ∈ (c.before ++ l.items).map Prod.snd, lt x v = true ∧ lt v x = false := by
      intro x hx
      obtain ⟨p, hp, rfl⟩ := List.mem_map.mp hx
      exact hbefore p hp
    refine ⟨{ t₁ with size := t₁.size - 1 }, T₁, ?_, ⟨⟨h₁.rep, h₁.root, h₁.nodup, h₁.range,
      h₁.sentinel, h₁.fresh⟩, hb₁, hfirst₁, hlast₁, ?_⟩, ?_, hkept₁⟩
    · rw [hitems, findKey_split_equiv hxs hk]
      simp [remove, h.root, hpos, hanil, ht₁]
    · have hlen : (c.plug (node a b l k r)).items.length = T₁.items.length + 1 := by
        rw [hi₁, items_plug]
        simp
        omega
      change t₁.size - 1 = _
      rw [hsize₁, h.size, hlen]
      simp
    · rw [hi₁, hitems, eraseKey_split_equiv hxs hk, List.map_append]
  · rw [plug_top] at hT
    subst hT
    have hxs : ∀ x ∈ c.before.map Prod.snd, lt x v = true ∧ lt v x = false := by
      intro x hx
      obtain ⟨p, hp, rfl⟩ := List.mem_map.mp hx
      exact hv.1 p hp
    have hys : ∀ y ∈ c.after.map Prod.snd, lt v y = true := by
      intro y hy
      obtain ⟨p, hp, rfl⟩ := List.mem_map.mp hy
      exact hv.2 p hp
    have hitems : (c.plug ColorTree.nil).items.map Prod.snd =
        c.before.map Prod.snd ++ c.after.map Prod.snd := by
      rw [items_plug]
      simp
    refine ⟨t, _, ?_, h, ?_, fun _ => rfl⟩
    · rw [hitems, findKey_split hxs hys]
      simp [remove, h.root, hpos]
    · rw [hitems, eraseKey_split hxs hys]

/-- **`remove` on a valid tree**: it returns whether there was an equivalent key,
the tree stays valid, and its keys are those of the sorted list without it. -/
theorem remove_spec {lt : α → α → Bool} (hlt : StrictWeak lt) {T : ColorTree α}
    (h : Valid t T) (hs : SortedKeys lt (T.items.map Prod.snd)) (v : α) :
    ∃ t' T', t.remove lt v = .ok (t', (findKey lt v (T.items.map Prod.snd)).isSome) ∧
      Valid t' T' ∧ T'.items.map Prod.snd = eraseKey lt v (T.items.map Prod.snd) := by
  obtain ⟨t', T', ht', hT', hk, -⟩ := remove_effect hlt h hs v
  exact ⟨t', T', ht', hT', hk⟩

end RBTree

end LimitOrderBook
