import LimitOrderBook.Properties.Iteration

/-!
# Bounds and ranges

What `lower_bound`, `upper_bound` and `range` return on a tree with nodes
(`LimitOrderBook.RBTree.Bounded`, `LimitOrderBook.RBTree.Ranged`), after every sequence of
calls (`LimitOrderBook.ranges`).

There is no position past the end, so a bound that no key meets is the last node, and a
loop from the lower to the upper bound leaves the greatest key of the tree out. The two
bounds are in order because the keys below the first value are below the second one.
-/

namespace LimitOrderBook

open ColorTree

namespace RBTree

variable {α : Type} {lt : α → α → Bool} {t : RBTree α} {T : ColorTree α} {v w : α}

/-- The pointer is that of the least key that meets a condition, or of the greatest key if
there is none. -/
def BoundAt (lt : α → α → Bool) (t : RBTree α) (meets : α → Prop) (p : ℕ) : Prop :=
  ∃ k ∈ t.stored, p ∈ t.nodes ∧ t.key p = .ok k ∧
    ((meets k ∧ ∀ k' ∈ t.stored, meets k' → lt k' k = false) ∨
      (∀ k' ∈ t.stored, ¬ meets k') ∧ ∀ k' ∈ t.stored, lt k k' = false)

/-- **A range**: from the lower to the upper bound the iterator sees, in increasing order, the
keys from `v` to `w` that are not the greatest of the tree. -/
structure Ranged (lt : α → α → Bool) (t : RBTree α) (v w : α) : Prop where
  lower : ∃ p, t.lowerBound lt v = .ok p ∧ BoundAt lt t (fun k => lt k v = false) p
  upper : ∃ p, t.upperBound lt w = .ok p ∧ BoundAt lt t (fun k => lt w k = true) p
  between : ∃ p q ps ks, t.range lt v w = .ok (p, q) ∧
    visit t.successor q t.fuel p = .ok ps ∧ ps.mapM t.key = .ok ks ∧ SortedKeys lt ks ∧
    ∀ k, k ∈ ks ↔ k ∈ t.stored ∧ lt k v = false ∧ lt w k = false ∧ ∃ k' ∈ t.stored, lt k k' = true

/-- A list sorted by keys falls into those that are too small and the others. -/
theorem exists_split (tooSmall : α → Bool) {items : List (ℕ × α)}
    (hmono : items.Pairwise fun x y => tooSmall y.2 = true → tooSmall x.2 = true) :
    ∃ xs ys, items = xs ++ ys ∧ (∀ x ∈ xs, tooSmall x.2 = true) ∧
      ∀ y ∈ ys, tooSmall y.2 = false := by
  induction items with
  | nil => exact ⟨[], [], rfl, by simp, by simp⟩
  | cons z items ih =>
    obtain ⟨hz, hmono⟩ := List.pairwise_cons.mp hmono
    rcases hsmall : tooSmall z.2 with _ | _
    · refine ⟨[], z :: items, rfl, by simp, fun y hy => ?_⟩
      rcases List.mem_cons.mp hy with rfl | hy
      · exact hsmall
      · exact Bool.eq_false_iff.mpr fun h => by simp [hz y hy h] at hsmall
    · obtain ⟨xs, ys, rfl, hxs, hys⟩ := ih hmono
      refine ⟨z :: xs, ys, rfl, fun x hx => ?_, hys⟩
      rcases List.mem_cons.mp hx with rfl | hx
      · exact hsmall
      · exact hxs x hx

/-- The key of the last item is the greatest one. -/
theorem lt_last_eq_false (hlt : StrictWeak lt) {items zs : List (ℕ × α)} {z : ℕ × α}
    (hs : items.Pairwise fun x y => lt x.2 y.2 = true) (hz : items = zs ++ [z]) :
    ∀ x ∈ items, lt z.2 x.2 = false := by
  intro x hx
  rw [hz] at hx hs
  rcases List.mem_append.mp hx with hx | hx
  · exact hlt.asymm ((List.pairwise_append.mp hs).2.2 x hx z (by simp))
  · rw [List.mem_singleton.mp hx]
    exact hlt.irrefl

/-- **What a bound returns**, with the items split at it. -/
theorem Valid.boundAt (hlt : StrictWeak lt) (h : Valid t T) (hs : SortedKeys lt (T.items.map Prod.snd))
    (hT : T ≠ .nil) (tooSmall : α → Bool) {xs ys : List (ℕ × α)} (hi : T.items = xs ++ ys)
    (hxs : ∀ x ∈ xs, tooSmall x.2 = true) (hys : ∀ y ∈ ys, tooSmall y.2 = false) :
    ∃ p, t.bound tooSmall t.fuel t.last t.root = .ok p ∧
      BoundAt lt t (fun k => tooSmall k = false) p := by
  have hpair := List.pairwise_map.mp hs
  have hmem : ∀ k, k ∈ t.stored ↔ ∃ x ∈ T.items, x.2 = k := fun k =>
    (h.toHolds.mem_stored k).trans List.mem_map
  have hnode : ∀ x ∈ T.items, x.1 ∈ t.nodes ∧ t.key x.1 = .ok x.2 := fun x hx => by
    refine ⟨?_, h.toHolds.key_item hx⟩
    rw [h.toHolds.nodes_eq]
    exact List.mem_map_of_mem hx
  have hbound := h.bound_eq hi hxs hys hT
  rcases ys with _ | ⟨y, ys⟩
  · -- every key is too small: the last one
    obtain ⟨zs, z, hz⟩ := (List.eq_nil_or_concat T.items).resolve_left (mt items_eq_nil.mp hT)
    rw [List.concat_eq_append] at hz
    have hzm : z ∈ T.items := by simp [hz]
    refine ⟨z.1, by rw [hbound, hz, ← Prod.mk.eta (p := z), lastPtr_concat]; rfl, z.2,
      (hmem _).mpr ⟨z, hzm, rfl⟩, (hnode z hzm).1, (hnode z hzm).2, Or.inr ⟨?_, ?_⟩⟩
    · intro k hk
      obtain ⟨x, hx, rfl⟩ := (hmem k).mp hk
      rw [hi, List.append_nil] at hx
      simp [hxs x hx]
    · intro k hk
      obtain ⟨x, hx, rfl⟩ := (hmem k).mp hk
      exact lt_last_eq_false hlt hpair hz x hx
  · have hym : y ∈ T.items := by simp [hi]
    refine ⟨y.1, by rw [hbound]; rfl, y.2, (hmem _).mpr ⟨y, hym, rfl⟩, (hnode y hym).1,
      (hnode y hym).2, Or.inl ⟨hys y (by simp), fun k hk hmeets => ?_⟩⟩
    obtain ⟨x, hx, rfl⟩ := (hmem k).mp hk
    rw [hi] at hx hpair
    rcases List.mem_append.mp hx with hx | hx
    · exact absurd hmeets (by simp [hxs x hx])
    · rcases List.mem_cons.mp hx with rfl | hx
      · exact hlt.irrefl
      · exact hlt.asymm ((List.pairwise_cons.mp (List.pairwise_append.mp hpair).2.1).1 x hx)

/-- The split of the items at both ends of a range. -/
theorem exists_range (hlt : StrictWeak lt) {items : List (ℕ × α)}
    (hs : items.Pairwise fun x y => lt x.2 y.2 = true) (hvw : lt w v = false) :
    ∃ xs zs ys, items = xs ++ (zs ++ ys) ∧ (∀ x ∈ xs, lt x.2 v = true ∧ lt w x.2 = false) ∧
      (∀ z ∈ zs, lt z.2 v = false ∧ lt w z.2 = false) ∧ ∀ y ∈ ys, lt y.2 v = false ∧ lt w y.2 = true := by
  have hbelow : ∀ k, lt k v = true → lt w k = false := fun k hk =>
    Bool.eq_false_iff.mpr fun hwk => absurd (hlt.trans hwk hk) (by simp [hvw])
  obtain ⟨as, ys, rfl, has, hys⟩ := exists_split (fun k => !lt w k) <| hs.imp
    fun {x y} hxy hy => by
      rw [Bool.not_eq_true', ← Bool.not_eq_true] at hy ⊢
      exact fun hx => hy (hlt.trans hx hxy)
  obtain ⟨xs, zs, rfl, hxs, hzs⟩ := exists_split (fun k => lt k v) <|
    (List.pairwise_append.mp hs).1.imp fun {x y} hxy hy => hlt.trans hxy hy
  refine ⟨xs, zs, ys, List.append_assoc _ _ _, fun x hx => ⟨hxs x hx, hbelow _ (hxs x hx)⟩,
    fun z hz => ⟨hzs z hz, ?_⟩, fun y hy => ⟨?_, ?_⟩⟩
  · simpa using has z (List.mem_append_right _ hz)
  · refine Bool.eq_false_iff.mpr fun hyv => ?_
    simpa [hbelow _ hyv] using hys y hy
  · simpa using hys y hy

/-- A key from `v` to `w` that is not the greatest of the tree. -/
def InRange (lt : α → α → Bool) (t : RBTree α) (v w k : α) : Prop :=
  k ∈ t.stored ∧ lt k v = false ∧ lt w k = false ∧ ∃ k' ∈ t.stored, lt k k' = true

/-- What the iterator sees between two places of the list, if the bounds are there. -/
theorem Valid.between (h : Valid t T) (hs : SortedKeys lt (T.items.map Prod.snd))
    {as bs cs : List (ℕ × α)} {b : ℕ} {k' : α} (hitems : T.items = as ++ bs ++ (b, k') :: cs)
    (hlower : t.lowerBound lt v = .ok ((bs.map Prod.fst).head?.getD b))
    (hupper : t.upperBound lt w = .ok b)
    (hks : ∀ k, k ∈ bs.map Prod.snd ↔ InRange lt t v w k) :
    ∃ p q ps ks, t.range lt v w = .ok (p, q) ∧ visit t.successor q t.fuel p = .ok ps ∧
      ps.mapM t.key = .ok ks ∧ SortedKeys lt ks ∧ ∀ k, k ∈ ks ↔ InRange lt t v w k := by
  have hsub : bs.Sublist T.items := by
    rw [hitems]
    exact (List.sublist_append_right as bs).trans (List.sublist_append_left _ _)
  refine ⟨_, _, bs.map Prod.fst, bs.map Prod.snd, ?_, h.toHolds.visit_between hitems,
    h.toHolds.mapM_key hsub.subset, hs.sublist (hsub.map Prod.snd), hks⟩
  rw [range, hlower, ok_bind, hupper, ok_bind]

/-- **A valid tree** answers ranges. -/
theorem Valid.ranged (hlt : StrictWeak lt) (h : Valid t T) (hs : SortedKeys lt (T.items.map Prod.snd))
    (hT : T ≠ .nil) (hvw : lt w v = false) : Ranged lt t v w := by
  have hpair := List.pairwise_map.mp hs
  have hmem : ∀ k, k ∈ t.stored ↔ ∃ x ∈ T.items, x.2 = k := fun k =>
    (h.toHolds.mem_stored k).trans List.mem_map
  obtain ⟨xs, zs, ys, hi, hxs, hzs, hys⟩ := exists_range hlt hpair hvw
  have hlow : ∀ y ∈ zs ++ ys, lt y.2 v = false := fun y hy =>
    (List.mem_append.mp hy).elim (fun hy => (hzs y hy).1) fun hy => (hys y hy).1
  have hhigh : ∀ x ∈ xs ++ zs, (!lt w x.2) = true := fun x hx => by
    rcases List.mem_append.mp hx with hx | hx
    · simp [(hxs x hx).2]
    · simp [(hzs x hx).2]
  have hup : ∀ y ∈ ys, (!lt w y.2) = false := fun y hy => by simp [(hys y hy).2]
  have hi' : T.items = (xs ++ zs) ++ ys := by rw [hi, List.append_assoc]
  have hlower : t.lowerBound lt v = _ := h.bound_eq hi (fun x hx => (hxs x hx).1) hlow hT
  have hupper : t.upperBound lt w = _ := h.bound_eq hi' hhigh hup hT
  refine ⟨h.boundAt hlt hs hT _ hi (fun x hx => (hxs x hx).1) hlow, ?_, ?_⟩
  · obtain ⟨p, hp, hat⟩ := h.boundAt hlt hs hT (fun k => !lt w k) hi' hhigh hup
    refine ⟨p, hp, ?_⟩
    simpa only [Bool.not_eq_false'] using hat
  have hstored : ∀ x ∈ T.items, x.2 ∈ t.stored := fun x hx => (hmem _).mpr ⟨x, hx, rfl⟩
  rcases ys with _ | ⟨⟨b, k'⟩, cs⟩
  · -- no key is beyond the range: the loop ends at the last node
    rw [List.append_nil] at hi hi' hlower
    rcases List.eq_nil_or_concat zs with rfl | ⟨zs, ⟨b, k'⟩, rfl⟩
    · rw [List.append_nil] at hi
      obtain ⟨as, ⟨b, k'⟩, rfl⟩ := (List.eq_nil_or_concat xs).resolve_left
        (hi ▸ mt items_eq_nil.mp hT)
      rw [List.concat_eq_append] at hi hxs
      have hsplit : T.items = as ++ [] ++ [(b, k')] := by rw [hi, List.append_nil]
      refine h.between hs hsplit ?_ ?_ fun k => ?_
      · rw [hlower, hi, lastPtr_concat]
        rfl
      · rw [hupper, hi, lastPtr_concat]
        rfl
      · refine iff_of_false (by simp) fun ⟨hk, hkv, _⟩ => ?_
        obtain ⟨x, hx, rfl⟩ := (hmem k).mp hk
        exact absurd (hxs x (hi ▸ hx)).1 (by simp [hkv])
    · rw [List.concat_eq_append] at hi hi' hzs hlower
      rw [← List.append_assoc] at hi
      have hlast := lt_last_eq_false hlt hpair hi
      refine h.between hs hi ?_ ?_ fun k => ⟨fun hk => ?_, fun ⟨hk, hkv, hwk, hk'⟩ => ?_⟩
      · rw [hlower]
        cases zs <;> rfl
      · rw [hupper, hi, lastPtr_concat]
        rfl
      · obtain ⟨z, hz, rfl⟩ := List.mem_map.mp hk
        obtain ⟨hzv, hwz⟩ := hzs z (List.mem_append_left _ hz)
        refine ⟨hstored z (by simp [hi, hz]), hzv, hwz, k', hstored (b, k') (by simp [hi]), ?_⟩
        rw [hi] at hpair
        exact (List.pairwise_append.mp hpair).2.2 z (List.mem_append_right _ hz) (b, k') (by simp)
      · obtain ⟨x, hx, rfl⟩ := (hmem k).mp hk
        obtain ⟨k'', hk'', hlt'⟩ := hk'
        obtain ⟨y, hy, rfl⟩ := (hmem k'').mp hk''
        rw [hi, List.append_assoc] at hx
        rcases List.mem_append.mp hx with hx | hx
        · exact absurd (hxs x hx).1 (by simp [hkv])
        rcases List.mem_append.mp hx with hx | hx
        · exact List.mem_map_of_mem hx
        · rw [List.mem_singleton.mp hx] at hlt'
          exact absurd hlt' (by simp [hlast y hy])
  · refine h.between hs hi' ?_ hupper fun k => ⟨fun hk => ?_, fun ⟨hk, hkv, hwk, _⟩ => ?_⟩
    · rw [hlower]
      cases zs <;> rfl
    · obtain ⟨z, hz, rfl⟩ := List.mem_map.mp hk
      obtain ⟨hzv, hwz⟩ := hzs z hz
      refine ⟨hstored z (by simp [hi, hz]), hzv, hwz, k', hstored (b, k') (by simp [hi]), ?_⟩
      rw [hi'] at hpair
      exact (List.pairwise_append.mp hpair).2.2 z (List.mem_append_right _ hz) (b, k') (by simp)
    · obtain ⟨x, hx, rfl⟩ := (hmem k).mp hk
      rw [hi] at hx
      rcases List.mem_append.mp hx with hx | hx
      · exact absurd (hxs x hx).1 (by simp [hkv])
      rcases List.mem_append.mp hx with hx | hx
      · exact List.mem_map_of_mem hx
      · exact absurd (hys x hx).2 (by simp [hwk])

end RBTree

/-- **After every sequence of calls from an empty tree**, with any strict weak order, a tree
with nodes returns the bounds and the ranges that it should. -/
theorem ranges {α : Type} {lt : α → α → Bool} (hlt : StrictWeak lt) (cs : List (TreeCall α)) :
    ∃ t answers, runAll (RBTree.call lt) RBTree.empty cs = .ok (t, answers) ∧
      (t.root ≠ RBTree.nil → ∀ v w, lt w v = false → RBTree.Ranged lt t v w) := by
  obtain ⟨t, answers, hrun, T, hT, hs⟩ := RBTree.exists_run hlt cs
  refine ⟨t, answers, hrun, fun hne v w hvw => ?_⟩
  obtain ⟨hvalid, hnil⟩ := hT.valid hne
  exact hvalid.ranged hlt hs hnil hvw

/-- A range that ends beyond the greatest of three keys. -/
theorem ranges_nat : ∃ t answers,
    runAll (RBTree.call fun a b : ℕ => decide (a < b)) RBTree.empty
      [.insert 2, .insert 4, .insert 6] = .ok (t, answers) ∧
    RBTree.Ranged (fun a b : ℕ => decide (a < b)) t 3 7 := by
  obtain ⟨t, answers, hrun, h⟩ := ranges strictWeak_nat [.insert 2, .insert 4, .insert 6]
  have hroot := eq_of_ok_of_map hrun (f := fun r => decide (r.1.root = RBTree.nil)) (b := false)
    (by decide +kernel)
  exact ⟨t, answers, hrun, h (of_decide_eq_false hroot) 3 7 (by decide)⟩

end LimitOrderBook
