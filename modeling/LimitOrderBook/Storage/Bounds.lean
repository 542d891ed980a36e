import LimitOrderBook.Storage.Iterate

/-!
# Both directions, bounds and ranges

The iterators of a valid tree node by node. The neighbours of a node are those of its
item in the list of all items (`LimitOrderBook.RBTree.Holds.successor_eq`,
`LimitOrderBook.RBTree.Holds.predecessor_eq`), so that a loop that steps with `++` goes
along that list, in one direction or the other, until it is where it has to stop
(`LimitOrderBook.RBTree.visit_spec`). The two bounds end at the first item whose key is
not too small, or at the last one (`LimitOrderBook.RBTree.Valid.bound_eq`).
-/

namespace LimitOrderBook

namespace RBTree

open ColorTree ColorCtx

variable {α : Type} {t : RBTree α} {T : ColorTree α} {a : ℕ} {k : α} {xs ys : List (ℕ × α)}

/-! ### Neighbours in the list of items -/

/-- The key of a node, by its item. -/
theorem Holds.key_item (h : Holds t T) (hi : (a, k) ∈ T.items) : t.key a = .ok k := by
  obtain ⟨xs, ys, hi⟩ := List.append_of_mem hi
  obtain ⟨c, b, l, r, rfl, -, -⟩ := exists_position hi h.nodup
  exact key_eq (Holds.mem_eq (d := .left) h) rfl

/-- The step of the reverse iterator. -/
theorem predecessor_spec {c : ColorCtx α} {b : Bool} {l r : ColorTree α}
    (h : Holds t (c.plug (node a b l k r))) :
    t.predecessor a = .ok (lastPtr (c.before ++ l.items)) := by
  have hgo : ∀ p, nil < p → (p == nil) = false := fun p hp => by simpa using hp.ne'
  exact neighbour_spec .left (by simp) hgo (c := c) (x := l) (y := r) h

theorem Holds.successor_eq (h : Holds t T) (hi : T.items = xs ++ (a, k) :: ys) :
    t.successor a = .ok (firstPtr ys) := by
  obtain ⟨c, b, l, r, rfl, -, hys⟩ := exists_position hi h.nodup
  rw [hys]
  exact successor_spec h

theorem Holds.predecessor_eq (h : Holds t T) (hi : T.items = xs ++ (a, k) :: ys) :
    t.predecessor a = .ok (lastPtr xs) := by
  obtain ⟨c, b, l, r, rfl, hxs, -⟩ := exists_position hi h.nodup
  rw [hxs]
  exact predecessor_spec h

/-! ### Loops over nodes -/

/-- **A loop that steps along a list** visits the nodes of the list. -/
theorem visit_spec {next : ℕ → Except Fault ℕ} {stop N : ℕ} {ps : List ℕ} (hN : ps.length < N)
    (hne : stop ∉ ps)
    (hnext : ∀ as p bs, ps = as ++ p :: bs → next p = .ok (bs.head?.getD stop)) :
    visit next stop N (ps.head?.getD stop) = .ok ps := by
  induction ps generalizing N with
  | nil =>
    obtain ⟨N, rfl⟩ : ∃ m, N = m + 1 := ⟨N - 1, by simp at hN; omega⟩
    exact if_pos rfl
  | cons p ps ih =>
    obtain ⟨N, rfl⟩ : ∃ m, N = m + 1 := ⟨N - 1, by simp at hN; omega⟩
    obtain ⟨hp, hps⟩ := not_or.mp (mt List.mem_cons.mpr hne)
    have hrest := ih (by simpa using hN) hps fun as q bs hq =>
      hnext (p :: as) q bs (by rw [hq, List.cons_append])
    rw [List.head?_cons, Option.getD_some, visit, if_neg (Ne.symm hp),
      hnext [] p ps rfl, ok_bind, hrest]
    rfl

/-- The pointer to the first of some items. -/
theorem firstPtr_eq (xs : List (ℕ × α)) : firstPtr xs = (xs.map Prod.fst).head?.getD nil := by
  cases xs <;> rfl

/-- The pointer to the last of some items. -/
theorem lastPtr_eq (xs : List (ℕ × α)) :
    lastPtr xs = (xs.map Prod.fst).reverse.head?.getD nil := by
  rcases List.eq_nil_or_concat xs with rfl | ⟨xs, x, rfl⟩
  · rfl
  · simp [lastPtr_concat]

/-- An address in the list of all addresses is that of an item. -/
theorem exists_item {p : ℕ} {as bs : List ℕ} (h : T.addrs = as ++ p :: bs) :
    ∃ xs k ys, T.items = xs ++ (p, k) :: ys ∧ xs.map Prod.fst = as ∧ ys.map Prod.fst = bs := by
  obtain ⟨xs, zs, hi, hxs, hzs⟩ := List.map_eq_append_iff.mp h
  obtain ⟨⟨q, k⟩, ys, rfl, rfl, hys⟩ := List.map_eq_cons_iff.mp hzs
  exact ⟨xs, k, ys, hi, hxs, hys⟩

/-- The loop from `begin()`. -/
theorem Valid.forward_eq (h : Valid t T) : t.forward = .ok T.addrs := by
  have hlen := h.length_add_two_le
  rw [forward, h.first, firstPtr_eq]
  refine visit_spec (show T.addrs.length < t.fuel by omega) h.nil_not_mem fun as p bs hp => ?_
  obtain ⟨xs, k, ys, hi, -, rfl⟩ := exists_item hp
  rw [h.toHolds.successor_eq hi, firstPtr_eq]

/-- The loop from `rbegin()`. -/
theorem Valid.backward_eq (h : Valid t T) (hT : T ≠ .nil) : t.backward = .ok T.addrs.reverse := by
  have hlen := h.length_add_two_le
  rw [backward, h.last hT, lastPtr_eq]
  have hfuel : T.addrs.reverse.length < t.fuel := by
    rw [List.length_reverse]
    omega
  refine visit_spec hfuel (fun hmem => h.nil_not_mem (List.mem_reverse.mp hmem)) fun as p bs hp => ?_
  have hp : T.addrs = bs.reverse ++ p :: as.reverse := by
    have hrev := congrArg List.reverse hp
    rw [List.reverse_reverse, List.reverse_append, List.reverse_cons, List.append_assoc] at hrev
    exact hrev
  obtain ⟨xs, k, ys, hi, hxs, -⟩ := exists_item hp
  rw [h.toHolds.predecessor_eq hi, lastPtr_eq, hxs, List.reverse_reverse]

/-- The nodes of a part of the list of items have its keys. -/
theorem Holds.mapM_key (h : Holds t T) {zs : List (ℕ × α)} (hz : zs ⊆ T.items) :
    (zs.map Prod.fst).mapM t.key = .ok (zs.map Prod.snd) := by
  induction zs with
  | nil => rfl
  | cons z zs ih =>
    rw [List.map_cons, List.mapM_cons, h.key_item (hz (List.mem_cons_self)), ok_bind,
      ih fun x hx => hz (List.mem_cons_of_mem z hx)]
    rfl

/-! ### Bounds -/

/-- **The loop of a bound** ends at the first item that is not too small, or where it
started if there is none. -/
theorem bound_spec {tooSmall : α → Bool} {N par res : ℕ} {y : ColorTree α}
    (hN : y.addrs.length < N) (h : Rep t.mem par y) (hnil : nil ∉ y.addrs)
    (hmono : y.items.Pairwise fun x z => tooSmall z.2 = true → tooSmall x.2 = true) :
    t.bound tooSmall N res (ptr y) =
      .ok (((y.items.find? fun x => !tooSmall x.2).map Prod.fst).getD res) := by
  induction y generalizing N par res with
  | nil =>
    obtain ⟨N, rfl⟩ : ∃ m, N = m + 1 := ⟨N - 1, by omega⟩
    exact if_pos rfl
  | node a b l k r ihl ihr =>
    obtain ⟨N, rfl⟩ : ∃ m, N = m + 1 := ⟨N - 1, by omega⟩
    obtain ⟨ha, hl, hr⟩ := h
    have hkey : t.key a = .ok k := key_eq ha rfl
    have hleft : t.left a = .ok (ptr l) := child_eq ha .left
    have hright : t.right a = .ok (ptr r) := child_eq ha .right
    rw [addrs_node, List.mem_append, List.mem_cons, not_or, not_or] at hnil
    rw [addrs_node, List.length_append, List.length_cons] at hN
    rw [items_node] at hmono ⊢
    obtain ⟨hml, hmr, hacross⟩ := List.pairwise_append.mp hmono
    rw [ptr_node, bound, if_neg (Ne.symm hnil.2.1), hkey, ok_bind, List.find?_append]
    by_cases hk : tooSmall k = true
    · -- everything on the left is too small as well
      have hnone : l.items.find? (fun x => !tooSmall x.2) = none :=
        List.find?_eq_none.mpr fun x hx => by simpa using hacross x hx (a, k) (by simp) hk
      rw [if_pos hk, hright, ok_bind, hnone, Option.none_or, List.find?_cons_of_neg (by simpa using hk)]
      exact ihr (by omega) hr hnil.2.2 (List.pairwise_cons.mp hmr).2
    · rw [if_neg hk, hleft, ok_bind, List.find?_cons_of_pos (by simpa using hk),
        ihl (by omega) hl hnil.1 hml]
      cases l.items.find? fun x => !tooSmall x.2 <;> rfl

/-- The bound of a valid tree, with the items that are too small first. -/
theorem Valid.bound_eq (h : Valid t T) {tooSmall : α → Bool} (hi : T.items = xs ++ ys)
    (hxs : ∀ x ∈ xs, tooSmall x.2 = true) (hys : ∀ y ∈ ys, tooSmall y.2 = false) (hT : T ≠ .nil) :
    t.bound tooSmall t.fuel t.last t.root = .ok ((ys.head?.map Prod.fst).getD (lastPtr T.items)) := by
  have hlen := h.length_add_two_le
  have hmono : T.items.Pairwise fun x z => tooSmall z.2 = true → tooSmall x.2 = true := by
    rw [hi, List.pairwise_append]
    refine ⟨List.pairwise_of_forall_mem_list fun x hx z _ _ => hxs x hx,
      List.pairwise_of_forall_mem_list fun x _ z hz hz' => ?_, fun x hx z _ _ => hxs x hx⟩
    exact absurd hz' (by simp [hys z hz])
  rw [h.root, bound_spec (show T.addrs.length < t.fuel by omega) h.rep h.nil_not_mem hmono,
    h.last hT, hi, List.find?_append, List.find?_eq_none.mpr fun x hx => by simp [hxs x hx],
    Option.none_or]
  rcases ys with _ | ⟨y, ys⟩
  · rfl
  · rw [List.find?_cons_of_pos (by simp [hys y (by simp)])]
    rfl

/-- Stepping from a node to another one further on visits what is between them. -/
theorem Holds.visit_between (h : Holds t T) {zs : List (ℕ × α)} {b : ℕ} {k' : α}
    (hi : T.items = xs ++ zs ++ (b, k') :: ys) :
    visit t.successor b t.fuel ((zs.map Prod.fst).head?.getD b) = .ok (zs.map Prod.fst) := by
  have hlen := h.length_add_two_le
  have haddrs : T.addrs = xs.map Prod.fst ++ zs.map Prod.fst ++ b :: ys.map Prod.fst := by
    rw [ColorTree.addrs, hi]
    simp
  have hnd := h.nodup
  rw [haddrs] at hlen hnd
  have hfuel : (zs.map Prod.fst).length < t.fuel := by
    rw [List.length_append, List.length_append] at hlen
    omega
  refine visit_spec hfuel (fun hb => ?_) fun as p bs hp => ?_
  · exact (List.nodup_append.mp hnd).2.2 b (List.mem_append_right _ hb) b (by simp) rfl
  · obtain ⟨us, ws, hzs, rfl, hws⟩ := List.map_eq_append_iff.mp hp
    obtain ⟨⟨q, k⟩, vs, rfl, rfl, rfl⟩ := List.map_eq_cons_iff.mp hws
    have hi : T.items = (xs ++ us) ++ (q, k) :: (vs ++ (b, k') :: ys) := by
      rw [hi, hzs]
      simp
    have hsucc := h.successor_eq hi
    rw [hsucc, firstPtr_eq]
    cases vs <;> rfl

end RBTree

end LimitOrderBook
