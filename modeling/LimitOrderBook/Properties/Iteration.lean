import LimitOrderBook.Properties.RedBlack
import LimitOrderBook.Storage.Bounds

/-!
# Iterating over the tree

What the iterators have to do on a tree with nodes (`LimitOrderBook.RBTree.Enumerates`):
the loop from `begin()` comes to every node once, in the order of the keys, the loop from
`rbegin()` to the same nodes from the last to the first, and a step back undoes a step.
They do so after every sequence of calls (`LimitOrderBook.iteration`).

The tree has no position past the end. A loop ends at the sentinel, which is where the
climb from the last node arrives; the other links of the sentinel are never read.
-/

namespace LimitOrderBook

open ColorTree

namespace RBTree

variable {α : Type} {lt : α → α → Bool} {t : RBTree α} {T : ColorTree α}

/-- The keys of the tree. -/
def stored (t : RBTree α) : Set α := {k | ∃ p ∈ t.nodes, t.key p = .ok k}

/-- **The iterators enumerate the tree.** -/
structure Enumerates (lt : α → α → Bool) (t : RBTree α) : Prop where
  /-- Each node is visited once, from `begin()` and from `rbegin()` on. -/
  visits : ∃ ps, t.forward = .ok ps ∧ t.backward = .ok ps.reverse ∧ ps.Nodup ∧
    (∀ p, p ∈ ps ↔ p ∈ t.nodes) ∧
    -- the keys that are seen are those of the tree, and they increase
    ∃ ks, ps.mapM t.key = .ok ks ∧ SortedKeys lt ks ∧ ∀ k, k ∈ ks ↔ k ∈ t.stored
  /-- A step forward can be taken back. -/
  forth : ∀ p ∈ t.nodes, p ≠ t.last → ∃ q ∈ t.nodes, t.successor p = .ok q ∧ t.predecessor q = .ok p
  /-- A step back can be taken back. -/
  back : ∀ p ∈ t.nodes, p ≠ t.first → ∃ q ∈ t.nodes, t.predecessor p = .ok q ∧ t.successor q = .ok p

/-- The keys of the tree are those of its items. -/
theorem Holds.mem_stored (h : Holds t T) (k : α) : k ∈ t.stored ↔ k ∈ T.items.map Prod.snd := by
  rw [List.mem_map]
  constructor
  · rintro ⟨p, hp, hk⟩
    exact ⟨(p, k), h.mem_items hp hk, rfl⟩
  · rintro ⟨⟨p, k'⟩, hi, rfl⟩
    refine ⟨p, ?_, h.key_item hi⟩
    rw [h.nodes_eq]
    exact List.mem_map.mpr ⟨(p, k'), hi, rfl⟩

/-- **A valid tree** is enumerated by its iterators. -/
theorem Valid.enumerates (h : Valid t T) (hs : SortedKeys lt (T.items.map Prod.snd))
    (hT : T ≠ .nil) : Enumerates lt t := by
  have hnodes : ∀ p, p ∈ T.addrs ↔ p ∈ t.nodes := fun p => by
    rw [h.toHolds.nodes_eq]
    rfl
  refine ⟨⟨T.addrs, h.forward_eq, h.backward_eq hT, h.nodup, hnodes, T.items.map Prod.snd,
    h.toHolds.mapM_key (List.Subset.refl _), hs, fun k => (h.toHolds.mem_stored k).symm⟩,
    fun p hp hlast => ?_, fun p hp hfirst => ?_⟩
  · obtain ⟨as, bs, hsplit⟩ := List.append_of_mem ((hnodes p).mpr hp)
    obtain ⟨xs, k, ys, hi, -, -⟩ := exists_item hsplit
    rcases ys with _ | ⟨⟨q, k'⟩, ys⟩
    · refine absurd ?_ hlast
      rw [h.last hT, hi, lastPtr_concat]
    · have hi' : T.items = (xs ++ [(p, k)]) ++ (q, k') :: ys := by
        rw [hi]
        simp
      refine ⟨q, (hnodes q).mp (List.mem_map.mpr ⟨(q, k'), by simp [hi], rfl⟩),
        h.toHolds.successor_eq hi, ?_⟩
      rw [h.toHolds.predecessor_eq hi', lastPtr_concat]
  · obtain ⟨as, bs, hsplit⟩ := List.append_of_mem ((hnodes p).mpr hp)
    obtain ⟨xs, k, ys, hi, -, -⟩ := exists_item hsplit
    rcases List.eq_nil_or_concat xs with rfl | ⟨xs, ⟨q, k'⟩, rfl⟩
    · refine absurd ?_ hfirst
      rw [h.first, hi, List.nil_append, firstPtr_cons]
    · rw [List.concat_eq_append] at hi
      have hi' : T.items = xs ++ (q, k') :: ((p, k) :: ys) := by
        rw [hi]
        simp
      refine ⟨q, (hnodes q).mp (List.mem_map.mpr ⟨(q, k'), by simp [hi], rfl⟩), ?_,
        h.toHolds.successor_eq hi'⟩
      rw [h.toHolds.predecessor_eq hi, lastPtr_concat]

/-- A usable tree with nodes is valid. -/
theorem Usable.valid (h : Usable t T) (hne : t.root ≠ nil) : Valid t T ∧ T ≠ .nil := by
  rcases h with h | ⟨-, h⟩
  · refine ⟨h, fun hT => hne ?_⟩
    rw [h.root, hT]
    rfl
  · exact absurd h.root hne

end RBTree

/-- **After every sequence of calls from an empty tree**, with any strict weak order, a tree
with nodes is enumerated by its iterators. -/
theorem iteration {α : Type} {lt : α → α → Bool} (hlt : StrictWeak lt) (cs : List (TreeCall α)) :
    ∃ t answers, runAll (RBTree.call lt) RBTree.empty cs = .ok (t, answers) ∧
      (t.root ≠ RBTree.nil → RBTree.Enumerates lt t) := by
  obtain ⟨t, answers, hrun, T, hT, hs⟩ := RBTree.exists_run hlt cs
  refine ⟨t, answers, hrun, fun hne => ?_⟩
  obtain ⟨hvalid, hnil⟩ := hT.valid hne
  exact hvalid.enumerates hs hnil

/-- Three keys, the least of which is removed. -/
theorem iteration_nat : ∃ t answers,
    runAll (RBTree.call fun a b : ℕ => decide (a < b)) RBTree.empty
      [.insert 2, .insert 1, .insert 3, .remove 1] = .ok (t, answers) ∧
    RBTree.Enumerates (fun a b : ℕ => decide (a < b)) t := by
  obtain ⟨t, answers, hrun, h⟩ := iteration strictWeak_nat
    [.insert 2, .insert 1, .insert 3, .remove 1]
  have hroot := eq_of_ok_of_map hrun (f := fun r => decide (r.1.root = RBTree.nil)) (b := false)
    (by decide +kernel)
  exact ⟨t, answers, hrun, h (of_decide_eq_false hroot)⟩

end LimitOrderBook
