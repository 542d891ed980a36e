import Mathlib.Data.List.Nodup

/-!
# Doubly linked lists

Objects with a link to the next one and a link to the previous one, over an
arbitrary type of addresses. `LimitOrderBook.Linked` says that the links of the
members of a list lead along the list in both directions, and end at its ends.
The two surgeries are appending a new last member
(`LimitOrderBook.Linked.concat`) and taking a member out
(`LimitOrderBook.Linked.remove`).

The links of objects outside the list are free: a member that was taken out keeps
its own links, and nothing is said about them.
-/

namespace LimitOrderBook

variable {α : Type} {next prev next' prev' : α → Option α} {q xs ys : List α} {a : α}

/-- **The links lead along a list.** -/
structure Linked (next prev : α → Option α) (q : List α) : Prop where
  next_eq : ∀ {xs a ys}, q = xs ++ a :: ys → next a = ys.head?
  prev_eq : ∀ {xs a ys}, q = xs ++ a :: ys → prev a = xs.getLast?

theorem linked_nil : Linked next prev [] where
  next_eq h := absurd h (by simp)
  prev_eq h := absurd h (by simp)

/-- Only the links of the members matter. -/
theorem Linked.congr (h : Linked next prev q) (hn : ∀ a ∈ q, next' a = next a)
    (hp : ∀ a ∈ q, prev' a = prev a) : Linked next' prev' q where
  next_eq := by
    rintro xs a ys rfl
    rw [hn a (by simp), h.next_eq rfl]
  prev_eq := by
    rintro xs a ys rfl
    rw [hp a (by simp), h.prev_eq rfl]

/-- A list of one member. -/
theorem linked_singleton (hn : next a = none) (hp : prev a = none) : Linked next prev [a] := by
  constructor
  all_goals
    intro xs b ys h
    obtain rfl : xs = [] := by
      cases xs with
      | nil => rfl
      | cons x xs => simp at h
    obtain ⟨rfl, rfl⟩ := List.cons.inj h
  · exact hn
  · exact hp

/-- The links of a member lead to members. -/
theorem Linked.next_mem (h : Linked next prev q) {b : α} (ha : a ∈ q) (hb : next a = some b) :
    b ∈ q := by
  obtain ⟨xs, ys, rfl⟩ := List.append_of_mem ha
  rw [h.next_eq rfl] at hb
  exact List.mem_append_right _ (List.mem_cons_of_mem _ (List.mem_of_mem_head? hb))

theorem Linked.prev_mem (h : Linked next prev q) {b : α} (ha : a ∈ q) (hb : prev a = some b) :
    b ∈ q := by
  obtain ⟨xs, ys, rfl⟩ := List.append_of_mem ha
  rw [h.prev_eq rfl] at hb
  exact List.mem_append_left _ (List.mem_of_getLast? hb)

/-- The two links are inverse to each other. -/
theorem Linked.next_iff_prev (h : Linked next prev q) {b : α} (ha : a ∈ q) (hb : b ∈ q) :
    next a = some b ↔ prev b = some a := by
  constructor
  · intro hab
    obtain ⟨xs, ys, rfl⟩ := List.append_of_mem ha
    rw [h.next_eq rfl] at hab
    obtain ⟨zs, rfl⟩ := List.head?_eq_some_iff.mp hab
    rw [h.prev_eq (List.append_cons xs a (b :: zs)), List.getLast?_concat]
  · intro hba
    obtain ⟨xs, ys, rfl⟩ := List.append_of_mem hb
    rw [h.prev_eq rfl] at hba
    obtain ⟨ws, rfl⟩ := List.getLast?_eq_some_iff.mp hba
    rw [h.next_eq (List.append_cons ws a (b :: ys)).symm, List.head?_cons]

/-- **A new last member**: the old last one is linked to it and back. -/
theorem Linked.concat (h : Linked next prev (xs ++ [a])) {b : α} (hnd : (xs ++ [a]).Nodup)
    (hna : next' a = some b) (hnb : next' b = none) (hpb : prev' b = some a)
    (hn : ∀ c ∈ xs, next' c = next c) (hp : ∀ c ∈ xs ++ [a], prev' c = prev c) :
    Linked next' prev' (xs ++ [a] ++ [b]) := by
  -- a split of the longer list is at its end, or is one of the old list
  have hsplit : ∀ {us c vs}, xs ++ [a] ++ [b] = us ++ c :: vs →
      (us = xs ++ [a] ∧ c = b ∧ vs = []) ∨ ∃ ws, vs = ws ++ [b] ∧ xs ++ [a] = us ++ c :: ws := by
    intro us c vs he
    rcases List.eq_nil_or_concat vs with rfl | ⟨ws, w, rfl⟩
    · obtain ⟨h₁, h₂⟩ := List.append_inj' he rfl
      exact Or.inl ⟨h₁.symm, (List.cons.inj h₂).1.symm, rfl⟩
    · rw [List.concat_eq_append, ← List.cons_append, ← List.append_assoc] at he
      obtain ⟨h₁, h₂⟩ := List.append_inj' he rfl
      exact Or.inr ⟨ws, by rw [List.concat_eq_append, h₂], h₁⟩
  constructor
  · intro us c vs he
    rcases hsplit he with ⟨-, rfl, rfl⟩ | ⟨ws, rfl, hq⟩
    · exact hnb
    · by_cases hws : ws = []
      · subst hws
        obtain ⟨-, h₂⟩ := List.append_inj' hq rfl
        obtain ⟨rfl, -⟩ := List.cons.inj h₂
        exact hna
      · have hc : c ∈ xs := by
          have hmem : c ∈ xs ++ [a] := by rw [hq]; simp
          rcases List.mem_append.mp hmem with hc | hc
          · exact hc
          · exfalso
            obtain rfl : c = a := by simpa using hc
            -- the last member is not followed by another one
            obtain ⟨zs, z, rfl⟩ := (List.eq_nil_or_concat ws).resolve_left hws
            rw [List.concat_eq_append, ← List.cons_append, ← List.append_assoc] at hq
            obtain ⟨h₁, -⟩ := List.append_inj' hq rfl
            rw [h₁] at hnd
            exact (List.nodup_append.mp hnd).2.2 c (by simp) c (by simp) rfl
        rw [hn c hc, h.next_eq hq]
        cases ws with
        | nil => exact absurd rfl hws
        | cons w ws => rfl
  · intro us c vs he
    rcases hsplit he with ⟨rfl, rfl, -⟩ | ⟨ws, -, hq⟩
    · rw [hpb]
      simp
    · rw [hp c (by rw [hq]; simp), h.prev_eq hq]

/-- **Taking a member out**: its two neighbours are linked to each other. -/
theorem Linked.remove (h : Linked next prev (xs ++ a :: ys)) (hnd : (xs ++ a :: ys).Nodup)
    (hnx : ∀ c, xs.getLast? = some c → next' c = ys.head?)
    (hpy : ∀ c, ys.head? = some c → prev' c = xs.getLast?)
    (hn : ∀ c ∈ xs ++ ys, xs.getLast? ≠ some c → next' c = next c)
    (hp : ∀ c ∈ xs ++ ys, ys.head? ≠ some c → prev' c = prev c) :
    Linked next' prev' (xs ++ ys) := by
  obtain ⟨hxn, hyn, hdis⟩ := List.nodup_append.mp hnd
  have hdis' : ∀ c ∈ xs, c ∉ ys := fun c hc hy => hdis c hc c (List.mem_cons_of_mem _ hy) rfl
  constructor
  · intro us c vs he
    have hmem : c ∈ xs ++ ys := by rw [he]; simp
    rcases List.append_eq_append_iff.mp he with ⟨ws, rfl, hys⟩ | ⟨ws, hxs, hcv⟩
    · -- behind the place
      have hq : xs ++ a :: ys = (xs ++ a :: ws) ++ c :: vs := by rw [hys]; simp
      have hne : xs.getLast? ≠ some c := fun hl =>
        hdis' c (List.mem_of_getLast? hl) (by rw [hys]; simp)
      rw [hn c hmem hne, h.next_eq hq]
    · cases ws with
      | nil =>
        -- the first one behind the place
        have hys : ys = c :: vs := hcv.symm
        have hq : xs ++ a :: ys = (xs ++ [a]) ++ c :: vs := by rw [hys]; simp
        have hne : xs.getLast? ≠ some c := fun hl =>
          hdis' c (List.mem_of_getLast? hl) (by simp [hys])
        rw [hn c hmem hne, h.next_eq hq]
      | cons w ws =>
        obtain ⟨rfl, hvs⟩ := List.cons.inj hcv
        have hvs : vs = ws ++ ys := hvs
        by_cases hl : xs.getLast? = some c
        · -- the last one before the place
          have hws : ws = [] := by
            by_contra hws
            obtain ⟨zs, z, rfl⟩ := (List.eq_nil_or_concat ws).resolve_left hws
            rw [hxs, List.concat_eq_append, ← List.cons_append, ← List.append_assoc] at hxn hl
            rw [List.getLast?_concat] at hl
            obtain rfl := Option.some.inj hl
            exact (List.nodup_append.mp hxn).2.2 z (by simp) z (by simp) rfl
          rw [hnx c hl, hvs, hws, List.nil_append]
        · have hq : xs ++ a :: ys = us ++ c :: (ws ++ a :: ys) := by rw [hxs]; simp
          rw [hn c hmem hl, h.next_eq hq, hvs]
          cases ws with
          | nil => exact absurd (by rw [hxs, List.getLast?_concat]) hl
          | cons w ws => rfl
  · intro us c vs he
    have hmem : c ∈ xs ++ ys := by rw [he]; simp
    rcases List.append_eq_append_iff.mp he with ⟨ws, rfl, hys⟩ | ⟨ws, hxs, hcv⟩
    · by_cases hh : ys.head? = some c
      · -- the first one behind the place
        have hws : ws = [] := by
          by_contra hws
          obtain ⟨z, zs, rfl⟩ := List.exists_cons_of_ne_nil hws
          rw [hys] at hyn hh
          obtain rfl : z = c := by simpa using hh
          simp at hyn
        rw [hpy c hh, hws, List.append_nil]
      · have hq : xs ++ a :: ys = (xs ++ a :: ws) ++ c :: vs := by rw [hys]; simp
        rw [hp c hmem hh, h.prev_eq hq]
        cases ws with
        | nil => exact absurd (by rw [hys]; rfl) hh
        | cons w ws =>
          rw [List.getLast?_append_of_ne_nil _ (by simp), List.getLast?_append_of_ne_nil _ (by simp),
            List.getLast?_cons_cons]
    · cases ws with
      | nil =>
        have hys : ys = c :: vs := hcv.symm
        rw [hpy c (by rw [hys]; rfl), hxs, List.append_nil]
      | cons w ws =>
        obtain ⟨rfl, -⟩ := List.cons.inj hcv
        have hq : xs ++ a :: ys = us ++ c :: (ws ++ a :: ys) := by rw [hxs]; simp
        have hne : ys.head? ≠ some c := fun hh =>
          hdis' c (by rw [hxs]; simp) (List.mem_of_mem_head? hh)
        rw [hp c hmem hne, h.prev_eq hq]

end LimitOrderBook
