import Mathlib.Data.List.Basic
import Mathlib.Data.List.Pairwise
import Mathlib.Data.List.Perm.Basic
import Mathlib.Order.RelClasses

/-!
# Sorted lists of keys

An ordered container with a comparator `lt`, read as the list of its keys in
increasing order. Two keys neither of which is less than the other are the same
key to the container: inserting one replaces the other, searching for one finds
the other. The three operations are `LimitOrderBook.insertKey`,
`LimitOrderBook.eraseKey` and `LimitOrderBook.findKey`.

A search in a container splits its list at the place where the key belongs, with
smaller keys before and greater keys after; the `_split` lemmas say what the
operations do at that place, and the `mem_` lemmas what they do to the contents.
-/

namespace LimitOrderBook

variable {α : Type} (lt : α → α → Bool)

/-- Insert a key into a sorted list, replacing an equivalent one. -/
def insertKey (v : α) : List α → List α
  | [] => [v]
  | x :: xs => if lt v x then v :: x :: xs else if lt x v then x :: insertKey v xs else v :: xs

/-- Remove the key equivalent to `v` from a sorted list. -/
def eraseKey (v : α) : List α → List α
  | [] => []
  | x :: xs => if lt v x then x :: xs else if lt x v then x :: eraseKey v xs else xs

/-- Find the key equivalent to `v` in a sorted list. -/
def findKey (v : α) : List α → Option α
  | [] => none
  | x :: xs => if lt v x then none else if lt x v then findKey v xs else some x

/-- A list is sorted, without equivalent keys. -/
def SortedKeys (l : List α) : Prop := l.Pairwise fun a b => lt a b = true

/-- The comparator is a strict weak order. -/
abbrev StrictWeak : Prop := IsStrictWeakOrder α fun a b => lt a b = true

/-- Neither key is less than the other. -/
def Equiv (a b : α) : Prop := lt a b = false ∧ lt b a = false

variable {lt}

section Order

variable (hlt : StrictWeak lt) {a b c : α}

include hlt

theorem StrictWeak.irrefl : lt a a = false :=
  Bool.eq_false_iff.mpr fun h => irrefl_of (fun a b => lt a b = true) a h

theorem StrictWeak.trans (h : lt a b = true) (h' : lt b c = true) : lt a c = true :=
  IsTrans.trans (r := fun a b => lt a b = true) a b c h h'

theorem StrictWeak.asymm (h : lt a b = true) : lt b a = false := by
  rw [Bool.eq_false_iff]
  intro h'
  exact absurd (hlt.trans h h') (by rw [hlt.irrefl]; simp)

/-- A key below one of two equivalent keys is below the other. -/
theorem StrictWeak.lt_of_lt_of_equiv (h : lt a b = true) (h' : Equiv lt b c) :
    lt a c = true := by
  by_contra hac
  have hca : lt c a ≠ true := fun hca => by
    have := hlt.trans hca h
    rw [h'.2] at this
    exact absurd this (by simp)
  have := hlt.incomp_trans a c b ⟨hac, hca⟩ ⟨by simp [h'.2], by simp [h'.1]⟩
  exact this.1 h

/-- A key above one of two equivalent keys is above the other. -/
theorem StrictWeak.lt_of_equiv_of_lt (h : Equiv lt a b) (h' : lt b c = true) :
    lt a c = true := by
  by_contra hac
  have hca : lt c a ≠ true := fun hca => by
    have := hlt.trans h' hca
    rw [h.2] at this
    exact absurd this (by simp)
  have := hlt.incomp_trans b a c ⟨by simp [h.2], by simp [h.1]⟩ ⟨hac, hca⟩
  exact this.1 h'

end Order

/-- Natural numbers in increasing order. -/
theorem strictWeak_nat : StrictWeak fun a b : ℕ => decide (a < b) where
  irrefl := fun a => by simp
  trans := fun a b c hab hbc => by simp only [decide_eq_true_eq] at *; omega
  incomp_trans := fun a b c hab hbc => by simp only [decide_eq_true_eq] at *; omega

/-- Being sorted only depends on how the members compare. -/
theorem SortedKeys.congr {lt' : α → α → Bool} {l : List α} (hl : SortedKeys lt l)
    (h : ∀ a ∈ l, ∀ b ∈ l, lt' a b = lt a b) : SortedKeys lt' l :=
  List.Pairwise.imp_of_mem (fun ha hb hab => (h _ ha _ hb).trans hab) hl

/-! ### At the place where a key belongs -/

section Split

variable {v k : α} {xs ys : List α}

theorem insertKey_split (hxs : ∀ x ∈ xs, lt x v = true ∧ lt v x = false)
    (hys : ∀ y ∈ ys, lt v y = true) : insertKey lt v (xs ++ ys) = xs ++ v :: ys := by
  induction xs with
  | nil =>
    cases ys with
    | nil => rfl
    | cons y ys => simp [insertKey, hys y (by simp)]
  | cons x xs ih =>
    obtain ⟨h₁, h₂⟩ := hxs x (by simp)
    rw [List.cons_append, insertKey, h₂, h₁, ih fun z hz => hxs z (by simp [hz])]
    simp

theorem insertKey_split_equiv (hxs : ∀ x ∈ xs, lt x v = true ∧ lt v x = false)
    (hk : Equiv lt v k) : insertKey lt v (xs ++ k :: ys) = xs ++ v :: ys := by
  induction xs with
  | nil => simp [insertKey, hk.1, hk.2]
  | cons x xs ih =>
    obtain ⟨h₁, h₂⟩ := hxs x (by simp)
    rw [List.cons_append, insertKey, h₂, h₁, ih fun z hz => hxs z (by simp [hz])]
    simp

theorem eraseKey_split (hxs : ∀ x ∈ xs, lt x v = true ∧ lt v x = false)
    (hys : ∀ y ∈ ys, lt v y = true) : eraseKey lt v (xs ++ ys) = xs ++ ys := by
  induction xs with
  | nil =>
    cases ys with
    | nil => rfl
    | cons y ys => simp [eraseKey, hys y (by simp)]
  | cons x xs ih =>
    obtain ⟨h₁, h₂⟩ := hxs x (by simp)
    rw [List.cons_append, eraseKey, h₂, h₁, ih fun z hz => hxs z (by simp [hz])]
    simp

theorem eraseKey_split_equiv (hxs : ∀ x ∈ xs, lt x v = true ∧ lt v x = false)
    (hk : Equiv lt v k) : eraseKey lt v (xs ++ k :: ys) = xs ++ ys := by
  induction xs with
  | nil => simp [eraseKey, hk.1, hk.2]
  | cons x xs ih =>
    obtain ⟨h₁, h₂⟩ := hxs x (by simp)
    rw [List.cons_append, eraseKey, h₂, h₁, ih fun z hz => hxs z (by simp [hz])]
    simp

theorem findKey_split (hxs : ∀ x ∈ xs, lt x v = true ∧ lt v x = false)
    (hys : ∀ y ∈ ys, lt v y = true) : findKey lt v (xs ++ ys) = none := by
  induction xs with
  | nil =>
    cases ys with
    | nil => rfl
    | cons y ys => simp [findKey, hys y (by simp)]
  | cons x xs ih =>
    obtain ⟨h₁, h₂⟩ := hxs x (by simp)
    rw [List.cons_append, findKey, h₂, h₁, ih fun z hz => hxs z (by simp [hz])]
    simp

theorem findKey_split_equiv (hxs : ∀ x ∈ xs, lt x v = true ∧ lt v x = false)
    (hk : Equiv lt v k) : findKey lt v (xs ++ k :: ys) = some k := by
  induction xs with
  | nil => simp [findKey, hk.1, hk.2]
  | cons x xs ih =>
    obtain ⟨h₁, h₂⟩ := hxs x (by simp)
    rw [List.cons_append, findKey, h₂, h₁, ih fun z hz => hxs z (by simp [hz])]
    simp

/-- **Where a key belongs**: a sorted list splits into the smaller keys, at most
one equivalent key, and the greater keys. -/
theorem SortedKeys.exists_split {l : List α} (hlt : StrictWeak lt) (hl : SortedKeys lt l)
    (v : α) :
    ∃ xs ys, (∀ x ∈ xs, lt x v = true ∧ lt v x = false) ∧ (∀ y ∈ ys, lt v y = true) ∧
      (l = xs ++ ys ∨ ∃ k, Equiv lt v k ∧ l = xs ++ k :: ys) := by
  induction l with
  | nil => exact ⟨[], [], by simp, by simp, Or.inl rfl⟩
  | cons a l ih =>
    obtain ⟨ha, hl'⟩ := List.pairwise_cons.mp hl
    rcases hva : lt v a with _ | _
    · rcases hav : lt a v with _ | _
      · exact ⟨[], l, by simp, fun y hy => hlt.lt_of_equiv_of_lt ⟨hva, hav⟩ (ha y hy),
          Or.inr ⟨a, ⟨hva, hav⟩, rfl⟩⟩
      · obtain ⟨xs, ys, hxs, hys, hcase⟩ := ih hl'
        refine ⟨a :: xs, ys, ?_, hys, ?_⟩
        · rintro x (_ | ⟨_, hx⟩)
          · exact ⟨hav, hva⟩
          · exact hxs x hx
        · rcases hcase with rfl | ⟨k, hk, rfl⟩
          · exact Or.inl rfl
          · exact Or.inr ⟨k, hk, rfl⟩
    · refine ⟨[], a :: l, by simp, ?_, Or.inl rfl⟩
      rintro y (_ | ⟨_, hy⟩)
      · exact hva
      · exact hlt.trans hva (ha y hy)

end Split

/-! ### Contents -/

section Contents

variable (hlt : StrictWeak lt) {l : List α} (hl : SortedKeys lt l) {v : α}

include hlt hl

theorem SortedKeys.insertKey (v : α) : SortedKeys lt (LimitOrderBook.insertKey lt v l) := by
  obtain ⟨xs, ys, hxs, hys, rfl | ⟨k, hk, rfl⟩⟩ := hl.exists_split hlt v
  · rw [insertKey_split hxs hys]
    obtain ⟨h₁, h₂, h₃⟩ := List.pairwise_append.mp hl
    refine List.pairwise_append.mpr ⟨h₁, List.pairwise_cons.mpr ⟨hys, h₂⟩, ?_⟩
    rintro x hx y (_ | ⟨_, hy⟩)
    · exact (hxs x hx).1
    · exact h₃ x hx y hy
  · rw [insertKey_split_equiv hxs hk]
    obtain ⟨h₁, h₂, h₃⟩ := List.pairwise_append.mp hl
    refine List.pairwise_append.mpr ⟨h₁, List.pairwise_cons.mpr ⟨hys,
      (List.pairwise_cons.mp h₂).2⟩, ?_⟩
    rintro x hx y (_ | ⟨_, hy⟩)
    · exact (hxs x hx).1
    · exact h₃ x hx y (List.mem_cons_of_mem _ hy)

omit hlt in
theorem SortedKeys.eraseKey (v : α) : SortedKeys lt (LimitOrderBook.eraseKey lt v l) := by
  refine List.Pairwise.sublist ?_ hl
  induction l with
  | nil => exact List.Sublist.refl _
  | cons x l ih =>
    rw [LimitOrderBook.eraseKey]
    split
    · exact List.Sublist.refl _
    · split
      · exact (ih (List.pairwise_cons.mp hl).2).cons_cons x
      · exact List.sublist_cons_self x l

theorem mem_insertKey {w : α} :
    w ∈ insertKey lt v l ↔ w = v ∨ (w ∈ l ∧ ¬ Equiv lt v w) := by
  obtain ⟨xs, ys, hxs, hys, rfl | ⟨k, hk, rfl⟩⟩ := hl.exists_split hlt v
  · rw [insertKey_split hxs hys]
    simp only [List.mem_append, List.mem_cons]
    constructor
    · rintro (hw | rfl | hw)
      · exact Or.inr ⟨Or.inl hw, fun he => absurd (hxs w hw).1 (by simp [he.2])⟩
      · exact Or.inl rfl
      · exact Or.inr ⟨Or.inr hw, fun he => absurd (hys w hw) (by simp [he.1])⟩
    · rintro (rfl | ⟨hw | hw, -⟩)
      · exact Or.inr (Or.inl rfl)
      · exact Or.inl hw
      · exact Or.inr (Or.inr hw)
  · rw [insertKey_split_equiv hxs hk]
    simp only [List.mem_append, List.mem_cons]
    constructor
    · rintro (hw | rfl | hw)
      · exact Or.inr ⟨Or.inl hw, fun he => absurd (hxs w hw).1 (by simp [he.2])⟩
      · exact Or.inl rfl
      · exact Or.inr ⟨Or.inr (Or.inr hw), fun he => absurd (hys w hw) (by simp [he.1])⟩
    · rintro (rfl | ⟨hw | rfl | hw, hne⟩)
      · exact Or.inr (Or.inl rfl)
      · exact Or.inl hw
      · exact absurd hk hne
      · exact Or.inr (Or.inr hw)

theorem mem_eraseKey {w : α} : w ∈ eraseKey lt v l ↔ w ∈ l ∧ ¬ Equiv lt v w := by
  obtain ⟨xs, ys, hxs, hys, rfl | ⟨k, hk, rfl⟩⟩ := hl.exists_split hlt v
  · rw [eraseKey_split hxs hys, List.mem_append]
    refine ⟨fun hw => ⟨hw, fun he => ?_⟩, fun hw => hw.1⟩
    rcases hw with hw | hw
    · exact absurd (hxs w hw).1 (by simp [he.2])
    · exact absurd (hys w hw) (by simp [he.1])
  · rw [eraseKey_split_equiv hxs hk]
    simp only [List.mem_append, List.mem_cons]
    constructor
    · rintro (hw | hw)
      · exact ⟨Or.inl hw, fun he => absurd (hxs w hw).1 (by simp [he.2])⟩
      · exact ⟨Or.inr (Or.inr hw), fun he => absurd (hys w hw) (by simp [he.1])⟩
    · rintro ⟨hw | rfl | hw, hne⟩
      · exact Or.inl hw
      · exact absurd hk hne
      · exact Or.inr hw

theorem findKey_eq_some {w : α} : findKey lt v l = some w ↔ w ∈ l ∧ Equiv lt v w := by
  obtain ⟨xs, ys, hxs, hys, rfl | ⟨k, hk, rfl⟩⟩ := hl.exists_split hlt v
  · rw [findKey_split hxs hys]
    simp only [reduceCtorEq, List.mem_append, false_iff, not_and]
    rintro (hw | hw) he
    · exact absurd (hxs w hw).1 (by simp [he.2])
    · exact absurd (hys w hw) (by simp [he.1])
  · rw [findKey_split_equiv hxs hk]
    simp only [Option.some.injEq, List.mem_append, List.mem_cons]
    constructor
    · rintro rfl
      exact ⟨Or.inr (Or.inl rfl), hk⟩
    · rintro ⟨hw | rfl | hw, he⟩
      · exact absurd (hxs w hw).1 (by simp [he.2])
      · rfl
      · exact absurd (hys w hw) (by simp [he.1])

theorem findKey_eq_none : findKey lt v l = none ↔ ∀ w ∈ l, ¬ Equiv lt v w := by
  rw [Option.eq_none_iff_forall_ne_some]
  exact ⟨fun h w hw he => h w ((findKey_eq_some hlt hl).mpr ⟨hw, he⟩),
    fun h w hw => h w ((findKey_eq_some hlt hl).mp hw).1 ((findKey_eq_some hlt hl).mp hw).2⟩

omit hlt hl in
/-- A sorted list has one key of a kind. -/
theorem SortedKeys.eq_of_equiv {a b : α} (hl : SortedKeys lt l) (ha : a ∈ l) (hb : b ∈ l)
    (he : Equiv lt a b) : a = b := by
  by_contra hne
  have hpair : l.Pairwise fun a b => ¬ Equiv lt a b := hl.imp fun {a b} hab he => by
    rw [he.1] at hab
    exact absurd hab (by simp)
  have : Std.Symm fun a b => ¬ Equiv lt a b := ⟨fun _ _ h he => h ⟨he.2, he.1⟩⟩
  exact hpair.forall ha hb hne he

omit hlt hl in
/-- A sorted list has each key once. -/
theorem SortedKeys.nodup (hl : SortedKeys lt l) (hlt : StrictWeak lt) : l.Nodup :=
  hl.imp fun {a b} hab he => by
    rw [he, hlt.irrefl] at hab
    exact absurd hab (by simp)

omit hlt hl in
/-- Only the last key is taken away when none is left. -/
theorem exists_of_eraseKey_eq_nil (hne : l ≠ []) (h : eraseKey lt v l = []) :
    ∃ k, l = [k] ∧ Equiv lt v k := by
  obtain ⟨k, l, rfl⟩ := List.exists_cons_of_ne_nil hne
  rw [LimitOrderBook.eraseKey] at h
  split at h
  · exact absurd h (List.cons_ne_nil _ _)
  next hvk =>
    split at h
    · exact absurd h (List.cons_ne_nil _ _)
    next hkv => exact ⟨k, by rw [h], Bool.eq_false_iff.mpr hvk, Bool.eq_false_iff.mpr hkv⟩

omit hlt hl in
/-- **A loop that stops at the first key that fails a test** goes over those before which no
key fails it. -/
theorem SortedKeys.mem_takeWhile {a : α} (hlt : StrictWeak lt) (hl : SortedKeys lt l)
    (p : α → Bool) : a ∈ l.takeWhile p ↔
      a ∈ l ∧ p a = true ∧ ∀ x ∈ l, lt x a = true → p x = true := by
  induction l with
  | nil => simp
  | cons b l ih =>
    obtain ⟨hb, hl⟩ := List.pairwise_cons.mp hl
    rw [List.takeWhile_cons]
    by_cases hp : p b = true
    · rw [if_pos hp, List.mem_cons, List.mem_cons, ih hl]
      constructor
      · rintro (rfl | ⟨ha, hpa, hbefore⟩)
        · refine ⟨Or.inl rfl, hp, fun x hx hxa => ?_⟩
          rcases List.mem_cons.mp hx with rfl | hx
          · exact hp
          · exact absurd hxa (by simp [hlt.asymm (hb x hx)])
        · refine ⟨Or.inr ha, hpa, fun x hx hxa => ?_⟩
          rcases List.mem_cons.mp hx with rfl | hx
          · exact hp
          · exact hbefore x hx hxa
      · rintro ⟨rfl | ha, hpa, hbefore⟩
        · exact Or.inl rfl
        · exact Or.inr ⟨ha, hpa, fun x hx => hbefore x (List.mem_cons_of_mem b hx)⟩
    · rw [if_neg hp]
      refine iff_of_false (by simp) ?_
      rintro ⟨ha, hpa, hbefore⟩
      rcases List.mem_cons.mp ha with rfl | ha
      · exact hp hpa
      · exact hp (hbefore b (by simp) (hb a ha))

end Contents

/-- **Two lists with the same members** that are both in order are the same. -/
theorem eq_of_pairwise {R : α → α → Prop} (hR : ∀ a b, R a b → ¬ R b a) {l l' : List α}
    (hl : l.Pairwise R) (hl' : l'.Pairwise R) (hmem : ∀ a, a ∈ l ↔ a ∈ l') : l = l' := by
  have hne : ∀ {a b}, R a b → a ≠ b := by
    rintro a b hab rfl
    exact hR a a hab hab
  have hperm : l.Perm l' := (List.perm_ext_iff_of_nodup (hl.imp hne) (hl'.imp hne)).mpr hmem
  exact hperm.eq_of_pairwise (fun a b _ _ hab hba => absurd hba (hR a b hab)) hl hl'

end LimitOrderBook
