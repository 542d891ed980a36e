import Mathlib.Data.List.Induction
import Mathlib.Logic.Function.Basic

/-!
# A store that is written behind a queue

Each message is about one key, and says what the store is to hold for it. Messages wait in a queue
and are written one after the other, so what the store will hold for a key is what the last message
about it says (`LimitOrderBook.lastFor`), or what it holds now when there is none
(`LimitOrderBook.AtLast`). Writing the first message changes nothing about that
(`LimitOrderBook.AtLast.write`), and neither does a new message about another key
(`LimitOrderBook.AtLast.append`).
-/

namespace LimitOrderBook

variable {μ κ ν : Type} [DecidableEq κ] {key key' : μ → κ}
  {store : κ → Option ν} {k : κ} {m : μ} {xs ys : List μ}

/-- The last message about the key `k`. -/
def lastFor (key : μ → κ) (k : κ) (xs : List μ) : Option μ := xs.reverse.find? fun m => key m = k

/-- A message about the key that comes later counts. -/
theorem lastFor_append : lastFor key k (xs ++ ys) = (lastFor key k ys).or (lastFor key k xs) := by
  rw [lastFor, List.reverse_append, List.find?_append]
  rfl

theorem lastFor_singleton (m : μ) : lastFor key k [m] = if key m = k then some m else none := by
  rw [lastFor, List.reverse_singleton, List.find?_singleton]
  split <;> simp_all

theorem mem_of_lastFor (h : lastFor key k xs = some m) : m ∈ xs :=
  List.mem_reverse.mp (List.mem_of_find?_eq_some h)

/-- Only the keys of the messages matter. -/
theorem lastFor_congr (h : ∀ m ∈ xs, key' m = key m) : lastFor key' k xs = lastFor key k xs := by
  induction xs using List.reverseRecOn with
  | nil => rfl
  | append_singleton xs x ih =>
    rw [lastFor_append, lastFor_append, lastFor_singleton, lastFor_singleton, h x (by simp),
      ih fun m hm => h m (by simp [hm])]

/-- **What the store will hold for the key**: the last message about it meets `P`, or there is none
and what the store holds meets `Q`. -/
def AtLast (key : μ → κ) (store : κ → Option ν) (xs : List μ) (k : κ) (P : μ → Prop)
    (Q : Option ν → Prop) : Prop :=
  (lastFor key k xs).elim (Q (store k)) P

namespace AtLast

variable {P P' : μ → Prop} {Q Q' : Option ν → Prop}

/-- Nothing is waiting. -/
theorem of_nil (h : AtLast key store [] k P Q) : Q (store k) := h

theorem nil (h : Q (store k)) : AtLast key store [] k P Q := h

theorem imp (h : AtLast key store xs k P Q) (hkey : ∀ m ∈ xs, key' m = key m)
    (hP : ∀ m ∈ xs, P m → P' m) (hQ : ∀ v, Q v → Q' v) : AtLast key' store xs k P' Q' := by
  rw [AtLast, lastFor_congr hkey]
  rcases hlast : lastFor key k xs with _ | m
  · rw [AtLast, hlast] at h
    exact hQ _ h
  · rw [AtLast, hlast] at h
    exact hP m (mem_of_lastFor hlast) h

/-- **The first message is written.** -/
theorem write (outcome : μ → Option ν) (h : AtLast key store (m :: xs) k P Q)
    (hm : P m → Q (outcome m)) :
    AtLast key (Function.update store (key m) (outcome m)) xs k P Q := by
  rw [AtLast, ← List.singleton_append, lastFor_append, lastFor_singleton] at h
  rw [AtLast]
  rcases hlast : lastFor key k xs with _ | n <;> rw [hlast] at h
  · by_cases hk : key m = k
    · subst hk
      rw [if_pos rfl] at h
      rw [Function.update_self]
      exact hm h
    · rw [if_neg hk] at h
      rw [Function.update_of_ne (Ne.symm hk)]
      exact h
  · exact h

/-- **New messages**, about the key or not, that meet the condition if they are. -/
theorem append (h : AtLast key store xs k P Q) (hys : ∀ m ∈ ys, key m = k → P m) :
    AtLast key store (xs ++ ys) k P Q := by
  rw [AtLast, lastFor_append]
  rcases hlast : lastFor key k ys with _ | m
  · exact h
  · refine hys m (mem_of_lastFor hlast) ?_
    rw [lastFor] at hlast
    simpa using List.find?_some hlast

/-- A new message about the key. -/
theorem concat (hk : key m = k) (hP : P m) : AtLast key store (xs ++ [m]) k P Q := by
  rw [AtLast, lastFor_append, lastFor_singleton, if_pos hk]
  exact hP

end AtLast

end LimitOrderBook
