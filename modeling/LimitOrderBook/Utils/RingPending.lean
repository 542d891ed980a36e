import LimitOrderBook.Utils.RingSound

/-!
# What is in the ring

The values that have been pushed and that no call of `pop` has returned
(`LimitOrderBook.RingSystem.pending`), oldest first, and what a step of a sound ring does to them:
a producer adds one at the end when it publishes it, the consumer takes the first one when its
call returns it, and every other step leaves them alone.
-/

namespace LimitOrderBook

variable {P T : Type}

/-- The value that a call of `push` was given. -/
def PushCall.value? : PushCall T → Option T
  | .idle => none
  | .loadWritePos v => some v
  | .testReadPosCache v _ => some v
  | .loadReadPos v _ => some v
  | .storeReadPosCache v _ _ => some v
  | .retestReadPosCache v _ => some v
  | .storeData v _ => some v
  | .storeWritePos v _ => some v

/-- The value that is published is the one that the call was given. -/
theorem PushCall.completes_eq {c : PushCall T} {v : T} (h : c.completes = some v) :
    c.value? = some v := by
  cases c with
  | storeWritePos value w => exact h
  | _ => exact absurd h (by simp [PushCall.completes])

namespace RingBuffer

variable {b b' : RingBuffer T} {c c' : PushCall T}

/-- What a step of `push` does to the call: it goes on with the value that it was given, and it
ends when that has been published; the part of the consumer is left alone. -/
theorem push_spec (h : b.push c = .ok (b', c')) :
    b'.capacity = b.capacity ∧ b'.writePosCache = b.writePosCache ∧
      (c' ≠ .idle → c'.value? = c.value?) ∧
        (c ≠ .idle → (c' = .idle ↔ c.completes.isSome = true)) := by
  rcases c with _ | v | ⟨v, w⟩ | ⟨v, w⟩ | ⟨v, w, r⟩ | ⟨v, w⟩ | ⟨v, w⟩ | ⟨v, w⟩ <;>
    rw [RingBuffer.push] at h
  all_goals
    first
      | split at h
      | skip
  all_goals simp only [Except.ok.injEq, Prod.mk.injEq, reduceCtorEq] at h
  all_goals
    obtain ⟨rfl, rfl⟩ := h
    refine ⟨rfl, rfl, fun hc => ?_, fun hc => ?_⟩
    · first | rfl | exact absurd rfl hc
    · first | exact absurd rfl hc | simp [PushCall.completes]

/-- A step of `pop` leaves the part of the producers alone. -/
theorem pop_spec {c c' : PopCall T} {result : Option (Option (Option T))}
    (h : b.pop c = .ok (b', c', result)) :
    b'.capacity = b.capacity ∧ b'.readPosCache = b.readPosCache := by
  rcases c with _ | r | r | ⟨r, w⟩ | r | r | ⟨r, v⟩ <;> rw [RingBuffer.pop] at h
  all_goals
    first
      | split at h
      | skip
  all_goals simp only [Except.ok.injEq, Prod.mk.injEq, reduceCtorEq] at h
  all_goals
    obtain ⟨rfl, -, -⟩ := h
    exact ⟨rfl, rfl⟩

/-- After a call of `pop` has returned the next one has not begun. -/
theorem pop_over {c c' : PopCall T} {answer : Option (Option T)}
    (h : b.pop c = .ok (b', c', some answer)) : c' = .idle := by
  rcases c with _ | r | r | ⟨r, w⟩ | r | r | ⟨r, v⟩ <;> rw [RingBuffer.pop] at h
  all_goals
    first
      | split at h
      | skip
  all_goals simp at h
  all_goals exact h.2.1.symm

end RingBuffer

namespace RingSystem

/-- The values that have been pushed and not returned. -/
def pending (s : RingSystem P T) : List T := s.pushed.drop s.popped.length

theorem pending_new (capacity : ℕ) : (new capacity : RingSystem P T).pending = [] := rfl

variable {s : RingSystem P T}

theorem Sound.length_pushed (h : s.Sound) :
    s.pushed.length = s.popped.length + s.pending.length := by
  have hle := h.le
  rw [pending, List.length_drop]
  omega

/-- A step of the consumer leaves the values alone, unless it ends a call that returns the first
of them. -/
theorem Sound.pending_consumed (h : s.Sound) {b : RingBuffer T} {c : PopCall T}
    {result : Option (Option (Option T))} (h' : (s.consumed b c result).Sound) :
    (result.join = none ∧ (s.consumed b c result).pending = s.pending) ∨
      ∃ v, result = some (some (some v)) ∧ s.pending = v :: (s.consumed b c result).pending := by
  rcases result with _ | _ | v
  · exact Or.inl ⟨rfl, by simp [pending, consumed]⟩
  · exact Or.inl ⟨rfl, by simp [pending, consumed]⟩
  · have hlt : s.popped.length < s.pushed.length := by
      have hle := h'.le
      exact Nat.lt_of_succ_le (by simpa [consumed] using hle)
    have hvalues := h'.values
    simp only [consumed, Option.join_some, Option.toList_some, List.length_append,
      List.length_singleton] at hvalues
    rw [← h.values_succ hlt] at hvalues
    obtain rfl : v = s.pushed[s.popped.length]? :=
      List.singleton_inj.mp (List.append_cancel_left hvalues)
    refine Or.inr ⟨s.pushed[s.popped.length], by rw [List.getElem?_eq_getElem hlt], ?_⟩
    simp [pending, consumed]

variable [DecidableEq P]

theorem pending_begin (p : P) (v : T) : (s.begin p v).pending = s.pending := by
  rw [begin]
  split <;> rfl

/-- A step of a producer adds the value that it publishes. -/
theorem Sound.pending_produced (h : s.Sound) (p : P) (b : RingBuffer T) (c : PushCall T) :
    (s.produced p b c).pending = s.pending ++ (s.producer p).completes.toList :=
  List.drop_append_of_le_length h.le

end RingSystem

end LimitOrderBook
