import LimitOrderBook.Utils.RingPending

/-!
# A push that finds room

`push` goes back to its beginning when the buffer is full, as often as that is so. As long as
there is room for the value it never does: what it reads of the position of the consumer, even if
that is old, is not the position behind its own (`LimitOrderBook.RingSystem.Roomy`). So every step
brings a call closer to its end (`LimitOrderBook.RingSystem.Roomy.rank_lt`).
-/

namespace LimitOrderBook

variable {P T : Type}

/-- The steps of a call of `push` until it is over, if it finds room. -/
def PushCall.rank : PushCall T → ℕ
  | .idle => 0
  | .loadWritePos _ => 7
  | .testReadPosCache _ _ => 6
  | .loadReadPos _ _ => 5
  | .storeReadPosCache _ _ _ => 4
  | .retestReadPosCache _ _ => 3
  | .storeData _ _ => 2
  | .storeWritePos _ _ => 1

theorem PushCall.rank_le (c : PushCall T) : c.rank ≤ 7 := by
  cases c <;> simp [rank]

namespace RingSystem

variable {s : RingSystem P T}

/-- **What the producers have read leaves room.** -/
structure Roomy (s : RingSystem P T) : Prop where
  loaded : ∀ p v w r, s.producer p = .storeReadPosCache v w r → w + 1 ≠ r
  stored : ∀ p v w, s.producer p = .retestReadPosCache v w → w + 1 ≠ s.buffer.readPosCache

theorem roomy_new (capacity : ℕ) : (new capacity : RingSystem P T).Roomy where
  loaded := fun p v w r hp => absurd hp (by simp [new])
  stored := fun p v w hp => absurd hp (by simp [new])

namespace Roomy

variable (h : s.Roomy)

include h

/-- Every step brings the call closer to its end. -/
theorem rank_lt {p : P} (hp : s.producer p ≠ .idle) {b : RingBuffer T} {c : PushCall T}
    (hpush : s.buffer.push (s.producer p) = .ok (b, c)) : c.rank < (s.producer p).rank := by
  rcases hcall : s.producer p with
      _ | v | ⟨v, w⟩ | ⟨v, w⟩ | ⟨v, w, r⟩ | ⟨v, w⟩ | ⟨v, w⟩ | ⟨v, w⟩ <;>
    rw [hcall, RingBuffer.push] at hpush
  · exact absurd hcall hp
  · obtain ⟨-, rfl⟩ := by simpa using hpush
    simp [PushCall.rank]
  · split at hpush <;> obtain ⟨-, rfl⟩ := by simpa using hpush
    · simp [PushCall.rank]
    · simp [PushCall.rank]
  · obtain ⟨-, rfl⟩ := by simpa using hpush
    simp [PushCall.rank]
  · obtain ⟨-, rfl⟩ := by simpa using hpush
    simp [PushCall.rank]
  · rw [if_pos (h.stored p v w hcall)] at hpush
    obtain ⟨-, rfl⟩ := by simpa using hpush
    simp [PushCall.rank]
  · split at hpush
    · obtain ⟨-, rfl⟩ := by simpa using hpush
      simp [PushCall.rank]
    · simp at hpush
  · obtain ⟨-, rfl⟩ := by simpa using hpush
    simp [PushCall.rank]

/-- A step of the consumer. -/
theorem consumed {b : RingBuffer T} {c : PopCall T} {result : Option (Option (Option T))}
    (hpop : s.buffer.pop s.consumer = .ok (b, c, result)) : (s.consumed b c result).Roomy where
  loaded := h.loaded
  stored := by
    have hsame : b.readPosCache = s.buffer.readPosCache := (RingBuffer.pop_spec hpop).2
    exact fun p v w hp => hsame ▸ h.stored p v w hp

variable [DecidableEq P]

theorem begin (p : P) (value : T) : (s.begin p value).Roomy := by
  rw [RingSystem.begin]
  split
  · refine ⟨fun q v w r hq => ?_, fun q v w hq => ?_⟩
    · by_cases hqp : q = p
      · subst hqp
        simp at hq
      · simp only [Function.update_of_ne hqp] at hq
        exact h.loaded q v w r hq
    · by_cases hqp : q = p
      · subst hqp
        simp at hq
      · simp only [Function.update_of_ne hqp] at hq
        exact h.stored q v w hq
  · exact h

/-- A step of a producer, with room for its value. -/
theorem produced (hsound : s.Sound) {p : P}
    (hroom : s.pushed.length + 1 < s.popped.length + s.buffer.capacity) {b : RingBuffer T}
    {c : PushCall T} (hpush : s.buffer.push (s.producer p) = .ok (b, c)) :
    (s.produced p b c).Roomy := by
  have hfresh : ∀ w, (s.producer p).writePos? = some w → w + 1 ≠ s.buffer.readPos := by
    intro w hw heq
    rw [(hsound.inside p w hw).1, hsound.readPos] at heq
    have hlt := Nat.mod_lt s.popped.length hsound.cap_pos
    have hnext :
        (s.pushed.length + 1) % s.buffer.capacity = s.popped.length % s.buffer.capacity := by
      rw [← heq, ← Nat.mod_add_mod, Nat.mod_eq_of_lt (heq ▸ hlt)]
    have hle := hsound.le
    have hnum := ring_inj (by omega) hroom hnext.symm
    omega
  have hself : (∀ v w r, c = .storeReadPosCache v w r → w + 1 ≠ r) ∧
      (∀ v w, c = .retestReadPosCache v w → w + 1 ≠ b.readPosCache) ∧
        (b.readPosCache = s.buffer.readPosCache ∨ (s.producer p).writePos? ≠ none) := by
    rcases hcall : s.producer p with _ | v | ⟨v, w⟩ | ⟨v, w⟩ | ⟨v, w, r⟩ | ⟨v, w⟩ | ⟨v, w⟩ |
      ⟨v, w⟩ <;> rw [hcall, RingBuffer.push] at hpush
    all_goals
      first
        | split at hpush
        | skip
    all_goals simp only [Except.ok.injEq, Prod.mk.injEq, reduceCtorEq] at hpush
    all_goals obtain ⟨rfl, rfl⟩ := hpush
    all_goals simp [PushCall.writePos?, RingBuffer.setReadPosCache]
    · exact hfresh w (by rw [hcall]; rfl)
    · exact h.loaded p v w r hcall
  obtain ⟨hload, hstore, hcache⟩ := hself
  refine ⟨fun q v w r hq => ?_, fun q v w hq => ?_⟩
  · by_cases hqp : q = p
    · subst hqp
      simp only [RingSystem.produced, Function.update_self] at hq
      exact hload v w r hq
    · simp only [RingSystem.produced, Function.update_of_ne hqp] at hq
      exact h.loaded q v w r hq
  · by_cases hqp : q = p
    · subst hqp
      simp only [RingSystem.produced, Function.update_self] at hq
      exact hstore v w hq
    · simp only [RingSystem.produced, Function.update_of_ne hqp] at hq
      rcases hcache with hsame | hin
      · exact hsame ▸ h.stored q v w hq
      · -- both would be in the buffer
        obtain ⟨w', hw'⟩ := Option.ne_none_iff_exists'.mp hin
        have hnone := (hsound.inside p w' hw').2 q hqp
        rw [hq] at hnone
        exact absurd hnone (by simp [PushCall.writePos?])

end Roomy

end RingSystem

end LimitOrderBook
