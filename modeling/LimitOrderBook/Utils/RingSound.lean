import LimitOrderBook.Utils.RingBuffer
import Mathlib.Data.Fintype.Defs
import Mathlib.Data.List.Perm.Subperm

/-!
# The ring buffer as a queue

As long as there is room whenever a producer publishes a value
(`LimitOrderBook.RingSystem.hasRoom`), and producers are in the buffer one at a time
(`LimitOrderBook.RingSystem.alone`), the buffer is a first-in-first-out queue:
`LimitOrderBook.RingSystem.Sound` says what the positions, the caches, the slots and the
local variables of the calls have to do with the values pushed and returned, and every
step keeps it (`LimitOrderBook.RingSystem.Sound.step`).
-/

namespace LimitOrderBook

variable {P T : Type}

/-- The consumer has moved a value out and not yet moved on. -/
def PopCall.holdsValue : PopCall T → Bool
  | .storeReadPos _ _ => true
  | _ => false

namespace RingSystem

/-- The position `w` is that of a count between the values returned and those pushed. -/
def Seen (s : RingSystem P T) (w : ℕ) : Prop :=
  ∃ c, w = c % s.buffer.capacity ∧ s.popped.length ≤ c ∧ c ≤ s.pushed.length

/-- What the local variables of the consumer say. -/
def ConsumerSound (s : RingSystem P T) : Prop :=
  match s.consumer with
  | .idle => True
  | .testWritePosCache r => r = s.popped.length % s.buffer.capacity
  | .loadWritePos r => r = s.popped.length % s.buffer.capacity
  | .storeWritePosCache r w => r = s.popped.length % s.buffer.capacity ∧ s.Seen w
  | .retestWritePosCache r => r = s.popped.length % s.buffer.capacity
  | .loadData r => r = s.popped.length % s.buffer.capacity ∧ r ≠ s.buffer.writePosCache
  | .storeReadPos r v => r = s.popped.length % s.buffer.capacity ∧
      r ≠ s.buffer.writePosCache ∧ v = s.pushed[s.popped.length]?

/-- **The buffer is a queue of the values that were pushed and not returned**: the value
with number `i` is in the slot of `i`, there are fewer of them than slots, and at most one
producer is in the buffer. -/
structure Sound (s : RingSystem P T) : Prop where
  cap_pos : 0 < s.buffer.capacity
  le : s.popped.length ≤ s.pushed.length
  lt : s.pushed.length < s.popped.length + s.buffer.capacity
  readPos : s.buffer.readPos = s.popped.length % s.buffer.capacity
  writePos : s.buffer.writePos = s.pushed.length % s.buffer.capacity
  values : s.popped = (s.pushed.take s.popped.length).map some
  cache : s.Seen s.buffer.writePosCache
  inside : ∀ p w, (s.producer p).writePos? = some w → w = s.pushed.length % s.buffer.capacity ∧
    ∀ q, q ≠ p → (s.producer q).writePos? = none
  slots : ∀ i, s.popped.length ≤ i → i < s.pushed.length →
    s.buffer.data (i % s.buffer.capacity) = s.pushed[i]? ∨
      i = s.popped.length ∧ s.consumer.holdsValue = true
  ready : ∀ p v w, s.producer p = .storeWritePos v w → s.buffer.data w = some v
  consumer : s.ConsumerSound

theorem sound_new {capacity : ℕ} (hcap : 0 < capacity) :
    (new capacity : RingSystem P T).Sound where
  cap_pos := hcap
  le := le_rfl
  lt := by simpa [new, RingBuffer.new] using hcap
  readPos := (Nat.zero_mod _).symm
  writePos := (Nat.zero_mod _).symm
  values := rfl
  cache := ⟨0, (Nat.zero_mod _).symm, le_rfl, le_rfl⟩
  inside := fun p w hw => absurd hw (by simp [new, PushCall.writePos?])
  slots := fun i _ hi => absurd hi (by simp [new])
  ready := fun p v w hp => absurd hp (by simp [new])
  consumer := trivial

/-- There is room for one more value when a producer publishes it. -/
def hasRoom (s : RingSystem P T) : RingEvent P T → Prop
  | .produce p => (s.producer p).completes.isSome →
      s.pushed.length + 1 < s.popped.length + s.buffer.capacity
  | _ => True

instance (s : RingSystem P T) : ∀ e, Decidable (s.hasRoom e)
  | .push _ _ => .isTrue trivial
  | .produce _ => inferInstanceAs (Decidable (_ → _))
  | .consume => .isTrue trivial

/-- A producer loads the write position only when no other one is between its load and
its store. -/
def alone (s : RingSystem P T) : RingEvent P T → Prop
  | .produce p => (s.producer p).loads → ∀ q, q ≠ p → (s.producer q).writePos? = none
  | _ => True

instance [Fintype P] [DecidableEq P] (s : RingSystem P T) : ∀ e, Decidable (s.alone e)
  | .push _ _ => .isTrue trivial
  | .produce _ => inferInstanceAs (Decidable (_ → ∀ _, _ → _))
  | .consume => .isTrue trivial

namespace Sound

variable {s : RingSystem P T} (h : s.Sound)

include h

/-- The slot of the next value is not one of those in use. -/
theorem slot_ne {i : ℕ} (hi : s.popped.length ≤ i) (hi' : i < s.pushed.length) :
    i % s.buffer.capacity ≠ s.pushed.length % s.buffer.capacity := by
  intro he
  have hlt := h.lt
  have heq := ring_inj (by omega) (by omega) he
  omega

/-- A read position that differs from the cached write position is that of a value. -/
theorem seen_succ {r : ℕ} (hr : r = s.popped.length % s.buffer.capacity)
    (hne : r ≠ s.buffer.writePosCache) : ∃ c, s.buffer.writePosCache = c % s.buffer.capacity ∧
      s.popped.length + 1 ≤ c ∧ c ≤ s.pushed.length := by
  obtain ⟨c, hc, hle, hle'⟩ := h.cache
  refine ⟨c, hc, ?_, hle'⟩
  rcases Nat.lt_or_eq_of_le hle with hlt | rfl
  · exact hlt
  · exact absurd (hr.trans hc.symm) hne

theorem popped_lt {r : ℕ} (hr : r = s.popped.length % s.buffer.capacity)
    (hne : r ≠ s.buffer.writePosCache) : s.popped.length < s.pushed.length := by
  obtain ⟨c, -, hle, hle'⟩ := h.seen_succ hr hne
  omega

/-- What has been returned, with the next value. -/
theorem values_succ (hlt : s.popped.length < s.pushed.length) :
    s.popped ++ [s.pushed[s.popped.length]?] =
      (s.pushed.take (s.popped.length + 1)).map some := by
  rw [List.take_add_one, List.map_append, ← h.values, List.getElem?_eq_getElem hlt]
  rfl

variable [DecidableEq P]

/-! ### Producers -/

theorem begin (p : P) (value : T) : (s.begin p value).Sound := by
  rw [RingSystem.begin]
  split
  · next hidle =>
    have hq : ∀ q, (Function.update s.producer p (.loadWritePos value) q).writePos? =
        (s.producer q).writePos? := by
      intro q
      by_cases hqp : q = p
      · subst hqp
        rw [Function.update_self, hidle]
        rfl
      · rw [Function.update_of_ne hqp]
    refine
      { h with
        inside := fun q w hw => ?_
        ready := fun q v w hv => ?_ }
    · simp only [hq] at hw ⊢
      exact h.inside q w hw
    · by_cases hqp : q = p
      · subst hqp
        simp at hv
      · simp only [Function.update_of_ne hqp] at hv
        exact h.ready q v w hv
  · exact h

/-- A step of a producer that writes at most the cached read position. -/
theorem move {p : P} {c : PushCall T} (r : ℕ) (hcomp : (s.producer p).completes = none)
    (hc : ∀ w, c.writePos? = some w → (s.producer p).writePos? = some w ∨
      (w = s.pushed.length % s.buffer.capacity ∧ ∀ q, q ≠ p → (s.producer q).writePos? = none))
    (hst : ∀ v w, c ≠ .storeWritePos v w) :
    (s.produced p (s.buffer.setReadPosCache r) c).Sound := by
  have hpushed : s.pushed ++ (s.producer p).completes.toList = s.pushed := by
    rw [hcomp]
    exact List.append_nil _
  have hself : ∀ w, c.writePos? = some w → w = s.pushed.length % s.buffer.capacity ∧
      ∀ q, q ≠ p → (s.producer q).writePos? = none := fun w hw =>
    (hc w hw).elim (h.inside p w) id
  rw [produced, hpushed]
  refine
    { h with
      inside := fun q w hw => ?_
      ready := fun q v w hv => ?_ }
  · by_cases hqp : q = p
    · subst hqp
      simp only [Function.update_self] at hw
      refine ⟨(hself w hw).1, fun x hx => ?_⟩
      simp only [Function.update_of_ne hx]
      exact (hself w hw).2 x hx
    · simp only [Function.update_of_ne hqp] at hw
      refine ⟨(h.inside q w hw).1, fun x hx => ?_⟩
      by_cases hxp : x = p
      · subst hxp
        simp only [Function.update_self]
        -- the other one is in the buffer, so this one cannot be
        rcases hcw : c.writePos? with _ | w'
        · rfl
        · have hnone := (hself w' hcw).2 q hqp
          rw [hw] at hnone
          exact absurd hnone (by simp)
      · simp only [Function.update_of_ne hxp]
        exact (h.inside q w hw).2 x hx
  · by_cases hqp : q = p
    · subst hqp
      simp only [Function.update_self] at hv
      exact absurd hv (hst v w)
    · simp only [Function.update_of_ne hqp] at hv
      exact h.ready q v w hv

/-- The step that writes the value into its slot. -/
theorem storeData {p : P} {value : T} {w : ℕ} (hp : s.producer p = .storeData value w) :
    (s.produced p (s.buffer.setData w (some value)) (.storeWritePos value w)).Sound := by
  obtain ⟨hw, hothers⟩ := h.inside p w (by rw [hp]; rfl)
  have hpushed : s.pushed ++ (s.producer p).completes.toList = s.pushed := by
    rw [hp]
    exact List.append_nil _
  rw [produced, hpushed]
  refine
    { h with
      inside := fun q x hx => ?_
      slots := fun i hi hi' => ?_
      ready := fun q v x hv => ?_ }
  · by_cases hqp : q = p
    · subst hqp
      simp only [Function.update_self] at hx
      obtain rfl : w = x := Option.some.inj hx
      refine ⟨hw, fun y hy => ?_⟩
      simp only [Function.update_of_ne hy]
      exact hothers y hy
    · simp only [Function.update_of_ne hqp] at hx
      rw [hothers q hqp] at hx
      exact absurd hx (by simp)
  · have hne : i % s.buffer.capacity ≠ w := by
      rw [hw]
      exact h.slot_ne hi hi'
    simp only [RingBuffer.setData, Function.update_of_ne hne]
    exact h.slots i hi hi'
  · by_cases hqp : q = p
    · subst hqp
      simp only [Function.update_self, PushCall.storeWritePos.injEq] at hv
      obtain ⟨rfl, rfl⟩ := hv
      simp [RingBuffer.setData]
    · simp only [Function.update_of_ne hqp] at hv
      have hnone := hothers q hqp
      rw [hv] at hnone
      exact absurd hnone (by simp [PushCall.writePos?])

/-- The step that publishes the value. -/
theorem storeWritePos {p : P} {value : T} {w : ℕ} (hp : s.producer p = .storeWritePos value w)
    (hroom : s.pushed.length + 1 < s.popped.length + s.buffer.capacity) :
    (s.produced p (s.buffer.setWritePos (ringNext s.buffer.capacity w)) .idle).Sound := by
  obtain ⟨hw, hothers⟩ := h.inside p w (by rw [hp]; rfl)
  have hready := h.ready p value w hp
  have hle := h.le
  have hpushed : s.pushed ++ (s.producer p).completes.toList = s.pushed ++ [value] := by
    rw [hp]
    rfl
  have hlen : (s.pushed ++ [value]).length = s.pushed.length + 1 := by simp
  have hold : ∀ i, i < s.pushed.length → (s.pushed ++ [value])[i]? = s.pushed[i]? := fun i hi =>
    List.getElem?_append_left hi
  have hseen : ∀ x, s.Seen x → ∃ c, x = c % s.buffer.capacity ∧ s.popped.length ≤ c ∧
      c ≤ (s.pushed ++ [value]).length := by
    rintro x ⟨c, hx, h₁, h₂⟩
    exact ⟨c, hx, h₁, by omega⟩
  rw [produced, hpushed]
  refine ⟨h.cap_pos, ?_, ?_, h.readPos, ?_, ?_, hseen _ h.cache, fun q x hx => ?_,
    fun i hi hi' => ?_, fun q v x hv => ?_, ?_⟩
  · simp only [hlen]
    omega
  · simp only [hlen]
    exact hroom
  · simp only [hlen]
    exact (congrArg (ringNext _) hw).trans (ringNext_mod h.cap_pos _)
  · simp only
    rw [List.take_append_of_le_length hle]
    exact h.values
  · by_cases hqp : q = p
    · subst hqp
      simp [PushCall.writePos?] at hx
    · simp only [Function.update_of_ne hqp] at hx
      rw [hothers q hqp] at hx
      exact absurd hx (by simp)
  · simp only [hlen] at hi' ⊢
    rcases Nat.lt_succ_iff_lt_or_eq.mp hi' with hi' | rfl
    · rw [hold i hi']
      exact h.slots i hi hi'
    · refine Or.inl ?_
      rw [List.getElem?_concat_length]
      exact (congrArg s.buffer.data hw.symm).trans hready
  · by_cases hqp : q = p
    · subst hqp
      simp at hv
    · simp only [Function.update_of_ne hqp] at hv
      have hnone := hothers q hqp
      rw [hv] at hnone
      exact absurd hnone (by simp [PushCall.writePos?])
  · have hc := h.consumer
    rw [ConsumerSound] at hc ⊢
    dsimp only
    split
    · trivial
    · next r hr =>
      simp only [hr] at hc
      exact hc
    · next r hr =>
      simp only [hr] at hc
      exact hc
    · next r x hr =>
      simp only [hr] at hc
      exact ⟨hc.1, hseen x hc.2⟩
    · next r hr =>
      simp only [hr] at hc
      exact hc
    · next r hr =>
      simp only [hr] at hc
      exact hc
    · next r v hr =>
      simp only [hr] at hc
      refine ⟨hc.1, hc.2.1, ?_⟩
      rw [hold _ (h.popped_lt hc.1 hc.2.1)]
      exact hc.2.2

/-- **A step of a producer**, when it is alone and there is room. -/
theorem produce {p : P} (hroom : s.hasRoom (.produce p)) (halone : s.alone (.produce p)) :
    ∃ b c, s.buffer.push (s.producer p) = .ok (b, c) ∧ (s.produced p b c).Sound := by
  have hkeep : ∀ {w : ℕ} {c : PushCall T}, (s.producer p).writePos? = some w →
      c.writePos? = some w → ∀ x, c.writePos? = some x → (s.producer p).writePos? = some x ∨
        (x = s.pushed.length % s.buffer.capacity ∧
          ∀ q, q ≠ p → (s.producer q).writePos? = none) := by
    intro w c hw hc x hx
    rw [hw, ← hc, hx]
    exact Or.inl rfl
  rcases hp : s.producer p with _ | value | ⟨value, w⟩ | ⟨value, w⟩ | ⟨value, w, r⟩ | ⟨value, w⟩ |
    ⟨value, w⟩ | ⟨value, w⟩
  · -- there is no call
    refine ⟨_, _, rfl, h.move s.buffer.readPosCache (by rw [hp]; rfl) (fun w hw => ?_) (by simp)⟩
    exact absurd hw (by simp [PushCall.writePos?])
  · refine ⟨_, _, rfl, h.move s.buffer.readPosCache (by rw [hp]; rfl) (fun w hw => ?_) (by simp)⟩
    obtain rfl : s.buffer.writePos = w := Option.some.inj hw
    exact Or.inr ⟨h.writePos, halone (by rw [hp]; rfl)⟩
  · have hw : (s.producer p).writePos? = some w := by rw [hp]; rfl
    rw [RingBuffer.push]
    split
    · exact ⟨_, _, rfl, h.move s.buffer.readPosCache (by rw [hp]; rfl) (hkeep hw rfl) (by simp)⟩
    · exact ⟨_, _, rfl, h.move s.buffer.readPosCache (by rw [hp]; rfl) (hkeep hw rfl) (by simp)⟩
  · have hw : (s.producer p).writePos? = some w := by rw [hp]; rfl
    exact ⟨_, _, rfl, h.move s.buffer.readPosCache (by rw [hp]; rfl) (hkeep hw rfl) (by simp)⟩
  · have hw : (s.producer p).writePos? = some w := by rw [hp]; rfl
    exact ⟨_, _, rfl, h.move r (by rw [hp]; rfl) (hkeep hw rfl) (by simp)⟩
  · have hw : (s.producer p).writePos? = some w := by rw [hp]; rfl
    rw [RingBuffer.push]
    split
    · exact ⟨_, _, rfl, h.move s.buffer.readPosCache (by rw [hp]; rfl) (hkeep hw rfl) (by simp)⟩
    · refine ⟨_, _, rfl, h.move s.buffer.readPosCache (by rw [hp]; rfl) (fun x hx => ?_) (by simp)⟩
      exact absurd hx (by simp [PushCall.writePos?])
  · have hlt : w < s.buffer.capacity := by
      rw [(h.inside p w (by rw [hp]; rfl)).1]
      exact Nat.mod_lt _ h.cap_pos
    rw [RingBuffer.push, if_pos hlt]
    exact ⟨_, _, rfl, h.storeData hp⟩
  · exact ⟨_, _, rfl, h.storeWritePos hp (hroom (by rw [hp]; rfl))⟩

/-! ### The consumer -/

omit [DecidableEq P] in
/-- A step of the consumer that writes at most the cached write position. -/
theorem look {c : PopCall T} {x : ℕ} {result : Option (Option (Option T))} (hx : s.Seen x)
    (hhold : s.consumer.holdsValue = false) (hres : result.join = none)
    (hc : ConsumerSound { s with buffer := s.buffer.setWritePosCache x, consumer := c }) :
    (s.consumed (s.buffer.setWritePosCache x) c result).Sound := by
  have hpopped : s.popped ++ result.join.toList = s.popped := by
    rw [hres]
    exact List.append_nil _
  rw [consumed, hpopped]
  refine { h with cache := hx, slots := fun i hi hi' => ?_, consumer := hc }
  rcases h.slots i hi hi' with hdata | ⟨-, hholds⟩
  · exact Or.inl hdata
  · rw [hhold] at hholds
    exact absurd hholds (by simp)

omit [DecidableEq P] in
/-- The step that moves the value out of its slot. -/
theorem loadData {r : ℕ} (hcall : s.consumer = .loadData r) :
    (s.consumed (s.buffer.setData r none) (.storeReadPos r (s.buffer.data r)) none).Sound := by
  have hc := h.consumer
  rw [ConsumerSound, hcall] at hc
  obtain ⟨hr, hne⟩ := hc
  have hlt := h.popped_lt hr hne
  have hslot : s.buffer.data r = s.pushed[s.popped.length]? := by
    rcases h.slots _ le_rfl hlt with hdata | ⟨-, hholds⟩
    · rw [hr]
      exact hdata
    · rw [hcall] at hholds
      exact absurd hholds (by simp [PopCall.holdsValue])
  have hpopped : s.popped ++ ((none : Option (Option (Option T))).join).toList = s.popped :=
    List.append_nil _
  rw [consumed, hpopped]
  refine
    { h with
      slots := fun i hi hi' => ?_
      ready := fun p v w hp => ?_
      consumer := ⟨hr, hne, hslot⟩ }
  · rcases Nat.lt_or_eq_of_le hi with hgt | rfl
    · have hni : i % s.buffer.capacity ≠ r := by
        rw [hr]
        intro he
        have heq := ring_inj hi (Nat.lt_trans hi' h.lt) he.symm
        exact absurd heq (Nat.ne_of_lt hgt)
      simp only [RingBuffer.setData, Function.update_of_ne hni]
      exact (h.slots i hi hi').imp_right fun hh => absurd hh.1 (Nat.ne_of_gt hgt)
    · exact Or.inr ⟨rfl, rfl⟩
  · have hnw : w ≠ r := by
      rw [(h.inside p w (by rw [hp]; rfl)).1, hr]
      exact (h.slot_ne le_rfl hlt).symm
    simp only [RingBuffer.setData, Function.update_of_ne hnw]
    exact h.ready p v w hp

omit [DecidableEq P] in
/-- The step that gives the slot back. -/
theorem storeReadPos {r : ℕ} {v : Option T} (hcall : s.consumer = .storeReadPos r v) :
    (s.consumed (s.buffer.setReadPos (ringNext s.buffer.capacity r)) .idle
      (some (some v))).Sound := by
  have hc := h.consumer
  rw [ConsumerSound, hcall] at hc
  obtain ⟨hr, hne, hv⟩ := hc
  have hlt := h.popped_lt hr hne
  have hlen : (s.popped ++ [v]).length = s.popped.length + 1 := by simp
  have hpopped : s.popped ++ ((some (some v) : Option (Option (Option T))).join).toList =
      s.popped ++ [v] := rfl
  have hlt' := h.lt
  rw [consumed, hpopped]
  refine ⟨h.cap_pos, ?_, ?_, ?_, h.writePos, ?_, ?_, h.inside, fun i hi hi' => ?_, h.ready,
    trivial⟩
  · simp only [hlen]
    omega
  · simp only [hlen]
    change s.pushed.length < s.popped.length + 1 + s.buffer.capacity
    omega
  · simp only [hlen]
    exact (congrArg (ringNext _) hr).trans (ringNext_mod h.cap_pos _)
  · simp only [hlen]
    rw [hv]
    exact h.values_succ hlt
  · obtain ⟨c, hc, hle, hle'⟩ := h.seen_succ hr hne
    exact ⟨c, hc, by simp only [hlen]; exact hle, hle'⟩
  · simp only [hlen] at hi
    refine (h.slots i (by omega) hi').imp_right fun hh => ?_
    exact absurd hh.1 (by omega)

omit [DecidableEq P] in
/-- **A step of the consumer.** -/
theorem consume : ∃ b c result, s.buffer.pop s.consumer = .ok (b, c, result) ∧
    (s.consumed b c result).Sound := by
  have hc := h.consumer
  rw [ConsumerSound] at hc
  rcases hcall : s.consumer with _ | r | r | ⟨r, w⟩ | r | r | ⟨r, v⟩
  · exact ⟨_, _, _, rfl, h.look h.cache (by rw [hcall]; rfl) rfl h.readPos⟩
  all_goals simp only [hcall] at hc
  · rw [RingBuffer.pop]
    split
    · exact ⟨_, _, _, rfl, h.look h.cache (by rw [hcall]; rfl) rfl hc⟩
    · next hne => exact ⟨_, _, _, rfl, h.look h.cache (by rw [hcall]; rfl) rfl ⟨hc, hne⟩⟩
  · refine ⟨_, _, _, rfl, h.look h.cache (by rw [hcall]; rfl) rfl ⟨hc, ?_⟩⟩
    exact ⟨s.pushed.length, h.writePos, h.le, le_rfl⟩
  · exact ⟨_, _, _, rfl, h.look hc.2 (by rw [hcall]; rfl) rfl hc.1⟩
  · rw [RingBuffer.pop]
    split
    · exact ⟨_, _, _, rfl, h.look h.cache (by rw [hcall]; rfl) rfl trivial⟩
    · next hne => exact ⟨_, _, _, rfl, h.look h.cache (by rw [hcall]; rfl) rfl ⟨hc, hne⟩⟩
  · have hlt : r < s.buffer.capacity := by
      rw [hc.1]
      exact Nat.mod_lt _ h.cap_pos
    rw [RingBuffer.pop, if_pos hlt]
    exact ⟨_, _, _, rfl, h.loadData hcall⟩
  · exact ⟨_, _, _, rfl, h.storeReadPos hcall⟩

/-- **A step of anyone.** -/
theorem step {e : RingEvent P T} (hroom : s.hasRoom e) (halone : s.alone e) :
    ∃ s' answer, s.step e = .ok (s', answer) ∧ s'.Sound := by
  rcases e with ⟨p, value⟩ | p | _
  · exact ⟨_, _, rfl, h.begin p value⟩
  · obtain ⟨b, c, hpush, hsound⟩ := h.produce hroom halone
    exact ⟨_, _, by rw [RingSystem.step, hpush]; rfl, hsound⟩
  · obtain ⟨b, c, result, hpop, hsound⟩ := h.consume
    exact ⟨_, _, by rw [RingSystem.step, hpop]; rfl, hsound⟩

end Sound

end RingSystem

end LimitOrderBook
