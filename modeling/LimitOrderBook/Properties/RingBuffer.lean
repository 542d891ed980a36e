import LimitOrderBook.Utils.RingSound
import Mathlib.Data.Finset.Card
import Mathlib.Data.Fintype.Basic

/-!
# What the ring buffer keeps

`push` compares `write_pos + 1` with the cached read position before it wraps around,
and the cache starts at `0`, which `write_pos + 1` never is: the buffer is never found
full, and a producer that runs ahead overwrites what has not been read
(`LimitOrderBook.push_overwrites`). With room for the value whenever one is published,
one producer and the consumer have a first-in-first-out queue
(`LimitOrderBook.ring_fifo`).

Nothing keeps two producers from loading the same write position, and one of their values
is then lost, with room to spare (`LimitOrderBook.push_lost`). When they come one at a
time nothing is lost (`LimitOrderBook.ring_keeps`).
-/

namespace LimitOrderBook

variable {P T : Type}

namespace RingSystem

/-- The values returned are the first of those pushed, in order; every other one is still
in its slot, or in the hands of the consumer; and no producer is about to write over
one. -/
structure Fifo (s : RingSystem P T) : Prop where
  isPrefix : s.popped <+: s.pushed.map some
  kept : ∀ i, s.popped.length ≤ i → i < s.pushed.length →
    s.buffer.data (i % s.buffer.capacity) = s.pushed[i]? ∨
      i = s.popped.length ∧ s.consumer.holdsValue = true
  spared : ∀ p value w, s.producer p = .storeData value w → ∀ i, s.popped.length ≤ i →
    i < s.pushed.length → i % s.buffer.capacity ≠ w

/-- What `pop` returned is a value that was pushed, and each of them at most once. -/
def NoneInvented (s : RingSystem P T) : Prop := s.popped.Subperm (s.pushed.map some)

/-- Fewer calls of `push` have begun than values were returned and fit in the buffer. -/
def Few (s : RingSystem P T) : Prop := s.begun + 1 < s.popped.length + s.buffer.capacity

instance : DecidablePred (Few : RingSystem P T → Prop) := fun _ => Nat.decLt _ _

/-- The property holds whenever the producers have stopped and a call of `pop` that began
after that has returned `false`. -/
def Drained [DecidableEq P] (Q : RingSystem P T → Prop) (s : RingSystem P T)
    (es : List (RingEvent P T)) : Prop :=
  ∀ xs ys s₁ answers₁ s₂ answers₂, es = xs ++ ys → runAll step s xs = .ok (s₁, answers₁) →
    (∀ p, s₁.producer p = .idle) → s₁.consumer = .idle → (∀ p value, .push p value ∉ ys) →
      runAll step s₁ ys = .ok (s₂, answers₂) → some false ∈ answers₂ → Q s₂

theorem Drained.imp [DecidableEq P] {Q Q' : RingSystem P T → Prop} {s : RingSystem P T}
    {es : List (RingEvent P T)} (himp : ∀ s, Q s → Q' s) (h : Drained Q s es) : Drained Q' s es :=
  fun xs ys s₁ answers₁ s₂ answers₂ hsplit hxs hidle hconsumer hpush hys hfalse => himp s₂
    (h xs ys s₁ answers₁ s₂ answers₂ hsplit hxs hidle hconsumer hpush hys hfalse)

theorem Sound.fifo {s : RingSystem P T} (h : s.Sound) : s.Fifo where
  isPrefix := by
    rw [h.values]
    exact (List.take_prefix _ _).map some
  kept := h.slots
  spared := fun p value w hp i hi hi' => by
    rw [(h.inside p w (by rw [hp]; rfl)).1]
    exact h.slot_ne hi hi'

variable [DecidableEq P]

/-! ### After the producers have stopped -/

/-- The producers have stopped, and what the consumer knows of the write position, if it
has just loaded it, is up to date. -/
structure Quiet (s : RingSystem P T) : Prop where
  sound : s.Sound
  idle : ∀ p, s.producer p = .idle
  current : match s.consumer with
    | .storeWritePosCache _ w => w = s.buffer.writePos
    | .retestWritePosCache _ => s.buffer.writePosCache = s.buffer.writePos
    | _ => True

namespace Quiet

variable {s : RingSystem P T} (h : s.Quiet)

include h

omit [DecidableEq P] in
/-- A call of `pop` that returns `false` has found that the positions are equal. -/
theorem popped_eq {b : RingBuffer T} {c : PopCall T}
    (hpop : s.buffer.pop s.consumer = .ok (b, c, some none)) :
    s.popped.length = s.pushed.length := by
  have hcur := h.current
  have hc := h.sound.consumer
  rw [ConsumerSound] at hc
  rcases hcall : s.consumer with _ | r | r | ⟨r, w⟩ | r | r | ⟨r, v⟩ <;>
    simp only [hcall] at hcur hc hpop <;> rw [RingBuffer.pop] at hpop
  · simp at hpop
  · split at hpop <;> simp at hpop
  · simp at hpop
  · simp at hpop
  · split at hpop
    · next heq =>
      rw [hcur, h.sound.writePos, hc] at heq
      exact ring_inj h.sound.le h.sound.lt heq
    · simp at hpop
  · split at hpop <;> simp at hpop
  · simp at hpop

omit [DecidableEq P] in
/-- The consumer keeps up with a write position that does not move. -/
theorem consumed {b : RingBuffer T} {c : PopCall T} {result : Option (Option (Option T))}
    (hpop : s.buffer.pop s.consumer = .ok (b, c, result))
    (hsound : (s.consumed b c result).Sound) : (s.consumed b c result).Quiet := by
  refine ⟨hsound, h.idle, ?_⟩
  have hcur := h.current
  simp only [RingSystem.consumed]
  rcases hcall : s.consumer with _ | r | r | ⟨r, w⟩ | r | r | ⟨r, v⟩ <;>
    simp only [hcall] at hcur hpop <;> rw [RingBuffer.pop] at hpop
  · obtain ⟨rfl, rfl, rfl⟩ := by simpa using hpop
    trivial
  · split at hpop <;> obtain ⟨rfl, rfl, rfl⟩ := by simpa using hpop
    · trivial
    · trivial
  · obtain ⟨rfl, rfl, rfl⟩ := by simpa using hpop
    rfl
  · obtain ⟨rfl, rfl, rfl⟩ := by simpa using hpop
    exact hcur
  · split at hpop <;> obtain ⟨rfl, rfl, rfl⟩ := by simpa using hpop
    · trivial
    · trivial
  · split at hpop
    · obtain ⟨rfl, rfl, rfl⟩ := by simpa using hpop
      trivial
    · simp at hpop
  · obtain ⟨rfl, rfl, rfl⟩ := by simpa using hpop
    trivial

/-- A step that is not the beginning of a call of `push`. -/
theorem step {e : RingEvent P T} (he : ∀ p value, e ≠ .push p value) :
    ∃ s' answer, s.step e = .ok (s', answer) ∧ s'.Quiet ∧ s'.pushed = s.pushed ∧
      s.popped.length ≤ s'.popped.length ∧
        (answer = some false → s.popped.length = s.pushed.length) := by
  rcases e with ⟨p, value⟩ | p | _
  · exact absurd rfl (he p value)
  · -- there is no call to go on with
    have hsame : s.produced p s.buffer .idle = s := by
      rw [produced, h.idle p, ← h.idle p, Function.update_eq_self, h.idle p]
      simp [PushCall.completes]
    refine ⟨s, none, ?_, h, rfl, le_rfl, by simp⟩
    rw [RingSystem.step, h.idle p]
    exact congrArg (fun x => Except.ok (x, none)) hsame
  · obtain ⟨b, c, result, hpop, hsound⟩ := h.sound.consume
    refine ⟨s.consumed b c result, result.map Option.isSome, by rw [RingSystem.step, hpop]; rfl,
      h.consumed hpop hsound, rfl, ?_, fun hfalse => ?_⟩
    · simp [RingSystem.consumed]
    · rcases result with _ | _ | v
      · simp at hfalse
      · exact h.popped_eq hpop
      · simp at hfalse

/-- A run after the producers have stopped. -/
theorem run {es : List (RingEvent P T)} (hes : ∀ p value, .push p value ∉ es)
    {s₂ : RingSystem P T} {answers : List (Option Bool)}
    (hrun : runAll RingSystem.step s es = .ok (s₂, answers)) :
    s₂.Sound ∧ s₂.pushed = s.pushed ∧ s.popped.length ≤ s₂.popped.length ∧
      (some false ∈ answers → s₂.popped.length = s₂.pushed.length) := by
  induction es generalizing s answers with
  | nil =>
    obtain ⟨rfl, rfl⟩ : s = s₂ ∧ [] = answers := by simpa [runAll] using hrun
    exact ⟨h.sound, rfl, le_rfl, by simp⟩
  | cons e es ih =>
    obtain ⟨s₁, answer, hstep, hquiet, hpushed, hle, hfalse⟩ :=
      h.step (e := e) fun p value he => hes p value (by rw [he]; exact List.mem_cons_self)
    obtain ⟨s', answer', rest, hstep', hrest, rfl⟩ := runAll_cons_ok hrun
    obtain ⟨rfl, rfl⟩ : s₁ = s' ∧ answer = answer' := by simpa [hstep] using hstep'
    obtain ⟨hsound, hpushed', hle', hdrained⟩ :=
      ih hquiet (fun p value he => hes p value (List.mem_cons_of_mem _ he)) hrest
    refine ⟨hsound, hpushed'.trans hpushed, hle.trans hle', fun hmem => ?_⟩
    rcases List.mem_cons.mp hmem with hnow | hlater
    · have heq := hfalse hnow.symm
      have hend := hsound.le
      rw [hpushed', hpushed] at hend ⊢
      omega
    · exact hdrained hlater

end Quiet

/-! ### Runs -/

section Runs

variable {capacity : ℕ} {es : List (RingEvent P T)}

/-- With room, and one producer at a time, the buffer is a queue at every moment. -/
theorem sound_throughout (hcap : 0 < capacity)
    (hes : Meets step (fun s e => s.hasRoom e ∧ s.alone e) (new capacity : RingSystem P T) es) :
    Throughout step Sound (new capacity) es :=
  throughout_of_meets (fun _ _ hsound hcond => hsound.step hcond.1 hcond.2) (sound_new hcap) hes

/-- And it is drained when a call of `pop` says that it is empty. -/
theorem drained (hcap : 0 < capacity)
    (hes : Meets step (fun s e => s.hasRoom e ∧ s.alone e) (new capacity : RingSystem P T) es) :
    Drained (fun s => s.popped = s.pushed.map some) (new capacity) es := by
  intro xs ys s₁ answers₁ s₂ answers₂ hsplit hxs hidle hconsumer hpush hys hfalse
  obtain ⟨s', answers', hxs', hsound⟩ := sound_throughout hcap hes xs ys hsplit
  obtain ⟨rfl, -⟩ : s' = s₁ ∧ answers' = answers₁ := by simpa [hxs] using hxs'.symm
  have hquiet : s'.Quiet := ⟨hsound, hidle, by rw [hconsumer]; trivial⟩
  obtain ⟨hsound₂, -, -, hdrained⟩ := hquiet.run hpush hys
  rw [hsound₂.values, hdrained hfalse, List.take_length]

end Runs

/-! ### How many calls have begun -/

/-- Every call of `push` that has completed, and every one that goes on, has begun. -/
def Counted (s : RingSystem P T) : Prop :=
  ∃ calls : Finset P, (∀ p, s.producer p ≠ .idle → p ∈ calls) ∧
    s.pushed.length + calls.card ≤ s.begun

omit [DecidableEq P] in
theorem counted_new (capacity : ℕ) : (new capacity : RingSystem P T).Counted :=
  ⟨∅, fun _ hp => absurd rfl hp, le_rfl⟩

namespace Counted

variable {s : RingSystem P T} (h : s.Counted)

include h

theorem begin (p : P) (value : T) : (s.begin p value).Counted := by
  rw [RingSystem.begin]
  split
  · obtain ⟨calls, hin, hle⟩ := h
    refine ⟨insert p calls, fun q hq => ?_, ?_⟩
    · by_cases hqp : q = p
      · rw [hqp]
        exact Finset.mem_insert_self _ _
      · simp only [Function.update_of_ne hqp] at hq
        exact Finset.mem_insert_of_mem (hin q hq)
    · have hcard := Finset.card_insert_le p calls
      dsimp only
      omega
  · exact h

theorem produced {p : P} {b : RingBuffer T} {c : PushCall T}
    (hpush : s.buffer.push (s.producer p) = .ok (b, c)) : (s.produced p b c).Counted := by
  obtain ⟨calls, hin, hle⟩ := h
  rcases hcomp : (s.producer p).completes with _ | value
  · refine ⟨calls, fun q hq => ?_, ?_⟩
    · by_cases hqp : q = p
      · subst hqp
        refine hin q fun hidle => hq ?_
        simp only [RingSystem.produced, Function.update_self]
        rw [hidle, RingBuffer.push] at hpush
        exact (congrArg Prod.snd (Except.ok.inj hpush)).symm
      · simp only [RingSystem.produced, Function.update_of_ne hqp] at hq
        exact hin q hq
    · simpa [RingSystem.produced, hcomp] using hle
  · -- the call is over
    obtain ⟨v, w, hcall⟩ : ∃ v w, s.producer p = .storeWritePos v w := by
      rcases hcall : s.producer p <;> rw [hcall] at hcomp <;> simp [PushCall.completes] at hcomp
      exact ⟨_, _, rfl⟩
    have hmem : p ∈ calls := hin p (by rw [hcall]; simp)
    have hc : c = .idle := by
      rw [hcall, RingBuffer.push] at hpush
      exact (congrArg Prod.snd (Except.ok.inj hpush)).symm
    refine ⟨calls.erase p, fun q hq => ?_, ?_⟩
    · by_cases hqp : q = p
      · subst hqp
        simp only [RingSystem.produced, Function.update_self] at hq
        exact absurd hc hq
      · simp only [RingSystem.produced, Function.update_of_ne hqp] at hq
        exact Finset.mem_erase.mpr ⟨hqp, hin q hq⟩
    · have hcard := Finset.card_erase_add_one hmem
      simp only [RingSystem.produced, hcomp, Option.toList_some, List.length_append,
        List.length_singleton]
      omega

theorem step {e : RingEvent P T} {s' : RingSystem P T} {answer : Option Bool}
    (hstep : s.step e = .ok (s', answer)) : s'.Counted := by
  rcases e with ⟨p, value⟩ | p | _
  · obtain ⟨rfl, -⟩ : s.begin p value = s' ∧ none = answer := by simpa [RingSystem.step] using hstep
    exact h.begin p value
  · rw [RingSystem.step] at hstep
    rcases hpush : s.buffer.push (s.producer p) with _ | ⟨b, c⟩
    · rw [hpush] at hstep
      exact absurd hstep (by simp [bind, Except.bind])
    · obtain ⟨rfl, -⟩ : s.produced p b c = s' ∧ none = answer := by simpa [hpush] using hstep
      exact h.produced hpush
  · rw [RingSystem.step] at hstep
    rcases hpop : s.buffer.pop s.consumer with _ | ⟨b, c, result⟩
    · rw [hpop] at hstep
      exact absurd hstep (by simp [bind, Except.bind])
    · obtain ⟨rfl, -⟩ : s.consumed b c result = s' ∧ result.map Option.isSome = answer := by
        simpa [hpop] using hstep
      exact h

omit [DecidableEq P] in
/-- A call of `push` that is about to end is one of those begun. -/
theorem hasRoom (hfew : s.Few) (e : RingEvent P T) : s.hasRoom e := by
  rcases e with _ | p | _
  · trivial
  · intro hcall
    obtain ⟨calls, hin, hle⟩ := h
    have hmem : p ∈ calls := by
      refine hin p fun hidle => ?_
      rw [hidle] at hcall
      exact absurd hcall (by simp [PushCall.completes])
    have hpos : 0 < calls.card := Finset.card_pos.mpr ⟨p, hmem⟩
    have hlt : s.begun + 1 < s.popped.length + s.buffer.capacity := hfew
    omega
  · trivial

/-- With few calls there is always room. -/
theorem meets_hasRoom {es : List (RingEvent P T)} (hfew : Always RingSystem.step Few s es) :
    Meets RingSystem.step RingSystem.hasRoom s es := by
  induction es generalizing s with
  | nil => trivial
  | cons e es ih =>
    exact ⟨h.hasRoom hfew.head e, fun s' answer hs' => ih (h.step hs') (hfew.tail hs')⟩

end Counted

end RingSystem

/-! ### One producer -/

/-- **Nothing is lost or made up with several producers** that are in the buffer one at a
time, with fewer calls begun than values returned and fit in the buffer: what has been
returned is at every moment among what has been pushed, and when the producers have
stopped and `pop` returns `false`, it is all of that, each value once. -/
theorem ring_keeps [DecidableEq P] {capacity : ℕ} (es : List (RingEvent P T))
    (hfew : Always RingSystem.step RingSystem.Few (.new capacity) es)
    (hes : Meets RingSystem.step RingSystem.alone (.new capacity) es) :
    Throughout RingSystem.step RingSystem.NoneInvented (.new capacity) es ∧
      RingSystem.Drained (fun s => s.popped.Perm (s.pushed.map some)) (.new capacity) es := by
  have hcap : 0 < capacity := by
    have hlt : 0 + 1 < 0 + capacity := hfew.head
    omega
  have hboth := ((RingSystem.counted_new capacity).meets_hasRoom hfew).and hes
  constructor
  · refine (RingSystem.sound_throughout hcap hboth).imp fun s hsound => ?_
    exact hsound.fifo.isPrefix.sublist.subperm
  · exact (RingSystem.drained hcap hboth).imp fun s heq => List.Perm.of_eq heq

/-- Two producers after one another. -/
theorem ring_keeps_two : ∃ es : List (RingEvent Bool ℕ),
    Always RingSystem.step RingSystem.Few (.new 4) es ∧
      Meets RingSystem.step RingSystem.alone (.new 4) es ∧
        Throughout RingSystem.step RingSystem.NoneInvented (.new 4) es := by
  let es : List (RingEvent Bool ℕ) :=
    [.push false 1, .push true 2, .produce false, .produce false, .produce false, .produce false,
      .produce true, .produce true, .produce true, .produce true,
      .consume, .consume, .consume, .consume, .consume, .consume, .consume]
  have hfew : Always RingSystem.step RingSystem.Few (.new 4) es := by decide +kernel
  have halone : Meets RingSystem.step RingSystem.alone (.new 4) es := by decide +kernel
  exact ⟨es, hfew, halone, (ring_keeps es hfew halone).1⟩

/-- **Two producers that load the same position: one value is lost**, with room for
both. -/
theorem push_lost : ∃ es : List (RingEvent Bool ℕ),
    Always RingSystem.step RingSystem.Few (.new 4) es ∧
      ¬ RingSystem.Drained (fun s => s.popped.Perm (s.pushed.map some)) (.new 4) es := by
  let xs : List (RingEvent Bool ℕ) :=
    [.push false 1, .push true 2, .produce false, .produce true,
      .produce false, .produce false, .produce false,
      .produce true, .produce true, .produce true]
  let ys : List (RingEvent Bool ℕ) := List.replicate 12 .consume
  obtain ⟨⟨s₂, answers⟩, hrun, hs₂⟩ := exists_ok_of_map (f := fun r =>
      (r.1.popped, r.1.pushed, r.2))
    (b := ([some 2], [1, 2], List.replicate 16 none ++ [some true] ++ List.replicate 4 none ++
      [some false]))
    (show (runAll RingSystem.step (.new 4) (xs ++ ys)).toOption.map _ = _ by decide +kernel)
  simp only [Prod.mk.injEq] at hs₂
  obtain ⟨hpopped, hpushed, hanswers⟩ := hs₂
  obtain ⟨s₁, answers₁, answers₂, hxs, hys, hsplit⟩ := runAll_append_ok hrun
  have hs₁ := eq_of_ok_of_map hxs (f := fun r =>
      (r.1.producer false, r.1.producer true, r.1.consumer, r.2))
    (b := (.idle, .idle, .idle, List.replicate 10 none)) (by decide +kernel)
  simp only [Prod.mk.injEq] at hs₁
  obtain ⟨hfalse, htrue, hconsumer, hanswers₁⟩ := hs₁
  have hmem : some false ∈ answers₂ := by
    have hin : some false ∈ answers₁ ++ answers₂ := by
      rw [← hsplit, hanswers]
      simp
    rw [hanswers₁] at hin
    exact (List.mem_append.mp hin).resolve_left (by decide)
  refine ⟨xs ++ ys, by decide +kernel, fun h => ?_⟩
  have hperm : s₂.popped.Perm (s₂.pushed.map some) := h xs ys s₁ answers₁ s₂ answers₂ rfl hxs
    (by simp [hfalse, htrue]) hconsumer (by simp [ys]) hys hmem
  rw [hpopped, hpushed] at hperm
  exact absurd hperm.length_eq (by decide)

end LimitOrderBook
