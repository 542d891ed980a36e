import LimitOrderBook.Exchange.WorkersSound

/-!
# The exchange is atomic, and answers

Whatever the order in which clients and workers take their steps, the calls look as if each were
made at one moment of its own (`LimitOrderBook.workers_atomic`): no task is lost, run twice or run
after its caller has gone, and two workers never run tasks on the same book
(`LimitOrderBook.workers_apart`). This needs more slots than clients, and clients whose calls of
`push` on one ring do not overlap.

A client that waits is answered after a number of steps of its worker that depends on the tasks
before its own and on nothing else (`LimitOrderBook.workers_answer`). A call of `pop` that began
before the task was published may still find the ring empty; the one after it does not.
-/

namespace LimitOrderBook

/-! ### How far a worker is -/

/-- The steps of a call of `pop` until it returns a value, in a ring that has one. -/
def RingSystem.popRank {P T : Type} (s : RingSystem P T) : ℕ :=
  match s.consumer with
  | .idle => 8
  | .testWritePosCache _ => 7
  | .loadWritePos _ => 6
  -- the position was loaded before the value was published: this call fails
  | .storeWritePosCache r w => if r = w then 11 else 5
  | .retestWritePosCache r => if r = s.buffer.writePosCache then 10 else 4
  | .loadData _ => 3
  | .storeReadPos _ _ => 2

theorem RingSystem.popRank_congr {P T : Type} {r r' : RingSystem P T}
    (hconsumer : r'.consumer = r.consumer)
    (hcache : r'.buffer.writePosCache = r.buffer.writePosCache) : r'.popRank = r.popRank := by
  rw [popRank, popRank, hconsumer, hcache]

/-- The steps of a loop until it has run a task, if its call of `pop` needs `popRank` steps. -/
def LoopState.rank {C : Type} (popRank : ℕ) : LoopState C → ℕ
  | .testStop => 9
  | .popping => popRank
  | .running _ => 1
  | .ended => 0

theorem RingSystem.popRank_bounds {P T : Type} (s : RingSystem P T) :
    2 ≤ s.popRank ∧ s.popRank ≤ 11 := by
  rw [popRank]
  split <;> first | omega | (split <;> omega)

theorem LoopState.rank_bounds {C : Type} {y : LoopState C} (hy : y ≠ .ended) {k : ℕ}
    (hk : 2 ≤ k ∧ k ≤ 11) : 1 ≤ y.rank k ∧ y.rank k ≤ 11 := by
  cases y with
  | testStop => exact ⟨by simp [rank], by simp [rank]⟩
  | popping => exact ⟨by simp only [rank]; omega, hk.2⟩
  | running task => exact ⟨le_rfl, by simp [rank]⟩
  | ended => exact absurd rfl hy

/-- **A step of `pop` brings a worker closer to running a task**, if there is one in the ring. -/
theorem RingSystem.Sound.rank_afterPop {C : Type} {s : RingSystem C C} (h : s.Sound)
    (hsome : s.pending ≠ []) {b : RingBuffer C} {c : PopCall C}
    {result : Option (Option (Option C))} (hpop : s.buffer.pop s.consumer = .ok (b, c, result)) :
    (LoopState.afterPop result).rank (s.consumed b c result).popRank < s.popRank := by
  have hc := h.consumer
  rw [ConsumerSound] at hc
  rcases hcall : s.consumer with _ | r | r | ⟨r, w⟩ | r | r | ⟨r, v⟩ <;>
    simp only [hcall] at hc <;> rw [hcall, RingBuffer.pop] at hpop
  · obtain ⟨rfl, rfl, rfl⟩ := by simpa using hpop
    simp [popRank, consumed, LoopState.afterPop, LoopState.rank, hcall]
  · split at hpop <;> obtain ⟨rfl, rfl, rfl⟩ := by simpa using hpop
    · simp [popRank, consumed, LoopState.afterPop, LoopState.rank, hcall]
    · simp [popRank, consumed, LoopState.afterPop, LoopState.rank, hcall]
  · obtain ⟨rfl, rfl, rfl⟩ := by simpa using hpop
    have hne : r ≠ s.buffer.writePos := fun heq => by
      have hlt := h.lt
      have hlen := h.length_pushed
      have hpos := List.length_pos_of_ne_nil hsome
      have hnum := ring_inj h.le (by omega) ((hc.symm.trans heq).trans h.writePos)
      omega
    simp [popRank, consumed, LoopState.afterPop, LoopState.rank, hcall, hne]
  · obtain ⟨rfl, rfl, rfl⟩ := by simpa using hpop
    by_cases hrw : r = w <;>
      simp [popRank, consumed, LoopState.afterPop, LoopState.rank, hcall,
        RingBuffer.setWritePosCache, hrw]
  · split at hpop <;> obtain ⟨rfl, rfl, rfl⟩ := by simpa using hpop
    · next heq => simp [popRank, LoopState.afterPop, LoopState.rank, hcall, heq]
    · next hne => simp [popRank, consumed, LoopState.afterPop, LoopState.rank, hcall, hne]
  · split at hpop
    · obtain ⟨rfl, rfl, rfl⟩ := by simpa using hpop
      simp [popRank, consumed, LoopState.afterPop, LoopState.rank, hcall]
    · simp at hpop
  · obtain ⟨rfl, rfl, rfl⟩ := by simpa using hpop
    simp [popRank, LoopState.afterPop, LoopState.rank, hcall]

namespace Workers

variable {C : Type} {n : ℕ} {s s' : Workers C} {c : C} {w : ℕ} {x : Submission}

/-- The steps of a worker until it has run a task, if it has one. -/
def rank (s : Workers C) (w : ℕ) : ℕ := (s.loop w).rank (s.ring w).popRank

/-- A worker has not been asked to stop. -/
structure Going (w : ℕ) (s : Workers C) : Prop where
  stopRequested : s.stopRequested w = false
  loop : s.loop w ≠ .ended

/-! ### What the others do -/

/-- What a step that is not one of a worker leaves alone: the worker is where it was, and it has
the tasks that it had, before those that have come. -/
structure Undisturbed (w : ℕ) (s s' : Workers C) : Prop where
  loop : s'.loop w = s.loop w
  stopRequested : s'.stopRequested w = s.stopRequested w
  popRank : (s'.ring w).popRank = (s.ring w).popRank
  tasks : s.tasks w <+: s'.tasks w
  waiting : ∀ c x, s.client c = .waiting w x → s'.client c = .waiting w x

theorem Undisturbed.refl (w : ℕ) (s : Workers C) : Undisturbed w s s :=
  ⟨rfl, rfl, rfl, List.prefix_rfl, fun _ _ hc => hc⟩

theorem Undisturbed.trans {s₁ s₂ s₃ : Workers C} (h : Undisturbed w s₁ s₂)
    (h' : Undisturbed w s₂ s₃) : Undisturbed w s₁ s₃ where
  loop := h'.loop.trans h.loop
  stopRequested := h'.stopRequested.trans h.stopRequested
  popRank := h'.popRank.trans h.popRank
  tasks := h.tasks.trans h'.tasks
  waiting := fun c x hc => h'.waiting c x (h.waiting c x hc)

/-- The books are not looked at. -/
theorem undisturbed_setRouting (E : Routing) : Undisturbed w s { s with routing := E } :=
  ⟨rfl, rfl, rfl, List.prefix_rfl, fun _ _ hc => hc⟩

/-- Another worker takes a step. -/
theorem undisturbed_worker {w' : ℕ} (hw : w ≠ w') (r : RingSystem C C) (y : LoopState C) :
    Undisturbed w s ((s.setRing w' r).setLoop w' y) where
  loop := by simp [hw]
  stopRequested := rfl
  popRank := by simp [hw]
  tasks := by simp [tasks, hw]
  waiting := fun _ _ hc => hc

theorem undisturbed_setLoop {w' : ℕ} (hw : w ≠ w') (y : LoopState C) :
    Undisturbed w s (s.setLoop w' y) := by
  have hothers := undisturbed_worker (s := s) hw (s.ring w') y
  rwa [setRing_self] at hothers

variable [DecidableEq C]

/-- A client takes a step in the ring of some worker. -/
theorem undisturbed_push {d : C} {w' : ℕ} {r : RingSystem C C} {y : ClientState} {more : List C}
    (hd : ∀ x, s.client d ≠ .waiting w x) (hrank : r.popRank = (s.ring w').popRank)
    (hpending : r.pending = (s.ring w').pending ++ more) :
    Undisturbed w s ((s.setRing w' r).setClient d y) where
  loop := rfl
  stopRequested := rfl
  popRank := by
    by_cases hw : w = w'
    · subst hw
      simpa using hrank
    · simp [hw]
  tasks := by
    rw [tasks_push hpending]
    exact List.prefix_append _ _
  waiting := fun c x hc => by
    by_cases hcd : c = d
    · subst hcd
      exact absurd hc (hd x)
    · simpa [hcd] using hc

/-- A client that is not waiting goes where it has no task either. -/
theorem undisturbed_setClient {d : C} {y : ClientState} (hd : ∀ x, s.client d ≠ .waiting w x) :
    Undisturbed w s (s.setClient d y) where
  loop := rfl
  stopRequested := rfl
  popRank := rfl
  tasks := List.prefix_rfl
  waiting := fun c x hc => by
    by_cases hcd : c = d
    · subst hcd
      exact absurd hc (hd x)
    · simpa [hcd] using hc

namespace Sound

variable (h : s.Sound n)

include h

/-- **A step of anyone else** leaves a worker where it was. -/
theorem undisturbed {e : Event C} (hwork : e ≠ .work w) (hstop : e ≠ .stop w)
    (hs' : s.Moves e s') : Undisturbed w s s' := by
  cases hs' with
  | stay => exact .refl w s
  | call c x E w' hc =>
    refine (undisturbed_setRouting E).trans (undisturbed_push (by simp [hc]) ?_
      ((RingSystem.pending_begin c c).trans (List.append_nil _).symm))
    rw [RingSystem.begin, h.producer_idle (by simp [hc])]
    exact RingSystem.popRank_congr rfl rfl
  | refuse c x hc => exact undisturbed_setClient (by simp [hc])
  | enqueue c w' x b call hc hpush =>
    obtain ⟨-, hcache, -⟩ := RingBuffer.push_spec hpush
    exact undisturbed_push (by simp [hc]) (RingSystem.popRank_congr rfl hcache)
      ((h.ring w').pending_produced c b call)
  | testStop w' hloop => exact undisturbed_setLoop (fun heq => hwork (by rw [heq])) _
  | pop w' b call result hloop hpop => exact undisturbed_worker (fun heq => hwork (by rw [heq])) _ _
  | run w' c w'' x E status hloop hc =>
    have hw : w ≠ w' := fun heq => hwork (by rw [heq])
    obtain ⟨y, hy⟩ := h.waiting_of_running hloop
    have hfree : ∀ x', s.client c ≠ .waiting w x' := by simp [hy, Ne.symm hw]
    exact ((undisturbed_setRouting E).trans (undisturbed_setClient hfree)).trans
      (undisturbed_setLoop hw _)
  | get c answer hc => exact undisturbed_setClient (by simp [hc])
  | stop w' =>
    have hw : w ≠ w' := fun heq => hstop (by rw [heq])
    exact ⟨rfl, Function.update_of_ne hw _ _, rfl, List.prefix_rfl, fun _ _ hc => hc⟩

/-- Only `request_stop` stops a worker. -/
theorem going {e : Event C} (hgoing : s.Going w) (hstop : e ≠ .stop w) (hs' : s.Moves e s') :
    s'.Going w := by
  by_cases hwork : e = .work w
  · subst hwork
    cases hs' with
    | stay => exact hgoing
    | testStop w hloop => exact ⟨hgoing.stopRequested, by simp [hgoing.stopRequested]⟩
    | pop w b call result hloop hpop =>
      refine ⟨hgoing.stopRequested, ?_⟩
      rcases result with _ | _ | v <;> simp [LoopState.afterPop]
    | run w c w' x E status hloop hc => exact ⟨hgoing.stopRequested, by simp⟩
  · obtain ⟨hloop, hsame, -⟩ := h.undisturbed hwork hstop hs'
    exact ⟨hsame.trans hgoing.stopRequested, hloop ▸ hgoing.loop⟩

/-- **A step of the worker itself** answers the client, or brings it closer to that. -/
theorem work_rank (hgoing : s.Going w) (hworker : w < s.routing.workers)
    (hc : s.client c = .waiting w x) {v : Option (Visible C Submission Routing.Answer)}
    (hs' : s.step (.work w) = .ok (s', v)) :
    (∃ answer, s'.client c = .ready answer) ∨ (s'.client c = .waiting w x ∧
      9 * (s'.tasks w).idxOf c + s'.rank w < 9 * (s.tasks w).idxOf c + s.rank w) := by
  have hmem : c ∈ s.tasks w := (h.mem_tasks w c).mpr ⟨x, hc⟩
  rw [Workers.step, if_pos hworker] at hs'
  obtain ⟨s₁, hwork, heq⟩ := bind_eq_ok.mp hs'
  obtain ⟨rfl, -⟩ := Prod.mk.inj (Except.ok.inj heq)
  rw [Workers.work] at hwork
  split at hwork
  · next hloop =>
    obtain rfl := Except.ok.inj hwork
    have htasks : (s.setLoop w (if s.stopRequested w then .ended else .popping)).tasks w =
        s.tasks w := by
      simp [tasks, hgoing.stopRequested, hloop, LoopState.hand]
    have hidle := h.calm w (by simp [hloop])
    refine Or.inr ⟨hc, ?_⟩
    rw [htasks, Nat.add_lt_add_iff_left]
    simp [rank, hgoing.stopRequested, hloop, LoopState.rank, RingSystem.popRank, hidle]
  · next hloop =>
    obtain ⟨b, call, result, hpop, hsound⟩ := (h.ring w).consume
    rw [hpop, ok_bind] at hwork
    obtain rfl := Except.ok.inj hwork
    have hbefore : s.tasks w = (s.ring w).pending := by
      rw [tasks, hloop]
      rfl
    obtain ⟨-, hhand⟩ := (h.ring w).hand_afterPop hsound
    have hlt := (h.ring w).rank_afterPop (hbefore ▸ List.ne_nil_of_mem hmem) hpop
    have htasks : ((s.setRing w ((s.ring w).consumed b call result)).setLoop w
        (.afterPop result)).tasks w = s.tasks w := by
      simpa [tasks, hloop, LoopState.hand] using hhand
    refine Or.inr ⟨hc, ?_⟩
    rw [htasks, Nat.add_lt_add_iff_left]
    simpa [rank, hloop, LoopState.rank] using hlt
  · next task hloop =>
    obtain ⟨s₁, hrun, heq⟩ := bind_eq_ok.mp hwork
    obtain rfl := Except.ok.inj heq
    rcases task with _ | d
    · exact absurd hloop (h.held w)
    obtain ⟨y, hd⟩ := h.waiting_of_running hloop
    rw [runTask, deref_some, ok_bind, locals, hd, ok_bind] at hrun
    obtain ⟨⟨E, status⟩, -, hrun⟩ := bind_eq_ok.mp hrun
    obtain rfl := Except.ok.inj hrun
    by_cases hcd : c = d
    · subst hcd
      exact Or.inl ⟨.status status, by simp⟩
    · have hahead : (s.tasks w).idxOf c = (s.ring w).pending.idxOf c + 1 := by
        rw [tasks, hloop]
        exact List.idxOf_cons_ne _ (Ne.symm hcd)
      refine Or.inr ⟨by simpa [hcd] using hc, ?_⟩
      rw [hahead]
      simp [tasks, rank, LoopState.hand, LoopState.rank, hloop]
      omega
  · next hloop => exact absurd hloop hgoing.loop

/-- Nobody else takes a step of a call of `push`. -/
theorem pushing {e : Event C} (hne : e ≠ .enqueue c) (hc : s.client c = .enqueuing w x)
    (hs' : s.Moves e s') :
    s'.client c = .enqueuing w x ∧ (s'.ring w).producer c = (s.ring w).producer c := by
  have hring : ∀ {t : Workers C} {r : RingSystem C C} (w' : ℕ),
      t.ring = Function.update s.ring w' r → r.producer c = (s.ring w').producer c →
        (t.ring w).producer c = (s.ring w).producer c := by
    intro t r w' ht hr
    rw [ht]
    by_cases hw : w = w'
    · subst hw
      rw [Function.update_self, hr]
    · rw [Function.update_of_ne hw]
  cases hs' with
  | stay => exact ⟨hc, rfl⟩
  | call d y E w' hd =>
    have hcd : c ≠ d := by
      rintro rfl
      simp [hc] at hd
    refine ⟨by simpa [hcd] using hc, hring w' rfl ?_⟩
    rw [RingSystem.begin, h.producer_idle (by simp [hd])]
    exact Function.update_of_ne hcd _ _
  | refuse d y hd =>
    have hcd : c ≠ d := by
      rintro rfl
      simp [hc] at hd
    exact ⟨by simpa [hcd] using hc, rfl⟩
  | enqueue d w' y b call hd hpush =>
    have hcd : c ≠ d := fun heq => hne (by rw [heq])
    exact ⟨by simpa [hcd] using hc, hring w' rfl (Function.update_of_ne hcd _ _)⟩
  | testStop w' hloop => exact ⟨hc, rfl⟩
  | pop w' b call result hloop hpop => exact ⟨hc, hring w' rfl rfl⟩
  | run w' d w'' y E status hloop hd =>
    have hcd : c ≠ d := by
      rintro rfl
      simp [hc] at hd
    exact ⟨by simpa [hcd] using hc, rfl⟩
  | get d answer hd =>
    have hcd : c ≠ d := by
      rintro rfl
      simp [hc] at hd
    exact ⟨by simpa [hcd] using hc, rfl⟩
  | stop w' => exact ⟨hc, rfl⟩

/-- **A step of the client itself** ends its `push`, or brings it closer to that. -/
theorem enqueue_rank (hc : s.client c = .enqueuing w x)
    {v : Option (Visible C Submission Routing.Answer)} (hs' : s.step (.enqueue c) = .ok (s', v)) :
    s'.client c = .waiting w x ∨ (s'.client c = .enqueuing w x ∧
      ((s'.ring w).producer c).rank < ((s.ring w).producer c).rank) := by
  have hin : (s.ring w).producer c ≠ .idle := (h.pushes w c).mpr ⟨x, hc⟩
  simp only [Workers.step, hc] at hs'
  obtain ⟨s₁, henqueue, heq⟩ := bind_eq_ok.mp hs'
  obtain ⟨rfl, -⟩ := Prod.mk.inj (Except.ok.inj heq)
  obtain ⟨⟨r, answer⟩, hr, henqueue⟩ := bind_eq_ok.mp henqueue
  obtain rfl := Except.ok.inj henqueue
  obtain ⟨⟨b, call⟩, hpush, hr⟩ := bind_eq_ok.mp hr
  obtain ⟨rfl, -⟩ := Prod.mk.inj (Except.ok.inj hr)
  have hlt := (h.roomy w).rank_lt hin hpush
  rcases hover : ((s.ring w).producer c).completes.isSome with _ | _
  · refine Or.inr ⟨by simp, ?_⟩
    simpa [RingSystem.produced] using hlt
  · exact Or.inl (by simp)

end Sound

/-! ### Runs -/

/-- **The tasks are those of the clients that wait**, each of them once and with the worker of its
instrument, and no worker has tasks for two books. -/
structure Orderly (s : Workers C) : Prop where
  nodup : ∀ w, (s.tasks w).Nodup
  mem_tasks : ∀ w c, c ∈ s.tasks w ↔ ∃ x, s.client c = .waiting w x
  apart : ∀ c₁ c₂ w₁ w₂ x₁ x₂, s.Calls c₁ w₁ x₁ → s.Calls c₂ w₂ x₂ →
    (x₁.instrument = x₂.instrument ↔ w₁ = w₂)

omit [DecidableEq C] in
theorem Sound.orderly (h : s.Sound n) : s.Orderly where
  nodup := h.nodup
  mem_tasks := h.mem_tasks
  apart := fun c₁ c₂ w₁ w₂ x₁ x₂ h₁ h₂ => by
    obtain ⟨-, i₁, hi₁, rfl⟩ := h.own c₁ w₁ x₁ h₁
    obtain ⟨-, i₂, hi₂, rfl⟩ := h.own c₂ w₂ x₂ h₂
    constructor
    · intro hx
      rw [hx, hi₂] at hi₁
      rw [Option.some.inj hi₁]
    · intro hi
      obtain rfl : i₁ = i₂ := UInt32.toNat_inj.mp hi
      exact h.routes.apart _ _ i₁ hi₁ hi₂

variable [Fintype C]

/-- **A client that waits is answered** after so many steps of its worker. -/
theorem Sound.answered (h : s.Sound n) (hn : Fintype.card C < n)
    (hc : s.client c = .waiting w x) (hgoing : s.Going w) {es : List (Event C)}
    (hes : Meets Workers.step alone s es) (hstop : .stop w ∉ es)
    (hcount : 9 * (s.tasks w).idxOf c + s.rank w ≤ es.count (.work w)) :
    ∃ xs ys s' answers answer, es = xs ++ ys ∧ runAll Workers.step s xs = .ok (s', answers) ∧
      s'.client c = .ready answer := by
  induction es generalizing s with
  | nil =>
    have hpos := (LoopState.rank_bounds hgoing.loop (s.ring w).popRank_bounds).1
    rw [rank, List.count_nil] at hcount
    omega
  | cons e es ih =>
    obtain ⟨halone, hrest⟩ := hes
    obtain ⟨s₁, v, -, hs₁, h₁, -⟩ := h.step hn halone
    have hmoves := moves_of_step hs₁
    have hne : e ≠ .stop w := fun heq => hstop (heq ▸ List.mem_cons_self)
    have hthen : s₁.client c = .waiting w x →
        9 * (s₁.tasks w).idxOf c + s₁.rank w ≤ es.count (.work w) →
          ∃ xs ys s' answers answer, e :: es = xs ++ ys ∧
            runAll Workers.step s xs = .ok (s', answers) ∧ s'.client c = .ready answer := by
      intro hc₁ hcount₁
      obtain ⟨xs, ys, s', answers, answer, rfl, hrun, hready⟩ := ih h₁ hc₁
        (h.going hgoing hne hmoves) (hrest s₁ v hs₁)
        (fun hmem => hstop (List.mem_cons_of_mem _ hmem)) hcount₁
      exact ⟨e :: xs, ys, s', v :: answers, answer, rfl, runAll_cons hs₁ hrun, hready⟩
    by_cases hwork : e = .work w
    · subst hwork
      obtain ⟨-, idx, hidx, rfl⟩ := h.own c w x (Or.inr hc)
      rcases h.work_rank hgoing (h.routes.valid _ idx hidx) hc hs₁ with
        ⟨answer, hready⟩ | ⟨hc₁, hlt⟩
      · exact ⟨[.work idx.toNat], es, s₁, [v], answer, rfl, runAll_cons hs₁ rfl, hready⟩
      · rw [List.count_cons_self] at hcount
        exact hthen hc₁ (by omega)
    · obtain ⟨hloop, -, hrank, ⟨more, hmore⟩, hwaiting⟩ := h.undisturbed hwork hne hmoves
      have hahead : (s₁.tasks w).idxOf c = (s.tasks w).idxOf c := by
        rw [← hmore]
        exact List.idxOf_append_of_mem ((h.mem_tasks w c).mpr ⟨x, hc⟩)
      rw [List.count_cons_of_ne hwork] at hcount
      refine hthen (hwaiting c x hc) ?_
      rwa [hahead, rank, hloop, hrank]

/-- **The `push` of a client is over** after so many steps of its own. -/
theorem Sound.enqueued (h : s.Sound n) (hn : Fintype.card C < n)
    (hc : s.client c = .enqueuing w x) {es : List (Event C)}
    (hes : Meets Workers.step alone s es)
    (hcount : ((s.ring w).producer c).rank ≤ es.count (.enqueue c)) :
    ∃ xs ys s' answers, es = xs ++ ys ∧ runAll Workers.step s xs = .ok (s', answers) ∧
      s'.client c = .waiting w x := by
  induction es generalizing s with
  | nil =>
    have hin : (s.ring w).producer c ≠ .idle := (h.pushes w c).mpr ⟨x, hc⟩
    rw [List.count_nil, Nat.le_zero] at hcount
    rcases hcall : (s.ring w).producer c <;> rw [hcall] at hcount <;>
      simp [PushCall.rank] at hcount
    exact absurd hcall hin
  | cons e es ih =>
    obtain ⟨halone, hrest⟩ := hes
    obtain ⟨s₁, v, -, hs₁, h₁, -⟩ := h.step hn halone
    have hthen : s₁.client c = .enqueuing w x →
        ((s₁.ring w).producer c).rank ≤ es.count (.enqueue c) →
          ∃ xs ys s' answers, e :: es = xs ++ ys ∧
            runAll Workers.step s xs = .ok (s', answers) ∧ s'.client c = .waiting w x := by
      intro hc₁ hcount₁
      obtain ⟨xs, ys, s', answers, rfl, hrun, hwaiting⟩ := ih h₁ hc₁ (hrest s₁ v hs₁) hcount₁
      exact ⟨e :: xs, ys, s', v :: answers, rfl, runAll_cons hs₁ hrun, hwaiting⟩
    by_cases hself : e = .enqueue c
    · subst hself
      rcases h.enqueue_rank hc hs₁ with hwaiting | ⟨hc₁, hlt⟩
      · exact ⟨[.enqueue c], es, s₁, [v], rfl, runAll_cons hs₁ rfl, hwaiting⟩
      · rw [List.count_cons_self] at hcount
        exact hthen hc₁ (by omega)
    · obtain ⟨hc₁, hsame⟩ := h.pushing hself hc (moves_of_step hs₁)
      rw [List.count_cons_of_ne hself] at hcount
      exact hthen hc₁ (by rwa [hsame])

end Workers

namespace Workers

/-- Two clients with orders for the same instrument; the second one to call is the first one whose
task is in the ring. -/
def twoOrders : List (Event Bool) :=
  [.call false (.addOrder 0 "X" (.limit "a" .buy 5 10)),
    .call true (.addOrder 0 "X" (.limit "b" .sell 5 10))] ++
  List.replicate 4 (.enqueue true) ++ List.replicate 4 (.enqueue false)

end Workers

section Runs

variable {C : Type} [DecidableEq C] [Fintype C] {records : List OrderData}
  {infos : List (String × ℚ)} {E : Routing} {ringbufferSize : ℕ}

omit [DecidableEq C] in
/-- A new exchange, with more slots in every ring than there are clients. -/
theorem Workers.sound_new (hd : (infos.map Prod.fst).Nodup) (hlen : infos.length ≤ 2 ^ 32)
    (hE : Routing.new records infos = .ok E) (hsize : Fintype.card C < ringbufferSize) :
    (Workers.new E ringbufferSize : Workers C).Sound ringbufferSize := by
  obtain ⟨E', hE', hsound, hroutes⟩ := Routing.sound_new records hd hlen
  obtain rfl : E' = E := Except.ok.inj (hE'.symm.trans hE)
  exact sound_start hsound hroutes (by omega)

/-- **The exchange is atomic**: in every interleaving of clients and workers nothing goes wrong, and
what the clients see is what they would see if each of their calls took effect at one moment
between its beginning and its end; these effects, one after the other, are a run of the exchange
with one client at a time. -/
theorem workers_atomic (hd : (infos.map Prod.fst).Nodup) (hlen : infos.length ≤ 2 ^ 32)
    (hE : Routing.new records infos = .ok E) (hsize : Fintype.card C < ringbufferSize)
    {es : List (Workers.Event C)}
    (hes : Meets Workers.step Workers.alone (.new E ringbufferSize) es) :
    ∃ s events log, runAll Workers.step (.new E ringbufferSize) es = .ok (s, events) ∧
      AtomicObject.Runs Routing.perform (.start E) events.reduceOption log s.view ∧
      runAll Routing.perform E (log.map PerformedCall.op) =
        .ok (s.routing, log.map PerformedCall.answer) := by
  obtain ⟨s, events, log, hrun, -, hruns⟩ := AtomicObject.runs_of_simulates Workers.view
    (fun _ _ h halone => h.step hsize halone) (Workers.sound_new (C := C) hd hlen hE hsize) hes
  exact ⟨s, events, log, hrun, hruns, hruns.runAll_eq⟩

/-- The orders of two clients. -/
theorem workers_atomic_two : ∃ E s events log, Routing.new [] [("X", 10)] = .ok E ∧
    runAll Workers.step (.new E 3) (Workers.twoOrders ++ List.replicate 18 (.work 0)) =
      .ok (s, events) ∧
    AtomicObject.Runs Routing.perform (.start E) events.reduceOption log s.view := by
  have hnew : ∃ E, Routing.new [] [("X", 10)] = .ok E ∧ Meets Workers.step Workers.alone
      (.new E 3) (Workers.twoOrders ++ List.replicate 18 (.work 0)) := ⟨_, rfl, by decide +kernel⟩
  obtain ⟨E, hE, hes⟩ := hnew
  obtain ⟨s, events, log, hrun, hruns, -⟩ :=
    workers_atomic (by decide) (by decide) hE (by decide) hes
  exact ⟨E, s, events, log, hE, hrun, hruns⟩

/-- **No task is lost, repeated or run on another worker's book**, in any interleaving. -/
theorem workers_apart (hd : (infos.map Prod.fst).Nodup) (hlen : infos.length ≤ 2 ^ 32)
    (hE : Routing.new records infos = .ok E) (hsize : Fintype.card C < ringbufferSize)
    {es : List (Workers.Event C)}
    (hes : Meets Workers.step Workers.alone (.new E ringbufferSize) es) :
    Throughout Workers.step Workers.Orderly (.new E ringbufferSize) es :=
  (throughout_of_meets (fun _ _ h halone => by
    obtain ⟨s', v, -, hs', h', -⟩ := h.step hsize halone
    exact ⟨s', v, hs', h'⟩) (Workers.sound_new hd hlen hE hsize) hes).imp fun _ h => h.orderly

/-- The orders of two clients. -/
theorem workers_apart_two : ∃ E, Routing.new [] [("X", 10)] = .ok E ∧
    Throughout Workers.step Workers.Orderly (.new E 3)
      (Workers.twoOrders ++ List.replicate 18 (.work 0)) := by
  have hnew : ∃ E, Routing.new [] [("X", 10)] = .ok E ∧ Meets Workers.step Workers.alone
      (.new E 3) (Workers.twoOrders ++ List.replicate 18 (.work 0)) := ⟨_, rfl, by decide +kernel⟩
  obtain ⟨E, hE, hes⟩ := hnew
  exact ⟨E, hE, workers_apart (by decide) (by decide) hE (by decide) hes⟩

/-- **A client that waits is answered** after at most nine steps of its worker for each task before
its own and eleven more, whatever the others do, unless the worker is stopped. -/
theorem workers_answer (hd : (infos.map Prod.fst).Nodup) (hlen : infos.length ≤ 2 ^ 32)
    (hE : Routing.new records infos = .ok E) (hsize : Fintype.card C < ringbufferSize)
    {es₁ es₂ : List (Workers.Event C)}
    (hes : Meets Workers.step Workers.alone (.new E ringbufferSize) (es₁ ++ es₂))
    {s : Workers C} {events : List (Option (Visible C Submission Routing.Answer))}
    (hrun : runAll Workers.step (.new E ringbufferSize) es₁ = .ok (s, events))
    {c : C} {w : ℕ} {x : Submission} (hc : s.client c = .waiting w x)
    (hstop : .stop w ∉ es₁ ++ es₂)
    (hcount : 9 * (s.tasks w).idxOf c + 11 ≤ es₂.count (.work w)) :
    ∃ xs ys s' events' answer, es₂ = xs ++ ys ∧ runAll Workers.step s xs = .ok (s', events') ∧
      s'.client c = .ready answer := by
  obtain ⟨hes₁, hes₂⟩ := hes.of_append
  rw [List.mem_append, not_or] at hstop
  obtain ⟨s₁, events₁, hrun₁, h, hgoing⟩ := runAll_invariant
    (I := fun s es => s.Sound ringbufferSize ∧ s.Going w ∧ Workers.Event.stop w ∉ es)
    (fun t e es hI halone => by
      obtain ⟨h, hgoing, hnot⟩ := hI
      rw [List.mem_cons, not_or] at hnot
      obtain ⟨t', v, -, ht', h', -⟩ := h.step hsize halone
      exact ⟨t', v, ht', h', h.going hgoing (Ne.symm hnot.1) (Workers.moves_of_step ht'), hnot.2⟩)
    ⟨Workers.sound_new (C := C) hd hlen hE hsize, ⟨rfl, by simp [Workers.new]⟩, hstop.1⟩ hes₁
  obtain ⟨rfl, -⟩ := Prod.mk.inj (Except.ok.inj (hrun₁.symm.trans hrun))
  have hrank := (LoopState.rank_bounds hgoing.1.loop (s₁.ring w).popRank_bounds).2
  exact h.answered hsize hc hgoing.1 (hes₂ s₁ events₁ hrun₁) hstop.2
    (by rw [Workers.rank]; omega)

/-- The first one to call is the second one to be served. -/
theorem workers_answer_two : ∃ E s events, Routing.new [] [("X", 10)] = .ok E ∧
    runAll Workers.step (.new E 3) Workers.twoOrders = .ok (s, events) ∧
    s.client false = .waiting 0 (.addOrder 0 "X" (.limit "a" .buy 5 10)) ∧
    ∃ xs ys s' events' answer, List.replicate 20 (.work 0) = xs ++ ys ∧
      runAll Workers.step s xs = .ok (s', events') ∧ s'.client false = .ready answer := by
  have hnew : ∃ E, Routing.new [] [("X", 10)] = .ok E ∧
      Meets Workers.step Workers.alone (.new E 3)
        (Workers.twoOrders ++ List.replicate 20 (.work 0)) ∧
      (runAll Workers.step (.new E 3) Workers.twoOrders).toOption.map
        (fun r => (r.1.client false, (r.1.tasks 0).idxOf false)) =
          some (.waiting 0 (.addOrder 0 "X" (.limit "a" .buy 5 10)), 1) :=
    ⟨_, rfl, by decide +kernel, by decide +kernel⟩
  obtain ⟨E, hE, hes, hat⟩ := hnew
  obtain ⟨⟨s, events⟩, hrun, hs⟩ := exists_ok_of_map hat
  obtain ⟨hc, hahead⟩ := Prod.mk.inj hs
  refine ⟨E, s, events, hE, hrun, hc, ?_⟩
  exact workers_answer (by decide) (by decide) hE (by decide) hes hrun hc (by decide)
    (by simp only at hahead; rw [hahead]; decide)

/-- **No client spins**: its `push` is over after at most seven steps of its own, whatever the
others do meanwhile. -/
theorem workers_push (hd : (infos.map Prod.fst).Nodup) (hlen : infos.length ≤ 2 ^ 32)
    (hE : Routing.new records infos = .ok E) (hsize : Fintype.card C < ringbufferSize)
    {es₁ es₂ : List (Workers.Event C)}
    (hes : Meets Workers.step Workers.alone (.new E ringbufferSize) (es₁ ++ es₂))
    {s : Workers C} {events : List (Option (Visible C Submission Routing.Answer))}
    (hrun : runAll Workers.step (.new E ringbufferSize) es₁ = .ok (s, events))
    {c : C} {w : ℕ} {x : Submission} (hc : s.client c = .enqueuing w x)
    (hcount : 7 ≤ es₂.count (.enqueue c)) :
    ∃ xs ys s' events', es₂ = xs ++ ys ∧ runAll Workers.step s xs = .ok (s', events') ∧
      s'.client c = .waiting w x := by
  obtain ⟨hes₁, hes₂⟩ := hes.of_append
  obtain ⟨s₁, events₁, hrun₁, h⟩ := runAll_invariant
    (I := fun s _ => s.Sound ringbufferSize)
    (fun t e _ h halone => by
      obtain ⟨t', v, -, ht', h', -⟩ := h.step hsize halone
      exact ⟨t', v, ht', h'⟩)
    (Workers.sound_new (C := C) hd hlen hE hsize) hes₁
  obtain ⟨rfl, -⟩ := Prod.mk.inj (Except.ok.inj (hrun₁.symm.trans hrun))
  exact h.enqueued hsize hc (hes₂ s₁ events₁ hrun₁) ((PushCall.rank_le _).trans hcount)

/-- Both clients have called, and the worker goes round its loop meanwhile. -/
theorem workers_push_two : ∃ E s events, Routing.new [] [("X", 10)] = .ok E ∧
    runAll Workers.step (.new E 3) (Workers.twoOrders.take 2) = .ok (s, events) ∧
    s.client true = .enqueuing 0 (.addOrder 0 "X" (.limit "b" .sell 5 10)) ∧
    ∃ xs ys s' events', (List.replicate 7 [.work 0, .enqueue true]).flatten = xs ++ ys ∧
      runAll Workers.step s xs = .ok (s', events') ∧
      s'.client true = .waiting 0 (.addOrder 0 "X" (.limit "b" .sell 5 10)) := by
  have hnew : ∃ E, Routing.new [] [("X", 10)] = .ok E ∧
      Meets Workers.step Workers.alone (.new E 3)
        (Workers.twoOrders.take 2 ++ (List.replicate 7 [.work 0, .enqueue true]).flatten) ∧
      (runAll Workers.step (.new E 3) (Workers.twoOrders.take 2)).toOption.map
        (fun r => r.1.client true) =
          some (.enqueuing 0 (.addOrder 0 "X" (.limit "b" .sell 5 10))) :=
    ⟨_, rfl, by decide +kernel, by decide +kernel⟩
  obtain ⟨E, hE, hes, hat⟩ := hnew
  obtain ⟨⟨s, events⟩, hrun, hc⟩ := exists_ok_of_map hat
  exact ⟨E, s, events, hE, hrun, hc,
    workers_push (by decide) (by decide) hE (by decide) hes hrun hc (by decide)⟩

end Runs

end LimitOrderBook
