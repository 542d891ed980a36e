import LimitOrderBook.Exchange.Workers
import LimitOrderBook.Properties.Routing
import LimitOrderBook.Utils.RingRoom
import Mathlib.Data.Fintype.Card

/-!
# Clients and workers are in step

Every task that a worker has in its ring or in its hands is that of a client which waits for it,
and every client that waits has exactly one task (`LimitOrderBook.Workers.Sound`). So there are
never more tasks than clients: with more slots than clients a ring has room whenever a task is
pushed, and the ring is a queue. Each step of anyone keeps this, and is matched by a step of an
atomic exchange (`LimitOrderBook.Workers.view`).
-/

namespace LimitOrderBook

/-! ### A request, by its parts -/

namespace Routing

variable {E E' : Routing} {X : String} {r : OrderBook.Request}

/-- With the routes right, the maps have all that `operator[]` looks for. -/
theorem Sound.touch (h : E.Sound) (hX : X ∈ E.instruments) : E.touch X = E := by
  have hX' : E.instrumentExists X = true := decide_eq_true hX
  rw [Routing.touch, if_pos ((h.exists_iff X).mp hX), if_pos hX']

/-- A request is what the task does. -/
theorem Sound.submit_eq (h : E.Sound) (hp : E.Routes) (hX : X ∈ E.instruments) :
    E.submit X r = E.runOn X r := by
  obtain ⟨idx, hidx⟩ := hp.entry X hX
  simp only [Routing.submit, Routing.runOn, h.touch hX, hidx, deref_some, ok_bind, enqueueTask,
    if_pos (hp.valid X idx hidx)]

theorem instrumentIdx_runOn {status : Option OrderStatus} (h : E.runOn X r = .ok (E', status)) :
    E'.instrumentIdx = E.instrumentIdx ∧ E'.workers = E.workers := by
  obtain ⟨b, -, h⟩ := bind_eq_ok.mp h
  obtain ⟨s, -, h⟩ := bind_eq_ok.mp h
  obtain ⟨⟨s', status'⟩, -, h⟩ := bind_eq_ok.mp h
  obtain ⟨rfl, -⟩ := Prod.mk.inj (Except.ok.inj h)
  exact ⟨rfl, rfl⟩

/-- The task of a request for an instrument that exists. -/
theorem Sound.runOn (h : E.Sound) (hp : E.Routes) (hX : X ∈ E.instruments) :
    ∃ E' status, E.runOn X r = .ok (E', status) ∧ E'.Sound ∧ E'.Routes ∧
      E'.instrumentIdx = E.instrumentIdx ∧ E'.workers = E.workers := by
  obtain ⟨E', status, hE', h', hp'⟩ := h.submit hp hX r
  rw [h.submit_eq hp hX] at hE'
  exact ⟨E', status, hE', h', hp', instrumentIdx_runOn hE'⟩

/-- The constructor, for distinct instruments that can be counted in 32 bits. -/
theorem sound_new (records : List OrderData) {infos : List (String × ℚ)}
    (hd : (infos.map Prod.fst).Nodup) (hlen : infos.length ≤ 2 ^ 32) :
    ∃ E, Routing.new records infos = .ok E ∧ E.Sound ∧ E.Routes := by
  obtain ⟨E, hE, h⟩ : ∃ E, Routing.openInstruments records 0 Routing.empty infos = .ok E ∧
      E.Opened ([] ++ infos) := opened_empty.openInstruments (by rwa [List.nil_append])
  rw [List.nil_append] at h
  have h' : Opened { E with workers := infos.length } infos := ⟨h.idx, h.exists_iff, h.book⟩
  obtain ⟨hsound, hstart⟩ := h'.routes hd rfl
  exact ⟨_, by rw [Routing.new, hE]; rfl, hsound, hstart.mpr hlen⟩

end Routing

/-! ### The invariant -/

/-- What the outside knows of the call of a client. -/
def ClientState.pending : ClientState → PendingCall Submission Routing.Answer
  | .idle => .idle
  | .enqueuing _ x => .invoked x
  | .waiting _ x => .invoked x
  | .ready answer => .done answer

/-- The task that a worker has in its hands. -/
def LoopState.hand {C : Type} : LoopState C → List C
  | .running task => task.toList
  | _ => []

/-- The task that `pop` returns goes from the ring into the hands of the worker. -/
theorem RingSystem.Sound.hand_afterPop {C : Type} {r : RingSystem C C} (h : r.Sound)
    {b : RingBuffer C} {c : PopCall C} {result : Option (Option (Option C))}
    (h' : (r.consumed b c result).Sound) : LoopState.afterPop result ≠ .running none ∧
      (LoopState.afterPop result).hand ++ (r.consumed b c result).pending = r.pending := by
  rcases h.pending_consumed h' with ⟨hnone, hpending⟩ | ⟨v, rfl, hpending⟩
  · rw [hpending]
    rcases result with _ | _ | v
    · exact ⟨by simp [LoopState.afterPop], rfl⟩
    · exact ⟨by simp [LoopState.afterPop], rfl⟩
    · simp at hnone
  · exact ⟨by simp [LoopState.afterPop], hpending.symm⟩

namespace Workers

variable {C : Type} {n : ℕ} {s : Workers C}

/-- The tasks of a worker that have not been run, oldest first. -/
def tasks (s : Workers C) (w : ℕ) : List C := (s.loop w).hand ++ (s.ring w).pending

/-- The client is about to get a task into the ring of a worker, or waits for its result. -/
def Calls (s : Workers C) (c : C) (w : ℕ) (x : Submission) : Prop :=
  s.client c = .enqueuing w x ∨ s.client c = .waiting w x

/-- **Clients and workers are in step.** -/
structure Sound (n : ℕ) (s : Workers C) : Prop where
  exchange : s.routing.Sound
  routes : s.routing.Routes
  capacity : ∀ w, (s.ring w).buffer.capacity = n
  ring : ∀ w, (s.ring w).Sound
  roomy : ∀ w, (s.ring w).Roomy
  /-- What a client pushes is its own task. -/
  value : ∀ w c, (s.ring w).producer c ≠ .idle → ((s.ring w).producer c).value? = some c
  /-- A client pushes as long as it is in `enqueue_task`, and only then. -/
  pushes : ∀ w c, (s.ring w).producer c ≠ .idle ↔ ∃ x, s.client c = .enqueuing w x
  /-- What a worker has in its hands can be called. -/
  held : ∀ w, s.loop w ≠ .running none
  /-- A worker is in a call of `pop` only in that part of its loop. -/
  calm : ∀ w, s.loop w ≠ .popping → (s.ring w).consumer = .idle
  nodup : ∀ w, (s.tasks w).Nodup
  /-- The tasks of a worker are those of the clients that wait for it. -/
  mem_tasks : ∀ w c, c ∈ s.tasks w ↔ ∃ x, s.client c = .waiting w x
  /-- The worker is the one of the instrument. -/
  own : ∀ c w x, s.Calls c w x → x.instrument ∈ s.routing.instruments ∧
    ∃ idx, s.routing.instrumentIdx.lookup x.instrument = some idx ∧ idx.toNat = w

theorem sound_start {E : Routing} (h : E.Sound) (hp : E.Routes) (hn : 0 < n) :
    (new E n : Workers C).Sound n where
  exchange := h
  routes := hp
  capacity := fun _ => rfl
  ring := fun _ => RingSystem.sound_new hn
  roomy := fun _ => RingSystem.roomy_new n
  value := fun _ _ hc => absurd rfl hc
  pushes := fun _ _ => ⟨fun hc => absurd rfl hc, by simp [new]⟩
  held := by simp [new]
  calm := fun _ _ => rfl
  nodup := fun _ => List.nodup_nil
  mem_tasks := fun _ _ => by simp [tasks, LoopState.hand, new, RingSystem.pending_new]
  own := fun _ _ _ hc => by simp [Calls, new] at hc

/-- The exchange as the clients see it: a call has taken effect when its result is there. -/
def view (s : Workers C) : AtomicObject Routing C Submission Routing.Answer where
  object := s.routing
  call := fun c => (s.client c).pending

variable [DecidableEq C] {c : C} {w : ℕ} {x : Submission}

/-! ### Who waits -/

theorem view_setClient (s : Workers C) (c : C) (y : ClientState) :
    (s.setClient c y).view = s.view.setCall c y.pending := by
  refine AtomicObject.ext rfl (funext fun d => ?_)
  by_cases hd : d = c
  · subst hd
    simp [view, AtomicObject.setCall]
  · simp [view, AtomicObject.setCall, hd]

omit [DecidableEq C] in
theorem view_call (hc : s.Calls c w x) : s.view.call c = .invoked x := by
  rcases hc with hc | hc <;> simp [view, hc, ClientState.pending]

/-- What the outside sees of a client does not change. -/
theorem view_setClient_eq {y : ClientState} (hy : y.pending = (s.client c).pending) :
    (s.setClient c y).view = s.view := by
  rw [view_setClient, hy]
  exact AtomicObject.ext rfl (Function.update_eq_self _ _)

omit [DecidableEq C] in
theorem setRing_self (s : Workers C) (w : ℕ) : s.setRing w (s.ring w) = s := by
  rw [setRing, Function.update_eq_self]

/-- After a step of a client in the ring of a worker. -/
theorem tasks_push {r : RingSystem C C} {y : ClientState} {more : List C}
    (hpending : r.pending = (s.ring w).pending ++ more) (w' : ℕ) :
    ((s.setRing w r).setClient c y).tasks w' = s.tasks w' ++ if w' = w then more else [] := by
  rw [tasks, tasks, setClient_ring, setRing_ring, setClient_loop, setRing_loop]
  split
  · next hw =>
    subst hw
    rw [Function.update_self, hpending, List.append_assoc]
  · next hw => rw [Function.update_of_ne hw, List.append_nil]

namespace Sound

variable (h : s.Sound n)

include h

omit [DecidableEq C] in
/-- A client that is not in `enqueue_task` pushes nothing. -/
theorem producer_idle (hc : ∀ w x, s.client c ≠ .enqueuing w x) (w : ℕ) :
    (s.ring w).producer c = .idle := by
  by_contra hne
  obtain ⟨x, hx⟩ := (h.pushes w c).mp hne
  exact hc w x hx

omit [DecidableEq C] in
/-- A client that does not wait has no task. -/
theorem notMem_tasks (hc : ∀ w x, s.client c ≠ .waiting w x) (w : ℕ) : c ∉ s.tasks w := fun hmem =>
  (h.mem_tasks w c).mp hmem |>.elim fun x hx => hc w x hx

/-- A client that is not in a call, or whose result is there, goes where it has no task
either. -/
theorem setClient_free {y : ClientState} (hc : ∀ w x, ¬ s.Calls c w x)
    (hy : ∀ w x, y ≠ .enqueuing w x ∧ y ≠ .waiting w x) : (s.setClient c y).Sound n := by
  have hothers : ∀ d w x, (s.setClient c y).Calls d w x → s.Calls d w x := by
    intro d w x hd
    by_cases hdc : d = c
    · subst hdc
      rw [Calls, setClient_client, Function.update_self] at hd
      exact absurd hd (not_or.mpr (hy w x))
    · rwa [Calls, setClient_client, Function.update_of_ne hdc] at hd
  refine
    { h with
      pushes := fun w d => ?_
      mem_tasks := fun w d => ?_
      own := fun d w x hd => h.own d w x (hothers d w x hd) }
  · refine (h.pushes w d).trans (exists_congr fun x => ?_)
    by_cases hdc : d = c
    · subst hdc
      simp only [setClient_client, Function.update_self]
      exact iff_of_false (fun hd => hc w x (Or.inl hd)) (hy w x).1
    · simp only [setClient_client, Function.update_of_ne hdc]
  · refine (h.mem_tasks w d).trans (exists_congr fun x => ?_)
    by_cases hdc : d = c
    · subst hdc
      simp only [setClient_client, Function.update_self]
      exact iff_of_false (fun hd => hc w x (Or.inr hd)) (hy w x).2
    · simp only [setClient_client, Function.update_of_ne hdc]

/-! ### The steps of a client -/

/-- **A client takes a step in the ring of a worker**: it goes on with its `push`, or it is over
and the task is in the ring. -/
theorem push {r : RingSystem C C} (ends : Bool) (hfree : ∀ w' x', s.client c ≠ .waiting w' x')
    (hthere : ∀ w' x', s.client c = .enqueuing w' x' → w' = w)
    (hown : x.instrument ∈ s.routing.instruments ∧
      ∃ idx, s.routing.instrumentIdx.lookup x.instrument = some idx ∧ idx.toNat = w)
    (hcap : r.buffer.capacity = n) (hr : r.Sound) (hroomy : r.Roomy)
    (hconsumer : r.consumer = (s.ring w).consumer)
    (hothers : ∀ d, d ≠ c → r.producer d = (s.ring w).producer d)
    (hvalue : r.producer c ≠ .idle → (r.producer c).value? = some c)
    (hends : r.producer c = .idle ↔ ends = true)
    (hpending : r.pending = (s.ring w).pending ++ if ends then [c] else []) :
    ((s.setRing w r).setClient c (if ends then .waiting w x else .enqueuing w x)).Sound n := by
  have hc := h.notMem_tasks hfree
  have htasks := tasks_push (c := c) (y := if ends then .waiting w x else .enqueuing w x) hpending
  refine
    { exchange := h.exchange, routes := h.routes, held := h.held,
      capacity := fun w' => ?_, ring := fun w' => ?_, roomy := fun w' => ?_,
      value := fun w' d hd => ?_, pushes := fun w' d => ?_, calm := fun w' hw' => ?_,
      nodup := fun w' => ?_, mem_tasks := fun w' d => ?_, own := fun d w' x' hd => ?_ }
  · by_cases hw : w' = w
    · subst hw
      simpa using hcap
    · simpa [hw] using h.capacity w'
  · by_cases hw : w' = w
    · subst hw
      simpa using hr
    · simpa [hw] using h.ring w'
  · by_cases hw : w' = w
    · subst hw
      simpa using hroomy
    · simpa [hw] using h.roomy w'
  · by_cases hw : w' = w
    · subst hw
      simp only [setClient_ring, setRing_ring, Function.update_self] at hd ⊢
      by_cases hdc : d = c
      · subst hdc
        exact hvalue hd
      · rw [hothers d hdc] at hd ⊢
        exact h.value w' d hd
    · simp only [setClient_ring, setRing_ring, Function.update_of_ne hw] at hd ⊢
      exact h.value w' d hd
  · by_cases hdc : d = c
    · subst hdc
      simp only [setClient_client, Function.update_self]
      by_cases hw : w' = w
      · subst hw
        simp only [setClient_ring, setRing_ring, Function.update_self]
        rw [ne_eq, hends]
        cases ends <;> simp
      · simp only [setClient_ring, setRing_ring, Function.update_of_ne hw]
        refine iff_of_false (fun hne => ?_) ?_
        · obtain ⟨x', hx'⟩ := (h.pushes w' d).mp hne
          exact hw (hthere w' x' hx')
        · rintro ⟨x', hx'⟩
          cases ends
          · exact hw (ClientState.enqueuing.inj hx').1.symm
          · exact absurd hx' (by simp)
    · simp only [setClient_client, Function.update_of_ne hdc]
      refine Iff.trans ?_ (h.pushes w' d)
      by_cases hw : w' = w
      · subst hw
        simp only [setClient_ring, setRing_ring, Function.update_self, hothers d hdc]
      · simp only [setClient_ring, setRing_ring, Function.update_of_ne hw]
  · by_cases hw : w' = w
    · subst hw
      simpa [hconsumer] using h.calm w' hw'
    · simpa [hw] using h.calm w' hw'
  · rw [htasks]
    refine (h.nodup w').append (by split <;> [split <;> simp; simp]) ?_
    intro d hd hd'
    have hdc : d = c := by
      split at hd' <;> [split at hd' <;> simp at hd'; simp at hd']
      exact hd'
    exact hc w' (hdc ▸ hd)
  · rw [htasks, List.mem_append, h.mem_tasks]
    by_cases hdc : d = c
    · subst hdc
      simp only [setClient_client, Function.update_self, hfree, exists_false, false_or]
      by_cases hw : w' = w
      · subst hw
        cases ends <;> simp
      · cases ends <;> simp [hw, Ne.symm hw]
    · simp only [setClient_client, Function.update_of_ne hdc]
      refine or_iff_left fun hd' => ?_
      split at hd' <;> [split at hd' <;> simp at hd'; simp at hd']
      exact hdc hd'
  · by_cases hdc : d = c
    · subst hdc
      obtain ⟨rfl, rfl⟩ : w = w' ∧ x = x' := by
        rw [Calls, setClient_client, Function.update_self] at hd
        cases ends <;> simpa using hd
      exact hown
    · rw [Calls, setClient_client, Function.update_of_ne hdc] at hd
      exact h.own d w' x' hd

/-- A client begins a call. -/
theorem call (hc : s.client c = .idle) (x : Submission) : ∃ s' log, s.call c x = .ok s' ∧
    s'.Sound n ∧ AtomicObject.Runs Routing.perform s.view [.invoke c x] log s'.view := by
  have hidle := h.producer_idle (c := c) (by simp [hc])
  have hview : s.view.call c = .idle := by simp [view, hc, ClientState.pending]
  rw [Workers.call]
  split
  · next hX =>
    have hX' : x.instrument ∈ s.routing.instruments := of_decide_eq_true hX
    obtain ⟨idx, hidx⟩ := h.routes.entry _ hX'
    have hw : idx.toNat < s.routing.workers := h.routes.valid _ _ hidx
    refine ⟨(s.setRing idx.toNat ((s.ring idx.toNat).begin c c)).setClient c
      (.enqueuing idx.toNat x), [], ?_, ?_, ?_⟩
    · simp only [h.exchange.touch hX', hidx, deref_some, ok_bind, Routing.enqueueTask, if_pos hw]
    · have hbegin : (s.ring idx.toNat).begin c c =
          { s.ring idx.toNat with
            producer := Function.update (s.ring idx.toNat).producer c (.loadWritePos c)
            begun := (s.ring idx.toNat).begun + 1 } := by
        rw [RingSystem.begin, hidle]
      refine h.push false (by simp [hc]) (by simp [hc]) ⟨hX', idx, hidx, rfl⟩ ?_
        ((h.ring _).begin c c) ((h.roomy _).begin c c) ?_ ?_ ?_ ?_ ?_
      · rw [hbegin]
        exact h.capacity _
      · rw [hbegin]
      · intro d hd
        rw [hbegin]
        exact Function.update_of_ne hd _ _
      · intro _
        rw [hbegin]
        simp [PushCall.value?]
      · rw [hbegin]
        simp
      · rw [RingSystem.pending_begin]
        simp
    · rw [view_setClient]
      exact .invoke c x hview (.nil _)
  · next hX =>
    refine ⟨s.setClient c (.ready .refused), [⟨c, x, Routing.Answer.refused⟩], rfl, ?_, ?_⟩
    · exact h.setClient_free (by simp [Calls, hc]) (by simp)
    · have hrefused : Routing.perform s.routing x = .ok (s.routing, .refused) := by
        rw [Routing.perform, Submission.step_toCall, Routing.request, if_neg hX]
      refine .invoke c x hview (.perform c x s.routing Routing.Answer.refused ?_ hrefused ?_)
      · exact Function.update_self _ _ _
      · rw [view_setClient]
        have hsame : (s.view.setCall c (.invoked x)).perform c s.routing Routing.Answer.refused =
            s.view.setCall c (ClientState.ready .refused).pending := by
          refine AtomicObject.ext rfl ?_
          exact Function.update_idem _ _ _
        rw [hsame]
        exact .nil _

omit [DecidableEq C] in
/-- There is always room for the task of a client. -/
theorem room [Fintype C] (hn : Fintype.card C < n) (hc : s.client c = .enqueuing w x) :
    (s.ring w).pushed.length + 1 < (s.ring w).popped.length + (s.ring w).buffer.capacity := by
  have hnew : c ∉ s.tasks w := h.notMem_tasks (by simp [hc]) w
  have hcard := (List.nodup_cons.mpr ⟨hnew, h.nodup w⟩).length_le_card
  have hpushed := (h.ring w).length_pushed
  have hcap := h.capacity w
  simp only [tasks, List.length_cons, List.length_append] at hcard
  omega

/-- A client goes on with its `push`. -/
theorem enqueue [Fintype C] (hn : Fintype.card C < n) (hc : s.client c = .enqueuing w x)
    (halone : (s.ring w).alone (.produce c)) :
    ∃ s', s.enqueue c w x = .ok s' ∧ s'.Sound n ∧ s'.view = s.view := by
  obtain ⟨b, call, hpush, hsound⟩ := (h.ring w).produce (fun _ => h.room hn hc) halone
  have hin : (s.ring w).producer c ≠ .idle := (h.pushes w c).mpr ⟨x, hc⟩
  obtain ⟨hcap, -, hvalue, hends⟩ := RingBuffer.push_spec hpush
  obtain ⟨ends, hdef⟩ : ∃ ends, ends = ((s.ring w).producer c).completes.isSome := ⟨_, rfl⟩
  have hself : ((s.ring w).produced c b call).producer c = call := Function.update_self _ _ _
  refine ⟨(s.setRing w ((s.ring w).produced c b call)).setClient c
    (if ends then .waiting w x else .enqueuing w x), ?_, ?_, ?_⟩
  · simp only [Workers.enqueue, RingSystem.step, hpush, ok_bind, hdef]
  · refine h.push ends (by simp [hc]) ?_ (h.own c w x (Or.inl hc)) ?_ hsound
      ((h.roomy w).produced (h.ring w) (h.room hn hc) hpush) rfl ?_ ?_ ?_ ?_
    · intro w' x' hc'
      rw [hc] at hc'
      exact (ClientState.enqueuing.inj hc').1.symm
    · exact hcap.trans (h.capacity w)
    · intro d hd
      exact Function.update_of_ne hd _ _
    · intro hgo
      rw [hself] at hgo ⊢
      rw [hvalue hgo]
      exact h.value w c hin
    · rw [hself, hends hin, hdef]
    · rw [(h.ring w).pending_produced, hdef]
      rcases hcomp : ((s.ring w).producer c).completes with _ | v
      · rfl
      · have hv := PushCall.completes_eq hcomp
        rw [h.value w c hin] at hv
        obtain rfl := Option.some.inj hv
        rfl
  · rw [view_setClient_eq]
    · rfl
    · rw [setRing_client, hc]
      cases ends <;> rfl

/-! ### The steps of a worker -/

omit [DecidableEq C] in
/-- **A worker takes a step in its own ring**, with the same tasks as before. -/
theorem worker {r : RingSystem C C} {y : LoopState C} (hcap : r.buffer.capacity = n)
    (hr : r.Sound) (hroomy : r.Roomy) (hprod : r.producer = (s.ring w).producer)
    (hy : y ≠ .running none) (hcalm : y ≠ .popping → r.consumer = .idle)
    (htasks : y.hand ++ r.pending = s.tasks w) : ((s.setRing w r).setLoop w y).Sound n := by
  have hall : ∀ w', ((s.setRing w r).setLoop w y).tasks w' = s.tasks w' := by
    intro w'
    by_cases hw : w' = w
    · subst hw
      simpa [tasks] using htasks
    · simp [tasks, hw]
  have hproducer : ∀ w',
      (((s.setRing w r).setLoop w y).ring w').producer = (s.ring w').producer := by
    intro w'
    by_cases hw : w' = w
    · subst hw
      simpa using hprod
    · simp [hw]
  refine
    { exchange := h.exchange, routes := h.routes, own := h.own,
      capacity := fun w' => ?_, ring := fun w' => ?_, roomy := fun w' => ?_,
      held := fun w' => ?_, calm := fun w' => ?_, value := fun w' => hproducer w' ▸ h.value w',
      pushes := fun w' => hproducer w' ▸ h.pushes w',
      nodup := fun w' => hall w' ▸ h.nodup w', mem_tasks := fun w' => hall w' ▸ h.mem_tasks w' }
  all_goals by_cases hw : w' = w
  · subst hw
    simpa using hcap
  · simpa [hw] using h.capacity w'
  · subst hw
    simpa using hr
  · simpa [hw] using h.ring w'
  · subst hw
    simpa using hroomy
  · simpa [hw] using h.roomy w'
  · subst hw
    simpa using hy
  · simpa [hw] using h.held w'
  · subst hw
    simpa using hcalm
  · simpa [hw] using h.calm w'

/-- The loop of a worker goes on, and does not run a task. -/
theorem look (hloop : ∀ task, s.loop w ≠ .running task) :
    ∃ s', s.work w = .ok s' ∧ s'.Sound n ∧ s'.view = s.view := by
  rw [Workers.work]
  split
  · next htest =>
    refine ⟨_, rfl, ?_, rfl⟩
    have hgo : ∀ y : LoopState C, y = .ended ∨ y = .popping → (s.setLoop w y).Sound n := by
      intro y hy
      have h' := h.worker (w := w) (y := y) (h.capacity w) (h.ring w) (h.roomy w) rfl
        (by rcases hy with rfl | rfl <;> simp) (fun _ => h.calm w (by simp [htest]))
        (by rcases hy with rfl | rfl <;> simp [tasks, htest, LoopState.hand])
      rwa [setRing_self] at h'
    exact hgo _ (by split <;> simp)
  · next hpopping =>
    obtain ⟨b, c, result, hpop, hsound⟩ := (h.ring w).consume
    rw [hpop]
    refine ⟨_, rfl, ?_, rfl⟩
    have hcap := (RingBuffer.pop_spec hpop).1.trans (h.capacity w)
    have hbefore : s.tasks w = (s.ring w).pending := by
      rw [tasks, hpopping]
      rfl
    have hcalm : LoopState.afterPop result ≠ .popping → c = .idle := fun hgo => by
      rcases result with _ | result
      · exact absurd rfl hgo
      · exact RingBuffer.pop_over hpop
    obtain ⟨hfull, hhand⟩ := (h.ring w).hand_afterPop hsound
    exact h.worker hcap hsound ((h.roomy w).consumed hpop) rfl hfull hcalm
      (hhand.trans hbefore.symm)
  · next task hrunning => exact absurd hrunning (hloop task)
  · exact ⟨s, rfl, h, rfl⟩

omit [DecidableEq C] in
/-- The exchange after a request for one of its instruments. -/
theorem setRouting {E : Routing} (hsound : E.Sound) (hroutes : E.Routes)
    (hidx : E.instrumentIdx = s.routing.instrumentIdx) : { s with routing := E }.Sound n :=
  { h with
    exchange := hsound
    routes := hroutes
    own := fun d w x hd => by
      obtain ⟨hX, hlook⟩ := h.own d w x hd
      rw [hsound.exists_iff, hidx, ← h.exchange.exists_iff]
      exact ⟨hX, hlook⟩ }

/-- The task that a worker has run is gone, and its client does not wait any more. -/
theorem finish {answer : Routing.Answer} (hloop : s.loop w = .running (some c))
    (hc : s.client c = .waiting w x) :
    ((s.setClient c (.ready answer)).setLoop w .testStop).Sound n := by
  have htasks : s.tasks w = c :: (s.ring w).pending := by
    rw [tasks, hloop]
    rfl
  have hnodup := h.nodup w
  rw [htasks, List.nodup_cons] at hnodup
  have hafter : ∀ w', ((s.setClient c (.ready answer)).setLoop w .testStop).tasks w' =
      (s.tasks w').erase c := by
    intro w'
    by_cases hw : w' = w
    · subst hw
      rw [htasks, List.erase_cons_head]
      simp [tasks, LoopState.hand]
    · have hnot : c ∉ s.tasks w' := by
        rw [h.mem_tasks, hc]
        simp [Ne.symm hw]
      rw [List.erase_of_not_mem hnot]
      simp [tasks, hw]
  refine
    { h with
      pushes := fun w' d => ?_
      held := fun w' => ?_
      calm := fun w' => ?_
      nodup := fun w' => ?_
      mem_tasks := fun w' d => ?_
      own := fun d w' x' hd => h.own d w' x' ?_ }
  · refine (h.pushes w' d).trans (exists_congr fun x' => ?_)
    by_cases hdc : d = c
    · subst hdc
      simp [hc]
    · simp [hdc]
  · by_cases hw : w' = w
    · subst hw
      simp
    · simpa [hw] using h.held w'
  · by_cases hw : w' = w
    · subst hw
      simpa using h.calm w' (by simp [hloop])
    · simpa [hw] using h.calm w'
  · rw [hafter]
    exact (h.nodup w').erase c
  · rw [hafter, (h.nodup w').mem_erase_iff, h.mem_tasks]
    by_cases hdc : d = c
    · subst hdc
      simp
    · simp [hdc]
  · by_cases hdc : d = c
    · subst hdc
      simp [Calls] at hd
    · simpa [Calls, hdc] using hd

omit [DecidableEq C] in
/-- The client whose task a worker is about to run waits for it. -/
theorem waiting_of_running (hloop : s.loop w = .running (some c)) :
    ∃ x, s.client c = .waiting w x :=
  (h.mem_tasks w c).mp (by simp [tasks, hloop, LoopState.hand])

/-- **A worker runs a task**: the client that waits for it gets the answer of the exchange. -/
theorem run {task : Option C} (hloop : s.loop w = .running task) :
    ∃ s' log, s.work w = .ok s' ∧ s'.Sound n ∧
      AtomicObject.Runs Routing.perform s.view [] log s'.view := by
  rcases task with _ | c
  · exact absurd hloop (h.held w)
  obtain ⟨x, hc⟩ := h.waiting_of_running hloop
  obtain ⟨hX, -⟩ := h.own c w x (Or.inr hc)
  obtain ⟨E, status, hE, hsound, hroutes, hidx, -⟩ :=
    h.exchange.runOn h.routes hX (r := x.request)
  have hstep : Routing.perform s.routing x = .ok (E, .status status) := by
    have hX' : s.routing.instrumentExists x.instrument = true := decide_eq_true hX
    rw [Routing.perform, Submission.step_toCall, Routing.request, if_pos hX',
      h.exchange.submit_eq h.routes hX, hE]
    rfl
  refine ⟨({ s with routing := E }.setClient c (.ready (.status status))).setLoop w .testStop,
    [⟨c, x, .status status⟩], ?_, (h.setRouting hsound hroutes hidx).finish hloop hc, ?_⟩
  · simp only [Workers.work, hloop, runTask, deref_some, ok_bind, locals, hc, hE]
  · refine .perform c x E _ (view_call (Or.inr hc)) hstep ?_
    have hview : s.view.perform c E (.status status) =
        (({ s with routing := E }.setClient c
          (.ready (.status status))).setLoop w .testStop).view :=
      (view_setClient { s with routing := E } c (.ready (.status status))).symm
    rw [hview]
    exact .nil _

/-! ### A step of anyone -/

/-- **Every step keeps clients and workers in step**, and is matched by steps of an atomic
exchange with the same visible event. -/
theorem step [Fintype C] (hn : Fintype.card C < n) {e : Event C} (halone : s.alone e) :
    ∃ s' v log, s.step e = .ok (s', v) ∧ s'.Sound n ∧
      AtomicObject.Runs Routing.perform s.view v.toList log s'.view := by
  have hstay : ∀ s' : Workers C, s'.Sound n → s'.view = s.view → s'.Sound n ∧
      AtomicObject.Runs Routing.perform s.view [] [] s'.view := fun s' h' hview =>
    ⟨h', hview ▸ .nil _⟩
  cases e with
  | call c x =>
    rw [Workers.step]
    split
    · next hc =>
      obtain ⟨s', log, hs', h', hruns⟩ := h.call hc x
      exact ⟨s', some (.invoke c x), log, by rw [hs']; rfl, h', hruns⟩
    · exact ⟨s, none, [], rfl, hstay s h rfl⟩
  | enqueue c =>
    rw [Workers.step]
    split
    · next w x hc =>
      obtain ⟨s', hs', h', hview⟩ := h.enqueue hn hc (halone w (by rw [hc]; rfl))
      exact ⟨s', none, [], by rw [hs']; rfl, hstay s' h' hview⟩
    · exact ⟨s, none, [], rfl, hstay s h rfl⟩
  | work w =>
    rw [Workers.step]
    split
    · by_cases hrun : ∃ task, s.loop w = .running task
      · obtain ⟨task, hloop⟩ := hrun
        obtain ⟨s', log, hs', h', hruns⟩ := h.run hloop
        exact ⟨s', none, log, by rw [hs']; rfl, h', hruns⟩
      · obtain ⟨s', hs', h', hview⟩ := h.look (not_exists.mp hrun)
        exact ⟨s', none, [], by rw [hs']; rfl, hstay s' h' hview⟩
    · exact ⟨s, none, [], rfl, hstay s h rfl⟩
  | get c =>
    rw [Workers.step]
    split
    · next answer hc =>
      refine ⟨_, some (.respond c answer), [], rfl,
        h.setClient_free (by simp [Calls, hc]) (by simp), ?_⟩
      rw [view_setClient]
      exact .respond c answer (by simp [view, hc, ClientState.pending]) (.nil _)
    · exact ⟨s, none, [], rfl, hstay s h rfl⟩
  | stop w => exact ⟨_, none, [], rfl, { h with }, .nil _⟩

end Sound

end Workers

end LimitOrderBook
