import LimitOrderBook.Exchange.Routing
import LimitOrderBook.Lib.AtomicObject
import LimitOrderBook.Utils.RingSound
import Mathlib.Tactic.Simps.Basic

/-!
# Clients and workers

`add_order`, `modify_order` and `cancel_order` of `Exchange` as any number of clients call them at
the same time. A call wraps the request in a task, pushes the task into the ring buffer of the
worker of the instrument and waits for the future; a worker is the loop of
`FunctionTask::process_messages`, which takes one task at a time from its ring and runs it. Every
load and store of the rings is a step of its own, and clients and workers take their steps in any
order (`LimitOrderBook.Workers.step`).

A task captures the variables of its caller by reference and nothing else, so here it is the name
of the client: to run it is to look at what the client is waiting for, which is a fault if the
client does not wait any more. A function of a book is one step, since no other thread uses the
book meanwhile (`LimitOrderBook.workers_apart`).

Not part of the model: instruments that are added meanwhile, and the two functions that use the
books without the workers, `get_orderbook_snapshot` and `check_date_orders`.
-/

namespace LimitOrderBook

open OrderBook (Request)

/-- A call of one of the three functions. -/
inductive Submission where
  | addOrder (now : ℤ) (instrument : String) (order : OrderArgs)
  | modifyOrder (instrument : String) (order : OrderArgs)
  | cancelOrder (instrument : String) (orderId : String)
  deriving DecidableEq

namespace Submission

def instrument : Submission → String
  | .addOrder _ instrument _ => instrument
  | .modifyOrder instrument _ => instrument
  | .cancelOrder instrument _ => instrument

/-- The function of the book that the task calls. -/
def request : Submission → Request
  | .addOrder now _ order => .add now order
  | .modifyOrder _ order => .modify order
  | .cancelOrder _ orderId => .cancel orderId

/-- The call, as one step of an exchange that has one client at a time. -/
def toCall : Submission → Routing.Call
  | .addOrder now instrument order => .addOrder now instrument order
  | .modifyOrder instrument order => .modifyOrder instrument order
  | .cancelOrder instrument orderId => .cancelOrder instrument orderId

theorem step_toCall (E : Routing) (x : Submission) :
    E.step x.toCall = E.request x.instrument x.request := by
  cases x <;> rfl

end Submission

namespace Routing

deriving instance DecidableEq for Answer

/-- What the task does once it runs: the book is the one that the caller found in the map. -/
def runOn (E : Routing) (instrument : String) (r : Request) :
    Except Fault (Routing × Option OrderStatus) := do
  let orderbook ← deref (E.instruments.lookup instrument)
  let s ← deref orderbook
  let (s', status) ← s.step r
  .ok ({ E with instruments := E.instruments.insert instrument (some s') }, status)

/-- The exchange as an object that takes one call after the other. -/
def perform (E : Routing) (x : Submission) : Except Fault (Routing × Routing.Answer) :=
  E.step x.toCall

end Routing

/-- Where a client is. -/
inductive ClientState where
  | idle
  /-- In `enqueue_task`, pushing the task into the ring of a worker. -/
  | enqueuing (worker : ℕ) (x : Submission)
  /-- In `future.get()`. -/
  | waiting (worker : ℕ) (x : Submission)
  /-- The result is there. -/
  | ready (answer : Routing.Answer)
  deriving DecidableEq

/-- The worker into whose ring a client pushes its task. -/
def ClientState.enqueuing? : ClientState → Option ℕ
  | .enqueuing w _ => some w
  | _ => none

/-- Where the loop of a worker is. -/
inductive LoopState (C : Type) where
  | testStop
  | popping
  /-- About to call `task()`; a function that has been moved from is empty. -/
  | running (task : Option C)
  | ended
  deriving DecidableEq

/-- What the loop does after a step of `pop`, with what the call returned if it is over. -/
def LoopState.afterPop {C : Type} : Option (Option (Option C)) → LoopState C
  | none => .popping
  | some none => .testStop
  | some (some task) => .running task

/-- The maps of an exchange, its thread pool and its clients. -/
structure Workers (C : Type) where
  routing : Routing
  ring : ℕ → RingSystem C C
  loop : ℕ → LoopState C
  stopRequested : ℕ → Bool
  client : C → ClientState

namespace Workers

/-- Who takes the next step. -/
inductive Event (C : Type) where
  /-- A client that is not in a call begins one. -/
  | call (c : C) (x : Submission)
  /-- A client goes on with its `push`. -/
  | enqueue (c : C)
  /-- A worker goes on with its loop. -/
  | work (w : ℕ)
  /-- A client whose result is there returns from `future.get()`. -/
  | get (c : C)
  /-- The thread of a worker is asked to stop. -/
  | stop (w : ℕ)
  deriving DecidableEq

variable {C : Type}

/-- After the constructor: the rings are empty, and no client is in a call. -/
def new (E : Routing) (ringbufferSize : ℕ) : Workers C where
  routing := E
  ring := fun _ => .new ringbufferSize
  loop := fun _ => .testStop
  stopRequested := fun _ => false
  client := fun _ => .idle

variable [DecidableEq C]

@[simps]
def setClient (s : Workers C) (c : C) (x : ClientState) : Workers C :=
  { s with client := Function.update s.client c x }

@[simps]
def setRing (s : Workers C) (w : ℕ) (r : RingSystem C C) : Workers C :=
  { s with ring := Function.update s.ring w r }

@[simps]
def setLoop (s : Workers C) (w : ℕ) (x : LoopState C) : Workers C :=
  { s with loop := Function.update s.loop w x }

/-- The beginning of a call, up to the `push`; the handlers do not make it for an instrument that
does not exist. -/
def call (s : Workers C) (c : C) (x : Submission) : Except Fault (Workers C) :=
  if s.routing.instrumentExists x.instrument then do
    let E := s.routing.touch x.instrument
    let threadId ← deref (E.instrumentIdx.lookup x.instrument)
    E.enqueueTask threadId
    let w := threadId.toNat
    .ok (({ s with routing := E }.setRing w ((s.ring w).begin c c)).setClient c (.enqueuing w x))
  else .ok (s.setClient c (.ready .refused))

/-- One step of the `push`. -/
def enqueue (s : Workers C) (c : C) (w : ℕ) (x : Submission) : Except Fault (Workers C) := do
  let ends := ((s.ring w).producer c).completes.isSome
  let (r, _) ← (s.ring w).step (.produce c)
  .ok ((s.setRing w r).setClient c (if ends then .waiting w x else .enqueuing w x))

/-- The call that a task refers to. -/
def locals (s : Workers C) (c : C) : Except Fault Submission :=
  match s.client c with
  | .waiting _ x => .ok x
  | _ => .error .badPointer

/-- `task()`: the request is run on the book, and the future of the caller gets the result. -/
def runTask (s : Workers C) (task : Option C) : Except Fault (Workers C) := do
  let c ← deref task
  let x ← s.locals c
  let (E, status) ← s.routing.runOn x.instrument x.request
  .ok ({ s with routing := E }.setClient c (.ready (.status status)))

/-- One step of the loop of a worker. -/
def work (s : Workers C) (w : ℕ) : Except Fault (Workers C) :=
  match s.loop w with
  | .testStop => .ok (s.setLoop w (if s.stopRequested w then .ended else .popping))
  | .popping => do
    let (b, c, result) ← (s.ring w).buffer.pop (s.ring w).consumer
    .ok ((s.setRing w ((s.ring w).consumed b c result)).setLoop w (.afterPop result))
  | .running task => do
    let s ← s.runTask task
    .ok (s.setLoop w .testStop)
  | .ended => .ok s

/-- One step, and what the outside sees of it. -/
def step (s : Workers C) :
    Event C → Except Fault (Workers C × Option (Visible C Submission Routing.Answer))
  | .call c x =>
    match s.client c with
    | .idle => do
      .ok (← s.call c x, some (.invoke c x))
    | _ => .ok (s, none)
  | .enqueue c =>
    match s.client c with
    | .enqueuing w x => do
      .ok (← s.enqueue c w x, none)
    | _ => .ok (s, none)
  | .work w =>
    if w < s.routing.workers then do
      .ok (← s.work w, none)
    else .ok (s, none)
  | .get c =>
    match s.client c with
    | .ready answer => .ok (s.setClient c .idle, some (.respond c answer))
    | _ => .ok (s, none)
  | .stop w => .ok ({ s with stopRequested := Function.update s.stopRequested w true }, none)

/-- **What a step can do**, by who takes it. -/
inductive Moves (s : Workers C) : Event C → Workers C → Prop where
  | stay (e : Event C) : Moves s e s
  | call (c : C) (x : Submission) (E : Routing) (w : ℕ) (hc : s.client c = .idle) :
      Moves s (.call c x) (({ s with routing := E }.setRing w ((s.ring w).begin c c)).setClient c
        (.enqueuing w x))
  | refuse (c : C) (x : Submission) (hc : s.client c = .idle) :
      Moves s (.call c x) (s.setClient c (.ready .refused))
  | enqueue (c : C) (w : ℕ) (x : Submission) (b : RingBuffer C) (call : PushCall C)
      (hc : s.client c = .enqueuing w x)
      (hpush : (s.ring w).buffer.push ((s.ring w).producer c) = .ok (b, call)) :
      Moves s (.enqueue c) ((s.setRing w ((s.ring w).produced c b call)).setClient c
        (if ((s.ring w).producer c).completes.isSome then .waiting w x else .enqueuing w x))
  | testStop (w : ℕ) (hloop : s.loop w = .testStop) :
      Moves s (.work w) (s.setLoop w (if s.stopRequested w then .ended else .popping))
  | pop (w : ℕ) (b : RingBuffer C) (call : PopCall C) (result : Option (Option (Option C)))
      (hloop : s.loop w = .popping)
      (hpop : (s.ring w).buffer.pop (s.ring w).consumer = .ok (b, call, result)) :
      Moves s (.work w) ((s.setRing w ((s.ring w).consumed b call result)).setLoop w
        (.afterPop result))
  | run (w : ℕ) (c : C) (w' : ℕ) (x : Submission) (E : Routing) (status : Option OrderStatus)
      (hloop : s.loop w = .running (some c)) (hc : s.client c = .waiting w' x) :
      Moves s (.work w) (({ s with routing := E }.setClient c (.ready (.status status))).setLoop w
        .testStop)
  | get (c : C) (answer : Routing.Answer) (hc : s.client c = .ready answer) :
      Moves s (.get c) (s.setClient c .idle)
  | stop (w : ℕ) :
      Moves s (.stop w) { s with stopRequested := Function.update s.stopRequested w true }

theorem moves_of_work {s s' : Workers C} {w : ℕ} (h : s.work w = .ok s') :
    s.Moves (.work w) s' := by
  rw [work] at h
  split at h
  · next hloop =>
    obtain rfl := Except.ok.inj h
    exact .testStop w hloop
  · next hloop =>
    obtain ⟨⟨b, call, result⟩, hpop, h⟩ := bind_eq_ok.mp h
    obtain rfl := Except.ok.inj h
    exact .pop w b call result hloop hpop
  · next task hloop =>
    obtain ⟨s₁, hrun, h⟩ := bind_eq_ok.mp h
    obtain rfl := Except.ok.inj h
    obtain ⟨c, hc, hrun⟩ := bind_eq_ok.mp hrun
    obtain ⟨x, hx, hrun⟩ := bind_eq_ok.mp hrun
    obtain ⟨⟨E, status⟩, -, hrun⟩ := bind_eq_ok.mp hrun
    obtain rfl := Except.ok.inj hrun
    obtain rfl : task = some c := by
      cases task with
      | none => exact absurd hc (by simp [deref])
      | some d => exact congrArg some (Except.ok.inj hc)
    rw [locals] at hx
    split at hx
    · next w' x' hwaiting => exact .run w c w' x' E status hloop hwaiting
    · exact absurd hx (by simp)
  · obtain rfl := Except.ok.inj h
    exact .stay _

theorem moves_of_step {s s' : Workers C} {e : Event C}
    {v : Option (Visible C Submission Routing.Answer)} (h : s.step e = .ok (s', v)) :
    s.Moves e s' := by
  have hstay : ∀ {s₁ : Workers C}, (Except.ok (s, none) : Except Fault _) = .ok (s₁, v) →
      s.Moves e s₁ := fun heq => by
    obtain ⟨rfl, -⟩ := Prod.mk.inj (Except.ok.inj heq)
    exact .stay e
  cases e with
  | call c x =>
    rw [step] at h
    split at h
    · next hc =>
      obtain ⟨s₁, hcall, h⟩ := bind_eq_ok.mp h
      obtain ⟨rfl, -⟩ := Prod.mk.inj (Except.ok.inj h)
      rw [call] at hcall
      split at hcall
      · obtain ⟨idx, -, hcall⟩ := bind_eq_ok.mp hcall
        obtain ⟨-, -, hcall⟩ := bind_eq_ok.mp hcall
        obtain rfl := Except.ok.inj hcall
        exact .call c x _ _ hc
      · obtain rfl := Except.ok.inj hcall
        exact .refuse c x hc
    · exact hstay h
  | enqueue c =>
    rw [step] at h
    split at h
    · next w x hc =>
      obtain ⟨s₁, henqueue, h⟩ := bind_eq_ok.mp h
      obtain ⟨rfl, -⟩ := Prod.mk.inj (Except.ok.inj h)
      obtain ⟨⟨r, answer⟩, hr, henqueue⟩ := bind_eq_ok.mp henqueue
      obtain rfl := Except.ok.inj henqueue
      obtain ⟨⟨b, call⟩, hpush, hr⟩ := bind_eq_ok.mp hr
      obtain ⟨rfl, -⟩ := Prod.mk.inj (Except.ok.inj hr)
      exact .enqueue c w x b call hc hpush
    · exact hstay h
  | work w =>
    rw [step] at h
    split at h
    · obtain ⟨s₁, hwork, h⟩ := bind_eq_ok.mp h
      obtain ⟨rfl, -⟩ := Prod.mk.inj (Except.ok.inj h)
      exact moves_of_work hwork
    · exact hstay h
  | get c =>
    rw [step] at h
    split at h
    · next answer hc =>
      obtain ⟨rfl, -⟩ := Prod.mk.inj (Except.ok.inj h)
      exact .get c answer hc
    · exact hstay h
  | stop w =>
    obtain ⟨rfl, -⟩ := Prod.mk.inj (Except.ok.inj h)
    exact .stop w

/-- A client loads the write position of a ring only when no other one is between its load and
its store. -/
def alone (s : Workers C) : Event C → Prop
  | .enqueue c => ∀ w ∈ (s.client c).enqueuing?, (s.ring w).alone (.produce c)
  | _ => True

instance [Fintype C] (s : Workers C) : ∀ e, Decidable (s.alone e)
  | .call _ _ => .isTrue trivial
  | .enqueue c => inferInstanceAs (Decidable (∀ w ∈ (s.client c).enqueuing?, _))
  | .work _ => .isTrue trivial
  | .get _ => .isTrue trivial
  | .stop _ => .isTrue trivial

end Workers

end LimitOrderBook
