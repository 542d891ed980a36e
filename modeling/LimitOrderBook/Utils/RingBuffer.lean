import LimitOrderBook.Lib.Fault
import LimitOrderBook.Lib.Ring
import Mathlib.Logic.Function.Basic

/-!
# The class `RingBuffer`

The functions of `utils/ringbuffer.hpp`, one load or store at a time: a call of `push`
or of `pop` is a state that says which step comes next and holds the local variables
that this step and the later ones read. Any number of producers and one consumer take
their steps in any order (`LimitOrderBook.RingSystem.step`); memory is sequentially
consistent.

A slot holds a value, or nothing before it is written and after its value has been moved
out. Positions are below the capacity, so `write_pos + 1` does not overflow.

The fields `begun`, `pushed` and `popped` are not in the source: they are the number of
calls of `push`, and the values whose `push` has completed and that successful calls of
`pop` have returned. Nothing reads them.
-/

namespace LimitOrderBook

/-- The members of the buffer. -/
structure RingBuffer (T : Type) where
  capacity : ℕ
  readPos : ℕ
  readPosCache : ℕ
  writePos : ℕ
  writePosCache : ℕ
  data : ℕ → Option T

/-- A call of `push`, by its next step; `writePos` is the local variable, and
`next_write_pos` is `writePos + 1`. -/
inductive PushCall (T : Type) where
  | idle
  | loadWritePos (value : T)
  | testReadPosCache (value : T) (writePos : ℕ)
  | loadReadPos (value : T) (writePos : ℕ)
  | storeReadPosCache (value : T) (writePos readPos : ℕ)
  | retestReadPosCache (value : T) (writePos : ℕ)
  | storeData (value : T) (writePos : ℕ)
  | storeWritePos (value : T) (writePos : ℕ)
  deriving DecidableEq

/-- A call of `pop`, by its next step; a call begins with the load of `_read_pos`. -/
inductive PopCall (T : Type) where
  | idle
  | testWritePosCache (readPos : ℕ)
  | loadWritePos (readPos : ℕ)
  | storeWritePosCache (readPos writePos : ℕ)
  | retestWritePosCache (readPos : ℕ)
  | loadData (readPos : ℕ)
  | storeReadPos (readPos : ℕ) (value : Option T)
  deriving DecidableEq

namespace RingBuffer

variable {T : Type}

/-- The constructor. -/
def new (capacity : ℕ) : RingBuffer T where
  capacity := capacity
  readPos := 0
  readPosCache := 0
  writePos := 0
  writePosCache := 0
  data := fun _ => none

def setReadPosCache (b : RingBuffer T) (readPos : ℕ) : RingBuffer T :=
  { b with readPosCache := readPos }

def setWritePos (b : RingBuffer T) (writePos : ℕ) : RingBuffer T := { b with writePos := writePos }

def setReadPos (b : RingBuffer T) (readPos : ℕ) : RingBuffer T := { b with readPos := readPos }

def setWritePosCache (b : RingBuffer T) (writePos : ℕ) : RingBuffer T :=
  { b with writePosCache := writePos }

def setData (b : RingBuffer T) (i : ℕ) (value : Option T) : RingBuffer T :=
  { b with data := Function.update b.data i value }

/-- One step of `push`. -/
def push (b : RingBuffer T) : PushCall T → Except Fault (RingBuffer T × PushCall T)
  | .idle => .ok (b, .idle)
  | .loadWritePos value => .ok (b, .testReadPosCache value b.writePos)
  | .testReadPosCache value writePos =>
    if writePos + 1 = b.readPosCache then .ok (b, .loadReadPos value writePos)
    else .ok (b, .storeData value writePos)
  | .loadReadPos value writePos => .ok (b, .storeReadPosCache value writePos b.readPos)
  | .storeReadPosCache value writePos readPos =>
    .ok (b.setReadPosCache readPos, .retestReadPosCache value writePos)
  | .retestReadPosCache value writePos =>
    if writePos + 1 ≠ b.readPosCache then .ok (b, .storeData value writePos)
    else .ok (b, .loadWritePos value)
  | .storeData value writePos =>
    if writePos < b.capacity then
      .ok (b.setData writePos (some value), .storeWritePos value writePos)
    else .error .badPointer
  | .storeWritePos _ writePos => .ok (b.setWritePos (ringNext b.capacity writePos), .idle)

/-- One step of `pop`, and what it returns if it ends the call: the value, or nothing for
`false`. -/
def pop (b : RingBuffer T) :
    PopCall T → Except Fault (RingBuffer T × PopCall T × Option (Option (Option T)))
  | .idle => .ok (b, .testWritePosCache b.readPos, none)
  | .testWritePosCache readPos =>
    if readPos = b.writePosCache then .ok (b, .loadWritePos readPos, none)
    else .ok (b, .loadData readPos, none)
  | .loadWritePos readPos => .ok (b, .storeWritePosCache readPos b.writePos, none)
  | .storeWritePosCache readPos writePos =>
    .ok (b.setWritePosCache writePos, .retestWritePosCache readPos, none)
  | .retestWritePosCache readPos =>
    if readPos = b.writePosCache then .ok (b, .idle, some none)
    else .ok (b, .loadData readPos, none)
  | .loadData readPos =>
    if readPos < b.capacity then
      .ok (b.setData readPos none, .storeReadPos readPos (b.data readPos), none)
    else .error .badPointer
  | .storeReadPos readPos value =>
    .ok (b.setReadPos (ringNext b.capacity readPos), .idle, some (some value))

end RingBuffer

/-- The position that a call of `push` has loaded and not yet moved on. -/
def PushCall.writePos? {T : Type} : PushCall T → Option ℕ
  | .idle => none
  | .loadWritePos _ => none
  | .testReadPosCache _ w => some w
  | .loadReadPos _ w => some w
  | .storeReadPosCache _ w _ => some w
  | .retestReadPosCache _ w => some w
  | .storeData _ w => some w
  | .storeWritePos _ w => some w

/-- The value that a step of `push` completes the call of. -/
def PushCall.completes {T : Type} : PushCall T → Option T
  | .storeWritePos value _ => some value
  | _ => none

/-- The next step of the call is the load of `_write_pos`. -/
def PushCall.loads {T : Type} : PushCall T → Bool
  | .loadWritePos _ => true
  | _ => false

/-! ### Producers and a consumer -/

/-- A buffer with its producers and its consumer. -/
structure RingSystem (P T : Type) where
  buffer : RingBuffer T
  producer : P → PushCall T
  consumer : PopCall T
  begun : ℕ
  pushed : List T
  popped : List (Option T)

/-- Who takes the next step. -/
inductive RingEvent (P T : Type) where
  /-- The producer calls `push`, if it is not in a call. -/
  | push (p : P) (value : T)
  | produce (p : P)
  /-- The consumer goes on with its call of `pop`, or begins the next one. -/
  | consume
  deriving DecidableEq

namespace RingSystem

variable {P T : Type}

def new (capacity : ℕ) : RingSystem P T where
  buffer := .new capacity
  producer := fun _ => .idle
  consumer := .idle
  begun := 0
  pushed := []
  popped := []

variable [DecidableEq P]

/-- A producer begins a call. -/
def begin (s : RingSystem P T) (p : P) (value : T) : RingSystem P T :=
  match s.producer p with
  | .idle =>
    { s with producer := Function.update s.producer p (.loadWritePos value), begun := s.begun + 1 }
  | _ => s

/-- A producer has taken a step, after which the buffer is `b` and its call `c`. -/
def produced (s : RingSystem P T) (p : P) (b : RingBuffer T) (c : PushCall T) : RingSystem P T :=
  { s with
    buffer := b
    producer := Function.update s.producer p c
    pushed := s.pushed ++ (s.producer p).completes.toList }

/-- The consumer has taken a step, after which the buffer is `b` and its call `c`. -/
def consumed (s : RingSystem P T) (b : RingBuffer T) (c : PopCall T)
    (result : Option (Option (Option T))) : RingSystem P T :=
  { s with buffer := b, consumer := c, popped := s.popped ++ (result.join).toList }

/-- One step, and the answer of `pop` if it ends a call. -/
def step (s : RingSystem P T) : RingEvent P T → Except Fault (RingSystem P T × Option Bool)
  | .push p value => .ok (s.begin p value, none)
  | .produce p => do
    let (b, c) ← s.buffer.push (s.producer p)
    .ok (s.produced p b c, none)
  | .consume => do
    let (b, c, result) ← s.buffer.pop s.consumer
    .ok (s.consumed b c result, result.map Option.isSome)

end RingSystem

end LimitOrderBook
