import Laboratory.QueueLatency.Types
import Mathlib.Algebra.Group.Nat.Defs

/-!
# `SpscRingQueue`

A ring without a lock for one producer and one consumer.  `tail_` is stored by the producer only
and `head_` by the consumer only; each side loads the other's index and works with that copy.  One
slot of the ring stays free, so that a full ring and an empty one differ.
-/

namespace Laboratory.QueueLatency

namespace SpscRingQueue

/-- The fields of the queue.  The rest is history: the events in the order of the writes to the
buffer, of the stores of `tail_`, of the reads from the buffer and of the stores of `head_`, and
which slots hold an event that has not been read. -/
structure Shared where
  ring_capacity_ : ℕ
  buffer_ : ℕ → Event
  head_ : ℕ
  tail_ : ℕ
  closed_ : Bool
  stats_ : QueueStats
  written : List Event
  published : List Event
  copied : List Event
  popped : List Event
  filled : ℕ → Bool

/-- Where a thread stands in `push`. -/
inductive PushPC where
  /-- Before the first statement. -/
  | entry
  /-- Before `closed_.load()`, and before `stop_flag.load()`. -/
  | checkClosed (spins : ℕ)
  | checkStop (spins : ℕ)
  | loadTail (spins : ℕ)
  | loadHead (spins tail : ℕ)
  /-- The ring is not full: before the write to the buffer, and before the store of `tail_`. -/
  | write (tail next head : ℕ)
  | storeTail (next head : ℕ)
  | updateDepth (next head : ℕ)
  | returned (ok : Bool)
  deriving DecidableEq

/-- Where a thread stands in `pop`. -/
inductive PopPC where
  | loadHead (spins : ℕ)
  | loadTail (spins head : ℕ)
  /-- The ring is not empty: before the read from the buffer, and before the store of `head_`. -/
  | copy (head : ℕ)
  | storeHead (head : ℕ) (out : Event)
  /-- The ring is empty: before `closed_.load()`, and before `stop_flag.load()`. -/
  | emptyClosed (spins : ℕ)
  | emptyStop (spins : ℕ)
  /-- Returning `true` with an event, or `false`. -/
  | returned (out : Option Event)
  deriving DecidableEq

/-- The index after `idx`, in the arithmetic of `size_t`. -/
def nextIndex (s : Shared) (idx : ℕ) : ℕ :=
  if (idx + 1) % 2 ^ 64 = s.ring_capacity_ then 0 else (idx + 1) % 2 ^ 64

variable {ι : Type}

/-- A step of `push(ev, policy, stop_flag)`. -/
def push (env : Env ι) (_ : ι) (ev : Event) (policy : BackpressurePolicy) (s : Shared) :
    PushPC → Option (Shared × PushPC)
  | .entry =>
    some ({ s with stats_.push_attempts := s.stats_.push_attempts + 1 }, .checkClosed 0)
  | .checkClosed spins =>
    if s.closed_ then
      some ({ s with stats_.push_fail := s.stats_.push_fail + 1 }, .returned false)
    else
      some (s, .checkStop spins)
  | .checkStop spins =>
    if env.stop then
      some ({ s with stats_.push_fail := s.stats_.push_fail + 1 }, .returned false)
    else
      some (s, .loadTail spins)
  | .loadTail spins => some (s, .loadHead spins s.tail_)
  | .loadHead spins tail =>
    if nextIndex s tail ≠ s.head_ then
      some (s, .write tail (nextIndex s tail) s.head_)
    else
      let stats := { s.stats_ with full_hits := s.stats_.full_hits + 1 }
      if policy = .drop then
        some ({ s with stats_ := { stats with push_fail := stats.push_fail + 1 } }, .returned false)
      else
        some ({ s with stats_ := (pause stats spins).1 }, .checkClosed (pause stats spins).2)
  | .write tail next head =>
    -- A capacity of `2 ^ 64 - 1` leaves no slot at all, and the write would be out of bounds.
    if tail < s.ring_capacity_ then
      some ({ s with
        buffer_ := Function.update s.buffer_ tail ev
        written := s.written ++ [ev]
        filled := Function.update s.filled tail true }, .storeTail next head)
    else none
  | .storeTail next head =>
    some ({ s with tail_ := next, published := s.published ++ [ev] }, .updateDepth next head)
  | .updateDepth next head =>
    let depth : ℤ := if next > head then next - head else s.ring_capacity_ - head + next
    let stats := updateMaxDepth s.stats_ depth
    some ({ s with stats_ := { stats with push_success := stats.push_success + 1 } },
      .returned true)
  | .returned _ => none

/-- A step of `pop(out, stop_flag)`. -/
def pop (env : Env ι) (_ : ι) (s : Shared) : PopPC → Option (Shared × PopPC)
  | .loadHead spins => some (s, .loadTail spins s.head_)
  | .loadTail spins head =>
    if head ≠ s.tail_ then
      some (s, .copy head)
    else
      some ({ s with stats_.empty_hits := s.stats_.empty_hits + 1 }, .emptyClosed spins)
  | .copy head =>
    some ({ s with
      copied := s.copied ++ [s.buffer_ head]
      filled := Function.update s.filled head false }, .storeHead head (s.buffer_ head))
  | .storeHead head out =>
    some ({ s with
      head_ := nextIndex s head
      popped := s.popped ++ [out]
      stats_.pop_success := s.stats_.pop_success + 1 }, .returned (some out))
  | .emptyClosed spins =>
    some (s, if s.closed_ then .returned none else .emptyStop spins)
  | .emptyStop spins =>
    if env.stop then
      some (s, .returned none)
    else
      some ({ s with stats_ := (pause s.stats_ spins).1 }, .loadHead (pause s.stats_ spins).2)
  | .returned _ => none

def close (s : Shared) : Shared :=
  { s with closed_ := true }

/-- The queue right after construction; `ring_capacity_` is computed in `size_t`. -/
def init (capacity : ℕ) : Shared where
  ring_capacity_ := (capacity + 1) % 2 ^ 64
  buffer_ := fun _ => {}
  head_ := 0
  tail_ := 0
  closed_ := false
  stats_ := {}
  written := []
  published := []
  copied := []
  popped := []
  filled := fun _ => false

end SpscRingQueue

open SpscRingQueue in
/-- `SpscRingQueue` as an implementation of the interface. -/
def spscRingQueue (ι : Type) (capacity : ℕ) : IEventQueue ι where
  Shared := SpscRingQueue.Shared
  PushPC := SpscRingQueue.PushPC
  PopPC := SpscRingQueue.PopPC
  init := SpscRingQueue.init capacity
  pushEntry := .entry
  popEntry := .loadHead 0
  push := SpscRingQueue.push
  pop := SpscRingQueue.pop
  close := fun _ s => some (SpscRingQueue.close s)
  pushReturned
    | .returned ok => some ok
    | _ => none
  popReturned
    | .returned out => some (out.isSome, out)
    | _ => none
  stats := Shared.stats_
  content := fun s => s.published.drop s.copied.length
  waitsForRoom := fun _ => ∅
  foundEmpty
    | .emptyClosed _ => true
    | _ => false
  leaves := fun stop s pc =>
    match pc with
    | .emptyClosed _ => s.closed_
    | .emptyStop _ => stop
    | _ => false
  passes := fun _ _ s pc =>
    match pc with
    | .loadHead _ tail => nextIndex s tail ≠ s.head_
    | _ => false
  willStore
    | .write _ _ _ | .storeTail _ _ => true
    | _ => false
  hasStored
    | .updateDepth _ _ => true
    | .returned ok => ok
    | _ => false
  hasTaken
    | .storeHead _ out => some out
    | .returned out => out
    | _ => none

end Laboratory.QueueLatency
