import Laboratory.QueueLatency.Types

/-!
# `MpmcRingQueue`

Two counting semaphores admit producers and consumers to a ring; `tail_mu_` and `head_mu_` order
the producers and the consumers among themselves.  The steps of `push` and `pop` follow the code
line by line; a mutex holds the thread that has locked it.
-/

namespace Laboratory.QueueLatency

namespace MpmcRingQueue

/-- The fields of the queue.  The last three are history: the events in the order they were
written and read, and which slots hold an event that has not been read. -/
structure Shared (ι : Type) where
  ring_capacity_ : ℕ
  buffer_ : ℕ → Event
  head_mu_ : Option ι
  tail_mu_ : Option ι
  head_ : ℕ
  tail_ : ℕ
  depth_ : ℤ
  closed_ : Bool
  items_ : ℕ
  slots_available_ : ℕ
  stats_ : QueueStats
  written : List Event
  read : List Event
  filled : ℕ → Bool

/-- Where a thread stands in `push`. -/
inductive PushPC where
  /-- Before the first statement. -/
  | entry
  /-- Before `slots_available_.try_acquire()`. -/
  | acquire (spins : ℕ)
  /-- No slot was free: before `closed_.load()`, and before `stop_flag.load()`. -/
  | fullClosed (spins : ℕ)
  | fullStop (spins : ℕ)
  /-- Holding a slot: before the two loads of the second check. -/
  | admitClosed
  | admitStop
  /-- Before `slots_available_.release()` of a push that fails. -/
  | giveBack
  | lockTail
  | write
  | advance
  | addDepth
  | unlockTail
  | release
  | returned (ok : Bool)
  deriving DecidableEq

/-- Where a thread stands in `pop`. -/
inductive PopPC where
  /-- Before `items_.try_acquire()`. -/
  | acquire (spins : ℕ)
  /-- No item was there: before `closed_.load()`, and before `stop_flag.load()`. -/
  | emptyClosed (spins : ℕ)
  | emptyStop (spins : ℕ)
  | lockHead
  | read
  | advance (out : Event)
  | subDepth (out : Event)
  | unlockHead (out : Event)
  | release (out : Event)
  /-- Returning `true` with an event, or `false`. -/
  | returned (out : Option Event)
  deriving DecidableEq

variable {ι : Type} [DecidableEq ι]

def nextIndex (s : Shared ι) (idx : ℕ) : ℕ :=
  if idx + 1 = s.ring_capacity_ then 0 else idx + 1

/-- A step of `push(ev, policy, stop_flag)` by thread `i`. -/
def push (env : Env ι) (i : ι) (ev : Event) (policy : BackpressurePolicy) (s : Shared ι) :
    PushPC → Option (Shared ι × PushPC)
  | .entry =>
    some ({ s with stats_.push_attempts := s.stats_.push_attempts + 1 }, .acquire 0)
  | .acquire spins =>
    if s.slots_available_ ≠ 0 then
      some ({ s with slots_available_ := s.slots_available_ - 1 }, .admitClosed)
    else if policy = .block then
      some ({ s with stats_.full_hits := s.stats_.full_hits + 1 }, .fullClosed spins)
    else
      some ({ s with
        stats_.full_hits := s.stats_.full_hits + 1
        stats_.push_fail := s.stats_.push_fail + 1 }, .returned false)
  | .fullClosed spins =>
    if s.closed_ then
      some ({ s with stats_.push_fail := s.stats_.push_fail + 1 }, .returned false)
    else
      some (s, .fullStop spins)
  | .fullStop spins =>
    if env.stop then
      some ({ s with stats_.push_fail := s.stats_.push_fail + 1 }, .returned false)
    else
      some ({ s with stats_ := (pause s.stats_ spins).1 }, .acquire (pause s.stats_ spins).2)
  | .admitClosed => some (s, if s.closed_ then .giveBack else .admitStop)
  | .admitStop => some (s, if env.stop then .giveBack else .lockTail)
  | .giveBack =>
    some ({ s with
      slots_available_ := s.slots_available_ + 1
      stats_.push_fail := s.stats_.push_fail + 1 }, .returned false)
  | .lockTail =>
    if s.tail_mu_ = none then some ({ s with tail_mu_ := some i }, .write) else none
  | .write =>
    some ({ s with
      buffer_ := Function.update s.buffer_ s.tail_ ev
      written := s.written ++ [ev]
      filled := Function.update s.filled s.tail_ true }, .advance)
  | .advance => some ({ s with tail_ := nextIndex s s.tail_ }, .addDepth)
  | .addDepth =>
    some ({ s with
      depth_ := s.depth_ + 1
      stats_ := updateMaxDepth s.stats_ (s.depth_ + 1) }, .unlockTail)
  | .unlockTail => some ({ s with tail_mu_ := none }, .release)
  | .release =>
    some ({ s with
      items_ := s.items_ + 1
      stats_.push_success := s.stats_.push_success + 1 }, .returned true)
  | .returned _ => none

/-- A step of `pop(out, stop_flag)` by thread `i`. -/
def pop (env : Env ι) (i : ι) (s : Shared ι) : PopPC → Option (Shared ι × PopPC)
  | .acquire spins =>
    if s.items_ ≠ 0 then
      some ({ s with items_ := s.items_ - 1 }, .lockHead)
    else
      some ({ s with stats_.empty_hits := s.stats_.empty_hits + 1 }, .emptyClosed spins)
  | .emptyClosed spins =>
    some (s, if s.closed_ then .returned none else .emptyStop spins)
  | .emptyStop spins =>
    if env.stop then
      some (s, .returned none)
    else
      some ({ s with stats_ := (pause s.stats_ spins).1 }, .acquire (pause s.stats_ spins).2)
  | .lockHead =>
    if s.head_mu_ = none then some ({ s with head_mu_ := some i }, .read) else none
  | .read =>
    some ({ s with
      read := s.read ++ [s.buffer_ s.head_]
      filled := Function.update s.filled s.head_ false }, .advance (s.buffer_ s.head_))
  | .advance out => some ({ s with head_ := nextIndex s s.head_ }, .subDepth out)
  | .subDepth out => some ({ s with depth_ := s.depth_ - 1 }, .unlockHead out)
  | .unlockHead out => some ({ s with head_mu_ := none }, .release out)
  | .release out =>
    some ({ s with
      slots_available_ := s.slots_available_ + 1
      stats_.pop_success := s.stats_.pop_success + 1 }, .returned (some out))
  | .returned _ => none

/-- `close` stores the flag, in one step. -/
def close (s : Shared ι) : Shared ι :=
  { s with closed_ := true }

/-- The queue right after construction. -/
def init (ι : Type) (capacity : ℕ) : Shared ι where
  ring_capacity_ := capacity
  buffer_ := fun _ => {}
  head_mu_ := none
  tail_mu_ := none
  head_ := 0
  tail_ := 0
  depth_ := 0
  closed_ := false
  items_ := 0
  slots_available_ := semaphorePermits capacity
  stats_ := {}
  written := []
  read := []
  filled := fun _ => false

end MpmcRingQueue

open MpmcRingQueue in
/-- `MpmcRingQueue` as an implementation of the interface. -/
def mpmcRingQueue (ι : Type) [DecidableEq ι] (capacity : ℕ) : IEventQueue ι where
  Shared := MpmcRingQueue.Shared ι
  PushPC := MpmcRingQueue.PushPC
  PopPC := MpmcRingQueue.PopPC
  init := MpmcRingQueue.init ι capacity
  pushEntry := .entry
  popEntry := .acquire 0
  push := MpmcRingQueue.push
  pop := MpmcRingQueue.pop
  close := fun _ s => some (MpmcRingQueue.close s)
  pushReturned
    | .returned ok => some ok
    | _ => none
  popReturned
    | .returned out => some (out.isSome, out)
    | _ => none
  stats := Shared.stats_
  content := fun s => s.written.drop s.read.length
  waitsForRoom := fun _ => ∅
  foundEmpty
    | .emptyClosed _ => true
    | _ => false
  leaves := fun stop s pc =>
    match pc with
    | .emptyClosed _ => s.closed_
    | .emptyStop _ => stop
    | _ => false
  passes := fun stop _ _ pc =>
    match pc with
    | .admitStop => !stop
    | _ => false
  willStore
    | .lockTail | .write => true
    | _ => false
  hasStored
    | .advance | .addDepth | .unlockTail | .release => true
    | .returned ok => ok
    | _ => false
  hasTaken
    | .advance out | .subDepth out | .unlockHead out | .release out => some out
    | .returned out => out
    | _ => none

end Laboratory.QueueLatency
