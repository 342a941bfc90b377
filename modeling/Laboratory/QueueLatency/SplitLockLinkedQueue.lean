import Laboratory.Concurrency.LinkedSegment
import Laboratory.QueueLatency.Types

/-!
# `SplitLockLinkedQueue`

A linked list with a dummy node at its head.  Producers link at the tail under `tail_mu_`,
consumers unlink at the head under `head_mu_`; the semaphore `items_` counts the events that may
be taken, and `slots_`, which is absent when the capacity is `0`, the free places.  `new` returns
any free address, and an address may be used again once its node has been deleted.  A step that
would follow a pointer to no node does not exist.
-/

namespace Laboratory.QueueLatency

open Concurrency (Node)

namespace SplitLockLinkedQueue

/-- The fields of the queue and the nodes on the heap.  The last two are history: the events in
the order they were linked and taken. -/
structure Shared (ι : Type) where
  nodes : ℕ → Option (Node Event)
  head_mu_ : Option ι
  tail_mu_ : Option ι
  head_ : ℕ
  tail_ : ℕ
  closed_ : Bool
  depth_ : ℤ
  items_ : ℕ
  slots_ : Option ℕ
  stats_ : QueueStats
  linked : List Event
  taken : List Event

/-- Where a thread stands in `push`. -/
inductive PushPC where
  /-- Before the first statement. -/
  | entry
  /-- Before `slots_->try_acquire()`. -/
  | acquire (spins : ℕ)
  /-- No slot was free: before `closed_.load()`, and before `stop_flag.load()`. -/
  | fullClosed (spins : ℕ)
  | fullStop (spins : ℕ)
  /-- Before `new Node`. -/
  | alloc (reserved_slot : Bool)
  | lockTail (reserved_slot : Bool) (node : ℕ)
  /-- Before `closed_.load()` under the lock. -/
  | recheck (reserved_slot : Bool) (node : ℕ)
  /-- The queue is closed: before `delete node`, and before `slots_->release()`. -/
  | discard (reserved_slot : Bool) (node : ℕ)
  | giveBack (reserved_slot : Bool)
  | unlockFailed
  /-- Before `tail_->next = node`, and before `tail_ = node`. -/
  | link (node : ℕ)
  | setTail (node : ℕ)
  | addDepth
  | unlockTail
  | release
  | returned (ok : Bool)
  deriving DecidableEq

/-- Where a thread stands in `pop`. -/
inductive PopPC where
  /-- Before `items_.try_acquire()`. -/
  | acquire (spins : ℕ)
  /-- No item was there: before `closed_.load()`, and before `stop_flag.load()`. -/
  | emptyClosed (spins : ℕ)
  | emptyStop (spins : ℕ)
  | lockHead
  /-- Before `new_head = old_head->next`. -/
  | readNext
  /-- `new_head` is null: before the two loads, and before the lock is given up. -/
  | nullClosed
  | nullStop
  | unlockNull (ok : Bool)
  /-- Before the event is moved out, and before `head_ = new_head`. -/
  | moveOut (old_head new_head : ℕ)
  | setHead (old_head new_head : ℕ) (out : Event)
  | subDepth (old_head : ℕ) (out : Event)
  | unlockHead (old_head : ℕ) (out : Event)
  | deleteOld (old_head : ℕ) (out : Event)
  | release (out : Event)
  /-- Returning `true` with an event, or `false`; and the return of the null branch. -/
  | returned (out : Option Event)
  | returnedNull (ok : Bool)
  deriving DecidableEq

variable {ι : Type} [DecidableEq ι]

/-- A step of `push(ev, policy, stop_flag)` by thread `i`. -/
def push (env : Env ι) (i : ι) (ev : Event) (policy : BackpressurePolicy) (s : Shared ι) :
    PushPC → Option (Shared ι × PushPC)
  | .entry =>
    let stats := { s.stats_ with push_attempts := s.stats_.push_attempts + 1 }
    if s.closed_ then
      some ({ s with stats_ := { stats with push_fail := stats.push_fail + 1 } }, .returned false)
    else if s.slots_.isSome then
      some ({ s with stats_ := stats }, .acquire 0)
    else
      some ({ s with stats_ := stats }, .alloc false)
  | .acquire spins =>
    if s.slots_ ≠ some 0 then
      some ({ s with slots_ := s.slots_.map (· - 1) }, .alloc true)
    else if policy = .block then
      some ({ s with stats_.full_hits := s.stats_.full_hits + 1 }, .fullClosed spins)
    else
      some ({ s with
        stats_.full_hits := s.stats_.full_hits + 1
        stats_.push_fail := s.stats_.push_fail + 1 }, .returned false)
  | .fullClosed spins =>
    if s.closed_ then
      some ({ s with stats_.push_fail := s.stats_.push_fail + 1 }, .returned false)
    else
      some (s, .fullStop spins)
  | .fullStop spins =>
    if env.stop then
      some ({ s with stats_.push_fail := s.stats_.push_fail + 1 }, .returned false)
    else
      some ({ s with stats_ := (pause s.stats_ spins).1 }, .acquire (pause s.stats_ spins).2)
  | .alloc reserved_slot =>
    if (s.nodes env.addr).isNone then
      some ({ s with nodes := Function.update s.nodes env.addr (some { value := some ev }) },
        .lockTail reserved_slot env.addr)
    else none
  | .lockTail reserved_slot node =>
    if s.tail_mu_ = none then some ({ s with tail_mu_ := some i }, .recheck reserved_slot node)
    else none
  | .recheck reserved_slot node =>
    some (s, if s.closed_ then .discard reserved_slot node else .link node)
  | .discard reserved_slot node =>
    some ({ s with nodes := Function.update s.nodes node none }, .giveBack reserved_slot)
  | .giveBack reserved_slot =>
    some ({ s with
      slots_ := if reserved_slot then s.slots_.map (· + 1) else s.slots_
      stats_.push_fail := s.stats_.push_fail + 1 }, .unlockFailed)
  | .unlockFailed => some ({ s with tail_mu_ := none }, .returned false)
  | .link node =>
    (s.nodes s.tail_).map fun last =>
      ({ s with
        nodes := Function.update s.nodes s.tail_ (some { last with next := some node })
        linked := s.linked ++ [ev] }, .setTail node)
  | .setTail node => some ({ s with tail_ := node }, .addDepth)
  | .addDepth =>
    some ({ s with
      depth_ := s.depth_ + 1
      stats_ := updateMaxDepth s.stats_ (s.depth_ + 1) }, .unlockTail)
  | .unlockTail => some ({ s with tail_mu_ := none }, .release)
  | .release =>
    some ({ s with
      items_ := s.items_ + 1
      stats_.push_success := s.stats_.push_success + 1 }, .returned true)
  | .returned _ => none

/-- A step of `pop(out, stop_flag)` by thread `i`. -/
def pop (env : Env ι) (i : ι) (s : Shared ι) : PopPC → Option (Shared ι × PopPC)
  | .acquire spins =>
    if s.items_ ≠ 0 then
      some ({ s with items_ := s.items_ - 1 }, .lockHead)
    else
      some ({ s with stats_.empty_hits := s.stats_.empty_hits + 1 }, .emptyClosed spins)
  | .emptyClosed spins =>
    some (s, if s.closed_ then .returned none else .emptyStop spins)
  | .emptyStop spins =>
    if env.stop then
      some (s, .returned none)
    else
      some ({ s with stats_ := (pause s.stats_ spins).1 }, .acquire (pause s.stats_ spins).2)
  | .lockHead =>
    if s.head_mu_ = none then some ({ s with head_mu_ := some i }, .readNext) else none
  | .readNext =>
    (s.nodes s.head_).map fun old =>
      (s, match old.next with
        | none => .nullClosed
        | some new_head => .moveOut s.head_ new_head)
  | .nullClosed => some (s, if s.closed_ then .unlockNull false else .nullStop)
  | .nullStop => some (s, .unlockNull !env.stop)
  | .unlockNull ok => some ({ s with head_mu_ := none }, .returnedNull ok)
  | .moveOut old_head new_head =>
    ((s.nodes new_head).bind Node.value).map fun out => (s, .setHead old_head new_head out)
  | .setHead old_head new_head out =>
    some ({ s with head_ := new_head, taken := s.taken ++ [out] }, .subDepth old_head out)
  | .subDepth old_head out => some ({ s with depth_ := s.depth_ - 1 }, .unlockHead old_head out)
  | .unlockHead old_head out => some ({ s with head_mu_ := none }, .deleteOld old_head out)
  | .deleteOld old_head out =>
    some ({ s with nodes := Function.update s.nodes old_head none }, .release out)
  | .release out =>
    some ({ s with
      slots_ := s.slots_.map (· + 1)
      stats_.pop_success := s.stats_.pop_success + 1 }, .returned (some out))
  | .returned _ => none
  | .returnedNull _ => none

def close (s : Shared ι) : Shared ι :=
  { s with closed_ := true }

/-- The queue right after construction: the dummy node has address `0`. -/
def init (ι : Type) (capacity : ℕ) : Shared ι where
  nodes := Function.update (fun _ => none) 0 (some {})
  head_mu_ := none
  tail_mu_ := none
  head_ := 0
  tail_ := 0
  closed_ := false
  depth_ := 0
  items_ := 0
  slots_ := if capacity ≠ 0 then some (semaphorePermits capacity) else none
  stats_ := {}
  linked := []
  taken := []

end SplitLockLinkedQueue

open SplitLockLinkedQueue in
/-- `SplitLockLinkedQueue` as an implementation of the interface. -/
def splitLockLinkedQueue (ι : Type) [DecidableEq ι] (capacity : ℕ) : IEventQueue ι where
  Shared := SplitLockLinkedQueue.Shared ι
  PushPC := SplitLockLinkedQueue.PushPC
  PopPC := SplitLockLinkedQueue.PopPC
  init := SplitLockLinkedQueue.init ι capacity
  pushEntry := .entry
  popEntry := .acquire 0
  push := SplitLockLinkedQueue.push
  pop := SplitLockLinkedQueue.pop
  close := fun _ s => some (SplitLockLinkedQueue.close s)
  pushReturned
    | .returned ok => some ok
    | _ => none
  popReturned
    | .returned out => some (out.isSome, out)
    | .returnedNull ok => some (ok, none)
    | _ => none
  stats := Shared.stats_
  content := fun s => s.linked.drop s.taken.length
  waitsForRoom := fun _ => ∅
  foundEmpty
    | .emptyClosed _ => true
    | _ => false
  leaves := fun stop s pc =>
    match pc with
    | .emptyClosed _ => s.closed_
    | .emptyStop _ => stop
    | .unlockNull ok => !ok
    | _ => false
  passes := fun _ _ s pc =>
    match pc with
    | .recheck _ _ => !s.closed_
    | _ => false
  willStore
    | .link _ => true
    | _ => false
  hasStored
    | .setTail _ | .addDepth | .unlockTail | .release => true
    | .returned ok => ok
    | _ => false
  hasTaken
    | .subDepth _ out | .unlockHead _ out | .deleteOld _ out | .release out => some out
    | .returned out => out
    | _ => none

end Laboratory.QueueLatency
