import Laboratory.QueueLatency.Types

/-!
# `GlobalLockQueue`

A `deque` under one mutex, with two condition variables.  `wait` gives the mutex up and puts the
thread among the waiters; `notify_one` removes one of them, which then has to lock the mutex
again, and a spurious wake-up removes a waiter that nobody has notified.  Between two steps of a
thread that holds the mutex only the stop flag can change, so that what such a thread does between
two loads of the flag is one step.
-/

namespace Laboratory.QueueLatency

namespace GlobalLockQueue

/-- The fields of the queue; a condition variable is the set of its waiters. -/
structure Shared (ι : Type) where
  mu_ : Option ι
  not_empty_cv_ : Finset ι
  not_full_cv_ : Finset ι
  queue_ : List Event
  capacity_ : ℕ
  closed_ : Bool
  wait_strategy_ : WaitStrategy
  stats_ : QueueStats

/-- Where a thread stands in `push`. -/
inductive PushPC where
  /-- Before `lock(mu_)`. -/
  | lock
  /-- Holding the mutex: before `if (closed_)` and, under the `Drop` policy, the test for room. -/
  | checkClosed
  /-- In `not_full_cv_.wait`: before the predicate, or waiting. -/
  | waitTest
  | sleeping
  /-- Before the test that follows the wait. -/
  | recheck
  /-- Before the test of the spin loop, and before `lock.lock()` at its end. -/
  | spinTest (spins : ℕ)
  | relock (spins : ℕ)
  /-- Before `queue_.push_back`. -/
  | append
  | returned (ok : Bool)
  deriving DecidableEq

/-- Where a thread stands in `pop`. -/
inductive PopPC where
  /-- Before `lock(mu_)`. -/
  | lock
  /-- In `not_empty_cv_.wait`: before the predicate, or waiting. -/
  | waitTest
  | sleeping
  /-- Before the test of the spin loop, and before `lock.lock()` at its end. -/
  | spinTest (spins : ℕ)
  | relock (spins : ℕ)
  /-- Returning `true` with an event, or `false`. -/
  | returned (out : Option Event)
  deriving DecidableEq

variable {ι : Type} [DecidableEq ι]

/-- The waiters after `notify_one`, which wakes the thread `wake` if anybody waits. -/
def notifyOne (wake : Option ι) (waiters : Finset ι) : Option (Finset ι) :=
  if waiters = ∅ then some ∅
  else wake.bind fun i => if i ∈ waiters then some (waiters.erase i) else none

/-- A `push` that fails gives the mutex up. -/
def failPush (s : Shared ι) : Shared ι × PushPC :=
  ({ s with mu_ := none, stats_.push_fail := s.stats_.push_fail + 1 }, .returned false)

/-- A step of `push(ev, policy, stop_flag)` by thread `i`. -/
def push (env : Env ι) (i : ι) (ev : Event) (policy : BackpressurePolicy) (s : Shared ι) :
    PushPC → Option (Shared ι × PushPC)
  | .lock =>
    if s.mu_ = none then
      some ({ s with mu_ := some i, stats_.push_attempts := s.stats_.push_attempts + 1 },
        .checkClosed)
    else none
  | .checkClosed =>
    if s.closed_ then some (failPush s)
    else if s.capacity_ = 0 then some (s, .append)
    else if policy = .block then
      if s.wait_strategy_ = .conditionVariable then
        some ({ s with stats_.park_count := s.stats_.park_count + 1 }, .waitTest)
      else some (s, .spinTest 0)
    else if s.queue_.length ≥ s.capacity_ then
      some (failPush { s with stats_.full_hits := s.stats_.full_hits + 1 })
    else some (s, .append)
  | .waitTest =>
    if s.closed_ || env.stop || s.queue_.length < s.capacity_ then some (s, .recheck)
    else some ({ s with mu_ := none, not_full_cv_ := insert i s.not_full_cv_ }, .sleeping)
  | .sleeping =>
    if i ∈ s.not_full_cv_ then
      if env.spurious then
        some ({ s with not_full_cv_ := s.not_full_cv_.erase i }, .sleeping)
      else none
    else if s.mu_ = none then some ({ s with mu_ := some i }, .waitTest)
    else none
  | .recheck => if s.closed_ || env.stop then some (failPush s) else some (s, .append)
  | .spinTest spins =>
    if s.queue_.length ≥ s.capacity_ then
      let t := { s with stats_.full_hits := s.stats_.full_hits + 1 }
      if s.closed_ || env.stop then some (failPush t)
      else some ({ t with mu_ := none }, .relock spins)
    else some (s, .append)
  | .relock spins =>
    if s.mu_ = none then
      some ({ s with mu_ := some i, stats_ := (pause s.stats_ spins).1 },
        .spinTest (pause s.stats_ spins).2)
    else none
  | .append =>
    (notifyOne env.wake s.not_empty_cv_).map fun waiters =>
      let stats := updateMaxDepth s.stats_ (s.queue_.length + 1 : ℕ)
      ({ s with
        mu_ := none
        queue_ := s.queue_ ++ [ev]
        not_empty_cv_ := waiters
        stats_ := { stats with push_success := stats.push_success + 1 } }, .returned true)
  | .returned _ => none

/-- The end of `pop`: the mutex is given up, with the oldest event if there is one. -/
def finishPop (env : Env ι) (s : Shared ι) : Option (Shared ι × PopPC) :=
  match s.queue_ with
  | [] => some ({ s with mu_ := none }, .returned none)
  | out :: rest =>
    (notifyOne env.wake s.not_full_cv_).map fun waiters =>
      ({ s with
        mu_ := none
        queue_ := rest
        not_full_cv_ := waiters
        stats_.pop_success := s.stats_.pop_success + 1 }, .returned (some out))

/-- A step of `pop(out, stop_flag)` by thread `i`. -/
def pop (env : Env ι) (i : ι) (s : Shared ι) : PopPC → Option (Shared ι × PopPC)
  | .lock =>
    if s.mu_ = none then
      if s.wait_strategy_ = .conditionVariable then
        some ({ s with mu_ := some i, stats_.park_count := s.stats_.park_count + 1 }, .waitTest)
      else some ({ s with mu_ := some i }, .spinTest 0)
    else none
  | .waitTest =>
    if s.closed_ || env.stop || !s.queue_.isEmpty then finishPop env s
    else some ({ s with mu_ := none, not_empty_cv_ := insert i s.not_empty_cv_ }, .sleeping)
  | .sleeping =>
    if i ∈ s.not_empty_cv_ then
      if env.spurious then
        some ({ s with not_empty_cv_ := s.not_empty_cv_.erase i }, .sleeping)
      else none
    else if s.mu_ = none then some ({ s with mu_ := some i }, .waitTest)
    else none
  | .spinTest spins =>
    if s.queue_.isEmpty then
      let t := { s with stats_.empty_hits := s.stats_.empty_hits + 1 }
      if s.closed_ || env.stop then some ({ t with mu_ := none }, .returned none)
      else some ({ t with mu_ := none }, .relock spins)
    else finishPop env s
  | .relock spins =>
    if s.mu_ = none then
      some ({ s with mu_ := some i, stats_ := (pause s.stats_ spins).1 },
        .spinTest (pause s.stats_ spins).2)
    else none
  | .returned _ => none

/-- `close` sets the flag under the mutex and wakes everybody. -/
def close (s : Shared ι) : Option (Shared ι) :=
  if s.mu_ = none then
    some { s with closed_ := true, not_empty_cv_ := ∅, not_full_cv_ := ∅ }
  else none

/-- The queue right after construction. -/
def init (ι : Type) (capacity : ℕ) (options : QueueOptions) : Shared ι where
  mu_ := none
  not_empty_cv_ := ∅
  not_full_cv_ := ∅
  queue_ := []
  capacity_ := capacity
  closed_ := false
  wait_strategy_ := resolveWaitStrategy .globalLock options.wait_strategy
  stats_ := {}

end GlobalLockQueue

open GlobalLockQueue in
/-- `GlobalLockQueue` as an implementation of the interface. -/
def globalLockQueue (ι : Type) [DecidableEq ι] (capacity : ℕ) (options : QueueOptions) :
    IEventQueue ι where
  Shared := GlobalLockQueue.Shared ι
  PushPC := GlobalLockQueue.PushPC
  PopPC := GlobalLockQueue.PopPC
  init := GlobalLockQueue.init ι capacity options
  pushEntry := .lock
  popEntry := .lock
  push := GlobalLockQueue.push
  pop := GlobalLockQueue.pop
  close := fun _ s => GlobalLockQueue.close s
  pushReturned
    | .returned ok => some ok
    | _ => none
  popReturned
    | .returned out => some (out.isSome, out)
    | _ => none
  stats := Shared.stats_
  content := Shared.queue_
  waitsForRoom := Shared.not_full_cv_
  foundEmpty := fun _ => false
  leaves := fun stop s pc =>
    match pc with
    | .waitTest | .spinTest _ => s.queue_.isEmpty && (s.closed_ || stop)
    | _ => false
  passes := fun stop policy s pc =>
    match pc with
    | .checkClosed =>
      !s.closed_ && (s.capacity_ = 0 || policy = .drop && s.queue_.length < s.capacity_)
    | .recheck => !(s.closed_ || stop)
    | .spinTest _ => s.queue_.length < s.capacity_
    | _ => false
  willStore
    | .append => true
    | _ => false
  hasStored
    | .returned ok => ok
    | _ => false
  hasTaken
    | .returned out => out
    | _ => none

end Laboratory.QueueLatency
