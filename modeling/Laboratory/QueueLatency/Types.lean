import Mathlib.Algebra.GroupWithZero.Nat
import Mathlib.Data.Finset.Basic
import Mathlib.Data.Int.Notation
import Mathlib.Data.Nat.Notation

/-!
# The types of the queues

The types of `queues.hpp`, and what an implementation of `IEventQueue` is here: the fields its
threads share, and for `push`, `pop` and `close` the atomic steps a thread takes, each of them a
function.  A step that does not exist in a state (a held mutex, a condition variable that has not
been notified) is `none`.

Two conventions hold for all four queues.  A relaxed statistics counter is updated together with
the step next to it.  `updateMaxDepth` is one step: whoever calls it is the only thread that can
write the maximum, so its compare-exchange loop has no rival.
-/

namespace Laboratory.QueueLatency

inductive BackpressurePolicy where
  | block
  | drop
  deriving DecidableEq, Repr

inductive WaitStrategy where
  | queueDefault
  | conditionVariable
  | spinYield
  deriving DecidableEq, Repr

inductive QueueKind where
  | globalLock
  | splitLockLinked
  | mpmcRing
  | spscRing
  deriving DecidableEq, Repr

/-- An event; `created_at` is the reading of the steady clock in nanoseconds. -/
structure Event where
  id : UInt64 := 0
  route_key : UInt64 := 0
  target_worker : UInt64 := 0
  created_at : ℤ := 0
  deriving DecidableEq, Repr

structure QueueStats where
  push_attempts : ℕ := 0
  push_success : ℕ := 0
  push_fail : ℕ := 0
  pop_success : ℕ := 0
  spin_count : ℕ := 0
  yield_count : ℕ := 0
  park_count : ℕ := 0
  full_hits : ℕ := 0
  empty_hits : ℕ := 0
  max_observed_depth : ℤ := 0
  deriving DecidableEq, Repr

structure QueueOptions where
  wait_strategy : WaitStrategy := .queueDefault
  deriving DecidableEq, Repr

def resolveWaitStrategy (kind : QueueKind) (requested : WaitStrategy) : WaitStrategy :=
  if requested ≠ .queueDefault then requested
  else
    match kind with
    | .globalLock => .conditionVariable
    | .splitLockLinked | .mpmcRing | .spscRing => .spinYield

/-- The maximum that the compare-exchange loop leaves behind. -/
def updateMaxDepth (stats : QueueStats) (depth : ℤ) : QueueStats :=
  { stats with max_observed_depth := max stats.max_observed_depth depth }

def kSpinBeforeYield : ℕ := 64

/-- `SpinYieldWaiter::pause` after `spins` earlier calls on the same waiter. -/
def pause (stats : QueueStats) (spins : ℕ) : QueueStats × ℕ :=
  if spins < kSpinBeforeYield then
    ({ stats with spin_count := stats.spin_count + 1 }, spins + 1)
  else
    ({ stats with yield_count := stats.yield_count + 1 }, spins)

/-- The permits of a `std::counting_semaphore<>` that is made with the count `desired`.  It keeps
the count in an `int`, and has a permit to give as long as that is not zero. -/
def semaphorePermits (desired : ℕ) : ℕ := desired % 2 ^ 32

/-- The greatest count that a semaphore may be made with. -/
def semaphoreMax : ℕ := 2 ^ 31 - 1

theorem semaphorePermits_le (desired : ℕ) : semaphorePermits desired ≤ desired :=
  Nat.mod_le _ _

theorem semaphorePermits_of_le {desired : ℕ} (h : desired ≤ semaphoreMax) :
    semaphorePermits desired = desired := by
  rw [semaphoreMax] at h
  exact Nat.mod_eq_of_lt (by omega)

/-- What a step depends on besides the queue: the value `stop_flag` has at that moment, whether a
condition variable wakes its waiter without a notification, and which waiter `notify_one`
chooses. `addr` is the address `new` returns. -/
structure Env (ι : Type) where
  stop : Bool := false
  spurious : Bool := false
  wake : Option ι := none
  addr : ℕ := 0

/-- What an operation returns: `push` and `pop` their result, `pop` also what it has written to
its parameter `out`. -/
inductive Return where
  | pushed (ok : Bool)
  | popped (ok : Bool) (out : Option Event)
  | closed
  deriving DecidableEq, Repr

/-- An implementation of the interface.  `PushPC` and `PopPC` say where a thread stands in `push`
and `pop`, local variables included; `pushReturned` and `popReturned` read the result of a thread
that is through.

The observers after `stats` are not part of the code: the events in the queue, oldest first; the
threads that wait for room and have not been notified; whether a `pop` has found no event and has
not tested `closed_` since, and whether it leaves in its next step because a flag is up; whether a
`push` passes the last of its tests in its next step, whether it has passed it and not stored its
event yet, and whether it has stored it; and the event that a `pop` has taken out of the queue. -/
structure IEventQueue (ι : Type) where
  Shared : Type
  PushPC : Type
  PopPC : Type
  init : Shared
  pushEntry : PushPC
  popEntry : PopPC
  push : Env ι → ι → Event → BackpressurePolicy → Shared → PushPC → Option (Shared × PushPC)
  pop : Env ι → ι → Shared → PopPC → Option (Shared × PopPC)
  close : ι → Shared → Option Shared
  pushReturned : PushPC → Option Bool
  popReturned : PopPC → Option (Bool × Option Event)
  stats : Shared → QueueStats
  content : Shared → List Event
  waitsForRoom : Shared → Finset ι
  foundEmpty : PopPC → Bool
  leaves : (stop : Bool) → Shared → PopPC → Bool
  passes : (stop : Bool) → BackpressurePolicy → Shared → PushPC → Bool
  willStore : PushPC → Bool
  hasStored : PushPC → Bool
  hasTaken : PopPC → Option Event

end Laboratory.QueueLatency
