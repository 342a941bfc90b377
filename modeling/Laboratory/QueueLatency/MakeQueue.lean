import Laboratory.QueueLatency.GlobalLockQueue
import Laboratory.QueueLatency.MpmcRingQueue
import Laboratory.QueueLatency.SplitLockLinkedQueue
import Laboratory.QueueLatency.SpscRingQueue

/-!
# `parseQueueKind` and `makeQueue`

The names of the four implementations, and the implementations behind the interface.  A constructor
that allocates a buffer throws when the buffer is longer than a vector can be; none looks whether a
semaphore can count to the capacity.
-/

namespace Laboratory.QueueLatency

/-- The exceptions of the program: a `std::runtime_error` with its text, and the
`std::length_error` of a vector. -/
inductive Error where
  | runtime_error (what : String)
  | length_error
  deriving DecidableEq, Repr

/-- A check is passed if it does not fail and the checks after it are passed. -/
theorem check_eq_ok_iff {p : Prop} [Decidable p] {e : Error} {rest : Except Error Unit} :
    (if p then .error e else rest) = .ok () ↔ ¬ p ∧ rest = .ok () := by
  by_cases hp : p
  · simp [hp]
  · simp [hp]

def parseQueueKind (name : String) : Except Error QueueKind :=
  if name = "global_lock" ∨ name = "global-lock" ∨ name = "mutex" then .ok .globalLock
  else if name = "split_lock" ∨ name = "split-lock" ∨ name = "split_linked" ∨
      name = "split-linked" ∨ name = "twolock" ∨ name = "two-lock" then .ok .splitLockLinked
  else if name = "mpmc_ring" ∨ name = "mpmc-ring" ∨ name = "mpmc" then .ok .mpmcRing
  else if name = "spsc" then .ok .spscRing
  else .error (.runtime_error
    "queue_type은 현재 'global_lock', 'split_lock', 'mpmc_ring', 'spsc'만 지원합니다.")

/-- `max_size` is the greatest length of a vector of events. -/
def makeQueue (ι : Type) [DecidableEq ι] (max_size : ℕ) (kind : QueueKind) (capacity : ℕ)
    (options : QueueOptions) : Except Error (IEventQueue ι) :=
  match kind with
  | .globalLock => .ok (globalLockQueue ι capacity options)
  | .splitLockLinked => .ok (splitLockLinkedQueue ι capacity)
  | .mpmcRing =>
    if capacity > max_size then .error .length_error
    else if capacity = 0 then
      .error (.runtime_error "mpmc_ring은 capacity > 0이 필요합니다.")
    else .ok (mpmcRingQueue ι capacity)
  | .spscRing =>
    if (capacity + 1) % 2 ^ 64 > max_size then .error .length_error
    else if capacity = 0 then .error (.runtime_error "spsc는 capacity > 0이 필요합니다.")
    else .ok (spscRingQueue ι capacity)

end Laboratory.QueueLatency
