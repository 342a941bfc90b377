import Laboratory.QueueLatency.Types
import Mathlib.Logic.Relation

/-!
# The loop of `updateMaxDepth`

`updateMaxDepth` in atomic steps, called by any number of threads on one counter.  A relaxed load
and a relaxed compare-exchange are atomic all the same, and `compare_exchange_weak` may fail
although the counter has the value it expects.
-/

namespace Laboratory.QueueLatency.UpdateMaxDepth

/-- Where a thread stands in a call; `current` is the local variable. -/
inductive PC where
  /-- Before `max_depth.load`. -/
  | load
  /-- Before the test `depth > current`. -/
  | test (current : UInt64)
  /-- Before `max_depth.compare_exchange_weak(current, depth)`. -/
  | compareExchange (current : UInt64)
  | returned
  deriving DecidableEq, Repr

/-- A step of `updateMaxDepth(max_depth, depth)`; `spurious` says whether a compare-exchange fails
for no reason. -/
def step (spurious : Bool) (depth max_depth : UInt64) : PC → Option (UInt64 × PC)
  | .load => some (max_depth, .test max_depth)
  | .test current =>
    if depth > current then some (max_depth, .compareExchange current)
    else some (max_depth, .returned)
  | .compareExchange current =>
    if max_depth = current ∧ spurious = false then some (depth, .returned)
    -- A failure leaves the value of the counter in `current`.
    else some (max_depth, .test max_depth)
  | .returned => none

/-- A call in progress. -/
structure Frame where
  depth : UInt64
  pc : PC := .load
  deriving DecidableEq, Repr

/-- The counter, the calls in progress, at most one for each thread, and as a history the depths
passed in. -/
structure State (ι : Type) where
  max_depth : UInt64 := 0
  frame : ι → Option Frame := fun _ => none
  passed : List UInt64 := []

/-- One turn of a thread: it calls, takes a step, or returns. -/
inductive Turn (ι : Type) where
  | call (i : ι) (depth : UInt64)
  | step (spurious : Bool) (i : ι)
  | leave (i : ι)

namespace State

variable {ι : Type} [DecidableEq ι]

/-- Thread `i` is at `f`, or in no call, and the counter is `max_depth`. -/
def move (s : State ι) (i : ι) (max_depth : UInt64) (f : Option Frame) : State ι where
  max_depth := max_depth
  frame := Function.update s.frame i f
  passed := s.passed

/-- Thread `i` calls `updateMaxDepth(max_depth, depth)`. -/
def call (s : State ι) (i : ι) (depth : UInt64) : State ι where
  max_depth := s.max_depth
  frame := Function.update s.frame i (some { depth := depth })
  passed := s.passed ++ [depth]

def turn (s : State ι) : Turn ι → Option (State ι)
  | .call i depth => if s.frame i = none then some (s.call i depth) else none
  | .step spurious i =>
    (s.frame i).bind fun f =>
      (step spurious f.depth s.max_depth f.pc).map fun r =>
        s.move i r.1 (some { f with pc := r.2 })
  | .leave i =>
    (s.frame i).bind fun f => if f.pc = .returned then some (s.move i s.max_depth none) else none

/-- The state after a list of turns. -/
def run (s : State ι) : List (Turn ι) → Option (State ι)
  | [] => some s
  | t :: ts => (s.turn t).bind fun s' => s'.run ts

/-- No call is in progress: whoever has made one is past the loop. -/
def Quiet (s : State ι) : Prop :=
  ∀ i f, s.frame i = some f → f.pc = .returned

end State

variable {ι : Type} [DecidableEq ι]

/-- **One step of the threads.** -/
def Step (s s' : State ι) : Prop :=
  ∃ t, s.turn t = some s'

/-- The states that the threads can reach, in any order of their steps. -/
def Reachable : State ι → Prop :=
  Relation.ReflTransGen Step {}

/-- A run is made of steps. -/
theorem State.steps_of_run {s s' : State ι} {ts : List (Turn ι)} (h : s.run ts = some s') :
    Relation.ReflTransGen Step s s' := by
  induction ts generalizing s with
  | nil =>
    cases h
    exact .refl
  | cons t ts ih =>
    obtain ⟨s₁, ht, h⟩ := Option.bind_eq_some_iff.mp h
    exact .head ⟨t, ht⟩ (ih h)

end Laboratory.QueueLatency.UpdateMaxDepth
