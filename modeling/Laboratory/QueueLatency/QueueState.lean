import Laboratory.QueueLatency.Types
import Mathlib.Logic.Relation
import Mathlib.Tactic.SplitIfs

/-!
# A queue and the threads that use it

`QState` is a queue with the operations in progress on it, at most one for each thread, and two
history lists: the events whose `push` has returned `true`, and the events that `pop` has
returned.  `QStep` is one step of any thread, under a rule for who may call what.
-/

namespace Laboratory.QueueLatency

variable {ι : Type} [DecidableEq ι]

/-- A call with its arguments; the stop flag is read step by step, from `Env`. -/
inductive Call where
  | push (ev : Event) (policy : BackpressurePolicy)
  | pop
  | close
  deriving DecidableEq, Repr

/-- An operation in progress. -/
inductive Frame (Q : IEventQueue ι) where
  | push (ev : Event) (policy : BackpressurePolicy) (pc : Q.PushPC)
  | pop (pc : Q.PopPC)
  | close (done : Bool)

/-- The frame a call starts with. -/
def Frame.enter (Q : IEventQueue ι) : Call → Frame Q
  | .push ev policy => .push ev policy Q.pushEntry
  | .pop => .pop Q.popEntry
  | .close => .close false

/-- What the operation returns, once it is through. -/
def Frame.result {Q : IEventQueue ι} : Frame Q → Option Return
  | .push _ _ pc => (Q.pushReturned pc).map .pushed
  | .pop pc => (Q.popReturned pc).map fun r => .popped r.1 r.2
  | .close done => if done then some .closed else none

/-- The event of a `push`. -/
def Frame.event {Q : IEventQueue ι} : Frame Q → Option Event
  | .push ev _ _ => some ev
  | _ => none

structure QState (Q : IEventQueue ι) where
  shared : Q.Shared
  frame : ι → Option (Frame Q)
  pushed : List Event
  popped : List Event

namespace QState

variable {Q : IEventQueue ι}

/-- A fresh queue that nobody uses. -/
def start (Q : IEventQueue ι) : QState Q where
  shared := Q.init
  frame := fun _ => none
  pushed := []
  popped := []

/-- Thread `i` enters an operation. -/
def call (s : QState Q) (i : ι) (c : Call) : QState Q :=
  { s with frame := Function.update s.frame i (some (Frame.enter Q c)) }

/-- Thread `i` takes one step of an operation. -/
def stepFrame (env : Env ι) (i : ι) (s : Q.Shared) : Frame Q → Option (Q.Shared × Frame Q)
  | .push ev policy pc => (Q.push env i ev policy s pc).map fun r => (r.1, .push ev policy r.2)
  | .pop pc => (Q.pop env i s pc).map fun r => (r.1, .pop r.2)
  | .close done => if done then none else (Q.close i s).map fun s' => (s', .close true)

/-- Thread `i` takes one step of the operation it is in. -/
def step (env : Env ι) (i : ι) (s : QState Q) : Option (QState Q) :=
  (s.frame i).bind fun f =>
    (stepFrame env i s.shared f).map fun r =>
      { s with shared := r.1, frame := Function.update s.frame i (some r.2) }

/-- What the operation of thread `i` returns, once it is through. -/
def returned (s : QState Q) (i : ι) : Option Return :=
  (s.frame i).bind Frame.result

/-- Thread `i` is in a `pop` that has found no event and has not tested `closed_` since. -/
def foundEmpty (s : QState Q) (i : ι) : Bool :=
  match s.frame i with
  | some (.pop pc) => Q.foundEmpty pc
  | _ => false

/-- Thread `i` is in a `pop` that leaves in its next step because a flag is up. -/
def leaves (s : QState Q) (stop : Bool) (i : ι) : Bool :=
  match s.frame i with
  | some (.pop pc) => Q.leaves stop s.shared pc
  | _ => false

/-- The event of thread `i`, if it is in a `push` that passes the last of its tests in its next
step. -/
def passing (s : QState Q) (stop : Bool) (i : ι) : Option Event :=
  match s.frame i with
  | some (.push ev policy pc) => if Q.passes stop policy s.shared pc then some ev else none
  | _ => none

/-- The event of thread `i`, if it is in a `push` that has passed its tests and has not stored the
event. -/
def storing (s : QState Q) (i : ι) : Option Event :=
  match s.frame i with
  | some (.push ev _ pc) => if Q.willStore pc then some ev else none
  | _ => none

/-- Thread `i` is about to close the queue. -/
def closing (s : QState Q) (i : ι) : Bool :=
  match s.frame i with
  | some (.close false) => true
  | _ => false

/-- No `push` and no `pop` is in progress. -/
def Quiet (s : QState Q) : Prop :=
  ∀ i f, s.frame i = some f → ∃ done, f = .close done

/-- Thread `i` leaves an operation that has returned `r`. -/
def leave (s : QState Q) (i : ι) (r : Return) : QState Q where
  shared := s.shared
  frame := Function.update s.frame i none
  pushed :=
    match r with
    | .pushed true => s.pushed ++ ((s.frame i).bind Frame.event).toList
    | _ => s.pushed
  popped :=
    match r with
    | .popped true out => s.popped ++ out.toList
    | _ => s.popped

/-- One turn of a thread: it calls, takes a step, or returns. -/
inductive Turn (ι : Type) where
  | call (i : ι) (c : Call)
  | step (env : Env ι) (i : ι)
  | leave (i : ι)

def turn (s : QState Q) : Turn ι → Option (QState Q)
  | .call i c => if (s.frame i).isNone then some (s.call i c) else none
  | .step env i => s.step env i
  | .leave i => (s.returned i).map (s.leave i)

/-- The state after a list of turns. -/
def run (s : QState Q) : List (Turn ι) → Option (QState Q)
  | [] => some s
  | t :: ts => (s.turn t).bind fun s' => s'.run ts

/-- One turn that satisfies a condition in the state it starts from. -/
def TurnIf (ok : QState Q → Turn ι → Prop) (s s' : QState Q) : Prop :=
  ∃ t, ok s t ∧ s.turn t = some s'

/-- The state after a list of turns that satisfy a condition. -/
def runIf (ok : QState Q → Turn ι → Prop) [∀ s t, Decidable (ok s t)] (s : QState Q) :
    List (Turn ι) → Option (QState Q)
  | [] => some s
  | t :: ts => if ok s t then (s.turn t).bind fun s' => runIf ok s' ts else none

theorem turns_of_runIf {ok : QState Q → Turn ι → Prop} [∀ s t, Decidable (ok s t)]
    {s s' : QState Q} {ts : List (Turn ι)} (h : runIf ok s ts = some s') :
    Relation.ReflTransGen (TurnIf ok) s s' := by
  induction ts generalizing s with
  | nil =>
    cases h
    exact .refl
  | cons t ts ih =>
    rw [runIf] at h
    split_ifs at h with hok
    obtain ⟨s₁, ht, h⟩ := Option.bind_eq_some_iff.mp h
    exact .head ⟨t, hok, ht⟩ (ih h)

end QState

/-- **One step of the queue's threads.** `Allowed i c` says that thread `i` may make the call
`c`. -/
inductive QStep (Q : IEventQueue ι) (Allowed : ι → Call → Prop) : QState Q → QState Q → Prop
  | call {s : QState Q} {i : ι} {c : Call} (free : s.frame i = none) (may : Allowed i c) :
      QStep Q Allowed s (s.call i c)
  | step {s s' : QState Q} {env : Env ι} {i : ι} (h : s.step env i = some s') :
      QStep Q Allowed s s'
  | leave {s : QState Q} {i : ι} {r : Return} (h : s.returned i = some r) :
      QStep Q Allowed s (s.leave i r)

/-- The states a queue can reach from its construction, whatever its threads do. -/
def QReachable (Q : IEventQueue ι) (Allowed : ι → Call → Prop) : QState Q → Prop :=
  Relation.ReflTransGen (QStep Q Allowed) (QState.start Q)

/-- A run is made of steps. -/
theorem QState.steps_of_run {Q : IEventQueue ι} {Allowed : ι → Call → Prop} {s s' : QState Q}
    {ts : List (QState.Turn ι)} (hmay : ∀ i c, .call i c ∈ ts → Allowed i c)
    (h : s.run ts = some s') : Relation.ReflTransGen (QStep Q Allowed) s s' := by
  induction ts generalizing s with
  | nil =>
    cases h
    exact .refl
  | cons t ts ih =>
    obtain ⟨s₁, ht, h⟩ := Option.bind_eq_some_iff.mp h
    refine .head ?_ (ih (fun i c hc => hmay i c (.tail _ hc)) h)
    cases t with
    | call i c =>
      simp only [QState.turn, Option.isNone_iff_eq_none] at ht
      split_ifs at ht with hfree
      cases ht
      exact .call hfree (hmay i c (.head _))
    | step env i => exact .step ht
    | leave i =>
      obtain ⟨r, hr, rfl⟩ := Option.map_eq_some_iff.mp ht
      exact .leave hr

end Laboratory.QueueLatency
