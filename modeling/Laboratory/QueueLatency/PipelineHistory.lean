import Laboratory.QueueLatency.Pipeline
import Mathlib.Algebra.BigOperators.Group.Finset.Basic

/-!
# What has happened in a run

`History` lists the events that the threads of a pipeline have made, pushed, rejected, taken and
processed, each in its order; `Observed` is a run with its history.  What a thread has in hand is
read off the state: the place where it stands, and the operation it is in.
-/

namespace Laboratory.QueueLatency

variable {κ τ : Type} [DecidableEq κ] [DecidableEq τ]

/-- The event that a `push` in progress has put into its queue. -/
def Frame.stowed {ι : Type} {Q : IEventQueue ι} : Frame Q → List Event
  | .push ev _ pc => if Q.hasStored pc then [ev] else []
  | _ => []

/-- The event that a `pop` in progress has taken out of its queue. -/
def Frame.carried {ι : Type} {Q : IEventQueue ι} : Frame Q → List Event
  | .pop pc => (Q.hasTaken pc).toList
  | _ => []

namespace Program.State

variable {P : Program κ τ}

/-- What the thread `t` returns in its next step, if it returns from an operation. -/
def returning (s : P.State) (t : τ) : Option Return :=
  (s.calling t).bind fun q => (s.queue q).returned t

/-- The event that the thread `t` has put into a queue, in a `push` that has not returned. -/
def stowed (s : P.State) (t : τ) : List Event :=
  match s.calling t with
  | none => []
  | some q => ((s.queue q).frame t).elim [] Frame.stowed

/-- The event that the thread `t` has taken out of a queue, in a `pop` that has not returned. -/
def carried (s : P.State) (t : τ) : List Event :=
  match s.calling t with
  | none => []
  | some q => ((s.queue q).frame t).elim [] Frame.carried

end Program.State

/-- What has happened in a run: the events that each ingress thread has made, and those of which its
`push` has returned `true`; those that a worker's queue has not taken from the dispatcher; those
that each worker has popped, and has done its work for; and the measured ones of these, each with
the reading of the clock that the worker has taken for it. -/
structure History (P W : ℕ) where
  created : Fin P → List Event := fun _ => []
  accepted : Fin P → List Event := fun _ => []
  rejected : List Event := []
  taken : Fin W → List Event := fun _ => []
  processed : Fin W → List Event := fun _ => []
  measured : Fin W → List (Event × ℤ) := fun _ => []

namespace Pipeline

variable {P W : ℕ}

/-- The event that the ingress thread `k` makes when its sequence number is `seq` and the clock
reads `now`. -/
def newEvent (S : Pipeline P W) (k : Fin P) (seq : UInt64) (now : ℤ) : Event where
  id := UInt64.ofNat k <<< 48 ||| seq
  route_key := UInt64.ofNat k <<< 48 ||| seq
  target_worker := S.target_worker k (UInt64.ofNat k <<< 48 ||| seq)
  created_at := now

/-! ### Observing a run -/

/-- What an ingress thread makes in a step from the place `l`, in which it returns `r` from an
operation if it returns. -/
def makes (S : Pipeline P W) (k : Fin P) (now : ℤ) : IngressLoc → Option Return → List Event
  | .makeEvent v, none => [S.newEvent k v.seq now]
  | _, _ => []

def IngressLoc.accepts : IngressLoc → Option Return → List Event
  | .push _ ev _, some (.pushed true) => [ev]
  | _, _ => []

def DispatcherLoc.rejects : DispatcherLoc W → Option Return → List Event
  | .push ev _, some (.pushed false) => [ev]
  | _, _ => []

def WorkerLoc.takes : WorkerLoc → Option Return → List Event
  | .pop, some (.popped true out) => [out.getD {}]
  | _, _ => []

def WorkerLoc.processes : WorkerLoc → Option Return → List Event
  | .measure ev, none => [ev]
  | _, _ => []

/-- The event that a worker measures in a step at which the clock reads `now`. -/
def WorkerLoc.measures (times : Times) (now : ℤ) : WorkerLoc → Option Return → List (Event × ℤ)
  | .measure ev, none => if isMeasuredEvent times ev then [(ev, now)] else []
  | _, _ => []

def observeIngress (S : Pipeline P W) (k : Fin P) (now : ℤ) (l : IngressLoc) (r : Option Return)
    (x : History P W) : History P W :=
  { x with
    created := Function.update x.created k (x.created k ++ S.makes k now l r)
    accepted := Function.update x.accepted k (x.accepted k ++ l.accepts r) }

def observeDispatcher (l : DispatcherLoc W) (r : Option Return) (x : History P W) : History P W :=
  { x with rejected := x.rejected ++ l.rejects r }

def observeWorker (times : Times) (k : Fin W) (now : ℤ) (l : WorkerLoc) (r : Option Return)
    (x : History P W) : History P W :=
  { x with
    taken := Function.update x.taken k (x.taken k ++ l.takes r)
    processed := Function.update x.processed k (x.processed k ++ l.processes r)
    measured := Function.update x.measured k (x.measured k ++ l.measures times now r) }

variable (S : Pipeline P W) [NeZero W] (config : PipelineConfig) (times : Times)

/-- The history after the step `c` from the state `s`. -/
def observe (c : (S.program config times).Choice) (s : (S.program config times).State)
    (x : History P W) : History P W :=
  match c.thread with
  | .ingress k =>
    S.observeIngress k c.input (s.loc (.ingress k)) (s.returning (.ingress k)) x
  | .dispatcher => observeDispatcher (s.loc .dispatcher) (s.returning .dispatcher) x
  | .worker k =>
    observeWorker times k c.input (s.loc (.worker k)) (s.returning (.worker k)) x
  | .main => x

/-- **The states that runs reach**, with what has happened on the way. -/
inductive Observed : (S.program config times).State → History P W → Prop
  | start : Observed (.initial _) {}
  | step {s s' : (S.program config times).State} {x : History P W}
      {c : (S.program config times).Choice} (observed : Observed s x)
      (h : (S.program config times).step c s = some s') : Observed s' (S.observe config times c s x)

variable {S config times}

theorem Observed.reachable {s : (S.program config times).State} {x : History P W}
    (h : S.Observed config times s x) : (S.program config times).Reachable s := by
  induction h with
  | start => exact .refl
  | step _ hstep ih => exact .tail ih ⟨_, trivial, hstep⟩

variable (S config times) in
/-- The state and the history after a list of choices. -/
def observeRun (s : (S.program config times).State) (x : History P W) :
    List (S.program config times).Choice →
      Option ((S.program config times).State × History P W)
  | [] => some (s, x)
  | c :: cs =>
    ((S.program config times).step c s).bind fun s' =>
      observeRun s' (S.observe config times c s x) cs

/-- A list of choices that can be followed is a run. -/
theorem observed_of_run {s s' : (S.program config times).State} {x x' : History P W}
    (cs : List (S.program config times).Choice) (h : S.Observed config times s x)
    (hrun : S.observeRun config times s x cs = some (s', x')) :
    S.Observed config times s' x' := by
  induction cs generalizing s x with
  | nil =>
    cases hrun
    exact h
  | cons c cs ih =>
    obtain ⟨s₁, hc, hrun⟩ := Option.bind_eq_some_iff.mp hrun
    exact ih (h.step hc) hrun

/-- Every run has a history. -/
theorem exists_observed {s : (S.program config times).State}
    (h : (S.program config times).Reachable s) : ∃ x, S.Observed config times s x := by
  induction h with
  | refl => exact ⟨_, .start⟩
  | tail _ hstep ih =>
    obtain ⟨x, hx⟩ := ih
    obtain ⟨c, -, hc⟩ := hstep
    exact ⟨_, hx.step hc⟩

/-! ### What the threads have in hand -/

/-- The event that an ingress thread has made and not pushed yet. -/
def IngressLoc.event : IngressLoc → List Event
  | .countGenerated _ ev | .push _ ev _ => [ev]
  | _ => []

/-- The event that the dispatcher has popped and not pushed yet. -/
def DispatcherLoc.event : DispatcherLoc W → List Event
  | .route ev | .push ev _ => [ev]
  | _ => []

/-- The event that a worker has popped and has not done its work for. -/
def WorkerLoc.event : WorkerLoc → List Event
  | .measure ev => [ev]
  | _ => []

/-- The worker counts an event that it has measured. -/
def WorkerLoc.isMeasuring : WorkerLoc → Bool
  | .countCompleted _ | .countOwn _ | .record _ => true
  | _ => false

/-- The worker has counted an event for all workers and not for itself, and it has counted it for
itself and not recorded its latency. -/
def WorkerLoc.owesOwn : WorkerLoc → Bool
  | .countOwn _ => true
  | _ => false

def WorkerLoc.owesSample : WorkerLoc → Bool
  | .record _ => true
  | _ => false

variable (s : (S.program config times).State)

/-- The event that the dispatcher holds: one that it has taken from its queue and not put into the
queue of a worker. -/
def dispatching : List Event :=
  s.carried .dispatcher ++
    if s.stowed .dispatcher = [] then DispatcherLoc.event (s.loc .dispatcher) else []

/-- The event that the worker `k` holds. -/
def working (k : Fin W) : List Event :=
  s.carried (.worker k) ++ WorkerLoc.event (s.loc (.worker k))

/-- The events in the queue `q`, oldest first. -/
def waiting (q : S.QueueId) : List Event :=
  (S.queue q).content (s.queue q).shared

/-- The events that the workers have counted, and the latencies that they have recorded. -/
def ownCompleted (g : PipelineState W) : ℕ :=
  ∑ k, (g.worker_metrics k).completed

def samples (g : PipelineState W) : ℕ :=
  ∑ k, (g.worker_metrics k).latencies_ns.length

end Pipeline

end Laboratory.QueueLatency
