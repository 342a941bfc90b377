import Laboratory.Algorithm.FloatFormat
import Laboratory.QueueLatency.MakeQueue
import Laboratory.QueueLatency.Program
import Mathlib.Data.Fintype.Option
import Mathlib.Data.Fintype.Sum
import Mathlib.Tactic.DeriveFintype

/-!
# The pipeline

The three topologies of `pipeline.cpp`: ingress threads make events, workers complete them, and
between them is one shared queue, or a dispatcher with one ring for each worker, or the rings alone.
The threads of the three run the same code; `Pipeline` says which queues there are and who uses
them, `Pipeline.program` is the run, and `Pipeline.result` what it returns.

Times are in nanoseconds of the steady clock, and a rate is the value of a `double`.  A thread that
throws makes the run end without a result, so runs with an exception are left out.  `simulateWork`
only takes time.
-/

namespace Laboratory.QueueLatency

open Algorithm (binary64)

inductive PipelineTopology where
  | sharedQueue
  | dispatchLocalSpsc
  | directLocalSpsc
  deriving DecidableEq, Repr

/-- The configuration; `duration` and `warmup` are in milliseconds. -/
structure PipelineConfig where
  ingress_threads : ℤ := 4
  worker_threads : ℤ := 4
  duration : ℤ := 2000
  warmup : ℤ := 0
  ingress_queue_capacity : ℕ := 1024
  worker_queue_capacity : ℕ := 256
  rate_per_ingress : ℚ := 0
  policy : BackpressurePolicy := .block
  wait_strategy : WaitStrategy := .queueDefault
  topology : PipelineTopology := .sharedQueue
  shared_queue_kind : QueueKind := .splitLockLinked
  dispatch_queue_kind : QueueKind := .splitLockLinked
  service_ns : UInt64 := 0
  jitter_ns : UInt64 := 0
  deriving DecidableEq, Repr

/-- The checks, in their order. -/
def validatePipelineConfig (config : PipelineConfig) : Except Error Unit :=
  if config.ingress_threads ≤ 0 then
    .error (.runtime_error "ingress_threads는 1 이상이어야 합니다.")
  else if config.worker_threads ≤ 0 then
    .error (.runtime_error "worker_threads는 1 이상이어야 합니다.")
  else if config.duration ≤ 0 then
    .error (.runtime_error "duration은 1ms 이상이어야 합니다.")
  else if config.warmup < 0 then
    .error (.runtime_error "warmup은 0ms 이상이어야 합니다.")
  else if config.rate_per_ingress < 0 then
    .error (.runtime_error "rate는 0 이상이어야 합니다.")
  else if config.ingress_queue_capacity = 0 then
    .error (.runtime_error "ingress_queue_capacity는 1 이상이어야 합니다.")
  else if config.topology = .sharedQueue then
    if config.shared_queue_kind = .spscRing then
      .error (.runtime_error "shared_queue topology에는 spsc를 직접 사용할 수 없습니다.")
    else .ok ()
  else if config.dispatch_queue_kind = .spscRing then
    .error (.runtime_error "local_spsc topology의 dispatch queue는 shared queue여야 합니다.")
  else if config.worker_queue_capacity = 0 then
    .error (.runtime_error "local_spsc topology에는 worker_queue_capacity > 0이 필요합니다.")
  else if config.topology = .directLocalSpsc ∧ config.ingress_threads > config.worker_threads then
    .error (.runtime_error
      "direct_local_spsc는 ingress_threads <= worker_threads 조건이 필요합니다.")
  else .ok ()

/-- What the checks let pass. -/
structure PipelineConfig.Valid (config : PipelineConfig) : Prop where
  ingress_threads : 0 < config.ingress_threads
  worker_threads : 0 < config.worker_threads
  duration : 0 < config.duration
  warmup : 0 ≤ config.warmup
  rate_per_ingress : 0 ≤ config.rate_per_ingress
  ingress_queue_capacity : 0 < config.ingress_queue_capacity
  shared : config.topology = .sharedQueue → config.shared_queue_kind ≠ .spscRing
  dispatch : config.topology ≠ .sharedQueue → config.dispatch_queue_kind ≠ .spscRing
  worker_queue_capacity : config.topology ≠ .sharedQueue → 0 < config.worker_queue_capacity
  direct : config.topology = .directLocalSpsc → config.ingress_threads ≤ config.worker_threads

theorem validatePipelineConfig_eq_ok_iff {config : PipelineConfig} :
    validatePipelineConfig config = .ok () ↔ config.Valid := by
  unfold validatePipelineConfig
  simp only [check_eq_ok_iff]
  constructor
  · rintro ⟨h₁, h₂, h₃, h₄, h₅, h₆, h⟩
    by_cases htop : config.topology = .sharedQueue
    · rw [if_pos htop, check_eq_ok_iff] at h
      exact ⟨by omega, by omega, by omega, by omega, not_lt.mp h₅, by omega, fun _ => h.1,
        fun hne => absurd htop hne, fun hne => absurd htop hne, by simp [htop]⟩
    · rw [if_neg htop, check_eq_ok_iff, check_eq_ok_iff, check_eq_ok_iff] at h
      obtain ⟨h₇, h₈, h₉, -⟩ := h
      exact ⟨by omega, by omega, by omega, by omega, not_lt.mp h₅, by omega,
        fun heq => absurd heq htop, fun _ => h₇, fun _ => by omega,
        fun heq => not_lt.mp fun hgt => h₉ ⟨heq, hgt⟩⟩
  · intro h
    refine ⟨not_le.mpr h.ingress_threads, not_le.mpr h.worker_threads, not_le.mpr h.duration,
      not_lt.mpr h.warmup, not_lt.mpr h.rate_per_ingress, h.ingress_queue_capacity.ne', ?_⟩
    by_cases htop : config.topology = .sharedQueue
    · rw [if_pos htop, check_eq_ok_iff]
      exact ⟨h.shared htop, rfl⟩
    · rw [if_neg htop, check_eq_ok_iff, check_eq_ok_iff, check_eq_ok_iff]
      exact ⟨h.dispatch htop, (h.worker_queue_capacity htop).ne',
        fun hd => absurd (h.direct hd.1) (not_le.mpr hd.2), rfl⟩

/-- A configuration that has passed the checks. -/
structure AcceptedConfig extends PipelineConfig where
  accepted : validatePipelineConfig toPipelineConfig = .ok ()

structure WorkerMetrics where
  completed : ℕ := 0
  latencies_ns : List ℤ := []
  deriving DecidableEq, Repr

/-- The variables of a run. `measure_start_ns` is written before the threads start, and part of
`Times`. -/
structure PipelineState (W : ℕ) where
  ingress_stop : Bool := false
  generated : ℕ := 0
  accepted : ℕ := 0
  completed : ℕ := 0
  dropped_ingress : ℕ := 0
  dropped_dispatch : ℕ := 0
  worker_metrics : Fin W → WorkerMetrics := fun _ => {}

structure Times where
  measure_start_ns : ℤ
  measure_end : ℤ
  deriving DecidableEq, Repr

/-- The times of a run that starts when the clock reads `global_start`. -/
def PipelineConfig.times (config : PipelineConfig) (global_start : ℤ) : Times where
  measure_start_ns := global_start + config.warmup * 1000000
  measure_end := global_start + config.warmup * 1000000 + config.duration * 1000000

def isMeasuredTimestamp (times : Times) (created_at : ℤ) : Bool :=
  times.measure_start_ns ≥ 0 ∧ created_at ≥ times.measure_start_ns

def isMeasuredEvent (times : Times) (ev : Event) : Bool :=
  isMeasuredTimestamp times ev.created_at

def PipelineConfig.rate_limited (config : PipelineConfig) : Bool :=
  config.rate_per_ingress > 0

/-- The conversion of a `double` to `std::int64_t`, which cuts off what is after the point.  The
language says nothing of a number that is too great; the processor makes it the least one. -/
def toInt64 (q : ℚ) : ℤ :=
  let n := if 0 ≤ q then ⌊q⌋ else ⌈q⌉
  if -2 ^ 63 ≤ n ∧ n < 2 ^ 63 then n else -2 ^ 63

/-- The value of a sum that is kept in 64 bits. -/
def wrapInt64 (n : ℤ) : ℤ := (n + 2 ^ 63) % 2 ^ 64 - 2 ^ 63

/-- The nanoseconds of `std::chrono::duration<double>(1.0 / rate)`. -/
def fireInterval (rate : ℚ) : ℤ :=
  toInt64 (binary64.round (binary64.round (1 / rate) * 1000000000))

/-- The nanoseconds between two events of an ingress thread. -/
def PipelineConfig.interval (config : PipelineConfig) : ℤ :=
  if config.rate_limited then fireInterval config.rate_per_ingress else 0

namespace Pipeline

inductive Thread (P W : ℕ) where
  | ingress (k : Fin P)
  | dispatcher
  | worker (k : Fin W)
  | main
  deriving DecidableEq, Fintype

end Pipeline

open Pipeline in
/-- **The queues of a pipeline and who uses them.** Ingress threads push to `source`, workers pop
from `sink`; the dispatcher, if there is one, pops from the queue `dispatch` and pushes to the
workers' queues.  `closes` is what the main thread closes. -/
structure Pipeline (P W : ℕ) where
  QueueId : Type
  [fintype : Fintype QueueId]
  [decidableEq : DecidableEq QueueId]
  queue : QueueId → IEventQueue (Thread P W)
  source : Fin P → QueueId
  target_worker : Fin P → UInt64 → UInt64
  dispatch : Option QueueId
  sink : Fin W → QueueId
  closes : List QueueId
  /-- The queues whose statistics are returned. -/
  ingress_queue : Option QueueId
  worker_queues : List QueueId
  popped : ∀ q, dispatch = some q ∨ ∃ k, sink k = q
  closed : dispatch = none → ∀ q, q ∈ closes
  dispatched : ∀ d, dispatch = some d →
    (∀ k, source k = d) ∧ (∀ k, sink k ≠ d) ∧ closes = [d]

namespace Pipeline

variable {P W : ℕ}

instance (S : Pipeline P W) : Fintype S.QueueId := S.fintype
instance (S : Pipeline P W) : DecidableEq S.QueueId := S.decidableEq

/-- The local variables of an ingress thread. -/
structure Ingress where
  next_fire : ℤ
  seq : UInt64
  deriving DecidableEq, Repr

inductive IngressLoc where
  | start
  | testStop (v : Ingress)
  | readClock (v : Ingress)
  | makeEvent (v : Ingress)
  | countGenerated (v : Ingress) (ev : Event)
  | push (v : Ingress) (ev : Event) (measured : Bool)
  | countAccepted (v : Ingress)
  | countDropped (v : Ingress)
  | done
  deriving DecidableEq, Repr

inductive DispatcherLoc (W : ℕ) where
  | pop
  | route (ev : Event)
  | push (ev : Event) (measured : Bool)
  | countDropped
  | close (rest : List (Fin W))
  | done
  deriving DecidableEq, Repr

inductive WorkerLoc where
  | pop
  | measure (ev : Event)
  | countCompleted (latency_ns : ℤ)
  | countOwn (latency_ns : ℤ)
  | record (latency_ns : ℤ)
  | done
  deriving DecidableEq, Repr

inductive MainLoc (P W : ℕ) (QueueId : Type) where
  | sleep
  | stop
  | joinIngress (rest : List (Fin P))
  | close (rest : List QueueId)
  | joinDispatcher
  | joinWorkers (rest : List (Fin W))
  | done

variable (S : Pipeline P W)

def Loc : Thread P W → Type
  | .ingress _ => IngressLoc
  | .dispatcher => DispatcherLoc W
  | .worker _ => WorkerLoc
  | .main => MainLoc P W S.QueueId

/-- One pass of the loop makes an event, pushes it and counts it. -/
def actIngress (config : PipelineConfig) (times : Times) (now : ℤ) (k : Fin P)
    (g : PipelineState W) :
    IngressLoc → Option (Action S.QueueId (PipelineState W) IngressLoc)
  | .start => some (.own g (.testStop { next_fire := now, seq := 0 }))
  | .testStop v => some (.own g (if g.ingress_stop then .done else .readClock v))
  | .readClock v =>
    if now ≥ times.measure_end then some (.own g .done)
    else if config.rate_limited then
      if now < v.next_fire then some (.own g (.testStop v))
      else
        let next_fire := wrapInt64 (v.next_fire + config.interval)
        some (.own g (.makeEvent { v with next_fire }))
    else some (.own g (.makeEvent v))
  | .makeEvent v =>
    let id := (UInt64.ofNat k <<< 48) ||| v.seq
    let ev : Event :=
      { id, route_key := id, target_worker := S.target_worker k id, created_at := now }
    let v := { v with seq := v.seq + 1 }
    if isMeasuredTimestamp times now then some (.own g (.countGenerated v ev))
    else some (.own g (.push v ev false))
  | .countGenerated v ev => some (.own { g with generated := g.generated + 1 } (.push v ev true))
  | .push _ ev _ => some (.call (S.source k) (.push ev config.policy))
  | .countAccepted v => some (.own { g with accepted := g.accepted + 1 } (.testStop v))
  | .countDropped v => some (.own { g with dropped_ingress := g.dropped_ingress + 1 } (.testStop v))
  | .done => none

def resumeIngress (config : PipelineConfig) : IngressLoc → Return → IngressLoc
  | .push v _ measured, .pushed true => if measured then .countAccepted v else .testStop v
  | .push v _ measured, .pushed false =>
    if config.policy = .drop ∧ measured then .countDropped v else .testStop v
  | l, _ => l

/-- The dispatcher moves events until its queue is closed, and then closes the workers' queues. -/
def actDispatcher [NeZero W] (config : PipelineConfig) (times : Times) (g : PipelineState W) :
    DispatcherLoc W → Option (Action S.QueueId (PipelineState W) (DispatcherLoc W))
  | .pop => S.dispatch.map (.call · .pop)
  | .route ev => some (.own g (.push ev (isMeasuredEvent times ev)))
  | .push ev _ =>
    some (.call (S.sink (Fin.ofNat W ev.target_worker.toNat)) (.push ev config.policy))
  | .countDropped => some (.own { g with dropped_dispatch := g.dropped_dispatch + 1 } .pop)
  | .close (k :: _) => some (.call (S.sink k) .close)
  | .close [] => some (.own g .done)
  | .done => none

def resumeDispatcher (config : PipelineConfig) : DispatcherLoc W → Return → DispatcherLoc W
  | .pop, .popped true out => .route (out.getD {})
  | .pop, .popped false _ => .close (List.finRange W)
  | .push _ measured, .pushed ok =>
    if !ok ∧ config.policy = .drop ∧ measured then .countDropped else .pop
  | .close (_ :: rest), .closed => .close rest
  | l, _ => l

/-- The worker completes events until its queue is closed. -/
def actWorker (times : Times) (now : ℤ) (k : Fin W) (g : PipelineState W) :
    WorkerLoc → Option (Action S.QueueId (PipelineState W) WorkerLoc)
  | .pop => some (.call (S.sink k) .pop)
  | .measure ev =>
    if isMeasuredEvent times ev then some (.own g (.countCompleted (now - ev.created_at)))
    else some (.own g .pop)
  | .countCompleted latency_ns =>
    some (.own { g with completed := g.completed + 1 } (.countOwn latency_ns))
  | .countOwn latency_ns =>
    let metrics := g.worker_metrics k
    some (.own
      { g with
        worker_metrics := Function.update g.worker_metrics k
          { metrics with completed := metrics.completed + 1 } } (.record latency_ns))
  | .record latency_ns =>
    let metrics := g.worker_metrics k
    some (.own
      { g with
        worker_metrics := Function.update g.worker_metrics k
          { metrics with latencies_ns := metrics.latencies_ns ++ [latency_ns] } } .pop)
  | .done => none

def resumeWorker : WorkerLoc → Return → WorkerLoc
  | .pop, .popped true out => .measure (out.getD {})
  | .pop, .popped false _ => .done
  | l, _ => l

def IngressLoc.isDone : IngressLoc → Bool
  | .done => true
  | _ => false

def DispatcherLoc.isDone : DispatcherLoc W → Bool
  | .done => true
  | _ => false

def WorkerLoc.isDone : WorkerLoc → Bool
  | .done => true
  | _ => false

/-- The main thread, from the `sleep_until` on. -/
def actMain (times : Times) (now : ℤ) (g : PipelineState W) (loc : ∀ t, S.Loc t) :
    MainLoc P W S.QueueId → Option (Action S.QueueId (PipelineState W) (MainLoc P W S.QueueId))
  | .sleep => some (.own g (if now < times.measure_end then .sleep else .stop))
  | .stop => some (.own { g with ingress_stop := true } (.joinIngress (List.finRange P)))
  | .joinIngress (k :: rest) =>
    if IngressLoc.isDone (loc (.ingress k)) then some (.own g (.joinIngress rest)) else none
  | .joinIngress [] => some (.own g (.close S.closes))
  | .close (q :: _) => some (.call q .close)
  | .close [] => some (.own g .joinDispatcher)
  | .joinDispatcher =>
    if DispatcherLoc.isDone (loc .dispatcher) then some (.own g (.joinWorkers (List.finRange W)))
    else none
  | .joinWorkers (k :: rest) =>
    if WorkerLoc.isDone (loc (.worker k)) then some (.own g (.joinWorkers rest)) else none
  | .joinWorkers [] => some (.own g .done)
  | .done => none

def resumeMain {QueueId : Type} : MainLoc P W QueueId → Return → MainLoc P W QueueId
  | .close (_ :: rest), .closed => .close rest
  | l, _ => l

/-- **The run of a pipeline.** The input of a step is the reading of the clock. A pipeline without
a dispatcher has one that is done. -/
def program [NeZero W] (config : PipelineConfig) (times : Times) :
    Program S.QueueId (Thread P W) where
  Input := ℤ
  Glob := PipelineState W
  Loc := S.Loc
  queue := S.queue
  init := {}
  start
    | .ingress _ => IngressLoc.start
    | .dispatcher => if S.dispatch.isSome then DispatcherLoc.pop else DispatcherLoc.done
    | .worker _ => WorkerLoc.pop
    | .main => MainLoc.sleep
  act := fun now t g loc =>
    match t with
    | .ingress k => S.actIngress config times now k g (loc (.ingress k))
    | .dispatcher => S.actDispatcher config times g (loc .dispatcher)
    | .worker k => S.actWorker times now k g (loc (.worker k))
    | .main => S.actMain times now g loc (loc .main)
  -- Ingress threads pass `ingress_stop`; the other stop flags are never set.
  stop := fun _ t g _ =>
    match t with
    | .ingress _ => g.ingress_stop
    | _ => false
  resume := fun t l r =>
    match t with
    | .ingress _ => resumeIngress config l r
    | .dispatcher => resumeDispatcher config l r
    | .worker _ => resumeWorker l r
    | .main => resumeMain l r

end Pipeline

/-! ### The result -/

/-- The result, without the fields that are computed in floating point. -/
structure PipelineResult where
  generated : ℕ
  accepted : ℕ
  completed : ℕ
  dropped : ℕ
  dropped_ingress : ℕ
  dropped_dispatch : ℕ
  worker_completed_min : ℕ
  worker_completed_max : ℕ
  ingress_queue_stats : QueueStats
  worker_queue_stats : QueueStats
  elapsed : ℤ
  samples : ℕ
  deriving DecidableEq, Repr

def mergeQueueStats (dst src : QueueStats) : QueueStats where
  push_attempts := dst.push_attempts + src.push_attempts
  push_success := dst.push_success + src.push_success
  push_fail := dst.push_fail + src.push_fail
  pop_success := dst.pop_success + src.pop_success
  spin_count := dst.spin_count + src.spin_count
  yield_count := dst.yield_count + src.yield_count
  park_count := dst.park_count + src.park_count
  full_hits := dst.full_hits + src.full_hits
  empty_hits := dst.empty_hits + src.empty_hits
  max_observed_depth := max dst.max_observed_depth src.max_observed_depth

def finalizeResult {W : ℕ} (config : PipelineConfig) (state : PipelineState W)
    (ingress_queue_stats worker_queue_stats : QueueStats) : PipelineResult :=
  let worker_metrics := (List.finRange W).map state.worker_metrics
  { generated := state.generated
    accepted := state.accepted
    completed := state.completed
    dropped := state.dropped_ingress + state.dropped_dispatch
    dropped_ingress := state.dropped_ingress
    dropped_dispatch := state.dropped_dispatch
    worker_completed_min :=
      if worker_metrics.isEmpty then 0
      else worker_metrics.foldl (fun least metrics => min least metrics.completed) (2 ^ 64 - 1)
    worker_completed_max :=
      worker_metrics.foldl (fun greatest metrics => max greatest metrics.completed) 0
    ingress_queue_stats
    worker_queue_stats
    elapsed := config.duration * 1000000
    samples := (worker_metrics.flatMap WorkerMetrics.latencies_ns).length }

/-- What a run that is over returns. -/
def Pipeline.result {P W : ℕ} [NeZero W] (S : Pipeline P W) (config : PipelineConfig)
    (times : Times) (s : (S.program config times).State) : PipelineResult :=
  let stats (q : S.QueueId) : QueueStats := (S.queue q).stats (s.queue q).shared
  finalizeResult config s.glob ((S.ingress_queue.map stats).getD {})
    ((S.worker_queues.map stats).foldl mergeQueueStats {})

/-! ### The three topologies -/

/-- The number of ingress threads, and of workers. -/
def PipelineConfig.ingress (config : PipelineConfig) : ℕ := config.ingress_threads.toNat

def PipelineConfig.workers (config : PipelineConfig) : ℕ := config.worker_threads.toNat

theorem AcceptedConfig.valid (config : AcceptedConfig) : config.Valid :=
  validatePipelineConfig_eq_ok_iff.mp config.accepted

instance (config : AcceptedConfig) : NeZero config.workers where
  out := by
    have := config.valid.worker_threads
    rw [PipelineConfig.workers]
    omega

section

variable (max_size : ℕ) (config : AcceptedConfig)

/-- One queue, `shared_queue_kind`, between all ingress threads and all workers. -/
def runSharedQueuePipeline : Except Error (Pipeline config.ingress config.workers) := do
  let shared_queue ← makeQueue _ max_size config.shared_queue_kind config.ingress_queue_capacity
    { wait_strategy := config.wait_strategy }
  return {
    QueueId := Unit
    queue := fun _ => shared_queue
    source := fun _ => ()
    target_worker := fun _ route_key => route_key % UInt64.ofNat config.workers
    dispatch := none
    sink := fun _ => ()
    closes := [()]
    ingress_queue := some ()
    worker_queues := []
    popped := fun _ => .inr ⟨0, rfl⟩
    closed := by simp
    dispatched := by simp }

/-- The dispatcher pops from the queue `none`, and each worker from a ring of its own. -/
def runDispatchLocalSpscPipeline : Except Error (Pipeline config.ingress config.workers) := do
  let dispatch_queue ← makeQueue _ max_size config.dispatch_queue_kind
    config.ingress_queue_capacity { wait_strategy := config.wait_strategy }
  let worker_queue ← makeQueue _ max_size .spscRing config.worker_queue_capacity
    { wait_strategy := config.wait_strategy }
  return {
    QueueId := Option (Fin config.workers)
    queue := fun q => if q.isNone then dispatch_queue else worker_queue
    source := fun _ => none
    target_worker := fun _ route_key => route_key % UInt64.ofNat config.workers
    dispatch := some none
    sink := some
    closes := [none]
    ingress_queue := some none
    worker_queues := (List.finRange config.workers).map some
    popped := by
      rintro (_ | k)
      · exact .inl rfl
      · exact .inr ⟨k, rfl⟩
    closed := by simp
    dispatched := by simp }

/-- Each worker has a ring of its own, and the ingress thread `k` pushes to that of the worker
`k % worker_threads`. -/
def runDirectLocalSpscPipeline : Except Error (Pipeline config.ingress config.workers) := do
  let worker_queue ← makeQueue _ max_size .spscRing config.worker_queue_capacity
    { wait_strategy := config.wait_strategy }
  return {
    QueueId := Fin config.workers
    queue := fun _ => worker_queue
    source := fun k => Fin.ofNat config.workers k
    target_worker := fun k _ => UInt64.ofNat (k % config.workers)
    dispatch := none
    sink := id
    closes := List.finRange config.workers
    ingress_queue := none
    worker_queues := List.finRange config.workers
    popped := fun q => .inr ⟨q, rfl⟩
    closed := by simp
    dispatched := by simp }

end

/-- The pipeline that a configuration is run with, or the exception. -/
def runPipelineScenario (max_size : ℕ) (config : PipelineConfig) :
    Except Error (Pipeline config.ingress config.workers) :=
  match h : validatePipelineConfig config with
  | .error e => .error e
  | .ok () =>
    match config.topology with
    | .sharedQueue => runSharedQueuePipeline max_size ⟨config, h⟩
    | .dispatchLocalSpsc => runDispatchLocalSpscPipeline max_size ⟨config, h⟩
    | .directLocalSpsc => runDirectLocalSpscPipeline max_size ⟨config, h⟩

end Laboratory.QueueLatency
