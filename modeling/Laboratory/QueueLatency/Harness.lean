import Laboratory.QueueLatency.Pipeline

/-!
# The harness

The run of `harness.cpp`: producers push events to one queue, one consumer pops and measures them,
and the main thread sleeps, stops the others, closes the queue and joins them.  `runScenario` makes
the queue of a configuration, `scenario` is the run, and `scenarioResult` what it returns.

Times are in nanoseconds of the steady clock, as in the pipeline.
-/

namespace Laboratory.QueueLatency

/-- The configuration; `duration` and `warmup` are in seconds. -/
structure ScenarioConfig where
  producers : ℤ := 1
  consumers : ℤ := 1
  duration : ℤ := 10
  warmup : ℤ := 0
  capacity : ℕ := 1024
  rate_per_producer : ℚ := 0
  policy : BackpressurePolicy := .block
  queue_type : String := "global_lock"
  wait_strategy : WaitStrategy := .queueDefault
  deriving DecidableEq, Repr

/-- The checks, in their order. -/
def validateScenarioConfig (config : ScenarioConfig) (queue_kind : QueueKind) : Except Error Unit :=
  if config.consumers ≠ 1 then .error (.runtime_error "현재는 consumers=1만 지원합니다.")
  else if config.producers ≤ 0 then .error (.runtime_error "producers는 1 이상이어야 합니다.")
  else if config.duration ≤ 0 then .error (.runtime_error "duration은 1초 이상이어야 합니다.")
  else if config.warmup < 0 then .error (.runtime_error "warmup은 0초 이상이어야 합니다.")
  else if config.rate_per_producer < 0 then .error (.runtime_error "rate는 0 이상이어야 합니다.")
  else if queue_kind = .spscRing then
    if config.producers ≠ 1 then .error (.runtime_error "spsc는 producers=1만 지원합니다.")
    else if config.consumers ≠ 1 then .error (.runtime_error "spsc는 consumers=1만 지원합니다.")
    else if config.capacity = 0 then
      .error (.runtime_error "spsc는 bounded queue이므로 capacity > 0이 필요합니다.")
    else .ok ()
  else .ok ()

/-- What the checks let pass. -/
structure ScenarioConfig.Valid (config : ScenarioConfig) (queue_kind : QueueKind) : Prop where
  consumers : config.consumers = 1
  producers : 0 < config.producers
  duration : 0 < config.duration
  warmup : 0 ≤ config.warmup
  rate_per_producer : 0 ≤ config.rate_per_producer
  spsc : queue_kind = .spscRing → config.producers = 1 ∧ 0 < config.capacity

theorem validateScenarioConfig_eq_ok_iff {config : ScenarioConfig} {queue_kind : QueueKind} :
    validateScenarioConfig config queue_kind = .ok () ↔ config.Valid queue_kind := by
  unfold validateScenarioConfig
  simp only [check_eq_ok_iff]
  constructor
  · rintro ⟨h₁, h₂, h₃, h₄, h₅, h⟩
    refine ⟨by omega, by omega, by omega, by omega, not_lt.mp h₅, fun hkind => ?_⟩
    rw [if_pos hkind, check_eq_ok_iff, check_eq_ok_iff, check_eq_ok_iff] at h
    obtain ⟨h₆, -, h₇, -⟩ := h
    omega
  · intro h
    refine ⟨not_not.mpr h.consumers, not_le.mpr h.producers, not_le.mpr h.duration,
      not_lt.mpr h.warmup, not_lt.mpr h.rate_per_producer, ?_⟩
    by_cases hkind : queue_kind = .spscRing
    · rw [if_pos hkind, check_eq_ok_iff, check_eq_ok_iff, check_eq_ok_iff]
      exact ⟨not_not.mpr (h.spsc hkind).1, not_not.mpr h.consumers, (h.spsc hkind).2.ne', rfl⟩
    · rw [if_neg hkind]

/-- The variables of a run, with the latencies of `MetricsCollector`. `measure_start_ns` is written
before the threads start, and part of `Times`. -/
structure RunState where
  stop : Bool := false
  produced : ℕ := 0
  consumed : ℕ := 0
  dropped : ℕ := 0
  latencies_ns : List ℤ := []
  deriving DecidableEq, Repr

namespace ScenarioConfig

variable (config : ScenarioConfig)

/-- The number of producer threads. -/
def threads : ℕ := config.producers.toNat

/-- The times of a run that starts when the clock reads `global_start`. -/
def times (global_start : ℤ) : Times where
  measure_start_ns := global_start + config.warmup * 1000000000
  measure_end := global_start + config.warmup * 1000000000 + config.duration * 1000000000

def rate_limited : Bool :=
  config.rate_per_producer > 0

/-- The nanoseconds between two events of a producer. -/
def interval : ℤ :=
  if config.rate_limited then fireInterval config.rate_per_producer else 0

end ScenarioConfig

namespace Scenario

variable {P : ℕ}

inductive Thread (P : ℕ) where
  | producer (i : Fin P)
  | consumer
  | main
  deriving DecidableEq, Fintype

/-- The local variables of a producer. -/
structure Producer where
  next_fire : ℤ
  seq : UInt64
  deriving DecidableEq, Repr

inductive ProducerLoc where
  | start
  | testStop (v : Producer)
  | readClock (v : Producer)
  | makeEvent (v : Producer)
  | push (v : Producer) (ev : Event)
  | countProduced (v : Producer)
  | countDropped (v : Producer)
  | done
  deriving DecidableEq, Repr

inductive ConsumerLoc where
  | pop
  | measure (ev : Event)
  | countConsumed (latency : ℤ)
  | record (latency : ℤ)
  | done
  deriving DecidableEq, Repr

inductive MainLoc (P : ℕ) where
  | sleep
  | stop
  | close
  | joinProducers (rest : List (Fin P))
  | joinConsumer
  | done
  deriving DecidableEq, Repr

def Loc : Thread P → Type
  | .producer _ => ProducerLoc
  | .consumer => ConsumerLoc
  | .main => MainLoc P

/-- One pass of the loop makes an event, pushes it and counts it. -/
def actProducer (config : ScenarioConfig) (times : Times) (now : ℤ) (i : Fin P) (g : RunState) :
    ProducerLoc → Option (Action Unit RunState ProducerLoc)
  | .start => some (.own g (.testStop { next_fire := now, seq := 0 }))
  | .testStop v => some (.own g (if g.stop then .done else .readClock v))
  | .readClock v =>
    if now ≥ times.measure_end then some (.own g .done)
    else if config.rate_limited then
      if now < v.next_fire then some (.own g (.testStop v))
      else
        let next_fire := wrapInt64 (v.next_fire + config.interval)
        some (.own g (.makeEvent { v with next_fire }))
    else some (.own g (.makeEvent v))
  | .makeEvent v =>
    let ev : Event :=
      { id := (UInt64.ofNat i <<< 48) ||| v.seq
        route_key := UInt64.ofNat i
        created_at := now }
    some (.own g (.push { v with seq := v.seq + 1 } ev))
  | .push _ ev => some (.call () (.push ev config.policy))
  | .countProduced v => some (.own { g with produced := g.produced + 1 } (.testStop v))
  | .countDropped v => some (.own { g with dropped := g.dropped + 1 } (.testStop v))
  | .done => none

def resumeProducer (config : ScenarioConfig) (times : Times) : ProducerLoc → Return → ProducerLoc
  | .push v ev, .pushed true =>
    if isMeasuredEvent times ev then .countProduced v else .testStop v
  | .push v ev, .pushed false =>
    if config.policy = .drop ∧ isMeasuredEvent times ev then .countDropped v else .testStop v
  | l, _ => l

/-- The consumer measures events until `pop` returns `false`. -/
def actConsumer (times : Times) (now : ℤ) (g : RunState) :
    ConsumerLoc → Option (Action Unit RunState ConsumerLoc)
  | .pop => some (.call () .pop)
  | .measure ev =>
    if isMeasuredEvent times ev then some (.own g (.countConsumed (now - ev.created_at)))
    else some (.own g .pop)
  | .countConsumed latency => some (.own { g with consumed := g.consumed + 1 } (.record latency))
  | .record latency =>
    some (.own { g with latencies_ns := g.latencies_ns ++ [latency] } .pop)
  | .done => none

def resumeConsumer : ConsumerLoc → Return → ConsumerLoc
  | .pop, .popped true out => .measure (out.getD {})
  | .pop, .popped false _ => .done
  | l, _ => l

def ProducerLoc.isDone : ProducerLoc → Bool
  | .done => true
  | _ => false

def ConsumerLoc.isDone : ConsumerLoc → Bool
  | .done => true
  | _ => false

/-- The main thread, from the `sleep_until` on. -/
def actMain (times : Times) (now : ℤ) (g : RunState) (loc : ∀ t : Thread P, Loc t) :
    MainLoc P → Option (Action Unit RunState (MainLoc P))
  | .sleep => some (.own g (if now < times.measure_end then .sleep else .stop))
  | .stop => some (.own { g with stop := true } .close)
  | .close => some (.call () .close)
  | .joinProducers (i :: rest) =>
    if ProducerLoc.isDone (loc (.producer i)) then some (.own g (.joinProducers rest)) else none
  | .joinProducers [] => some (.own g .joinConsumer)
  | .joinConsumer =>
    if ConsumerLoc.isDone (loc .consumer) then some (.own g .done) else none
  | .done => none

def resumeMain : MainLoc P → Return → MainLoc P
  | .close, .closed => .joinProducers (List.finRange P)
  | l, _ => l

end Scenario

open Scenario in
/-- **The run of a scenario** on the queue `Q`. The input of a step is the reading of the clock;
`push` and `pop` get the same stop flag. -/
def scenario {P : ℕ} (Q : IEventQueue (Thread P)) (config : ScenarioConfig) (times : Times) :
    Program Unit (Thread P) where
  Input := ℤ
  Glob := RunState
  Loc := Loc
  queue := fun _ => Q
  init := {}
  start
    | .producer _ => ProducerLoc.start
    | .consumer => ConsumerLoc.pop
    | .main => MainLoc.sleep
  act := fun now t g loc =>
    match t with
    | .producer i => actProducer config times now i g (loc (.producer i))
    | .consumer => actConsumer times now g (loc .consumer)
    | .main => actMain times now g loc (loc .main)
  stop := fun _ _ g _ => g.stop
  resume := fun t l r =>
    match t with
    | .producer _ => resumeProducer config times l r
    | .consumer => resumeConsumer l r
    | .main => resumeMain l r

/-- The queue that a configuration is run with, or the exception. -/
def runScenario (max_size : ℕ) (config : ScenarioConfig) :
    Except Error (IEventQueue (Scenario.Thread config.threads)) :=
  match parseQueueKind config.queue_type with
  | .error e => .error e
  | .ok queue_kind =>
    match validateScenarioConfig config queue_kind with
    | .error e => .error e
    | .ok () =>
      makeQueue _ max_size queue_kind config.capacity { wait_strategy := config.wait_strategy }

/-- The result, without the fields that are computed in floating point. -/
structure ScenarioResult where
  produced : ℕ
  consumed : ℕ
  dropped : ℕ
  queue_stats : QueueStats
  elapsed : ℤ
  samples : ℕ
  deriving DecidableEq, Repr

/-- What a run that is over returns. -/
def scenarioResult {P : ℕ} {Q : IEventQueue (Scenario.Thread P)} (config : ScenarioConfig)
    {times : Times} (s : (scenario Q config times).State) : ScenarioResult where
  produced := RunState.produced s.glob
  consumed := RunState.consumed s.glob
  dropped := RunState.dropped s.glob
  queue_stats := Q.stats (s.queue ()).shared
  elapsed := config.duration * 1000000000
  samples := (RunState.latencies_ns s.glob).length

end Laboratory.QueueLatency
