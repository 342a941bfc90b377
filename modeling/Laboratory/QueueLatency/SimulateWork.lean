import Laboratory.QueueLatency.Pipeline

/-!
# Simulated work

What a worker of the pipeline does between taking an event and counting it: it draws a time from a
pseudo-random sequence of its own and waits until it has passed.  Times are in nanoseconds.
-/

namespace Laboratory.QueueLatency

/-- The next state, which is also the number drawn. -/
def nextRandom (state : UInt64) : UInt64 :=
  let state := state ^^^ state <<< 13
  let state := state ^^^ state >>> 7
  state ^^^ state <<< 17

/-- The time `total_ns` that a call waits and the state it leaves behind; `none` when the divisor
`jitter_ns + 1` is zero.  A call that returns at once waits no time. -/
def simulateWork (service_ns jitter_ns rng_state : UInt64) : Option (UInt64 × UInt64) :=
  if service_ns = 0 ∧ jitter_ns = 0 then some (0, rng_state)
  else if jitter_ns > 0 then
    let rng_state := nextRandom rng_state
    if jitter_ns + 1 = 0 then none
    else some (service_ns + rng_state % (jitter_ns + 1), rng_state)
  else some (service_ns, rng_state)

/-- The state that a worker starts with. -/
def PipelineTopology.rng (topology : PipelineTopology) (worker_index : ℕ) : UInt64 :=
  match topology with
  | .sharedQueue => 0x9e3779b97f4a7c15 ^^^ UInt64.ofNat (worker_index + 1)
  | .dispatchLocalSpsc => 0x243f6a8885a308d3 ^^^ UInt64.ofNat (worker_index + 1)
  | .directLocalSpsc => 0x517cc1b727220a95 ^^^ UInt64.ofNat (worker_index + 1)

/-- The state of a worker after `n` calls; `none` when one of them has divided by zero. -/
def PipelineConfig.rngAfter (config : PipelineConfig) (worker_index : ℕ) : ℕ → Option UInt64
  | 0 => some (config.topology.rng worker_index)
  | n + 1 =>
    (config.rngAfter worker_index n).bind fun rng =>
      (simulateWork config.service_ns config.jitter_ns rng).map Prod.snd

/-- The time that a worker waits in its next call after `n` calls. -/
def PipelineConfig.total_ns (config : PipelineConfig) (worker_index n : ℕ) : Option UInt64 :=
  (config.rngAfter worker_index n).bind fun rng =>
    (simulateWork config.service_ns config.jitter_ns rng).map Prod.fst

/-- The work of all workers is well defined: no call divides by zero, and every call waits at least
`service_ns` and at most `jitter_ns` more. -/
def PipelineConfig.WorkDefined (config : PipelineConfig) : Prop :=
  ∀ worker_index < config.workers, ∀ n, ∃ total_ns,
    config.total_ns worker_index n = some total_ns ∧
      config.service_ns.toNat ≤ total_ns.toNat ∧
      total_ns.toNat ≤ config.service_ns.toNat + config.jitter_ns.toNat

end Laboratory.QueueLatency
