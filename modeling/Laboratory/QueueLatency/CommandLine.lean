import Laboratory.IndexFile.Equiv.InputParser
import Laboratory.QueueLatency.Harness

/-!
# The command lines

The programs `pipeline_main.cpp` and `main.cpp`: `parseArgs` reads a configuration from the
arguments, `printResult` writes a report of two lines, and `main` is what is around them.  The two
programs read their arguments in the same loop, `readOptions`, each with its own options.

A `double` is the rational that it stands for.  What it can be besides is left out: infinities, NaN
and negative zero, and so are the hexadecimal texts that it can be read from.
-/

namespace Laboratory.QueueLatency

open Algorithm (roundHalfEven binary64)
open IndexFile (ParseError stoi isspace decimal)

/-! ### Names -/

def parseWaitStrategy (name : String) : Except Error WaitStrategy :=
  if name = "default" ∨ name = "queue_default" ∨ name = "queue-default" then .ok .queueDefault
  else if name = "cv" ∨ name = "condition_variable" ∨ name = "condition-variable" then
    .ok .conditionVariable
  else if name = "spin" ∨ name = "spin_yield" ∨ name = "spin-yield" then .ok .spinYield
  else .error (.runtime_error
    "wait_strategy는 현재 'default', 'cv', 'spin_yield'만 지원합니다.")

def queueKindName : QueueKind → String
  | .globalLock => "global_lock"
  | .splitLockLinked => "split_lock"
  | .mpmcRing => "mpmc_ring"
  | .spscRing => "spsc"

def waitStrategyName : WaitStrategy → String
  | .queueDefault => "default"
  | .conditionVariable => "cv"
  | .spinYield => "spin_yield"

def parsePipelineTopology (name : String) : Except Error PipelineTopology :=
  if name = "shared" ∨ name = "shared_queue" ∨ name = "shared-queue" then .ok .sharedQueue
  else if name = "dispatch_local_spsc" ∨ name = "dispatch-local-spsc" ∨ name = "dispatch_spsc" ∨
      name = "dispatch-spsc" then .ok .dispatchLocalSpsc
  else if name = "direct_local_spsc" ∨ name = "direct-local-spsc" ∨ name = "direct_spsc" ∨
      name = "direct-spsc" then .ok .directLocalSpsc
  else .error (.runtime_error
    "topology는 현재 'shared', 'dispatch_local_spsc', 'direct_local_spsc'만 지원합니다.")

def pipelineTopologyName : PipelineTopology → String
  | .sharedQueue => "shared_queue"
  | .dispatchLocalSpsc => "dispatch_local_spsc"
  | .directLocalSpsc => "direct_local_spsc"

/-- The policy that both programs read after `--policy`. -/
def parsePolicy (value : String) : Except Error BackpressurePolicy :=
  if value = "block" then .ok .block
  else if value = "drop" then .ok .drop
  else .error (.runtime_error "--policy는 block 또는 drop 이어야 합니다.")

/-- The `policy_str` of both programs. -/
def policyName (policy : BackpressurePolicy) : String :=
  if policy = .block then "block" else "drop"

/-! ### Numbers -/

/-- An optional sign, and what follows it. -/
def cutSign : List Char → Bool × List Char
  | '-' :: rest => (true, rest)
  | '+' :: rest => (false, rest)
  | rest => (false, rest)

/-- `std::stoull`: a minus sign takes the value from `2 ^ 64`. -/
def stoull (str : List Char) : Except ParseError ℕ :=
  let (negative, rest) := cutSign (str.dropWhile isspace)
  let digits := rest.takeWhile Char.isDigit
  let magnitude := Nat.ofDigitChars 10 digits 0
  if digits = [] then .error (.invalid_argument "stoull")
  else if magnitude < 2 ^ 64 then
    .ok (if negative then (2 ^ 64 - magnitude) % 2 ^ 64 else magnitude)
  else .error (.out_of_range "stoull")

/-- The exponent that follows the digits of a number, if one does. -/
def exponent : List Char → ℤ
  | c :: rest =>
    if c = 'e' ∨ c = 'E' then
      let (negative, rest) := cutSign rest
      let magnitude : ℤ := Nat.ofDigitChars 10 (rest.takeWhile Char.isDigit) 0
      if negative then -magnitude else magnitude
    else 0
  | [] => 0

/-- The digits before and after the point, and what follows them. -/
def cutDecimal (str : List Char) : List Char × List Char × List Char :=
  let whole := str.takeWhile Char.isDigit
  match str.dropWhile Char.isDigit with
  | '.' :: rest => (whole, rest.takeWhile Char.isDigit, rest.dropWhile Char.isDigit)
  | rest => (whole, [], rest)

/-- The number with these digits before and after the point. -/
def decimalValue (negative : Bool) (whole fraction : List Char) (exponent : ℤ) : ℚ :=
  let magnitude : ℚ := Nat.ofDigitChars 10 (whole ++ fraction) 0 * 10 ^ (exponent - fraction.length)
  if negative then -magnitude else magnitude

/-- The number is above the `double`s, or below those with all their bits and not one of them. -/
def OutOfRange (value : ℚ) : Prop :=
  2 ^ 1024 ≤ |binary64.round value| ∨
    |value| < 2 ^ (-1022 : ℤ) - 2 ^ (-1076 : ℤ) ∧ binary64.round value ≠ value

instance : DecidablePred OutOfRange := fun _ => inferInstanceAs (Decidable (_ ∨ _))

/-- `std::stod` of a decimal text. -/
def stod (str : List Char) : Except ParseError ℚ :=
  let (negative, rest) := cutSign (str.dropWhile isspace)
  let (whole, fraction, rest) := cutDecimal rest
  let value := decimalValue negative whole fraction (exponent rest)
  if whole = [] ∧ fraction = [] then .error (.invalid_argument "stod")
  else if OutOfRange value then .error (.out_of_range "stod")
  else .ok (binary64.round value)

/-- The hundredths that are left of the magnitude of a `double` with two digits after the point. -/
def hundredths (q : ℚ) : ℕ := (roundHalfEven (|binary64.round q| * 100)).toNat

/-- A `double` with two digits after the point. -/
def fixed (q : ℚ) : List Char :=
  (if q < 0 then ['-'] else []) ++ Nat.toDigits 10 (hundredths q / 100) ++
    ['.', Nat.digitChar (hundredths q % 100 / 10), Nat.digitChar (hundredths q % 10)]

/-- The text of an integer, and of a rate, as an argument. -/
def intArg (v : ℤ) : String := String.ofList (decimal v)

def rateArg (q : ℚ) : String := String.ofList (fixed q)

/-! ### Options -/

/-- The exceptions that `main` catches. -/
inductive Failure where
  | error (e : Error)
  | number (e : ParseError)
  deriving DecidableEq, Repr

def Failure.what : Failure → String
  | .error (.runtime_error what) => what
  | .error .length_error => "cannot create std::vector larger than max_size()"
  | .number (.invalid_argument what) | .number (.out_of_range what) => what

/-- A flag, and what the loop of `parseArgs` does with the value that follows it. -/
structure CommandOption (Config : Type) where
  flag : String
  apply : String → Config → Except Failure Config

namespace CommandOption

variable {Config α : Type}

/-- An option whose value is read by a function of the program. -/
def named (flag : String) (read : String → Except Error α) (set : Config → α → Config) :
    CommandOption Config where
  flag
  apply value config := ((read value).mapError .error).map (set config)

/-- An option whose value is a number. -/
def number (flag : String) (read : List Char → Except ParseError α) (set : Config → α → Config) :
    CommandOption Config where
  flag
  apply value config := ((read value.toList).mapError .number).map (set config)

end CommandOption

/-- The loop of `parseArgs`; `none` when it has printed the usage and ended the program. -/
def readOptions {Config : Type} (options : List (CommandOption Config)) (config : Config) :
    List String → Except Failure (Option Config)
  | [] => .ok (some config)
  | arg :: rest =>
    if arg = "--help" ∨ arg = "-h" then .ok none
    else
      match options.find? (·.flag = arg), rest with
      | none, _ => .error (.error (.runtime_error ("알 수 없는 인자: " ++ arg)))
      | some o, [] => .error (.error (.runtime_error (o.flag ++ " 값이 필요합니다.")))
      | some o, value :: rest =>
        match o.apply value config with
        | .error e => .error e
        | .ok config => readOptions options config rest

/-! ### Reports -/

/-- A line of a report: `key=value` for each field. -/
def reportLine (fields : List (String × List Char)) : List Char :=
  [' '].intercalate (fields.map fun field => field.1.toList ++ '=' :: field.2) ++ ['\n']

/-- The fields of the statistics of a queue. -/
def statsFields (key : String) (stats : QueueStats) : List (String × List Char) :=
  [(key ++ "push_attempts", decimal stats.push_attempts),
    (key ++ "push_success", decimal stats.push_success),
    (key ++ "push_fail", decimal stats.push_fail),
    (key ++ "pop_success", decimal stats.pop_success),
    (key ++ "spin_count", decimal stats.spin_count),
    (key ++ "yield_count", decimal stats.yield_count),
    (key ++ "park_count", decimal stats.park_count),
    (key ++ "full_hits", decimal stats.full_hits),
    (key ++ "empty_hits", decimal stats.empty_hits),
    (key ++ "max_observed_depth", decimal stats.max_observed_depth)]

/-- What a program has written when it ends, and its exit code. -/
structure Completed where
  returncode : ℤ
  stdout : List Char
  stderr : List Char
  deriving DecidableEq, Repr

/-- The `main` of both programs. -/
def runMain {Config Result : Type} (usage : List Char)
    (parseArgs : List String → Except Failure (Option Config))
    (run : Config → Except Error Result) (printResult : Config → Result → List Char)
    (args : List String) : Completed :=
  let failed (e : Failure) : Completed :=
    { returncode := 1, stdout := usage, stderr := ("Error: " ++ e.what ++ "\n").toList }
  match parseArgs args with
  | .error e => failed e
  | .ok none => { returncode := 0, stdout := usage, stderr := [] }
  | .ok (some config) =>
    match run config with
    | .error e => failed (.error e)
    | .ok result => { returncode := 0, stdout := printResult config result, stderr := [] }

/-! ### `pipeline_main.cpp` -/

/-- The result with the fields that are computed in floating point. -/
structure PipelineReport extends PipelineResult where
  tps_completed : ℚ
  avg_latency_us : ℚ
  p95_latency_us : ℚ
  p99_latency_us : ℚ
  worker_completed_avg : ℚ
  worker_completed_stddev : ℚ
  worker_imbalance_pct : ℚ
  deriving DecidableEq, Repr

/-- The `tps_completed` of `finalizeResult`. -/
def tpsCompleted (config : PipelineConfig) (result : PipelineResult) : ℚ :=
  let measure_s := binary64.round (config.duration / 1000)
  if 0 < measure_s then binary64.round (binary64.round result.completed / measure_s) else 0

namespace PipelineMain

open CommandOption

def options : List (CommandOption PipelineConfig) :=
  [named "--topology" parsePipelineTopology fun config topology => { config with topology },
    named "--shared-queue" parseQueueKind fun config shared_queue_kind =>
      { config with shared_queue_kind },
    named "--dispatch-queue" parseQueueKind fun config dispatch_queue_kind =>
      { config with dispatch_queue_kind },
    number "--ingress" stoi fun config ingress_threads => { config with ingress_threads },
    number "--workers" stoi fun config worker_threads => { config with worker_threads },
    number "--duration-ms" stoi fun config duration => { config with duration },
    number "--warmup-ms" stoi fun config warmup => { config with warmup },
    number "--capacity" stoull fun config ingress_queue_capacity =>
      { config with ingress_queue_capacity },
    number "--worker-capacity" stoull fun config worker_queue_capacity =>
      { config with worker_queue_capacity },
    number "--rate" stod fun config rate_per_ingress => { config with rate_per_ingress },
    named "--policy" parsePolicy fun config policy => { config with policy },
    named "--wait-strategy" parseWaitStrategy fun config wait_strategy =>
      { config with wait_strategy },
    number "--service-ns" stoull fun config service_ns =>
      { config with service_ns := UInt64.ofNat service_ns },
    number "--jitter-ns" stoull fun config jitter_ns =>
      { config with jitter_ns := UInt64.ofNat jitter_ns }]

/-- The arguments after the name of the program. -/
def parseArgs (args : List String) : Except Failure (Option PipelineConfig) :=
  readOptions options {} args

def configFields (config : PipelineConfig) : List (String × List Char) :=
  [("topology", (pipelineTopologyName config.topology).toList),
    ("shared_queue", (queueKindName config.shared_queue_kind).toList),
    ("dispatch_queue", (queueKindName config.dispatch_queue_kind).toList),
    ("ingress_threads", decimal config.ingress_threads),
    ("worker_threads", decimal config.worker_threads),
    ("duration_ms", decimal config.duration),
    ("warmup_ms", decimal config.warmup),
    ("ingress_queue_capacity", decimal config.ingress_queue_capacity),
    ("worker_queue_capacity", decimal config.worker_queue_capacity),
    ("rate_per_ingress", fixed config.rate_per_ingress),
    ("policy", (policyName config.policy).toList),
    ("wait_strategy", (waitStrategyName config.wait_strategy).toList),
    ("service_ns", decimal config.service_ns.toNat),
    ("jitter_ns", decimal config.jitter_ns.toNat)]

def resultFields (result : PipelineReport) : List (String × List Char) :=
  [("tps_completed", fixed result.tps_completed),
    ("avg_us", fixed result.avg_latency_us),
    ("p95_us", fixed result.p95_latency_us),
    ("p99_us", fixed result.p99_latency_us),
    ("worker_completed_min", decimal result.worker_completed_min),
    ("worker_completed_max", decimal result.worker_completed_max),
    ("worker_completed_avg", fixed result.worker_completed_avg),
    ("worker_completed_stddev", fixed result.worker_completed_stddev),
    ("worker_imbalance_pct", fixed result.worker_imbalance_pct),
    ("generated", decimal result.generated),
    ("accepted", decimal result.accepted),
    ("completed", decimal result.completed),
    ("dropped", decimal result.dropped),
    ("dropped_ingress", decimal result.dropped_ingress),
    ("dropped_dispatch", decimal result.dropped_dispatch)] ++
  statsFields "ingress_" result.ingress_queue_stats ++
  statsFields "worker_" result.worker_queue_stats ++
  [("samples", decimal result.samples)]

def printResult (config : PipelineConfig) (result : PipelineReport) : List Char :=
  reportLine (configFields config) ++ reportLine (resultFields result)

end PipelineMain

/-! ### `main.cpp` -/

/-- The result with the fields that are computed in floating point. -/
structure ScenarioReport extends ScenarioResult where
  tps : ℚ
  avg_latency_us : ℚ
  p95_latency_us : ℚ
  p99_latency_us : ℚ
  deriving DecidableEq, Repr

namespace ScenarioMain

open CommandOption

def options : List (CommandOption ScenarioConfig) :=
  [number "--duration" stoi fun config duration => { config with duration },
    number "--warmup" stoi fun config warmup => { config with warmup },
    number "--producers" stoi fun config producers => { config with producers },
    number "--consumers" stoi fun config consumers => { config with consumers },
    number "--capacity" stoull fun config capacity => { config with capacity },
    number "--rate" stod fun config rate_per_producer => { config with rate_per_producer },
    named "--policy" parsePolicy fun config policy => { config with policy },
    named "--queue" .ok fun config queue_type => { config with queue_type },
    named "--wait-strategy" parseWaitStrategy fun config wait_strategy =>
      { config with wait_strategy }]

/-- The arguments after the name of the program. -/
def parseArgs (args : List String) : Except Failure (Option ScenarioConfig) :=
  readOptions options {} args

def configFields (config : ScenarioConfig) : List (String × List Char) :=
  [("queue", config.queue_type.toList),
    ("policy", (policyName config.policy).toList),
    ("wait_strategy", (waitStrategyName config.wait_strategy).toList),
    ("producers", decimal config.producers),
    ("consumers", decimal config.consumers),
    ("duration_s", decimal config.duration),
    ("warmup_s", decimal config.warmup),
    ("capacity", decimal config.capacity),
    ("rate_per_producer", fixed config.rate_per_producer)]

def resultFields (r : ScenarioReport) : List (String × List Char) :=
  [("tps", fixed r.tps),
    ("avg_us", fixed r.avg_latency_us),
    ("p95_us", fixed r.p95_latency_us),
    ("p99_us", fixed r.p99_latency_us),
    ("drop", decimal r.dropped),
    ("produced", decimal r.produced),
    ("consumed", decimal r.consumed)] ++
  statsFields "" r.queue_stats ++
  [("samples", decimal r.samples)]

def printResult (config : ScenarioConfig) (r : ScenarioReport) : List Char :=
  reportLine (configFields config) ++ reportLine (resultFields r)

end ScenarioMain

end Laboratory.QueueLatency
