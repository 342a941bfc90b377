import Laboratory.Algorithm.Words
import Laboratory.QueueLatency.CommandLine

/-!
# The benchmark matrix

`run_phase4_matrix.py`: the cases of the matrix, the command line that each is run with, and what is
read back from the output of the program.  `main` calibrates the rates, runs the cases of the chosen
tracks, and makes a record of every run; `row` is the line that is written for a record.

The program that is run is a parameter, the answer of which may be another each time.  A `dict` is
the function of its keys, since nothing depends on their order.  The digits of a number are those of
ASCII, and a `float` is the rational that it stands for, without infinities and NaN.  The manifest,
the summary and the text of the CSV file are left out, as is the name of the program in its
arguments.
-/

namespace Laboratory.QueueLatency

open Algorithm

namespace Matrix

open IndexFile (cut)

/-! ### Values -/

/-- What `parse_value` returns. -/
inductive Value where
  | int (v : ℤ)
  | float (q : ℚ)
  | str (s : List Char)
  deriving DecidableEq, Repr

/-- The characters that `str.split` splits at. -/
def isspace (c : Char) : Bool :=
  c = ' ' ∨ 9 ≤ c.toNat ∧ c.toNat ≤ 13 ∨ 28 ≤ c.toNat ∧ c.toNat ≤ 31 ∨
    c.toNat ∈ [0x85, 0xa0, 0x1680, 0x2028, 0x2029, 0x202f, 0x205f, 0x3000] ∨
    0x2000 ≤ c.toNat ∧ c.toNat ≤ 0x200a

/-- The characters that `str.splitlines` splits at.  There is no carriage return in what
`subprocess.run` has read as a text. -/
def isLineBreak (c : Char) : Bool :=
  10 ≤ c.toNat ∧ c.toNat ≤ 13 ∨ 28 ≤ c.toNat ∧ c.toNat ≤ 30 ∨ c.toNat ∈ [0x85, 0x2028, 0x2029]

/-- Digits, with single underscores between them. -/
def underscored : List Char → Option (List Char)
  | [] => none
  | c :: rest =>
    if c.isDigit then
      match rest with
      | [] => some [c]
      | '_' :: rest => (underscored rest).map (c :: ·)
      | d :: rest => (underscored (d :: rest)).map (c :: ·)
    else none

/-- `int(raw)`; `none` where it raises a `ValueError`. -/
def pyInt (raw : List Char) : Option ℤ :=
  let (negative, text) := cutSign (strip isspace raw)
  (underscored text).map fun digits =>
    let magnitude : ℤ := Nat.ofDigitChars 10 digits 0
    if negative then -magnitude else magnitude

/-- The digits on one side of the point. -/
def digitsOrNone (text : List Char) : Option (List Char) :=
  if text = [] then some [] else underscored text

/-- No exponent begins with the character. -/
def isMantissa (c : Char) : Bool := c ≠ 'e' ∧ c ≠ 'E'

/-- The exponent of a number, if it has one. -/
def pyExponent : List Char → Option ℤ
  | [] => some 0
  | _ :: rest =>
    let (negative, text) := cutSign rest
    (underscored text).map fun digits =>
      let magnitude : ℤ := Nat.ofDigitChars 10 digits 0
      if negative then -magnitude else magnitude

/-- `float(raw)` of a text that stands for no infinity and no NaN. -/
def pyFloat (raw : List Char) : Option ℚ := do
  let (negative, text) := cutSign (strip isspace raw)
  let mantissa := text.takeWhile isMantissa
  let exponent ← pyExponent (text.dropWhile isMantissa)
  let (whole, fraction) := (cut '.' mantissa).getD (mantissa, [])
  let whole ← digitsOrNone whole
  let fraction ← digitsOrNone fraction
  if whole = [] ∧ fraction = [] then none
  else some (binary64.round (decimalValue negative whole fraction exponent))

/-- The names of infinities and NaN have none of the three characters. -/
def parse_value (raw : List Char) : Value :=
  if raw.any fun c => c = '.' ∨ c = 'e' ∨ c = 'E' then (pyFloat raw).elim (.str raw) .float
  else (pyInt raw).elim (.str raw) .int

abbrev Dict := String → Option Value

/-- The words of the lines of an output. -/
def tokens (stdout : List Char) : List (List Char) :=
  (lines isLineBreak (strip isspace stdout)).flatMap fun line => words isspace (strip isspace line)

/-- What a word of the output sets. -/
def enter (result : Dict) (token : List Char) : Dict :=
  match cut '=' token with
  | none => result
  | some (key, value) => Function.update result (String.ofList key) (some (parse_value value))

def parse_metrics (stdout : List Char) : Dict :=
  (tokens stdout).foldl enter fun _ => none

/-! ### Cases -/

structure Phase4Case where
  track : String
  case : String
  variant : String
  topology : String
  shared_queue : String
  dispatch_queue : String
  policy : String
  load : String
  wait_strategy : String
  ingress_threads : ℕ
  worker_threads : ℕ
  ingress_queue_capacity : ℕ
  worker_queue_capacity : ℕ
  service_ns : ℕ
  jitter_ns : ℕ
  deriving DecidableEq, Repr

/-- What all cases have in common: both queues are of one kind, and the threads, capacities and
wait strategy are the same. -/
def phase4Case (track case variant topology queue policy load : String)
    (service_ns jitter_ns : ℕ) : Phase4Case where
  track
  case
  variant
  topology
  shared_queue := queue
  dispatch_queue := queue
  policy
  load
  wait_strategy := "default"
  ingress_threads := 4
  worker_threads := 4
  ingress_queue_capacity := 256
  worker_queue_capacity := 64
  service_ns
  jitter_ns

/-- The exceptions of the script. -/
inductive RunError where
  | RuntimeError (stdout stderr : List Char)
  | ValueError
  | KeyError (key : String)
  | StatisticsError
  deriving DecidableEq, Repr

def calibration_case (variant : String) : Except RunError Phase4Case :=
  let peak (track topology queue : String) : Phase4Case :=
    phase4Case track "calibration_peak" variant topology queue "drop" "peak" 0 0
  if variant = "shared_split_lock" then .ok (peak "shared" "shared" "split_lock")
  else if variant = "shared_mpmc_ring" then .ok (peak "shared" "shared" "mpmc_ring")
  else if variant = "dispatch_local_spsc" then
    .ok (peak "local" "dispatch_local_spsc" "split_lock")
  else if variant = "direct_local_spsc" then .ok (peak "local" "direct_local_spsc" "split_lock")
  else .error .ValueError

/-- The two cases that every variant is run in. -/
def blockNearSat (track variant topology queue : String) : Phase4Case :=
  phase4Case track "block_near_sat" variant topology queue "block" "near_sat" 10000 0

def overloadDrop (track variant topology queue : String) : Phase4Case :=
  phase4Case track "overload_drop" variant topology queue "drop" "overload" 10000 10000

def shared_cases : List Phase4Case :=
  [("split_lock", "shared_split_lock"), ("mpmc_ring", "shared_mpmc_ring")].flatMap
    fun (queue, variant) =>
      [blockNearSat "shared" variant "shared" queue, overloadDrop "shared" variant "shared" queue]

def local_cases : List Phase4Case :=
  ["dispatch_local_spsc", "direct_local_spsc"].flatMap fun topology =>
    [blockNearSat "local" topology topology "split_lock",
      overloadDrop "local" topology topology "split_lock"]

def strategy_cases (shared_finalist local_finalist : String) : List Phase4Case :=
  let shared_variant := "shared_" ++ shared_finalist
  [blockNearSat "strategy" shared_variant "shared" shared_finalist,
    blockNearSat "strategy" local_finalist local_finalist "split_lock",
    overloadDrop "strategy" shared_variant "shared" shared_finalist,
    overloadDrop "strategy" local_finalist local_finalist "split_lock"]

/-! ### Runs -/

/-- The arguments of the program. -/
def build_pipeline_cmd (case : Phase4Case) (duration_ms warmup_ms : ℤ) (rate : ℚ) : List String :=
  ["--topology", case.topology, "--shared-queue", case.shared_queue,
    "--dispatch-queue", case.dispatch_queue,
    "--ingress", intArg case.ingress_threads, "--workers", intArg case.worker_threads,
    "--duration-ms", intArg duration_ms, "--warmup-ms", intArg warmup_ms,
    "--capacity", intArg case.ingress_queue_capacity,
    "--worker-capacity", intArg case.worker_queue_capacity,
    "--rate", rateArg rate, "--policy", case.policy, "--wait-strategy", case.wait_strategy,
    "--service-ns", intArg case.service_ns, "--jitter-ns", intArg case.jitter_ns]

/-- What the program answers when it is run for the `n`-th time. -/
abbrev Binary := ℕ → List String → Completed

/-- A part of the script: it runs the program some times, and may raise an exception. -/
abbrev Script := StateT ℕ (Except RunError)

/-- The next run of the program. -/
def nextRun (binary : Binary) (cmd : List String) : Script Completed :=
  fun n => .ok (binary n cmd, n + 1)

def raise {α : Type} (e : RunError) : Script α := fun _ => .error e

def runCmd (binary : Binary) (cmd : List String) (dry_run : Bool) : Script Dict := do
  if dry_run then return fun _ => none
  let completed ← nextRun binary cmd
  if completed.returncode ≠ 0 then raise (.RuntimeError completed.stdout completed.stderr)
  else return parse_metrics completed.stdout

/-- `float(metrics["tps_completed"])`. -/
def tps_completed (metrics : Dict) : Except RunError ℚ :=
  match metrics "tps_completed" with
  | some (.float q) => .ok q
  | some (.int v) => .ok (binary64.round v)
  | some (.str s) => (pyFloat s).elim (.error .ValueError) .ok
  | none => .error (.KeyError "tps_completed")

def median (values : List ℚ) : Except RunError ℚ :=
  let sorted := values.mergeSort
  let half := sorted.length / 2
  if sorted = [] then .error .StatisticsError
  else if sorted.length % 2 = 1 then .ok (sorted.getD half 0)
  else .ok (binary64.round (binary64.round (sorted.getD (half - 1) 0 + sorted.getD half 0) / 2))

def floor_to_1000 (value : ℚ) : ℚ :=
  max (binary64.round (⌊binary64.round (value / 1000)⌋ * 1000)) 1000

/-- The peak of a variant. -/
def peakOf (binary : Binary) (duration_ms warmup_ms : ℤ) (peak_runs : ℕ) (variant : String) :
    Script ℚ := do
  let case ← calibration_case variant
  let samples ← (List.range peak_runs).mapM fun _ => do
    let metrics ← runCmd binary (build_pipeline_cmd case duration_ms warmup_ms 0) false
    (tps_completed metrics : Script ℚ)
  median samples

def calibrate_rate (binary : Binary) (variants : List String) (duration_ms warmup_ms : ℤ)
    (peak_runs : ℕ) (dry_run : Bool) : Script ℚ :=
  if dry_run then return 0
  else do
    let peaks ← variants.mapM (peakOf binary duration_ms warmup_ms peak_runs)
    match peaks with
    | [] => raise .ValueError
    | peak :: peaks =>
      return floor_to_1000 (binary64.round (binary64.round (7 / 10) * peaks.foldl min peak))

def LOAD_FACTORS (load : String) : Except RunError ℚ :=
  if load = "near_sat" then .ok (binary64.round (9 / 10))
  else if load = "overload" then .ok (binary64.round (12 / 10))
  else .error (.KeyError load)

def case_rate (base_rate : ℚ) (case : Phase4Case) : Except RunError ℚ :=
  if case.load = "peak" then .ok 0
  else (LOAD_FACTORS case.load).map fun factor => binary64.round (base_rate * factor)

/-! ### Records -/

def CSV_FIELDS : List String :=
  ["track", "case", "variant", "topology", "shared_queue", "dispatch_queue", "policy",
    "wait_strategy", "load", "run_index", "rate", "duration_ms", "warmup_ms", "ingress_threads",
    "worker_threads", "ingress_queue_capacity", "worker_queue_capacity", "service_ns", "jitter_ns",
    "tps_completed", "avg_us", "p95_us", "p99_us", "generated", "accepted", "completed", "dropped",
    "dropped_ingress", "dropped_dispatch", "worker_completed_min", "worker_completed_max",
    "worker_completed_avg", "worker_completed_stddev", "worker_imbalance_pct",
    "ingress_push_attempts", "ingress_push_success", "ingress_push_fail", "ingress_pop_success",
    "ingress_spin_count", "ingress_yield_count", "ingress_park_count", "ingress_full_hits",
    "ingress_empty_hits", "ingress_max_observed_depth", "worker_push_attempts",
    "worker_push_success", "worker_push_fail", "worker_pop_success", "worker_spin_count",
    "worker_yield_count", "worker_park_count", "worker_full_hits", "worker_empty_hits",
    "worker_max_observed_depth", "samples"]

/-- What the script knows of a run before it has run it. -/
def planned (track : String) (case : Phase4Case) (run_index : ℕ) (rate : ℚ)
    (duration_ms warmup_ms : ℤ) : List (String × Value) :=
  [("track", .str track.toList), ("case", .str case.case.toList),
    ("variant", .str case.variant.toList), ("topology", .str case.topology.toList),
    ("shared_queue", .str case.shared_queue.toList),
    ("dispatch_queue", .str case.dispatch_queue.toList), ("policy", .str case.policy.toList),
    ("wait_strategy", .str case.wait_strategy.toList), ("load", .str case.load.toList),
    ("run_index", .int run_index), ("rate", .float rate), ("duration_ms", .int duration_ms),
    ("warmup_ms", .int warmup_ms), ("ingress_threads", .int case.ingress_threads),
    ("worker_threads", .int case.worker_threads),
    ("ingress_queue_capacity", .int case.ingress_queue_capacity),
    ("worker_queue_capacity", .int case.worker_queue_capacity),
    ("service_ns", .int case.service_ns), ("jitter_ns", .int case.jitter_ns)]

/-- What the program reports comes over what the script knows. -/
def record (fields : List (String × Value)) (metrics : Dict) : Dict :=
  fun key => (metrics key).or (fields.lookup key)

/-- The row of a record: a field that it does not have is empty. -/
def row (record : Dict) : List Value :=
  CSV_FIELDS.map fun field => (record field).getD (.str [])

/-- What `parse_args` returns. -/
structure Args where
  track : String := "all"
  runs : ℕ := 3
  duration_ms : ℤ := 2000
  warmup_ms : ℤ := 300
  peak_runs : ℕ := 2
  shared_finalist : String := "split_lock"
  local_finalist : String := "direct_local_spsc"
  dry_run : Bool := false
  smoke : Bool := false

/-- The choices that the parser of the arguments admits. -/
structure Args.Chosen (args : Args) : Prop where
  track : args.track ∈ ["shared", "local", "strategy", "all"]
  shared_finalist : args.shared_finalist ∈ ["split_lock", "mpmc_ring"]
  local_finalist : args.local_finalist ∈ ["dispatch_local_spsc", "direct_local_spsc"]

namespace Args

variable (args : Args)

def duration : ℤ := if args.smoke then 500 else args.duration_ms

def warmup : ℤ := if args.smoke then 0 else args.warmup_ms

def peaks : ℕ := if args.smoke then 1 else args.peak_runs

def runsOfCase : ℕ := if args.smoke then 1 else args.runs

def tracks : List String :=
  if args.track = "all" then ["shared", "local", "strategy"] else [args.track]

/-- The `case_lists` of a track. -/
def cases (track : String) : List Phase4Case :=
  if track = "shared" then shared_cases
  else if track = "local" then local_cases
  else strategy_cases args.shared_finalist args.local_finalist

/-- The runs, in their order: the track, the case and the number of the run. -/
def plan : List (String × Phase4Case × ℕ) :=
  args.tracks.flatMap fun track => (args.cases track).flatMap fun case =>
    (List.range args.runsOfCase).map fun i => (track, case, i + 1)

end Args

/-- The `base_rates` of a track. -/
def baseRate (shared_base_rate local_base_rate strategy_base_rate : ℚ) (track : String) : ℚ :=
  if track = "shared" then shared_base_rate
  else if track = "local" then local_base_rate
  else strategy_base_rate

/-- The record of one run. -/
def runCase (binary : Binary) (args : Args) (base_rate : String → ℚ)
    (run : String × Phase4Case × ℕ) : Script Dict := do
  let (track, case, run_index) := run
  let rate ← case_rate (base_rate track) case
  let metrics ←
    runCmd binary (build_pipeline_cmd case args.duration args.warmup rate) args.dry_run
  return record (planned track case run_index rate args.duration args.warmup) metrics

/-- **The script**, up to the records that it writes. -/
def main (binary : Binary) (args : Args) : Script (List Dict) := do
  let calibrate (variants : List String) :=
    calibrate_rate binary variants args.duration args.warmup args.peaks args.dry_run
  let shared_base_rate ← calibrate ["shared_split_lock", "shared_mpmc_ring"]
  let local_base_rate ← calibrate ["dispatch_local_spsc", "direct_local_spsc"]
  let strategy_base_rate := if args.dry_run then 0 else min shared_base_rate local_base_rate
  args.plan.mapM
    (runCase binary args (baseRate shared_base_rate local_base_rate strategy_base_rate))

end Matrix

end Laboratory.QueueLatency
