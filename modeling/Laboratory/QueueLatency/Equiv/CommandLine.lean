import Laboratory.QueueLatency.CommandLine

/-!
# What can be said on a command line

`commandLine`: every configuration can be given on the command line of either program, whatever
accepted arguments stand before it, since a later value of an option replaces an earlier one.  The
rates are the `double`s nearest to hundredths, which `stod_fixed` reads back.
-/

namespace Laboratory.QueueLatency

open Algorithm (roundHalfEven roundHalfEven_mono roundHalfEven_intCast binary64)
open Algorithm.FloatFormat (round_zero round_neg round_abs round_round round_nonneg
  round_le_of_isFloat isFloat_two_zpow round_nearest_div)
open IndexFile (ParseError stoi isspace decimal IsInt isDigit_of_mem isspace_of_isDigit stoi_decimal
  decimal_natCast)

/-! ### Names -/

theorem parseQueueKind_name (kind : QueueKind) :
    parseQueueKind (queueKindName kind) = .ok kind := by
  cases kind <;> decide

theorem parseWaitStrategy_name (strategy : WaitStrategy) :
    parseWaitStrategy (waitStrategyName strategy) = .ok strategy := by
  cases strategy <;> decide

theorem parsePipelineTopology_name (topology : PipelineTopology) :
    parsePipelineTopology (pipelineTopologyName topology) = .ok topology := by
  cases topology <;> decide

theorem parsePolicy_name (policy : BackpressurePolicy) :
    parsePolicy (policyName policy) = .ok policy := by
  cases policy <;> decide

/-! ### Numbers -/

/-- A text that starts with a digit has no blank and no sign before it. -/
theorem cutSign_of_isDigit {c : Char} (hc : c.isDigit = true) (rest : List Char) :
    cutSign ((c :: rest).dropWhile isspace) = (false, c :: rest) := by
  rw [List.dropWhile_cons, isspace_of_isDigit hc, if_neg Bool.false_ne_true, cutSign]
  · rintro rest' ⟨⟩
    cases hc
  · rintro rest' ⟨⟩
    cases hc

theorem exists_digit (n : ℕ) :
    ∃ c rest, Nat.toDigits 10 n = c :: rest ∧ c.isDigit = true := by
  obtain ⟨c, rest, hcons⟩ := List.exists_cons_of_ne_nil (Nat.toDigits_ne_nil (n := n) (b := 10))
  exact ⟨c, rest, hcons, isDigit_of_mem (n := n) (hcons ▸ List.mem_cons_self)⟩

theorem stoull_decimal {n : ℕ} (h : n < 2 ^ 64) : stoull (decimal n) = .ok n := by
  obtain ⟨c, rest, hcons, hc⟩ := exists_digit n
  have hdigits : (Nat.toDigits 10 n).takeWhile Char.isDigit = Nat.toDigits 10 n :=
    List.takeWhile_eq_self_iff.mpr fun c hc => isDigit_of_mem hc
  have hsign : cutSign ((Nat.toDigits 10 n).dropWhile isspace) = (false, Nat.toDigits 10 n) := by
    rw [hcons]
    exact cutSign_of_isDigit hc rest
  rw [decimal_natCast, stoull]
  simp only [hsign, hdigits, Nat.ofDigitChars_ten_toDigits]
  rw [if_neg Nat.toDigits_ne_nil, if_pos h, if_neg Bool.false_ne_true]

/-- The number that is read from a `double` with two digits after the point. -/
def rounded (q : ℚ) : ℚ :=
  binary64.round (if q < 0 then -(hundredths q / 100) else hundredths q / 100)

/-- The two digits after the point. -/
def fraction (n : ℕ) : List Char :=
  [Nat.digitChar (n % 100 / 10), Nat.digitChar (n % 10)]

theorem isDigit_of_mem_fraction {n : ℕ} {c : Char} (h : c ∈ fraction n) : c.isDigit = true := by
  rw [fraction, List.mem_cons, List.mem_singleton] at h
  rcases h with rfl | rfl <;> rw [Nat.isDigit_digitChar, decide_eq_true_eq] <;> omega

theorem ofDigitChars_fraction (n : ℕ) :
    Nat.ofDigitChars 10 (Nat.toDigits 10 (n / 100) ++ fraction n) 0 = n := by
  rw [Nat.ofDigitChars_append, Nat.ofDigitChars_ten_toDigits, fraction,
    Nat.ofDigitChars_cons_digitChar_of_lt_ten (by omega),
    Nat.ofDigitChars_cons_digitChar_of_lt_ten (by omega), Nat.ofDigitChars_nil]
  omega

theorem fixed_eq (q : ℚ) : fixed q = (if q < 0 then ['-'] else []) ++
    (Nat.toDigits 10 (hundredths q / 100) ++ '.' :: fraction (hundredths q)) := by
  rw [fixed, List.append_assoc]
  rfl

theorem cutDecimal_digits (n : ℕ) (hfraction : List Char)
    (h : ∀ c ∈ hfraction, c.isDigit = true) :
    cutDecimal (Nat.toDigits 10 n ++ '.' :: hfraction) = (Nat.toDigits 10 n, hfraction, []) := by
  have hwhole : ∀ c ∈ Nat.toDigits 10 n, c.isDigit = true := fun c hc => isDigit_of_mem hc
  have htake : (Nat.toDigits 10 n ++ '.' :: hfraction).takeWhile Char.isDigit =
      Nat.toDigits 10 n := by
    rw [List.takeWhile_append_of_pos hwhole]
    exact List.append_nil _
  have hdrop : (Nat.toDigits 10 n ++ '.' :: hfraction).dropWhile Char.isDigit =
      '.' :: hfraction := by
    rw [List.dropWhile_append_of_pos hwhole]
    rfl
  rw [cutDecimal, htake, hdrop]
  simp only [List.takeWhile_eq_self_iff.mpr h, List.dropWhile_eq_nil_iff.mpr h]

theorem decimalValue_fraction (negative : Bool) (n : ℕ) :
    decimalValue negative (Nat.toDigits 10 (n / 100)) (fraction n) 0 =
      if negative then -((n : ℚ) / 100) else n / 100 := by
  have hpow : (10 : ℚ) ^ ((0 : ℤ) - (fraction n).length) = 1 / 100 := by
    change (10 : ℚ) ^ ((0 : ℤ) - 2) = 1 / 100
    norm_num
  rw [decimalValue, ofDigitChars_fraction, hpow, mul_one_div]

theorem abs_hundredths (q : ℚ) :
    |if q < 0 then -((hundredths q : ℚ) / 100) else hundredths q / 100| = hundredths q / 100 := by
  split_ifs
  · rw [abs_neg, abs_of_nonneg (by positivity)]
  · exact abs_of_nonneg (by positivity)

/-- Hundredths are too great to be out of range below. -/
theorem not_outOfRange {v : ℚ} {n : ℕ} (hv : |v| = n / 100) (h : |binary64.round v| < 2 ^ 1024) :
    ¬ OutOfRange v := by
  rintro (hgreat | ⟨hsmall, hround⟩)
  · exact hgreat.not_gt h
  · rcases n.eq_zero_or_pos with rfl | hpos
    · have hzero : v = 0 := by simpa using hv
      exact hround (hzero ▸ round_zero)
    · have hone : (1 : ℚ) ≤ n := by exact_mod_cast hpos
      have hleast : (2 : ℚ) ^ (-1022 : ℤ) ≤ 2 ^ (-7 : ℤ) :=
        zpow_le_zpow_right₀ one_le_two (by norm_num)
      have hseven : (2 : ℚ) ^ (-7 : ℤ) < 1 / 100 := by norm_num
      have hlt := (hsmall.trans (sub_lt_self _ (zpow_pos two_pos _))).trans_le hleast
      rw [hv] at hlt
      linarith [hlt.trans hseven]

/-- **A number with two digits after the point is read back**, if it is in the range of `double`. -/
theorem stod_fixed {q : ℚ} (h : |rounded q| < 2 ^ 1024) : stod (fixed q) = .ok (rounded q) := by
  have hcut := cutDecimal_digits (hundredths q / 100) (fraction (hundredths q))
    fun c hc => isDigit_of_mem_fraction hc
  have hsign : cutSign ((fixed q).dropWhile isspace) = (decide (q < 0),
      Nat.toDigits 10 (hundredths q / 100) ++ '.' :: fraction (hundredths q)) := by
    rw [fixed_eq]
    split_ifs with hq
    · rw [decide_eq_true hq]
      rfl
    · obtain ⟨c, rest, hcons, hc⟩ := exists_digit (hundredths q / 100)
      rw [decide_eq_false hq, hcons]
      exact cutSign_of_isDigit hc _
  rw [stod, hsign]
  simp only [hcut]
  rw [if_neg fun h => Nat.toDigits_ne_nil h.1, exponent, decimalValue_fraction]
  have hvalue :
      (if decide (q < 0) = true then -((hundredths q : ℚ) / 100) else hundredths q / 100) =
      if q < 0 then -((hundredths q : ℚ) / 100) else hundredths q / 100 := by
    simp only [decide_eq_true_eq]
  rw [rounded] at h
  rw [hvalue, if_neg (not_outOfRange (abs_hundredths q) h), rounded]

-- The nearest `double` is less than the number.
example : fixed (2675 / 1000) = "2.67".toList := by decide +kernel

theorem hundredths_eq (q : ℚ) : (hundredths q : ℤ) = roundHalfEven (|binary64.round q| * 100) := by
  have hnonneg := roundHalfEven_mono (by positivity : 0 ≤ |binary64.round q| * 100)
  rw [← Int.cast_zero, roundHalfEven_intCast] at hnonneg
  exact Int.toNat_of_nonneg hnonneg

theorem rounded_nonneg {q : ℚ} (h : 0 ≤ q) : 0 ≤ rounded q := by
  rw [rounded, if_neg (not_lt.mpr h)]
  exact round_nonneg (by positivity)

theorem round_le_two_pow {q : ℚ} {e : ℕ} (h : q ≤ 2 ^ e) : binary64.round q ≤ 2 ^ e := by
  refine round_le_of_isFloat ?_ h
  rw [← zpow_natCast]
  exact isFloat_two_zpow (show (-1074 : ℤ) ≤ e by omega)

/-- A bound that two digits after the point can say. -/
theorem rounded_le {q : ℚ} {e : ℕ} (hq : 0 ≤ q) (h : q ≤ 2 ^ e) : rounded q ≤ 2 ^ e := by
  have hround : |binary64.round q| * 100 ≤ ((2 ^ e * 100 : ℤ) : ℚ) := by
    rw [abs_of_nonneg (round_nonneg hq)]
    push_cast
    exact mul_le_mul_of_nonneg_right (round_le_two_pow h) (by norm_num)
  have hhundredths : (hundredths q : ℤ) ≤ 2 ^ e * 100 := by
    rw [hundredths_eq, ← roundHalfEven_intCast (2 ^ e * 100)]
    exact roundHalfEven_mono hround
  rw [rounded, if_neg (not_lt.mpr hq)]
  apply round_le_two_pow
  rw [div_le_iff₀ (by norm_num)]
  exact_mod_cast hhundredths

/-- The `double`s nearest to hundredths are read back as they are. -/
theorem rounded_of_hundredths {q : ℚ} {n : ℕ} (h : |q| = binary64.round (n / 100)) :
    rounded q = q := by
  have hround : |binary64.round q| = |q| := by rw [← round_abs, h, round_round]
  have hmagnitude : binary64.round (hundredths q / 100) = |q| := by
    rw [← Int.cast_natCast, hundredths_eq, hround, h]
    exact round_nearest_div (d := 100) (k := 6) (by norm_num) (by norm_num) (by decide) (by decide)
      n
  rw [rounded]
  split_ifs with hq
  · rw [round_neg, hmagnitude, abs_of_neg hq, neg_neg]
  · rw [hmagnitude, abs_of_nonneg (not_lt.mp hq)]

/-! ### The loop -/

section

variable {Config : Type} {options : List (CommandOption Config)} {config c : Config}

/-- **What accepted arguments leave behind** is where the arguments after them start from. -/
theorem readOptions_append {as : List String} (h : readOptions options config as = .ok (some c))
    (bs : List String) : readOptions options config (as ++ bs) = readOptions options c bs := by
  fun_induction readOptions options config as with
  | case1 config =>
    cases h
    rfl
  | case2 config arg rest hhelp => cases h
  | case3 config arg rest hhelp hfind => cases h
  | case4 config arg hhelp o hfind => cases h
  | case5 config arg hhelp o value rest hfind e happly => cases h
  | case6 config arg hhelp o value rest hfind config' happly ih =>
    rw [List.cons_append, List.cons_append, readOptions.eq_def]
    simp only [if_neg hhelp, hfind, happly]
    exact ih h

/-- An option with a value that it can read. -/
theorem readOptions_cons {flag value : String} {o : CommandOption Config} {rest : List String}
    (hhelp : ¬ (flag = "--help" ∨ flag = "-h")) (hfind : options.find? (·.flag = flag) = some o)
    (happly : o.apply value config = .ok c) :
    readOptions options config (flag :: value :: rest) = readOptions options c rest := by
  rw [readOptions.eq_def]
  simp only [if_neg hhelp, hfind, happly]

end

/-! ### Full command lines -/

namespace CommandOption

variable {Config α : Type} {flag value : String} {set : Config → α → Config} {config : Config}
  {a : α}

theorem apply_named {read : String → Except Error α} (h : read value = .ok a) :
    (named flag read set).apply value config = .ok (set config a) := by
  simp only [named, h]
  rfl

theorem apply_number {read : List Char → Except ParseError α} (h : read value.toList = .ok a) :
    (number flag read set).apply value config = .ok (set config a) := by
  simp only [number, h]
  rfl

end CommandOption

open CommandOption

theorem stoi_intArg {v : ℤ} (h : IsInt v) : stoi (intArg v).toList = .ok v := by
  rw [intArg, String.toList_ofList]
  exact stoi_decimal h

theorem stoull_intArg {n : ℕ} (h : n < 2 ^ 64) : stoull (intArg n).toList = .ok n := by
  rw [intArg, String.toList_ofList]
  exact stoull_decimal h

theorem stod_rateArg {q : ℚ} (h : |rounded q| < 2 ^ 1024) :
    stod (rateArg q).toList = .ok (rounded q) := by
  rw [rateArg, String.toList_ofList]
  exact stod_fixed h

/-- The numbers of a configuration are in the ranges of their types. -/
structure PipelineConfig.InRange (config : PipelineConfig) : Prop where
  ingress_threads : IsInt config.ingress_threads
  worker_threads : IsInt config.worker_threads
  duration : IsInt config.duration
  warmup : IsInt config.warmup
  ingress_queue_capacity : config.ingress_queue_capacity < 2 ^ 64
  worker_queue_capacity : config.worker_queue_capacity < 2 ^ 64

/-- The arguments that set every field, with the names and the rate as they are written. -/
def PipelineMain.arguments (topology shared_queue dispatch_queue policy wait_strategy : String)
    (rate : ℚ) (config : PipelineConfig) : List String :=
  ["--topology", topology, "--shared-queue", shared_queue, "--dispatch-queue", dispatch_queue,
    "--ingress", intArg config.ingress_threads, "--workers", intArg config.worker_threads,
    "--duration-ms", intArg config.duration, "--warmup-ms", intArg config.warmup,
    "--capacity", intArg config.ingress_queue_capacity,
    "--worker-capacity", intArg config.worker_queue_capacity,
    "--rate", rateArg rate, "--policy", policy, "--wait-strategy", wait_strategy,
    "--service-ns", intArg config.service_ns.toNat, "--jitter-ns", intArg config.jitter_ns.toNat]

/-- **Arguments that set every field** are read, whatever stands before them. -/
theorem PipelineMain.parseArgs_arguments {before : List String} {c config : PipelineConfig}
    {topology shared_queue dispatch_queue policy wait_strategy : String} {rate : ℚ}
    (hbefore : parseArgs before = .ok (some c)) (hrange : config.InRange)
    (htopology : parsePipelineTopology topology = .ok config.topology)
    (hshared : parseQueueKind shared_queue = .ok config.shared_queue_kind)
    (hdispatch : parseQueueKind dispatch_queue = .ok config.dispatch_queue_kind)
    (hpolicy : parsePolicy policy = .ok config.policy)
    (hwait : parseWaitStrategy wait_strategy = .ok config.wait_strategy)
    (hrate : config.rate_per_ingress = rounded rate) (hdouble : |rounded rate| < 2 ^ 1024) :
    parseArgs (before ++
      arguments topology shared_queue dispatch_queue policy wait_strategy rate config) =
        .ok (some config) := by
  rw [parseArgs, readOptions_append hbefore, arguments]
  rw [readOptions_cons (by decide) rfl (apply_named htopology),
    readOptions_cons (by decide) rfl (apply_named hshared),
    readOptions_cons (by decide) rfl (apply_named hdispatch),
    readOptions_cons (by decide) rfl (apply_number (stoi_intArg hrange.ingress_threads)),
    readOptions_cons (by decide) rfl (apply_number (stoi_intArg hrange.worker_threads)),
    readOptions_cons (by decide) rfl (apply_number (stoi_intArg hrange.duration)),
    readOptions_cons (by decide) rfl (apply_number (stoi_intArg hrange.warmup)),
    readOptions_cons (by decide) rfl
      (apply_number (stoull_intArg hrange.ingress_queue_capacity)),
    readOptions_cons (by decide) rfl
      (apply_number (stoull_intArg hrange.worker_queue_capacity)),
    readOptions_cons (by decide) rfl (apply_number (stod_rateArg hdouble)),
    readOptions_cons (by decide) rfl (apply_named hpolicy),
    readOptions_cons (by decide) rfl (apply_named hwait),
    readOptions_cons (by decide) rfl (apply_number (stoull_intArg config.service_ns.toNat_lt)),
    readOptions_cons (by decide) rfl (apply_number (stoull_intArg config.jitter_ns.toNat_lt)),
    readOptions]
  simp only [← hrate, UInt64.ofNat_toNat]

/-- A rate that two digits after the point can say: the `double` nearest to hundredths. -/
def IsHundredths (q : ℚ) : Prop := (∃ n : ℤ, q = binary64.round (n / 100)) ∧ |q| < 2 ^ 1024

theorem IsHundredths.rounded_eq {q : ℚ} (h : IsHundredths q) : rounded q = q := by
  obtain ⟨⟨n, rfl⟩, -⟩ := h
  refine rounded_of_hundredths (n := n.natAbs) ?_
  rw [← round_abs, abs_div, Nat.abs_ofNat, Nat.cast_natAbs, Int.cast_abs]

theorem IsHundredths.abs_rounded_lt {q : ℚ} (h : IsHundredths q) : |rounded q| < 2 ^ 1024 := by
  rw [h.rounded_eq]
  exact h.2

/-- A command line that gives a configuration. -/
def PipelineMain.commandLine (config : PipelineConfig) : List String :=
  arguments (pipelineTopologyName config.topology) (queueKindName config.shared_queue_kind)
    (queueKindName config.dispatch_queue_kind) (policyName config.policy)
    (waitStrategyName config.wait_strategy) config.rate_per_ingress config

structure ScenarioConfig.InRange (config : ScenarioConfig) : Prop where
  duration : IsInt config.duration
  warmup : IsInt config.warmup
  producers : IsInt config.producers
  consumers : IsInt config.consumers
  capacity : config.capacity < 2 ^ 64

def ScenarioMain.commandLine (config : ScenarioConfig) : List String :=
  ["--duration", intArg config.duration, "--warmup", intArg config.warmup,
    "--producers", intArg config.producers, "--consumers", intArg config.consumers,
    "--capacity", intArg config.capacity, "--rate", rateArg config.rate_per_producer,
    "--policy", policyName config.policy, "--queue", config.queue_type,
    "--wait-strategy", waitStrategyName config.wait_strategy]

theorem ScenarioMain.parseArgs_commandLine {before : List String} {c config : ScenarioConfig}
    (hbefore : parseArgs before = .ok (some c)) (hrange : config.InRange)
    (hrate : IsHundredths config.rate_per_producer) :
    parseArgs (before ++ commandLine config) = .ok (some config) := by
  rw [parseArgs, readOptions_append hbefore, commandLine]
  rw [readOptions_cons (by decide) rfl (apply_number (stoi_intArg hrange.duration)),
    readOptions_cons (by decide) rfl (apply_number (stoi_intArg hrange.warmup)),
    readOptions_cons (by decide) rfl (apply_number (stoi_intArg hrange.producers)),
    readOptions_cons (by decide) rfl (apply_number (stoi_intArg hrange.consumers)),
    readOptions_cons (by decide) rfl (apply_number (stoull_intArg hrange.capacity)),
    readOptions_cons (by decide) rfl (apply_number (stod_rateArg hrate.abs_rounded_lt)),
    readOptions_cons (by decide) rfl (apply_named (parsePolicy_name config.policy)),
    readOptions_cons (by decide) rfl (apply_named rfl),
    readOptions_cons (by decide) rfl
      (apply_named (parseWaitStrategy_name config.wait_strategy)),
    readOptions]
  simp only [hrate.rounded_eq]

/-- **Every configuration can be said on a command line**, of either program: its numbers have to be
in the ranges of their types, and its rate has to be the `double` nearest to a number with two
digits after the point.  Whatever accepted arguments stand before it make no difference. -/
theorem commandLine :
    (∀ (before : List String) (c config : PipelineConfig),
      PipelineMain.parseArgs before = .ok (some c) → config.InRange →
      IsHundredths config.rate_per_ingress →
      PipelineMain.parseArgs (before ++ PipelineMain.commandLine config) = .ok (some config)) ∧
    ∀ (before : List String) (c config : ScenarioConfig),
      ScenarioMain.parseArgs before = .ok (some c) → config.InRange →
      IsHundredths config.rate_per_producer →
      ScenarioMain.parseArgs (before ++ ScenarioMain.commandLine config) = .ok (some config) := by
  refine ⟨fun before c config hbefore hrange hrate => ?_,
    fun before c config hbefore hrange hrate =>
      ScenarioMain.parseArgs_commandLine hbefore hrange hrate⟩
  exact PipelineMain.parseArgs_arguments hbefore hrange (parsePipelineTopology_name _)
    (parseQueueKind_name _) (parseQueueKind_name _) (parsePolicy_name _) (parseWaitStrategy_name _)
    hrate.rounded_eq.symm hrate.abs_rounded_lt

/-- Of two numbers of ingress threads the second counts, and a capacity is replaced. -/
theorem commandLine_twice :
    PipelineMain.parseArgs (["--ingress", "3", "--capacity", "7"] ++
        PipelineMain.commandLine { rate_per_ingress := binary64.round (67 / 100) }) =
      .ok (some { rate_per_ingress := binary64.round (67 / 100) }) :=
  commandLine.1 ["--ingress", "3", "--capacity", "7"]
    { ingress_threads := 3, ingress_queue_capacity := 7 } _ (by decide +kernel)
    ⟨by decide, by decide, by decide, by decide, by decide, by decide⟩
    ⟨⟨67, by norm_num⟩, by decide +kernel⟩

end Laboratory.QueueLatency
