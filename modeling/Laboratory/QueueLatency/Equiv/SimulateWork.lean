import Laboratory.Algorithm.BitLinear
import Laboratory.QueueLatency.SimulateWork
import Mathlib.Algebra.BigOperators.Associated
import Mathlib.Data.FinEnum
import Mathlib.Data.List.Prime
import Mathlib.Tactic.NormNum.Prime

/-!
# Simulated work

`never_degenerates`: the pseudo-random sequence of a worker does not come to zero, runs through a
cycle, and keeps apart from the sequences of the other workers (`rngAfter_ne`).

`workDefined_iff`: no call of `simulateWork` divides by zero or waits a time that is out of range,
exactly if `jitter_ns + 1` and `service_ns + jitter_ns` fit in 64 bits.

That the bound is needed for every configuration rests on the pseudo-random sequence: it comes by
every number other than zero (`exists_nextRandom`), hence by one that makes the time overflow.
-/

namespace Laboratory.QueueLatency

open Algorithm Function

/-! ### The pseudo-random sequence -/

/-- The step of the sequence on bit vectors. -/
def nextBits (v : BitVec 64) : BitVec 64 := (nextRandom (.ofBitVec v)).toBitVec

theorem nextBits_eq :
    nextBits = (fun v : BitVec 64 => v ^^^ v <<< 17) ∘ (fun v : BitVec 64 => v ^^^ v >>> 7) ∘
      fun v : BitVec 64 => v ^^^ v <<< 13 :=
  rfl

theorem bitLinear_nextBits : BitLinear nextBits := by
  rw [nextBits_eq]
  exact (bitLinear_xorShiftLeft 17).comp
    ((bitLinear_xorShiftRight 7).comp (bitLinear_xorShiftLeft 13))

theorem injective_nextBits : Injective nextBits := by
  rw [nextBits_eq]
  exact (injective_xorShiftLeft (by decide)).comp
    ((injective_xorShiftRight (by decide)).comp (injective_xorShiftLeft (by decide)))

/-- **No two states have the same successor.** -/
theorem injective_nextRandom : Injective nextRandom := by
  intro a b hab
  apply UInt64.toBitVec_inj.mp
  exact injective_nextBits (congrArg UInt64.toBitVec hab)

theorem nextRandom_zero : nextRandom 0 = 0 := rfl

theorem nextRandom_ne_zero {a : UInt64} (ha : a ≠ 0) : nextRandom a ≠ 0 := by
  rw [← nextRandom_zero]
  exact injective_nextRandom.ne ha

theorem iterate_nextRandom_ne_zero {a : UInt64} (ha : a ≠ 0) (n : ℕ) : nextRandom^[n] a ≠ 0 := by
  intro h
  rw [← iterate_fixed nextRandom_zero n] at h
  exact ha (injective_nextRandom.iterate n h)

/-! ### The period of the sequence -/

/-- The power 64 of the step, as a polynomial of smaller degree. -/
def low : ℕ := 0x13ed4a358913201

theorem iterate_low : nextBits^[64] 1#64 = comb nextBits 64 low 1#64 := by
  decide +kernel

/-- The powers that decide on the period. -/
theorem power_low :
    power 63 low 64 (2 ^ 64 - 1) = 1 ∧
      ∀ p ∈ [3, 5, 17, 257, 641, 65537, 6700417],
        comb nextBits 64 (power 63 low 64 ((2 ^ 64 - 1) / p)) 1#64 ≠ 1#64 := by
  refine ⟨by decide +kernel, fun p hp => ?_⟩
  -- One power after the other: together they take the kernel too much memory.
  simp only [List.mem_cons, List.not_mem_nil, or_false] at hp
  rcases hp with rfl | rfl | rfl | rfl | rfl | rfl | rfl <;> decide +kernel

/-- The prime factors of the number of states other than zero. -/
theorem mem_of_prime_dvd {p : ℕ} (hp : p.Prime) (h : p ∣ 2 ^ 64 - 1) :
    p ∈ [3, 5, 17, 257, 641, 65537, 6700417] := by
  have hprod : 2 ^ 64 - 1 = [3, 5, 17, 257, 641, 65537, 6700417].prod := by norm_num
  rw [hprod] at h
  obtain ⟨q, hq, hdvd⟩ := (Prime.dvd_prod_iff (Nat.Prime.prime hp)).mp h
  have hprime : q.Prime := by
    simp only [List.mem_cons, List.not_mem_nil, or_false] at hq
    rcases hq with rfl | rfl | rfl | rfl | rfl | rfl | rfl <;> norm_num
  rwa [(Nat.prime_dvd_prime_iff_eq hp hprime).mp hdvd]

/-- **The sequence has the longest period.** -/
theorem minimalPeriod_nextBits : minimalPeriod nextBits 1#64 = 2 ^ 64 - 1 := by
  have hiterate {n : ℕ} (hn : n < 2 ^ 64) :
      nextBits^[n] 1#64 = comb nextBits 64 (power 63 low 64 n) 1#64 := by
    rw [comb_power bitLinear_nextBits iterate_low, Nat.mod_eq_of_lt hn]
  apply minimalPeriod_eq
  · rw [hiterate (by norm_num), power_low.1]
    exact comb_one bitLinear_nextBits 63 _
  · intro p hp hdvd
    rw [hiterate ((Nat.div_le_self _ _).trans_lt (by norm_num))]
    exact power_low.2 p (mem_of_prime_dvd hp hdvd)

/-- **Every number comes up**: from every state other than zero the sequence comes by every other
one. -/
theorem exists_nextRandom {a b : UInt64} (ha : a ≠ 0) (hb : b ≠ 0) :
    ∃ n, nextRandom^[n] a = b := by
  have hne {c : UInt64} (hc : c ≠ 0) : c.toBitVec ≠ 0#64 := by
    intro h
    exact hc (UInt64.toBitVec_inj.mp h)
  obtain ⟨n, hn⟩ := exists_iterate_eq bitLinear_nextBits (by decide) minimalPeriod_nextBits (hne ha)
    (hne hb)
  have hsemiconj : Semiconj UInt64.toBitVec nextRandom nextBits := fun _ => rfl
  refine ⟨n, UInt64.toBitVec_inj.mp ?_⟩
  rw [hsemiconj.iterate_right n a]
  exact hn

/-! ### The states of the workers -/

theorem toNat_ofNat_worker {worker_index : ℕ} (h : worker_index < 2 ^ 31 - 1) :
    (UInt64.ofNat (worker_index + 1)).toNat = worker_index + 1 := by
  have hsize : UInt64.size = 2 ^ 64 := rfl
  have hlt : worker_index + 1 < UInt64.size := by omega
  exact UInt64.toNat_ofNat_of_lt' hlt

/-- No worker starts with the state zero: the constants do not fit in 31 bits. -/
theorem rng_ne_zero (topology : PipelineTopology) {worker_index : ℕ}
    (h : worker_index < 2 ^ 31 - 1) : topology.rng worker_index ≠ 0 := by
  have hne {seed : UInt64} (hseed : 2 ^ 31 ≤ seed.toNat) :
      seed ^^^ UInt64.ofNat (worker_index + 1) ≠ 0 := by
    intro hzero
    rw [UInt64.xor_eq_zero_iff.mp hzero, toNat_ofNat_worker h] at hseed
    omega
  cases topology with
  | sharedQueue => exact hne (by decide)
  | dispatchLocalSpsc => exact hne (by decide)
  | directLocalSpsc => exact hne (by decide)

/-- Different workers start with different states. -/
theorem rng_injective (topology : PipelineTopology) {i j : ℕ} (hi : i < 2 ^ 31 - 1)
    (hj : j < 2 ^ 31 - 1) (h : topology.rng i = topology.rng j) : i = j := by
  have hofNat : UInt64.ofNat (i + 1) = UInt64.ofNat (j + 1) := by
    cases topology <;> exact (UInt64.xor_right_inj _).mp h
  have htoNat := congrArg UInt64.toNat hofNat
  rw [toNat_ofNat_worker hi, toNat_ofNat_worker hj] at htoNat
  omega

/-- No worker comes to the state zero. -/
theorem iterate_rng_ne_zero (topology : PipelineTopology) {worker_index : ℕ}
    (h : worker_index < 2 ^ 31 - 1) (n : ℕ) : nextRandom^[n] (topology.rng worker_index) ≠ 0 :=
  iterate_nextRandom_ne_zero (rng_ne_zero topology h) n

/-- Different workers have different states after the same number of draws. -/
theorem iterate_rng_injective (topology : PipelineTopology) {i j : ℕ} (hi : i < 2 ^ 31 - 1)
    (hj : j < 2 ^ 31 - 1) {n : ℕ}
    (h : nextRandom^[n] (topology.rng i) = nextRandom^[n] (topology.rng j)) : i = j :=
  rng_injective topology hi hj (injective_nextRandom.iterate n h)

/-- **The generator never degenerates.** The step is injective; a worker does not come to the state
zero, every state that it comes to lies on a cycle through the state it started with, and no other
worker has that state after as many draws. -/
theorem never_degenerates :
    Injective nextRandom ∧
      ∀ (topology : PipelineTopology), ∀ worker_index < 2 ^ 31 - 1, ∀ n,
        nextRandom^[n] (topology.rng worker_index) ≠ 0 ∧
          (∃ p > 0,
            nextRandom^[p] (nextRandom^[n] (topology.rng worker_index)) =
                nextRandom^[n] (topology.rng worker_index) ∧
              ∃ m < p, nextRandom^[m] (nextRandom^[n] (topology.rng worker_index)) =
                topology.rng worker_index) ∧
          ∀ other < 2 ^ 31 - 1, other ≠ worker_index →
            nextRandom^[n] (topology.rng other) ≠ nextRandom^[n] (topology.rng worker_index) := by
  refine ⟨injective_nextRandom, fun topology worker_index h n => ⟨?_, ?_, ?_⟩⟩
  · exact iterate_rng_ne_zero topology h n
  · exact exists_returns injective_nextRandom (topology.rng worker_index) n
  · intro other hother hne heq
    exact hne (iterate_rng_injective topology hother h heq)

/-- The first two workers of a shared queue. -/
theorem never_degenerates_sharedQueue :
    nextRandom^[10] (PipelineTopology.sharedQueue.rng 0) ≠ 0 ∧
      nextRandom^[10] (PipelineTopology.sharedQueue.rng 1) ≠
        nextRandom^[10] (PipelineTopology.sharedQueue.rng 0) := by
  obtain ⟨hzero, -, hother⟩ := never_degenerates.2 .sharedQueue 0 (by decide) 10
  exact ⟨hzero, hother 1 (by decide) (by decide)⟩

/-! ### The calls -/

section

variable {service_ns jitter_ns : UInt64}

theorem toNat_add_one (h : jitter_ns.toNat + 1 < 2 ^ 64) :
    (jitter_ns + 1).toNat = jitter_ns.toNat + 1 := by
  rw [UInt64.toNat_add]
  exact Nat.mod_eq_of_lt h

/-- A call with jitter. -/
theorem simulateWork_of_pos (hpos : 0 < jitter_ns.toNat) (h : jitter_ns.toNat + 1 < 2 ^ 64)
    (rng : UInt64) : simulateWork service_ns jitter_ns rng =
      some (service_ns + nextRandom rng % (jitter_ns + 1), nextRandom rng) := by
  have hne : jitter_ns ≠ 0 := by
    rintro rfl
    exact absurd hpos (Nat.lt_irrefl 0)
  have hsucc : jitter_ns + 1 ≠ 0 := by
    intro hzero
    have htoNat := toNat_add_one h
    rw [hzero] at htoNat
    exact absurd htoNat (by simp)
  have hlt : jitter_ns > 0 := by
    rw [gt_iff_lt, UInt64.lt_iff_toNat_lt]
    exact hpos
  rw [simulateWork, if_neg fun hzero => hne hzero.2, if_pos hlt]
  exact if_neg hsucc

/-- A call without jitter. -/
theorem simulateWork_zero (service_ns rng : UInt64) :
    simulateWork service_ns 0 rng = some (service_ns, rng) := by
  unfold simulateWork
  split_ifs with hzero hjitter
  · rw [hzero.1]
  · exact absurd hjitter (by decide)
  · exact absurd hjitter (by decide)
  · rfl

/-- **A call in range.** -/
theorem exists_simulateWork (hj : jitter_ns.toNat + 1 < 2 ^ 64)
    (hs : service_ns.toNat + jitter_ns.toNat < 2 ^ 64) (rng : UInt64) :
    ∃ total_ns rng', simulateWork service_ns jitter_ns rng = some (total_ns, rng') ∧
      service_ns.toNat ≤ total_ns.toNat ∧
      total_ns.toNat ≤ service_ns.toNat + jitter_ns.toNat := by
  rcases Nat.eq_zero_or_pos jitter_ns.toNat with hzero | hpos
  · obtain rfl : jitter_ns = 0 := UInt64.toNat_inj.mp hzero
    exact ⟨_, _, simulateWork_zero .., le_rfl, Nat.le_add_right ..⟩
  · refine ⟨_, _, simulateWork_of_pos hpos hj rng, ?_⟩
    have hdraw : (nextRandom rng % (jitter_ns + 1)).toNat ≤ jitter_ns.toNat := by
      rw [UInt64.toNat_mod, toNat_add_one hj]
      exact Nat.lt_succ_iff.mp (Nat.mod_lt _ (Nat.succ_pos _))
    rw [UInt64.toNat_add, Nat.mod_eq_of_lt (by omega)]
    omega

end

variable {config : PipelineConfig}

/-- With jitter, every call draws one number. -/
theorem rngAfter_eq (hpos : 0 < config.jitter_ns.toNat) (h : config.jitter_ns.toNat + 1 < 2 ^ 64)
    (worker_index n : ℕ) :
    config.rngAfter worker_index n = some (nextRandom^[n] (config.topology.rng worker_index)) := by
  induction n with
  | zero => rfl
  | succ n ih =>
    rw [PipelineConfig.rngAfter, ih, iterate_succ_apply', Option.bind_some,
      simulateWork_of_pos hpos h]
    rfl

/-- Without jitter, no call draws a number. -/
theorem rngAfter_zero (h : config.jitter_ns = 0) (worker_index n : ℕ) :
    config.rngAfter worker_index n = some (config.topology.rng worker_index) := by
  induction n with
  | zero => rfl
  | succ n ih =>
    rw [PipelineConfig.rngAfter, ih, Option.bind_some, h, simulateWork_zero]
    rfl

/-- Where calls do not divide by zero, all workers draw equally many numbers. -/
theorem exists_rngAfter (h : config.jitter_ns.toNat + 1 < 2 ^ 64) (n : ℕ) :
    ∃ draws, ∀ worker_index,
      config.rngAfter worker_index n =
        some (nextRandom^[draws] (config.topology.rng worker_index)) := by
  rcases Nat.eq_zero_or_pos config.jitter_ns.toNat with hzero | hpos
  · exact ⟨0, fun worker_index => rngAfter_zero (UInt64.toNat_inj.mp hzero) worker_index n⟩
  · exact ⟨n, fun worker_index => rngAfter_eq hpos h worker_index n⟩

/-- With any jitter that does not make a call divide by zero, the states of the workers stay
different and other than zero. -/
theorem rngAfter_ne (h : config.jitter_ns.toNat + 1 < 2 ^ 64) {i j : ℕ} (hi : i < 2 ^ 31 - 1)
    (hj : j < 2 ^ 31 - 1) (hij : i ≠ j) (n : ℕ) :
    config.rngAfter i n ≠ some 0 ∧ config.rngAfter i n ≠ config.rngAfter j n := by
  obtain ⟨draws, hrng⟩ := exists_rngAfter h n
  rw [hrng i, hrng j]
  constructor
  · intro hzero
    exact iterate_rng_ne_zero config.topology hi draws (Option.some_inj.mp hzero)
  · intro heq
    exact hij (iterate_rng_injective config.topology hi hj (Option.some_inj.mp heq))

/-- The largest jitter makes the first call divide by zero. -/
theorem total_ns_eq_none (h : ¬ config.jitter_ns.toNat + 1 < 2 ^ 64) (worker_index : ℕ) :
    config.total_ns worker_index 0 = none := by
  have hjitter : config.jitter_ns = 0xffffffffffffffff := by
    have hlt := config.jitter_ns.toNat_lt
    apply UInt64.toNat_inj.mp
    change config.jitter_ns.toNat = 2 ^ 64 - 1
    omega
  rw [PipelineConfig.total_ns, PipelineConfig.rngAfter, hjitter, Option.bind_some,
    simulateWork, if_neg (by simp)]
  rfl

/-- With jitter, the time of a call is drawn from the sequence. -/
theorem total_ns_eq (hpos : 0 < config.jitter_ns.toNat) (h : config.jitter_ns.toNat + 1 < 2 ^ 64)
    (worker_index n : ℕ) :
    config.total_ns worker_index n =
      some (config.service_ns +
        nextRandom^[n + 1] (config.topology.rng worker_index) % (config.jitter_ns + 1)) := by
  rw [PipelineConfig.total_ns, rngAfter_eq hpos h, Option.bind_some, simulateWork_of_pos hpos h,
    iterate_succ_apply']
  rfl

/-- **The whole jitter comes up**: the sequence comes by `jitter_ns` itself, the largest
remainder. -/
theorem exists_total_ns (hpos : 0 < config.jitter_ns.toNat)
    (h : config.jitter_ns.toNat + 1 < 2 ^ 64) {worker_index : ℕ}
    (hworker : worker_index < 2 ^ 31 - 1) :
    ∃ n, config.total_ns worker_index n = some (config.service_ns + config.jitter_ns) := by
  have hne : config.jitter_ns ≠ 0 := by
    intro hzero
    rw [hzero] at hpos
    exact absurd hpos (Nat.lt_irrefl 0)
  obtain ⟨n, hn⟩ :=
    exists_nextRandom (nextRandom_ne_zero (rng_ne_zero config.topology hworker)) hne
  have hdraw : config.jitter_ns % (config.jitter_ns + 1) = config.jitter_ns := by
    apply UInt64.toNat_inj.mp
    rw [UInt64.toNat_mod, toNat_add_one h]
    exact Nat.mod_eq_of_lt (Nat.lt_succ_self _)
  refine ⟨n, ?_⟩
  rw [total_ns_eq hpos h, iterate_succ_apply, hn, hdraw]

/-- **Exactly then is the work defined.** The accepted configurations are not bounded: the checks do
not look at the two times. -/
theorem workDefined_iff (config : AcceptedConfig) :
    config.WorkDefined ↔ config.jitter_ns.toNat + 1 < 2 ^ 64 ∧
      config.service_ns.toNat + config.jitter_ns.toNat < 2 ^ 64 := by
  have hworker : 0 < config.workers := NeZero.pos _
  constructor
  · intro h
    have hj : config.jitter_ns.toNat + 1 < 2 ^ 64 := by
      by_contra hmax
      obtain ⟨total_ns, htotal, -⟩ := h 0 hworker 0
      rw [total_ns_eq_none hmax] at htotal
      cases htotal
    refine ⟨hj, ?_⟩
    by_contra hs
    have hpos : 0 < config.jitter_ns.toNat := by
      have := config.service_ns.toNat_lt
      omega
    obtain ⟨n, hn⟩ := exists_total_ns hpos hj (show 0 < 2 ^ 31 - 1 by decide)
    obtain ⟨total_ns, htotal, hle, -⟩ := h 0 hworker n
    rw [hn, Option.some_inj] at htotal
    -- The sum has wrapped around, so that the call waits less than `service_ns`.
    have hwrap : total_ns.toNat + 2 ^ 64 = config.service_ns.toNat + config.jitter_ns.toNat := by
      rw [← htotal, UInt64.toNat_add]
      have := config.service_ns.toNat_lt
      omega
    omega
  · rintro ⟨hj, hs⟩ worker_index - n
    obtain ⟨draws, hrng⟩ := exists_rngAfter hj n
    obtain ⟨total_ns, rng', hcall, hrange⟩ := exists_simulateWork hj hs _
    refine ⟨total_ns, ?_, hrange⟩
    rw [PipelineConfig.total_ns, hrng, Option.bind_some, hcall]
    rfl

/-- The largest jitter is accepted, and divides by zero. -/
theorem work_undefined :
    validatePipelineConfig { jitter_ns := 0xffffffffffffffff } = .ok () ∧
      ¬ PipelineConfig.WorkDefined { jitter_ns := 0xffffffffffffffff } := by
  refine ⟨by decide, fun h => ?_⟩
  have hnone : PipelineConfig.total_ns { jitter_ns := 0xffffffffffffffff } 0 0 = none :=
    rfl
  obtain ⟨total_ns, htotal, -⟩ := h 0 (by decide) 0
  rw [hnone] at htotal
  cases htotal

end Laboratory.QueueLatency
