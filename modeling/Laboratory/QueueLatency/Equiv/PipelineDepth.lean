import Laboratory.QueueLatency.Equiv.Capacity
import Laboratory.QueueLatency.Equiv.PipelineReport

/-!
# The depths that a run reports

`reported_depth`: no run of a pipeline reports a greater depth than its queues have capacity.

The bound of a `GlobalLockQueue` needs stop flags that are never lowered.  In a pipeline the flag of
every ingress thread is `ingress_stop`, so the main thread raises all of them in one step, and
`Program.flagReachable` follows a queue of a program together with such flags.
-/

namespace Laboratory.QueueLatency

open Relation (ReflTransGen)

/-! ### Flags that are never lowered -/

section

variable {ι : Type} [DecidableEq ι] {Q : IEventQueue ι} {Allowed : ι → Call → Prop}

/-- Flags may be raised, one after the other. -/
theorem raise_flags [Fintype ι] (s : QState Q) {stop stop' : ι → Bool}
    (h : ∀ i, stop i = true → stop' i = true) :
    ReflTransGen (FlagStep Q Allowed) (s, stop) (s, stop') := by
  have hsome (A : Finset ι) : ReflTransGen (FlagStep Q Allowed) (s, stop)
      (s, fun i => if i ∈ A then stop' i else stop i) := by
    induction A using Finset.induction_on with
    | empty => exact .refl
    | insert i A hi ih =>
      cases hup : stop' i with
      | true =>
        convert ih.tail (.raise i) using 2
        funext j
        by_cases hj : j = i
        · subst hj
          simp [hup]
        · simp [hj]
      | false =>
        have hdown : stop i = false := by
          cases hs : stop i with
          | false => rfl
          | true => rw [h i hs] at hup; cases hup
        convert ih using 2
        funext j
        by_cases hj : j = i
        · subst hj
          simp [hup, hdown, hi]
        · simp [hj]
  simpa using hsome Finset.univ

/-- Without the flags these are runs of the queue. -/
theorem FlagReachable.reachable {s : QState Q} {stop : ι → Bool}
    (h : FlagReachable Q Allowed (s, stop)) : QReachable Q Allowed s := by
  have hall {a : QState Q × (ι → Bool)} (ha : FlagReachable Q Allowed a) :
      QReachable Q Allowed a.1 := by
    induction ha with
    | refl => exact .refl
    | tail _ hstep ih =>
      rcases hstep.qstep with heq | hq
      · rwa [heq]
      · exact ih.tail hq
  exact hall h

end

/-- **A queue of a program and its flags**, when the program never lowers a flag. -/
theorem Program.flagReachable {κ τ : Type} [DecidableEq κ] [DecidableEq τ] [Fintype τ]
    {P : Program κ τ} {s : P.State} {q : κ} (flags : P.State → τ → Bool)
    (hflags : ∀ (c : P.Choice) s, (c.env s).stop = flags s c.thread)
    (hmono : ∀ {c : P.Choice} {s s' : P.State}, P.step c s = some s' → ∀ t, flags s t = true →
      flags s' t = true) (h : P.Reachable s) :
    FlagReachable (P.queue q) (fun _ _ => True) (s.queue q, flags s) := by
  induction h with
  | refl => exact raise_flags _ nofun
  | @tail s s' hreach hstep ih =>
    obtain ⟨c, -, hc⟩ := hstep
    refine ReflTransGen.trans ?_ (raise_flags (s'.queue q) (hmono hc))
    cases step_at q hc with
    | own free acts loc queue => rwa [queue]
    | away loc queue => rwa [queue]
    | back other calling returned loc queue => rwa [queue]
    | @enter call free acts loc queue =>
      have hframe := (framed_of_reachableIf hreach).frame_eq_none (t := c.thread) (q := q)
        (by rw [free]; rintro ⟨⟩)
      -- The flag is passed as it is.
      have hcall := ih.tail (.call (c := call) (flags s c.thread) hframe trivial)
      rw [Function.update_eq_self] at hcall
      rw [queue]
      exact hcall
    | leave calling returned loc queue =>
      rw [queue]
      exact ih.tail (.leave returned)
    | inside calling moves loc => exact ih.tail (.step moves (hflags c s))

/-! ### The maximum of a queue -/

/-- The maximum that a queue keeps lies within its capacity. -/
theorem makeQueue_max_le {ι : Type} [DecidableEq ι] [Fintype ι] {max_size : ℕ} {kind : QueueKind}
    {capacity : ℕ} {options : QueueOptions} {Q : IEventQueue ι}
    (hQ : makeQueue ι max_size kind capacity options = .ok Q) (hcap : 0 < capacity)
    (hring : kind = .spscRing → capacity + 1 < 2 ^ 64) {s : QState Q} {stop : ι → Bool}
    (h : FlagReachable Q (fun _ _ => True) (s, stop)) :
    (Q.stats s.shared).max_observed_depth ≤ capacity := by
  cases kind with
  | globalLock =>
    cases hQ
    exact (GlobalLockQueue.withinCapacity hcap h).max_le
  | splitLockLinked =>
    cases hQ
    exact (SplitLockLinkedQueue.withinCapacity hcap h.reachable).max_le
  | mpmcRing =>
    simp only [makeQueue] at hQ
    split_ifs at hQ
    cases hQ
    exact (MpmcRingQueue.withinCapacity hcap h.reachable).max_le
  | spscRing =>
    simp only [makeQueue] at hQ
    split_ifs at hQ
    cases hQ
    exact SpscRingQueue.depthLaw.max_le id rfl (fun _ _ hstep => .inr hstep)
      (fun _ hs => SpscRingQueue.handsWithin (hring rfl) hs) h.reachable

theorem max_observed_depth_foldl {n : ℤ} {dst : QueueStats} {srcs : List QueueStats}
    (hdst : dst.max_observed_depth ≤ n) (hsrcs : ∀ src ∈ srcs, src.max_observed_depth ≤ n) :
    (srcs.foldl mergeQueueStats dst).max_observed_depth ≤ n := by
  induction srcs generalizing dst with
  | nil => exact hdst
  | cons src srcs ih =>
    rw [List.forall_mem_cons] at hsrcs
    exact ih (max_le hdst hsrcs.1) hsrcs.2

/-! ### The depths of a run -/

namespace Pipeline

variable {P W : ℕ} [NeZero W] {S : Pipeline P W} {config : PipelineConfig} {times : Times}

/-- The flags of the threads. -/
def flags (s : (S.program config times).State) : Thread P W → Bool
  | .ingress _ => PipelineState.ingress_stop s.glob
  | _ => false

theorem flagReachable {s : (S.program config times).State} {q : S.QueueId}
    (h : (S.program config times).Reachable s) :
    FlagReachable (S.queue q) (fun _ _ => True) (s.queue q, flags s) := by
  refine Program.flagReachable flags (fun c s => ?_) (fun hstep t ht => ?_) h
  · obtain ⟨t, now, spurious, wake, addr⟩ := c
    cases t <;> rfl
  · cases t with
    | ingress k => exact ingress_stop_mono hstep ht
    | dispatcher => cases ht
    | worker k => cases ht
    | main => cases ht

theorem max_stats_le {max_size : ℕ} {s : (S.program config times).State}
    (h : (S.program config times).Reachable s) {q : S.QueueId} {kind : QueueKind} {capacity : ℕ}
    {options : QueueOptions}
    (hQ : makeQueue (Thread P W) max_size kind capacity options = .ok (S.queue q))
    (hcap : 0 < capacity) (hring : kind = .spscRing → capacity + 1 < 2 ^ 64) :
    ((S.queue q).stats (s.queue q).shared).max_observed_depth ≤ capacity :=
  makeQueue_max_le hQ hcap hring (flagReachable h)

end Pipeline

open Pipeline

variable {config : AcceptedConfig} {max_size : ℕ} {global_start : ℤ} {result : PipelineResult}

/-- **No run reports a greater depth than its queues have capacity.** A ring for one producer and
one consumer has one slot more than its capacity, which 64 bits have to count. -/
theorem reported_depth (h : Returns max_size config global_start result)
    (hworker : config.worker_queue_capacity + 1 < 2 ^ 64) :
    result.ingress_queue_stats.max_observed_depth ≤ config.ingress_queue_capacity ∧
      result.worker_queue_stats.max_observed_depth ≤ config.worker_queue_capacity := by
  obtain ⟨S, hS, s, x, now, hclocked, -, rfl⟩ := h
  have hreach := hclocked.observed.reachable
  have hingress := config.valid.ingress_queue_capacity
  have hzero (n : ℕ) : QueueStats.max_observed_depth {} ≤ n := Int.natCast_nonneg n
  rw [runPipelineScenario_eq] at hS
  split at hS
  · rename_i htop
    obtain ⟨Q, hQ, hS⟩ := bind_eq_ok hS
    cases hS
    have hkind := config.valid.shared htop
    exact ⟨max_stats_le hreach hQ hingress fun heq => absurd heq hkind, hzero _⟩
  · rename_i htop
    have hne : config.topology ≠ .sharedQueue := by simp [htop]
    obtain ⟨Q, hQ, hS⟩ := bind_eq_ok hS
    obtain ⟨R, hR, hS⟩ := bind_eq_ok hS
    cases hS
    have hkind := config.valid.dispatch hne
    refine ⟨max_stats_le hreach hQ hingress fun heq => absurd heq hkind,
      max_observed_depth_foldl (hzero _) fun src hsrc => ?_⟩
    obtain ⟨q, hq, rfl⟩ := List.mem_map.mp hsrc
    obtain ⟨k, -, rfl⟩ := List.mem_map.mp hq
    exact max_stats_le hreach hR (config.valid.worker_queue_capacity hne) fun _ => hworker
  · rename_i htop
    have hne : config.topology ≠ .sharedQueue := by simp [htop]
    obtain ⟨R, hR, hS⟩ := bind_eq_ok hS
    cases hS
    refine ⟨hzero _, max_observed_depth_foldl (hzero _) fun src hsrc => ?_⟩
    obtain ⟨k, -, rfl⟩ := List.mem_map.mp hsrc
    exact max_stats_le hreach hR (config.valid.worker_queue_capacity hne) fun _ => hworker

/-- The run that drops events reports a depth of one at either end, which is the capacity. -/
theorem reported_depth_drop :
    ∃ result, Returns (2 ^ 58) twoOfEach 0 result ∧
      result.ingress_queue_stats.max_observed_depth = 1 ∧
      result.worker_queue_stats.max_observed_depth = 1 ∧
      result.ingress_queue_stats.max_observed_depth ≤ twoOfEach.ingress_queue_capacity ∧
      result.worker_queue_stats.max_observed_depth ≤ twoOfEach.worker_queue_capacity := by
  have hreturns := returns_droppingRun rfl (Option.some_get (by decide +kernel)).symm
    (by decide +kernel) (main_isDone (by decide +kernel))
  exact ⟨_, hreturns, by decide +kernel, by decide +kernel, reported_depth hreturns (by decide)⟩

end Laboratory.QueueLatency
