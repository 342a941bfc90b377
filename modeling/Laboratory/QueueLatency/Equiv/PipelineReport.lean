import Laboratory.QueueLatency.Equiv.PipelineAdmission
import Laboratory.QueueLatency.Equiv.PipelineBooks

/-!
# What a run returns

`books_balance`: in what a run of a pipeline returns, the counters of the threads agree with the
statistics of the queues.  Ingress threads push to the queues of the entry and workers pop from
those of the exit, and which statistics these are depends on the topology.  The queues count every
event and the threads only those that were made after the warm-up, so that without a warm-up the
numbers are the same.

When the main thread is done nobody is in a call (`Finished`), so every queue has counted what its
users have returned from (`StatsLogged`), and the books of the threads are closed (`Closed`).
-/

namespace Laboratory.QueueLatency

open Concurrency

namespace Pipeline

variable {P W : ℕ} [NeZero W] {S : Pipeline P W} {config : PipelineConfig} {times : Times}
  {s : (S.program config times).State} {x : History P W}
  {log : List (CallReturn S.QueueId (Thread P W))}

/-! ### The end of a run -/

/-- Every thread is done. -/
structure Finished (s : (S.program config times).State) : Prop where
  ingress : ∀ k, s.loc (.ingress k) = IngressLoc.done
  dispatcher : s.loc .dispatcher = DispatcherLoc.done
  worker : ∀ k, s.loc (.worker k) = WorkerLoc.done
  main : s.loc .main = MainLoc.done

/-- When the main thread is done, the others are. -/
theorem finished (H : Program.Protocol (S.program config times))
    (h : (S.program config times).Reachable s) (hmain : s.loc .main = MainLoc.done) :
    Finished s := by
  have hreached := (shutdown_of_reachable (H := H) h).main
  rw [hmain] at hreached
  exact ⟨fun k => hreached.ingress k trivial, hreached.dispatcher trivial,
    fun k => hreached.worker k trivial, hmain⟩

/-- No call is in progress. -/
theorem Finished.frame_eq_none (hs : Finished s) (h : (S.program config times).Reachable s)
    (q : S.QueueId) (t : Thread P W) : (s.queue q).frame t = none := by
  have hframed : Program.Framed s := Program.framed_of_reachableIf h
  cases hf : (s.queue q).frame t with
  | none => rfl
  | some f =>
    have hissued := (hframed.issued t q f hf).2
    exfalso
    rcases t with k | _ | k | _
    · rw [hs.ingress k] at hissued
      obtain ⟨_, _, _, hl, -⟩ := issues_ingress hissued
      cases hl
    · rw [hs.dispatcher] at hissued
      rcases issues_dispatcher hissued with ⟨hl, -⟩ | ⟨_, _, hl, -⟩ | ⟨_, _, hl, -⟩ <;> cases hl
    · rw [hs.worker k] at hissued
      obtain ⟨hl, -⟩ := issues_worker hissued
      cases hl
    · rw [hs.main] at hissued
      obtain ⟨_, hl, -⟩ := issues_main hissued
      cases hl

/-- The statistics of a queue agree with the calls that its users have returned from. -/
structure StatsLogged (log : List (CallReturn S.QueueId (Thread P W))) (q : S.QueueId)
    (stats : QueueStats) : Prop where
  attempts : stats.push_attempts = answersOf log q Return.isPush
  stored : stats.push_success = answersOf log q Return.hasStored
  taken : stats.pop_success = answersOf log q Return.hasTaken
  balance : stats.push_attempts = stats.push_success + stats.push_fail
  pops : stats.pop_success ≤ stats.push_success

theorem Finished.statsLogged {max_size : ℕ} {begun : ∀ q, (S.queue q).PushPC → Bool}
    (hs : Finished s) (hkeeps : S.KeepsDiscipline config times max_size)
    (h : (S.program config times).Reachable s)
    (hlog : Program.Traced (S.program config times) begun log s) (q : S.QueueId) :
    StatsLogged log q ((S.queue q).stats (s.queue q).shared) := by
  have hfree := hs.frame_eq_none h q
  have hquiet : (s.queue q).Quiet := fun t f hf => by rw [hfree t] at hf; cases hf
  obtain ⟨kind, capacity, options, p, k, hQ, hissues⟩ := hkeeps q
  obtain ⟨hbalance, hpushed⟩ :=
    makeQueue_statsBalance p k hQ (Program.queue_reachable hissues h) hquiet
  have htallied := hlog.tallied q
  have hattempts := htallied.attempts
  have hstored := htallied.stored
  have htaken := htallied.taken
  rw [Finset.sum_eq_zero fun t _ => by rw [hfree t]; rfl, add_zero] at hattempts
  have h₁ := hbalance.attempts
  have h₂ := hbalance.stored
  have h₃ := hbalance.popped
  exact ⟨hattempts, by omega, by omega, h₁, by omega⟩

/-- **The books of a run that is over.** -/
structure Closed (S : Pipeline P W) (times : Times) (g : PipelineState W)
    (log : List (CallReturn S.QueueId (Thread P W))) (x : History P W) : Prop where
  made : ∑ k, (x.created k).length = ∑ k, answersTo log (.ingress k) Return.isPush
  stored : ∑ k, (x.accepted k).length = ∑ k, answersTo log (.ingress k) Return.hasStored
  processed : ∑ k, (x.processed k).length = ∑ k, answersTo log (.worker k) Return.hasTaken
  moved : answersTo log .dispatcher Return.hasTaken = answersTo log .dispatcher Return.isPush
  rejected : x.rejected.length + answersTo log .dispatcher Return.hasStored =
    answersTo log .dispatcher Return.isPush
  generated : g.generated = ∑ k, (x.created k).countP (isMeasuredEvent times)
  accepted : g.accepted = ∑ k, (x.accepted k).countP (isMeasuredEvent times)
  completed : g.completed = ∑ k, (x.processed k).countP (isMeasuredEvent times)
  dropped_dispatch : g.dropped_dispatch = x.rejected.countP (isMeasuredEvent times)

theorem Finished.closed (hs : Finished s) (H : Program.Protocol (S.program config times))
    (h : S.Observed config times s x) (hbooks : Accounted S times s.glob s.loc log x) :
    Closed S times s.glob log x := by
  have hgenerated : PipelineState.generated s.glob + ∑ t, S.Ungenerated t (s.loc t) =
    ∑ k, (x.created k).countP (isMeasuredEvent times) := generated_all H h
  have hrecorded := recorded H h
  have haccepted := hbooks.countAccepted
  have hcompleted := hbooks.countCompleted
  have hmoved := hbooks.moved
  have hdropped := hbooks.countDropped
  have hzero {f : ∀ t, S.Loc t → ℕ} (hingress : ∀ k, f (.ingress k) IngressLoc.done = 0)
      (hdispatcher : f .dispatcher DispatcherLoc.done = 0)
      (hworker : ∀ k, f (.worker k) WorkerLoc.done = 0) (hmain : f .main MainLoc.done = 0) :
      ∑ t, f t (s.loc t) = 0 := by
    refine Finset.sum_eq_zero fun t _ => ?_
    rcases t with k | _ | k | _
    · rw [hs.ingress k]
      exact hingress k
    · rw [hs.dispatcher]
      exact hdispatcher
    · rw [hs.worker k]
      exact hworker k
    · rw [hs.main]
      exact hmain
  rw [hzero (fun _ => rfl) rfl (fun _ => rfl) rfl] at hgenerated haccepted hcompleted
  rw [hs.dispatcher] at hmoved hdropped
  refine ⟨?_, ?_, ?_, hmoved, hbooks.rejected, hgenerated, haccepted, hcompleted,
    hdropped⟩
  · refine Finset.sum_congr rfl fun k _ => ?_
    rw [hbooks.created k, hs.ingress k]
    rfl
  · exact Finset.sum_congr rfl fun k _ => hbooks.accepted k
  · refine Finset.sum_congr rfl fun k _ => ?_
    have htaken := hrecorded.taken k
    rw [hs.worker k] at htaken
    rw [← hbooks.taken k, htaken]
    exact congrArg List.length (List.append_nil _).symm

/-- What is rejected or processed has been accepted before. -/
theorem Finished.exists_accepted (hs : Finished s) (H : Program.Protocol (S.program config times))
    (h : S.Observed config times s x) {ev : Event}
    (hev : ev ∈ x.rejected ∨ ∃ k, ev ∈ x.processed k) : ∃ k, ev ∈ x.accepted k := by
  have hframed : Program.Framed s := Program.framed_of_reachableIf h.reachable
  have hmem : ev ∈ ∑ k, (x.accepted k : Multiset Event) +
      ∑ k, (s.stowed (.ingress k) : Multiset Event) := by
    rw [places H h, Multiset.mem_add, Multiset.mem_add]
    rcases hev with hev | ⟨k, hev⟩
    · exact .inl (.inr hev)
    · exact .inr (Multiset.mem_sum.mpr ⟨k, Finset.mem_univ k, hev⟩)
  rcases Multiset.mem_add.mp hmem with hmem | hmem
  · obtain ⟨k, -, hk⟩ := Multiset.mem_sum.mp hmem
    exact ⟨k, hk⟩
  · obtain ⟨k, -, hk⟩ := Multiset.mem_sum.mp hmem
    have hfree : s.calling (.ingress k) = none := by
      cases hc : s.calling (.ingress k) with
      | none => rfl
      | some q => exact absurd (hs.frame_eq_none h.reachable q _) (hframed.framed _ q hc)
    rw [(Program.stowed_of_calling hfree).1] at hk
    cases hk

/-- Without a warm-up every event is measured. -/
theorem isMeasuredEvent_of_created {global_start now : ℤ}
    {s : (S.program config (config.times global_start)).State}
    (h : S.Clocked config global_start s x now)
    (hwarmup : config.warmup = 0) (hstart : 0 ≤ global_start) {k : Fin P} {ev : Event}
    (hev : ev ∈ x.created k) : isMeasuredEvent (config.times global_start) ev = true := by
  have hcreated := ((timed h k).bounds ev hev).1
  have hmeasure : (config.times global_start).measure_start_ns = global_start := by
    rw [PipelineConfig.times, hwarmup, zero_mul, add_zero]
  refine decide_eq_true ⟨?_, ?_⟩
  · rw [hmeasure]
    exact hstart
  · rw [hmeasure]
    omega

end Pipeline

open Pipeline

section

/-! ### Merged statistics -/

/-- A counter that is added up when statistics are merged. -/
structure Additive (f : QueueStats → ℕ) : Prop where
  zero : f {} = 0
  merge : ∀ dst src, f (mergeQueueStats dst src) = f dst + f src

theorem Additive.foldl {f : QueueStats → ℕ} (h : Additive f) (dst : QueueStats)
    (srcs : List QueueStats) :
    f (srcs.foldl mergeQueueStats dst) = f dst + (srcs.map f).sum := by
  induction srcs generalizing dst with
  | nil => rfl
  | cons src srcs ih => rw [List.foldl_cons, ih, h.merge, List.map_cons, List.sum_cons, add_assoc]

/-- The statistics of the queues that ingress threads push to. -/
def PipelineResult.entry (config : PipelineConfig) (result : PipelineResult) : QueueStats :=
  if config.topology = .directLocalSpsc then result.worker_queue_stats
  else result.ingress_queue_stats

/-- The statistics of the queues that workers pop from. -/
def PipelineResult.exit (config : PipelineConfig) (result : PipelineResult) : QueueStats :=
  if config.topology = .sharedQueue then result.ingress_queue_stats
  else result.worker_queue_stats

variable {max_size : ℕ} {config : AcceptedConfig} {times : Times}
  {S : Pipeline config.ingress config.workers} {f : QueueStats → ℕ}

/-- The statistics of some queues, merged. -/
theorem Additive.merged {P W : ℕ} [NeZero W] {S : Pipeline P W} {config : PipelineConfig}
    (hf : Additive f) (s : (S.program config times).State) (qs : List S.QueueId) :
    f ((qs.map fun q => (S.queue q).stats (s.queue q).shared).foldl mergeQueueStats {}) =
      (qs.map fun q => f ((S.queue q).stats (s.queue q).shared)).sum := by
  rw [hf.foldl, hf.zero, zero_add, List.map_map]
  rfl

theorem front_eq_univ {P W : ℕ} {S : Pipeline P W} (h : S.dispatch = none) :
    S.front = Finset.univ :=
  Finset.eq_univ_of_forall fun _ => mem_front.mpr (.inl h)

theorem back_eq_univ {P W : ℕ} {S : Pipeline P W} (h : S.dispatch = none) :
    S.back = Finset.univ :=
  Finset.eq_univ_of_forall fun _ => mem_back.mpr (by rw [h]; rintro ⟨⟩)

/-- The result has the statistics of the front. -/
theorem front_stats (h : runPipelineScenario max_size config.toPipelineConfig = .ok S)
    (hf : Additive f) (s : (S.program config.toPipelineConfig times).State) :
    f ((S.result config.toPipelineConfig times s).entry config.toPipelineConfig) =
      ∑ q ∈ S.front, f ((S.queue q).stats (s.queue q).shared) := by
  rw [runPipelineScenario_eq] at h
  unfold PipelineResult.entry
  split at h
  · rename_i htop
    obtain ⟨Q, -, h⟩ := bind_eq_ok h
    cases h
    rw [if_neg (by simp [htop])]
    rfl
  · rename_i htop
    obtain ⟨Q, -, h⟩ := bind_eq_ok h
    obtain ⟨R, -, h⟩ := bind_eq_ok h
    cases h
    rw [if_neg (by simp [htop])]
    symm
    refine Finset.sum_eq_single none (fun q hq hne => ?_) (fun hne => ?_)
    · rcases mem_front.mp hq with h | h
      · cases h
      · exact absurd (Option.some.inj h).symm hne
    · exact absurd (mem_front.mpr (.inr rfl)) hne
  · rename_i htop
    obtain ⟨R, -, h⟩ := bind_eq_ok h
    cases h
    rw [if_pos htop, front_eq_univ rfl]
    refine (hf.merged s _).trans ?_
    exact (Fin.sum_univ_def _).symm

/-- The result has the statistics of the back. -/
theorem back_stats (h : runPipelineScenario max_size config.toPipelineConfig = .ok S)
    (hf : Additive f) (s : (S.program config.toPipelineConfig times).State) :
    f ((S.result config.toPipelineConfig times s).exit config.toPipelineConfig) =
      ∑ q ∈ S.back, f ((S.queue q).stats (s.queue q).shared) := by
  rw [runPipelineScenario_eq] at h
  unfold PipelineResult.exit
  split at h
  · rename_i htop
    obtain ⟨Q, -, h⟩ := bind_eq_ok h
    cases h
    rw [if_pos htop]
    rfl
  · rename_i htop
    obtain ⟨Q, -, h⟩ := bind_eq_ok h
    obtain ⟨R, -, h⟩ := bind_eq_ok h
    cases h
    rw [if_neg (by simp [htop])]
    refine (hf.merged s _).trans ?_
    rw [List.map_map, back, Finset.sum_filter]
    refine Eq.trans ?_ (Fintype.sum_option _).symm
    rw [if_neg (by simp), zero_add, ← Fin.sum_univ_def]
    exact Finset.sum_congr rfl fun k _ => (if_pos (by simp)).symm
  · rename_i htop
    obtain ⟨R, -, h⟩ := bind_eq_ok h
    cases h
    rw [if_neg (by simp [htop]), back_eq_univ rfl]
    refine (hf.merged s _).trans ?_
    exact (Fin.sum_univ_def _).symm

end

/-! ### Which pipelines there are -/

variable {max_size : ℕ}

theorem makeQueue_eq_ok {ι : Type} [DecidableEq ι] {kind : QueueKind} {capacity : ℕ}
    (hkind : kind ≠ .spscRing) (hcapacity : 0 < capacity) (hmax : capacity ≤ max_size)
    (options : QueueOptions) : ∃ Q, makeQueue ι max_size kind capacity options = .ok Q := by
  cases kind with
  | globalLock => exact ⟨_, rfl⟩
  | splitLockLinked => exact ⟨_, rfl⟩
  | mpmcRing =>
    rw [makeQueue, if_neg (not_lt.mpr hmax), if_neg hcapacity.ne']
    exact ⟨_, rfl⟩
  | spscRing => exact absurd rfl hkind

theorem makeQueue_ring_eq_ok {ι : Type} [DecidableEq ι] {capacity : ℕ} (hcapacity : 0 < capacity)
    (hmax : capacity < max_size) (options : QueueOptions) :
    ∃ Q, makeQueue ι max_size .spscRing capacity options = .ok Q := by
  have hle : (capacity + 1) % 2 ^ 64 ≤ max_size := (Nat.mod_le _ _).trans hmax
  rw [makeQueue, if_neg (not_lt.mpr hle), if_neg hcapacity.ne']
  exact ⟨_, rfl⟩

/-- An accepted configuration is run if its buffers are not longer than a vector can be. -/
theorem exists_pipeline (config : AcceptedConfig)
    (hingress : config.ingress_queue_capacity ≤ max_size)
    (hworker : config.worker_queue_capacity < max_size) :
    ∃ S, runPipelineScenario max_size config.toPipelineConfig = .ok S := by
  have hvalid := config.valid
  rw [runPipelineScenario_eq]
  split
  · rename_i htop
    obtain ⟨Q, hQ⟩ := makeQueue_eq_ok (ι := Thread config.ingress config.workers)
      (hvalid.shared htop) hvalid.ingress_queue_capacity hingress
      { wait_strategy := config.wait_strategy }
    rw [runSharedQueuePipeline, hQ]
    exact ⟨_, rfl⟩
  · rename_i htop
    have hne : config.topology ≠ .sharedQueue := by simp [htop]
    obtain ⟨Q, hQ⟩ := makeQueue_eq_ok (ι := Thread config.ingress config.workers)
      (hvalid.dispatch hne) hvalid.ingress_queue_capacity hingress
      { wait_strategy := config.wait_strategy }
    obtain ⟨R, hR⟩ := makeQueue_ring_eq_ok (ι := Thread config.ingress config.workers)
      (hvalid.worker_queue_capacity hne) hworker { wait_strategy := config.wait_strategy }
    rw [runDispatchLocalSpscPipeline, hQ, hR]
    exact ⟨_, rfl⟩
  · rename_i htop
    have hne : config.topology ≠ .sharedQueue := by simp [htop]
    obtain ⟨R, hR⟩ := makeQueue_ring_eq_ok (ι := Thread config.ingress config.workers)
      (hvalid.worker_queue_capacity hne) hworker { wait_strategy := config.wait_strategy }
    rw [runDirectLocalSpscPipeline, hR]
    exact ⟨_, rfl⟩

variable {config : AcceptedConfig} {global_start : ℤ}
  {S : Pipeline config.ingress config.workers}

/-! ### The result of a run -/

section

variable {α : Type} (f : α → ℕ)

theorem foldl_min_le (as : List α) (n : ℕ) :
    as.foldl (fun least a => min least (f a)) n ≤ n ∧
      ∀ a ∈ as, as.foldl (fun least a => min least (f a)) n ≤ f a := by
  induction as generalizing n with
  | nil => exact ⟨le_rfl, nofun⟩
  | cons a as ih =>
    obtain ⟨hle, hall⟩ := ih (min n (f a))
    refine ⟨hle.trans (min_le_left _ _), fun b hb => ?_⟩
    rcases List.mem_cons.mp hb with rfl | hb
    · exact hle.trans (min_le_right _ _)
    · exact hall b hb

theorem le_foldl_max (as : List α) (n : ℕ) :
    n ≤ as.foldl (fun greatest a => max greatest (f a)) n ∧
      ∀ a ∈ as, f a ≤ as.foldl (fun greatest a => max greatest (f a)) n := by
  induction as generalizing n with
  | nil => exact ⟨le_rfl, nofun⟩
  | cons a as ih =>
    obtain ⟨hle, hall⟩ := ih (max n (f a))
    refine ⟨(le_max_left _ _).trans hle, fun b hb => ?_⟩
    rcases List.mem_cons.mp hb with rfl | hb
    · exact (le_max_right _ _).trans hle
    · exact hall b hb

end

/-- No worker has completed fewer events than the least number, or more than the greatest. -/
theorem worker_completed_bounds {W : ℕ} (config : PipelineConfig) (g : PipelineState W)
    (entry exit : QueueStats) :
    let result := finalizeResult config g entry exit
    W * result.worker_completed_min ≤ ∑ k, (g.worker_metrics k).completed ∧
      ∑ k, (g.worker_metrics k).completed ≤ W * result.worker_completed_max := by
  have hmem (k : Fin W) : g.worker_metrics k ∈ (List.finRange W).map g.worker_metrics :=
    List.mem_map_of_mem (List.mem_finRange k)
  have hmin (k : Fin W) : (finalizeResult config g entry exit).worker_completed_min ≤
      (g.worker_metrics k).completed := by
    simp only [finalizeResult]
    split_ifs
    · exact Nat.zero_le _
    · exact (foldl_min_le WorkerMetrics.completed _ _).2 _ (hmem k)
  have hmax (k : Fin W) : (g.worker_metrics k).completed ≤
      (finalizeResult config g entry exit).worker_completed_max :=
    (le_foldl_max WorkerMetrics.completed _ 0).2 _ (hmem k)
  have hle := Finset.card_nsmul_le_sum Finset.univ _ _ fun k _ => hmin k
  have hge := Finset.sum_le_card_nsmul Finset.univ _ _ fun k _ => hmax k
  rw [Finset.card_univ, Fintype.card_fin, smul_eq_mul] at hle hge
  exact ⟨hle, hge⟩

namespace Pipeline

/-- What both ends of a pipeline have counted is what its threads have done. -/
structure Ends {P W : ℕ} (config : PipelineConfig) (S : Pipeline P W) (result : PipelineResult)
    (x : History P W) : Prop where
  created : (result.entry config).push_attempts = ∑ k, (x.created k).length
  accepted : (result.entry config).push_success = ∑ k, (x.accepted k).length
  processed : (result.exit config).pop_success = ∑ k, (x.processed k).length
  entry : (result.entry config).push_attempts =
    (result.entry config).push_success + (result.entry config).push_fail
  exit : (result.exit config).push_attempts =
    (result.exit config).push_success + (result.exit config).push_fail
  entry_pops : (result.entry config).pop_success ≤ (result.entry config).push_success
  exit_pops : (result.exit config).pop_success ≤ (result.exit config).push_success
  dispatched : S.dispatch ≠ none →
    (result.exit config).push_attempts = (result.entry config).pop_success
  rejected : S.dispatch ≠ none → (result.exit config).push_fail = x.rejected.length

end Pipeline

/-- The result has counted at both ends what the books say. -/
theorem ends_of_closed {times : Times}
    (h : runPipelineScenario max_size config.toPipelineConfig = .ok S)
    {s : (S.program config.toPipelineConfig times).State}
    {x : History config.ingress config.workers}
    {log : List (CallReturn S.QueueId (Thread config.ingress config.workers))}
    {begun : ∀ q, (S.queue q).PushPC → Bool}
    (hlog : Program.Traced (S.program config.toPipelineConfig times) begun log s)
    (hstats : ∀ q, StatsLogged log q ((S.queue q).stats (s.queue q).shared))
    (hclosed : Closed S times s.glob log x) :
    Ends config.toPipelineConfig S (S.result config.toPipelineConfig times s) x := by
  have hfront {f : QueueStats → ℕ} (hf : Additive f) := front_stats h hf s
  have hback {f : QueueStats → ℕ} (hf : Additive f) := back_stats h hf s
  generalize S.result config.toPipelineConfig times s = result at hfront hback ⊢
  have hattempts : Additive QueueStats.push_attempts := ⟨rfl, fun _ _ => rfl⟩
  have hsuccess : Additive QueueStats.push_success := ⟨rfl, fun _ _ => rfl⟩
  have hfail : Additive QueueStats.push_fail := ⟨rfl, fun _ _ => rfl⟩
  have hpops : Additive QueueStats.pop_success := ⟨rfl, fun _ _ => rfl⟩
  have hpush (r : Return) (hr : r.hasStored = true) : r.isPush = true := by
    cases r with
    | pushed ok => rfl
    | popped ok out => cases hr
    | closed => cases hr
  have hdispatched (hd : S.dispatch ≠ none) :
      (result.exit config.toPipelineConfig).push_attempts =
        answersTo log .dispatcher Return.isPush := by
    rw [hback hattempts, ← back_pushes hlog hd fun _ => id]
    exact Finset.sum_congr rfl fun q _ => (hstats q).attempts
  have hexit : (result.exit config.toPipelineConfig).push_attempts =
      (result.exit config.toPipelineConfig).push_success +
        (result.exit config.toPipelineConfig).push_fail := by
    rw [hback hattempts, hback hsuccess, hback hfail, ← Finset.sum_add_distrib]
    exact Finset.sum_congr rfl fun q _ => (hstats q).balance
  refine ⟨?_, ?_, ?_, ?_, hexit, ?_, ?_, fun hd => ?_, fun hd => ?_⟩
  · rw [hfront hattempts, hclosed.made, ← front_pushes hlog fun _ => id]
    exact Finset.sum_congr rfl fun q _ => (hstats q).attempts
  · rw [hfront hsuccess, hclosed.stored, ← front_pushes hlog hpush]
    exact Finset.sum_congr rfl fun q _ => (hstats q).stored
  · rw [hback hpops, hclosed.processed, ← back_taken hlog]
    exact Finset.sum_congr rfl fun q _ => (hstats q).taken
  · rw [hfront hattempts, hfront hsuccess, hfront hfail, ← Finset.sum_add_distrib]
    exact Finset.sum_congr rfl fun q _ => (hstats q).balance
  · rw [hfront hpops, hfront hsuccess]
    exact Finset.sum_le_sum fun q _ => (hstats q).pops
  · rw [hback hpops, hback hsuccess]
    exact Finset.sum_le_sum fun q _ => (hstats q).pops
  · obtain ⟨d, hd'⟩ := Option.ne_none_iff_exists'.mp hd
    have hsingle : S.front = {d} := by
      ext q
      rw [mem_front, Finset.mem_singleton, hd']
      simp [eq_comm]
    rw [hdispatched hd, hfront hpops, hsingle, Finset.sum_singleton, (hstats d).taken,
      dispatch_taken hlog hd', hclosed.moved]
  · have hstored : (result.exit config.toPipelineConfig).push_success =
        answersTo log .dispatcher Return.hasStored := by
      rw [hback hsuccess, ← back_pushes hlog hd hpush]
      exact Finset.sum_congr rfl fun q _ => (hstats q).stored
    have hmoved := hdispatched hd
    have hrejected := hclosed.rejected
    omega

/-- A run that starts when the clock reads `global_start`, and whose clock never goes back, returns
the result. -/
def Returns (max_size : ℕ) (config : AcceptedConfig) (global_start : ℤ) (result : PipelineResult) :
    Prop :=
  ∃ S, runPipelineScenario max_size config.toPipelineConfig = .ok S ∧ ∃ s x now,
    S.Clocked config.toPipelineConfig global_start s x now ∧ s.loc .main = MainLoc.done ∧
      result = S.result config.toPipelineConfig (config.times global_start) s

/-! ### The books of a result -/

/-- **The counts of a result agree with its statistics**, up to the events of the warm-up, which
only the queues count. -/
structure PipelineResult.AddsUp (config : PipelineConfig) (result : PipelineResult) : Prop where
  entry : (result.entry config).push_attempts =
    (result.entry config).push_success + (result.entry config).push_fail
  exit : (result.exit config).push_attempts =
    (result.exit config).push_success + (result.exit config).push_fail
  entry_pops : (result.entry config).pop_success ≤ (result.entry config).push_success
  exit_pops : (result.exit config).pop_success ≤ (result.exit config).push_success
  generated : result.generated ≤ (result.entry config).push_attempts
  accepted : result.accepted ≤ (result.entry config).push_success
  refused : result.accepted + result.dropped_ingress ≤ result.generated ∧
    result.generated ≤ result.accepted + (result.entry config).push_fail
  dispatched : config.topology = .dispatchLocalSpsc →
    (result.exit config).push_attempts = (result.entry config).pop_success ∧
      result.dropped_dispatch ≤ (result.exit config).push_fail
  undispatched : config.topology ≠ .dispatchLocalSpsc → result.dropped_dispatch = 0
  dropped : result.dropped = result.dropped_ingress + result.dropped_dispatch
  completed : result.completed ≤ (result.exit config).pop_success
  samples : result.samples = result.completed
  workers : config.workers * result.worker_completed_min ≤ result.completed ∧
    result.completed ≤ config.workers * result.worker_completed_max

/-- **They are the same** if there is no warm-up. -/
structure PipelineResult.AddsUpExactly (config : PipelineConfig) (result : PipelineResult) :
    Prop where
  generated : result.generated = (result.entry config).push_attempts
  accepted : result.accepted = (result.entry config).push_success
  dropped_ingress : config.policy = .drop →
    result.dropped_ingress = (result.entry config).push_fail
  dropped_dispatch : config.topology = .dispatchLocalSpsc →
    result.dropped_dispatch = (result.exit config).push_fail
  completed : result.completed = (result.exit config).pop_success

/-- What has been generated is accepted, dropped, or refused to a thread that waits. -/
theorem Pipeline.Finished.admitted {times : Times}
    {s : (S.program config.toPipelineConfig times).State} (hs : Finished s)
    (H : Program.Protocol (S.program config.toPipelineConfig times))
    (h : (S.program config.toPipelineConfig times).Reachable s) :
    ∃ refused : ℕ, PipelineState.generated s.glob =
        s.glob.accepted + s.glob.dropped_ingress + refused ∧
      (config.policy = .drop → refused = 0) := by
  obtain ⟨failed, hadmission⟩ := exists_admission H h
  have hcount := hadmission.count
  rw [Finset.sum_eq_zero fun t _ => undecided_eq_zero H h hs.main t, zero_add] at hcount
  unfold undecided at hcount
  refine ⟨failed.card, by omega, fun hdrop => Finset.card_eq_zero.mpr ?_⟩
  by_contra hne
  have hblock := hadmission.block (Finset.nonempty_iff_ne_empty.mpr hne)
  rw [hdrop] at hblock
  cases hblock

/-- With a dispatcher in the topology there is one in the pipeline. -/
theorem dispatch_ne_none (h : runPipelineScenario max_size config.toPipelineConfig = .ok S)
    (htop : config.topology = .dispatchLocalSpsc) : S.dispatch ≠ none := by
  rw [runPipelineScenario_eq, htop] at h
  obtain ⟨Q, -, h⟩ := bind_eq_ok h
  obtain ⟨R, -, h⟩ := bind_eq_ok h
  cases h
  exact Option.some_ne_none _

/-- The counts of the history. -/
theorem sum_countP_le {n : ℕ} (p : Event → Bool) (events : Fin n → List Event) :
    ∑ k, (events k).countP p ≤ ∑ k, (events k).length :=
  Finset.sum_le_sum fun _ _ => List.countP_le_length

theorem sum_countP_eq {n : ℕ} {p : Event → Bool} {events : Fin n → List Event}
    (h : ∀ k, ∀ ev ∈ events k, p ev = true) :
    ∑ k, (events k).countP p = ∑ k, (events k).length :=
  Finset.sum_congr rfl fun k _ => List.countP_eq_length.mpr (h k)

/-- What is in a part and not counted is in the whole and not counted. -/
theorem sum_uncounted_le {n : ℕ} (p : Event → Bool) {part whole : Fin n → List Event}
    (h : ∀ k, (part k).Sublist (whole k)) :
    ∑ k, (part k).length + ∑ k, (whole k).countP p ≤
      ∑ k, (part k).countP p + ∑ k, (whole k).length := by
  rw [← Finset.sum_add_distrib, ← Finset.sum_add_distrib]
  refine Finset.sum_le_sum fun k _ => ?_
  have hpart := List.length_eq_countP_add_countP p (l := part k)
  have hwhole := List.length_eq_countP_add_countP p (l := whole k)
  have hle := (h k).countP_le (p := fun ev => decide ¬ p ev = true)
  omega

/-- **The books and both ends** of a run that is over. -/
theorem Pipeline.Finished.ends {times : Times}
    {s : (S.program config.toPipelineConfig times).State}
    {x : History config.ingress config.workers} (hs : Finished s)
    (h : runPipelineScenario max_size config.toPipelineConfig = .ok S)
    (H : Program.Protocol (S.program config.toPipelineConfig times))
    (hobserved : S.Observed config.toPipelineConfig times s x) :
    ∃ log, Closed S times s.glob log x ∧
      Ends config.toPipelineConfig S (S.result config.toPipelineConfig times s) x := by
  have hkeeps : S.KeepsDiscipline config.toPipelineConfig times max_size :=
    runPipelineScenario_discipline h
  have hbegun (q : S.QueueId) : ∃ begun, AttemptLaw (S.queue q) begun := by
    obtain ⟨_, _, _, _, _, hQ, -⟩ := hkeeps q
    exact makeQueue_attemptLaw hQ
  choose begun hlaw using hbegun
  obtain ⟨log, htraced, hbooks⟩ := exists_log H hlaw hobserved
  have hclosed := hs.closed H hobserved hbooks
  exact ⟨log, hclosed, ends_of_closed h htraced
    (hs.statsLogged hkeeps hobserved.reachable htraced) hclosed⟩

/-- **Every result adds up.** -/
theorem addsUp (h : runPipelineScenario max_size config.toPipelineConfig = .ok S) {times : Times}
    {s : (S.program config.toPipelineConfig times).State}
    {x : History config.ingress config.workers} (hs : Finished s)
    (H : Program.Protocol (S.program config.toPipelineConfig times))
    (hobserved : S.Observed config.toPipelineConfig times s x) :
    (S.result config.toPipelineConfig times s).AddsUp config.toPipelineConfig := by
  have hreach := hobserved.reachable
  obtain ⟨log, hclosed, hends⟩ := hs.ends h H hobserved
  obtain ⟨refused, hadmitted, -⟩ := hs.admitted H hreach
  have hidle (k : Fin config.workers) : WorkerLoc.isMeasuring (s.loc (.worker k)) = false := by
    rw [hs.worker k]
    rfl
  obtain ⟨hown, hsamples⟩ := counters_eq H hreach hidle
  have hsublist (k : Fin config.ingress) : (x.accepted k).Sublist (x.created k) :=
    (List.sublist_append_left _ _).trans ((recorded H hobserved).created k)
  have hmade := sum_countP_le (isMeasuredEvent times) x.created
  have htook := sum_countP_le (isMeasuredEvent times) x.accepted
  have hdone := sum_countP_le (isMeasuredEvent times) x.processed
  -- The refused events of the warm-up are among the failed pushes as well.
  have huncounted := sum_uncounted_le (isMeasuredEvent times) hsublist
  have hgenerated := hclosed.generated
  have haccepted := hclosed.accepted
  have hcompleted := hclosed.completed
  have hcreated' := hends.created
  have haccepted' := hends.accepted
  have hprocessed' := hends.processed
  have hentry := hends.entry
  refine ⟨hends.entry, hends.exit, hends.entry_pops, hends.exit_pops, ?_, ?_, ⟨?_, ?_⟩,
    fun htop => ?_, fun htop => ?_, rfl, ?_, ?_, ?_, ?_⟩
  · change PipelineState.generated s.glob ≤ _
    omega
  · change PipelineState.accepted s.glob ≤ _
    omega
  · change PipelineState.accepted s.glob + s.glob.dropped_ingress ≤ s.glob.generated
    omega
  · change PipelineState.generated s.glob ≤ s.glob.accepted + _
    omega
  · have hsome := dispatch_ne_none h htop
    refine ⟨hends.dispatched hsome, ?_⟩
    rw [hends.rejected hsome]
    exact hclosed.dropped_dispatch.trans_le List.countP_le_length
  · exact dropped_dispatch_eq_zero (.inl (dispatch_eq_none h htop)) hreach
  · change PipelineState.completed s.glob ≤ _
    omega
  · have hresult := samples_result s
    have hown' : ((samples s.glob : ℕ) : ℤ) =
      ∑ k, ((PipelineState.worker_metrics s.glob k).latencies_ns.length : ℤ) := Nat.cast_sum _ _
    change _ = PipelineState.completed s.glob
    omega
  · change _ ≤ PipelineState.completed s.glob
    rw [hown]
    exact (worker_completed_bounds _ _ _ _).1
  · change PipelineState.completed s.glob ≤ _
    rw [hown]
    exact (worker_completed_bounds _ _ _ _).2

/-- **Without a warm-up** everything is counted. -/
theorem addsUpExactly (h : runPipelineScenario max_size config.toPipelineConfig = .ok S)
    {s : (S.program config.toPipelineConfig (config.times global_start)).State}
    {x : History config.ingress config.workers} {now : ℤ} (hs : Finished s)
    (H : Program.Protocol (S.program config.toPipelineConfig (config.times global_start)))
    (hclocked : S.Clocked config.toPipelineConfig global_start s x now)
    (hwarmup : config.warmup = 0) (hstart : 0 ≤ global_start) :
    (S.result config.toPipelineConfig (config.times global_start) s).AddsUpExactly
      config.toPipelineConfig := by
  have hobserved := hclocked.observed
  obtain ⟨log, hclosed, hends⟩ := hs.ends h H hobserved
  obtain ⟨refused, hadmitted, hdrop⟩ := hs.admitted H hobserved.reachable
  have hcreated (k : Fin config.ingress) (ev : Event) (hev : ev ∈ x.created k) :
      isMeasuredEvent (config.times global_start) ev = true :=
    isMeasuredEvent_of_created hclocked hwarmup hstart hev
  have haccepted (k : Fin config.ingress) (ev : Event) (hev : ev ∈ x.accepted k) :
      isMeasuredEvent (config.times global_start) ev = true :=
    hcreated k ev (((List.sublist_append_left _ _).trans
      ((recorded H hobserved).created k)).subset hev)
  have hleft (ev : Event) (hev : ev ∈ x.rejected ∨ ∃ k, ev ∈ x.processed k) :
      isMeasuredEvent (config.times global_start) ev = true := by
    obtain ⟨k, hk⟩ := hs.exists_accepted H hobserved hev
    exact haccepted k ev hk
  have hgenerated := hclosed.generated.trans (sum_countP_eq hcreated)
  have haccepted := hclosed.accepted.trans (sum_countP_eq haccepted)
  have hcompleted := hclosed.completed.trans
    (sum_countP_eq fun k ev hev => hleft ev (.inr ⟨k, hev⟩))
  refine ⟨hgenerated.trans hends.created.symm, haccepted.trans hends.accepted.symm, fun hd => ?_,
    fun htop => ?_, hcompleted.trans hends.processed.symm⟩
  · have hentry := hends.entry
    have hmade := hends.created
    have hstored := hends.accepted
    have hrefused := hdrop hd
    change PipelineState.dropped_ingress s.glob = _
    omega
  · rw [hends.rejected (dispatch_ne_none h htop)]
    exact hclosed.dropped_dispatch.trans
      (List.countP_eq_length.mpr fun ev hev => hleft ev (.inl hev))

/-- **What a run returns adds up**: the counters of the threads agree with the statistics of the
queues, and if there is no warm-up they are the same. -/
theorem books_balance {result : PipelineResult} (h : Returns max_size config global_start result) :
    result.AddsUp config.toPipelineConfig ∧
      (config.warmup = 0 → 0 ≤ global_start → result.AddsUpExactly config.toPipelineConfig) := by
  obtain ⟨S, hS, s, x, now, hclocked, hmain, rfl⟩ := h
  obtain ⟨H⟩ : Nonempty (Program.Protocol
      (S.program config.toPipelineConfig (config.times global_start))) :=
    runPipelineScenario_protocol hS
  have hs := finished H hclocked.observed.reachable hmain
  exact ⟨addsUp hS hs H hclocked.observed, addsUpExactly hS hs H hclocked⟩

/-- What the run that drops events returns. -/
theorem returns_droppingRun {S : Pipeline twoOfEach.ingress twoOfEach.workers}
    (h : runPipelineScenario (2 ^ 58) twoOfEach.toPipelineConfig = .ok S)
    {y : (S.program twoOfEach.toPipelineConfig (twoOfEach.times 0)).State × History 2 2}
    (hrun : S.observeRun twoOfEach.toPipelineConfig (twoOfEach.times 0) (.initial _) {}
      (droppingRun S) = some y)
    (hclock : List.IsChain (· ≤ ·) (0 :: (droppingRun S).map reading))
    (hmain : y.1.loc .main = MainLoc.done) :
    Returns (2 ^ 58) twoOfEach 0
      (S.result twoOfEach.toPipelineConfig (twoOfEach.times 0) y.1) := by
  exact ⟨S, h, y.1, y.2, _, clocked_of_run S _ 0 _ .start hclock hrun, hmain, rfl⟩

/-- At either end a push fails, and what is left is completed. -/
theorem books_balance_drop :
    ∃ result, Returns (2 ^ 58) twoOfEach 0 result ∧ result.completed = 2 ∧
      (result.entry twoOfEach.toPipelineConfig).push_fail = 1 ∧
      (result.exit twoOfEach.toPipelineConfig).push_fail = 1 ∧
      result.AddsUp twoOfEach.toPipelineConfig ∧
      result.AddsUpExactly twoOfEach.toPipelineConfig := by
  have hreturns := returns_droppingRun rfl (Option.some_get (by decide +kernel)).symm
    (by decide +kernel) (main_isDone (by decide +kernel))
  obtain ⟨hsums, hexact⟩ := books_balance hreturns
  exact ⟨_, hreturns, by decide +kernel, by decide +kernel, by decide +kernel, hsums,
    hexact rfl le_rfl⟩

end Laboratory.QueueLatency
