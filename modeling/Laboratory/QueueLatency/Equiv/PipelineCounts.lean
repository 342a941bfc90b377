import Laboratory.QueueLatency.Equiv.Ledger
import Laboratory.QueueLatency.Equiv.PipelineShutdown
import Mathlib.Algebra.BigOperators.Fin

/-!
# What a pipeline returns

`accepted_eq_completed`: a run that returns has completed or dropped every event it has accepted,
and has a latency for every completed event, provided that the closing steps are heeded.
-/

namespace Laboratory.QueueLatency

open Concurrency

namespace Pipeline

variable {P W : ℕ} {S : Pipeline P W} {config : PipelineConfig} {times : Times} {now : ℤ}
  {g g' : PipelineState W} {q : S.QueueId} [NeZero W]
  {H : Program.Protocol (S.program config times)} {s s' : (S.program config times).State}
  {c : (S.program config times).Choice}

/-! ### Keeping count -/

/-- Measured events count. -/
def worth (times : Times) (ev : Event) : ℤ :=
  if isMeasuredEvent times ev then 1 else 0

def IngressLoc.pending : IngressLoc → ℤ
  | .countAccepted _ => 1
  | _ => 0

def DispatcherLoc.pending (times : Times) : DispatcherLoc W → ℤ
  | .route ev | .push ev _ => -worth times ev
  | .countDropped => -1
  | _ => 0

def WorkerLoc.pending (times : Times) : WorkerLoc → ℤ
  | .measure ev => -worth times ev
  | .countCompleted _ => -1
  | _ => 0

/-- The accepted events that are neither completed nor dropped. -/
def flow (g : PipelineState W) : ℤ :=
  g.accepted - g.completed - g.dropped_dispatch

/-- The latencies, less the completed events. -/
def sampled (g : PipelineState W) : ℤ :=
  ∑ k, ((g.worker_metrics k).latencies_ns.length : ℤ) - g.completed

omit [NeZero W] in
theorem flow_actIngress {k : Fin P} {l l' : IngressLoc}
    (h : S.actIngress config times now k g l = some (.own g' l')) :
    flow g' + l'.pending = flow g + l.pending ∧ sampled g' = sampled g ∧
      g'.dropped_dispatch = g.dropped_dispatch := by
  cases l with
  | testStop v =>
    cases h
    split_ifs <;> exact ⟨rfl, rfl, rfl⟩
  | readClock v =>
    simp only [actIngress] at h
    split_ifs at h <;> cases h <;> exact ⟨rfl, rfl, rfl⟩
  | makeEvent v =>
    simp only [actIngress] at h
    split_ifs at h <;> cases h <;> exact ⟨rfl, rfl, rfl⟩
  | push v ev measured => cases h
  | countAccepted v =>
    cases h
    refine ⟨?_, rfl, rfl⟩
    simp only [flow, IngressLoc.pending]
    omega
  | done => cases h
  | _ =>
    cases h
    exact ⟨rfl, rfl, rfl⟩

theorem flow_actDispatcher {l l' : DispatcherLoc W}
    (h : S.actDispatcher config times g l = some (.own g' l')) :
    flow g' + l'.pending times = flow g + l.pending times ∧ sampled g' = sampled g ∧
      (l ≠ .countDropped → g'.dropped_dispatch = g.dropped_dispatch) := by
  cases l with
  | pop =>
    obtain ⟨q', -, h⟩ := Option.map_eq_some_iff.mp h
    cases h
  | push ev measured => cases h
  | countDropped =>
    cases h
    refine ⟨?_, rfl, fun hne => absurd rfl hne⟩
    simp only [flow, DispatcherLoc.pending]
    omega
  | close rest =>
    cases rest <;> cases h
    exact ⟨rfl, rfl, fun _ => rfl⟩
  | done => cases h
  | _ =>
    cases h
    exact ⟨rfl, rfl, fun _ => rfl⟩

omit [NeZero W] in
theorem flow_actWorker {k : Fin W} {l l' : WorkerLoc}
    (h : S.actWorker times now k g l = some (.own g' l')) :
    flow g' + l'.pending times = flow g + l.pending times ∧
      g'.dropped_dispatch = g.dropped_dispatch := by
  cases l with
  | measure ev =>
    simp only [actWorker] at h
    split_ifs at h with hm <;> cases h <;> simp [WorkerLoc.pending, worth, hm]
  | countCompleted latency_ns =>
    cases h
    refine ⟨?_, rfl⟩
    simp only [flow, WorkerLoc.pending]
    omega
  | pop => cases h
  | done => cases h
  | _ =>
    cases h
    exact ⟨rfl, rfl⟩

omit [NeZero W] in
theorem flow_actMain {loc : ∀ t, S.Loc t} {l l' : MainLoc P W S.QueueId}
    (h : S.actMain times now g loc l = some (.own g' l')) :
    flow g' = flow g ∧ sampled g' = sampled g ∧ g'.dropped_dispatch = g.dropped_dispatch := by
  cases l with
  | joinIngress rest =>
    cases rest with
    | nil =>
      cases h
      exact ⟨rfl, rfl, rfl⟩
    | cons k rest =>
      simp only [actMain] at h
      split_ifs at h
      cases h
      exact ⟨rfl, rfl, rfl⟩
  | close rest =>
    cases rest <;> cases h
    exact ⟨rfl, rfl, rfl⟩
  | joinDispatcher =>
    simp only [actMain] at h
    split_ifs at h
    cases h
    exact ⟨rfl, rfl, rfl⟩
  | joinWorkers rest =>
    cases rest with
    | nil =>
      cases h
      exact ⟨rfl, rfl, rfl⟩
    | cons k rest =>
      simp only [actMain] at h
      split_ifs at h
      cases h
      exact ⟨rfl, rfl, rfl⟩
  | done => cases h
  | _ =>
    cases h
    exact ⟨rfl, rfl, rfl⟩

/-- An event that is pushed is accepted or was popped before; an event that is popped is completed,
dropped or pushed again. -/
def flowLedger (S : Pipeline P W) (config : PipelineConfig) (times : Times) :
    Ledger (S.program config times) where
  book := flow
  pending
    | .ingress _, l => IngressLoc.pending l
    | .dispatcher, l => DispatcherLoc.pending times l
    | .worker _, l => WorkerLoc.pending times l
    | .main, _ => 0
  pushed _ ev := worth times ev
  popped _ ev := -worth times ev

theorem flowLedger_act {input : ℤ} {t : Thread P W} {loc : ∀ t, S.Loc t} {l : S.Loc t}
    (h : (S.program config times).act input t g loc = some (.own g' l)) :
    (S.flowLedger config times).book g' + (S.flowLedger config times).pending t l =
      (S.flowLedger config times).book g + (S.flowLedger config times).pending t (loc t) := by
  rcases t with k | _ | k | _
  · exact (flow_actIngress h).1
  · exact (flow_actDispatcher h).1
  · exact (flow_actWorker h).1
  · exact congrArg (· + 0) (flow_actMain h).1

/-- What an ingress thread has pushed it has still to count. -/
theorem flow_resumeIngress {v : Ingress} {ev : Event} {measured ok : Bool}
    (hm : measured = isMeasuredEvent times ev) :
    (resumeIngress config (.push v ev measured) (.pushed ok)).pending =
      if ok then worth times ev else 0 := by
  subst hm
  cases ok
  · simp only [resumeIngress]
    split_ifs <;> simp_all [IngressLoc.pending]
  · simp only [resumeIngress, worth]
    split_ifs <;> rfl

/-- The dispatcher's `push` waits for a place, so it succeeds unless the queue is closed, which it
is not while the dispatcher pushes. -/
theorem policy_eq_drop (h : (S.program config times).Reachable s)
    {f : Frame (S.queue q)} (hf : (s.queue q).frame .dispatcher = some f) {ev : Event}
    (hcall : f.toCall = .push ev config.policy) (hrefused : (H.A q).Reports (.pushed false) f) :
    config.policy = .drop := by
  refine eq_drop_of_ne_block fun hblock => ?_
  have hissued : (S.program config times).Issues .dispatcher (s.loc .dispatcher) q
      (.push ev config.policy) := by
    rw [← hcall]
    exact ((Program.framed_of_reachableIf h).issued _ q f hf).2
  rw [hblock] at hcall
  have hphase : H.phase s q .dispatcher = .refused := (phases_eq _ hf).trans hrefused
  have hdeclined : (H.store s q).closed = true ∨ False :=
    Program.declined_closed (fun _ => False) h (fun _ => id) (fun ht hstop => by
      obtain ⟨⟨k, hk⟩, -⟩ := stop_eq_true hstop
      rw [hk] at ht
      cases ht) hf hcall (by rw [hphase]; rfl)
  have hclosed := hdeclined.resolve_right id
  exact quiet H h q hclosed _ ((S.channel config times q).issues_push hissued)

omit [NeZero W] in
theorem flow_resumeDispatcher {ev : Event} {measured ok : Bool}
    (hm : measured = isMeasuredEvent times ev) (hok : ok = false → config.policy = .drop) :
    (resumeDispatcher (W := W) config (.push ev measured) (.pushed ok)).pending times =
      -worth times ev + if ok then worth times ev else 0 := by
  subst hm
  cases ok
  · simp only [resumeDispatcher, worth, hok rfl]
    split_ifs <;> simp_all [DispatcherLoc.pending]
  · simp [resumeDispatcher, DispatcherLoc.pending]

theorem flowLedger_resume (h : (S.program config times).ReachableIf CloseHeeded s)
    {t : Thread P W} {f : Frame (S.queue q)} {r : Return} (hf : (s.queue q).frame t = some f)
    (hissued : (S.program config times).Issues t (s.loc t) q f.toCall)
    (hanswer : f.toCall.Answer r) (hreports : (H.A q).Reports r f) :
    (S.flowLedger config times).pending t ((S.program config times).resume t (s.loc t) r) =
      (S.flowLedger config times).pending t (s.loc t) +
        (S.flowLedger config times).entry q f.toCall r := by
  have hconsistent := consistent h.reachable t
  rcases t with k | _ | k | _
  · obtain ⟨v, ev, measured, hl, -, hc⟩ := issues_ingress hissued
    rw [hl] at hconsistent ⊢
    rw [hc] at hanswer ⊢
    obtain ⟨ok, rfl⟩ := hanswer.push
    refine (flow_resumeIngress hconsistent).trans ?_
    cases ok <;> exact (zero_add _).symm
  · rcases issues_dispatcher hissued with ⟨hl, -, hc⟩ | ⟨ev, measured, hl, -, hc⟩ |
      ⟨k, rest, hl, -, hc⟩
    · rw [hl]
      rw [hc] at hanswer ⊢
      rcases hanswer.pop with ⟨out, rfl⟩ | ⟨ev, rfl⟩
      · rfl
      · exact (zero_add _).symm
    · obtain ⟨ok, rfl⟩ := (hc ▸ hanswer).push
      rw [hl] at hconsistent ⊢
      -- A push that fails drops its event, so that the policy is `drop`.
      refine (flow_resumeDispatcher hconsistent.2 ?_).trans ?_
      · rintro rfl
        exact policy_eq_drop h.reachable hf hc hreports
      · rw [hc]
        cases ok <;> rfl
    · rw [hl]
      rw [hc] at hanswer ⊢
      obtain rfl := hanswer.close
      rfl
  · obtain ⟨hl, -, hc⟩ := issues_worker hissued
    rw [hl]
    rw [hc] at hanswer ⊢
    rcases hanswer.pop with ⟨out, rfl⟩ | ⟨ev, rfl⟩
    · rfl
    · exact (zero_add _).symm
  · obtain ⟨rest, -, hc⟩ := issues_main hissued
    rw [hc]
    rfl

theorem flow_balanced (H : Program.Protocol (S.program config times))
    (h : (S.program config times).ReachableIf CloseHeeded s) :
    (S.flowLedger config times).Balanced s := by
  induction h with
  | refl =>
    refine Ledger.balanced_initial rfl ?_
    rintro (k | _ | k | _)
    · rfl
    · change DispatcherLoc.pending times
        (if S.dispatch.isSome then DispatcherLoc.pop else DispatcherLoc.done) = 0
      split_ifs <;> rfl
    · rfl
    · rfl
  | tail hreach hstep ih =>
    obtain ⟨c, -, hc⟩ := hstep
    have hgood : Program.Good H _ := Program.good_of_reachableIf hreach
    exact ih.step hgood (fun hact => flowLedger_act hact)
      (fun hf hissued hanswer hreports => flowLedger_resume hreach hf hissued hanswer hreports) hc

/-! ### Samples -/

def WorkerLoc.unsampled : WorkerLoc → ℤ
  | .countOwn _ | .record _ => 1
  | _ => 0

/-- A completed event has a latency. -/
def sampleLedger (S : Pipeline P W) (config : PipelineConfig) (times : Times) :
    Ledger (S.program config times) where
  book := sampled
  pending
    | .worker _, l => WorkerLoc.unsampled l
    | _, _ => 0
  pushed _ _ := 0
  popped _ _ := 0

omit [NeZero W] in
theorem sampled_actWorker {k : Fin W} {l l' : WorkerLoc}
    (h : S.actWorker times now k g l = some (.own g' l')) :
    sampled g' + l'.unsampled = sampled g + l.unsampled := by
  cases l with
  | measure ev =>
    simp only [actWorker] at h
    split_ifs at h with hm <;> cases h <;> rfl
  | countCompleted latency_ns =>
    cases h
    simp only [sampled, WorkerLoc.unsampled]
    omega
  | countOwn latency_ns =>
    cases h
    have hsum := sum_update_eq (fun _ (m : WorkerMetrics) => (m.latencies_ns.length : ℤ))
      g.worker_metrics k
      { g.worker_metrics k with completed := (g.worker_metrics k).completed + 1 } rfl
    simp only at hsum
    simp only [sampled, WorkerLoc.unsampled]
    omega
  | record latency_ns =>
    cases h
    have hsum := sum_update (fun _ (m : WorkerMetrics) => (m.latencies_ns.length : ℤ))
      g.worker_metrics k
      { g.worker_metrics k with
        latencies_ns := (g.worker_metrics k).latencies_ns ++ [latency_ns] }
    simp only [List.length_append, List.length_singleton] at hsum
    simp only [sampled, WorkerLoc.unsampled]
    omega
  | pop => cases h
  | done => cases h

omit [NeZero W] in
theorem sampled_resumeWorker {l : WorkerLoc} {r : Return} :
    (resumeWorker l r).unsampled = l.unsampled := by
  unfold resumeWorker
  split <;> rfl

theorem sample_balanced (H : Program.Protocol (S.program config times))
    (h : (S.program config times).Reachable s) : (S.sampleLedger config times).Balanced s := by
  induction h with
  | refl =>
    refine Ledger.balanced_initial ?_ ?_
    · simp [sampleLedger, sampled, program]
    · rintro (k | _ | k | _) <;> rfl
  | tail hreach hstep ih =>
    obtain ⟨⟨t, now, _, _, _⟩, -, hc⟩ := hstep
    have hgood : Program.Good H _ := Program.good_of_reachableIf hreach
    refine ih.step hgood ?_ ?_ hc
    · intro g l hact
      rcases t with k | _ | k | _
      · exact congrArg (· + 0) (flow_actIngress hact).2.1
      · exact congrArg (· + 0) (flow_actDispatcher hact).2.1
      · exact sampled_actWorker hact
      · exact congrArg (· + 0) (flow_actMain hact).2.1
    · intro q f r hf hissued hanswer hreports
      have hentry : (S.sampleLedger config times).entry q f.toCall r = 0 := by
        unfold Ledger.entry
        split <;> rfl
      rw [hentry, add_zero]
      rcases t with k | _ | k | _
      · rfl
      · rfl
      · exact sampled_resumeWorker
      · rfl

/-! ### The end of a run -/

/-- Every queue is closed when the main thread is done. -/
theorem closed_of_done (h : (S.program config times).Reachable s)
    (hmain : s.loc .main = MainLoc.done) (q : S.QueueId) : (H.store s q).closed = true := by
  have hshut : Shutdown H s := shutdown_of_reachable h
  have hreached := hshut.main
  rw [hmain] at hreached
  cases hd : S.dispatch with
  | none => exact hreached.closed q (S.closed hd q) trivial
  | some d =>
    rcases S.popped q with hq | ⟨k, rfl⟩
    · refine hreached.closed q ?_ trivial
      rw [(S.dispatched q hq).2.2]
      exact List.mem_singleton_self q
    · refine hshut.dispatcher k (by rw [hd]; rfl) ?_
      rw [hreached.dispatcher trivial]
      trivial

/-- Nobody pops any more when the main thread is done. -/
theorem not_pops_of_done (H : Program.Protocol (S.program config times))
    (h : (S.program config times).Reachable s) (hmain : s.loc .main = MainLoc.done)
    (t : Thread P W) : ¬ S.Pops q t (s.loc t) := by
  have hreached := (shutdown_of_reachable (H := H) h).main
  rw [hmain] at hreached
  rcases t with k | _ | k | _
  · exact id
  · rintro ⟨-, hmoving⟩
    rw [hreached.dispatcher trivial] at hmoving
    exact hmoving
  · rintro ⟨-, hne⟩
    exact hne (hreached.worker k trivial)
  · exact id

/-- What is left in a queue is worth nothing. -/
theorem total_eq_zero (H : Program.Protocol (S.program config times))
    (h : (S.program config times).ReachableIf CloseHeeded s)
    (hmain : s.loc .main = MainLoc.done) (q : S.QueueId) :
    (S.flowLedger config times).total q (s.queue q) = 0 := by
  obtain ⟨hnone, heq⟩ := (draining (H := H) h q).drained (Program.good_of_reachableIf h)
    (closed_of_done h.reachable hmain q) (not_pops_of_done H h.reachable hmain)
  rw [Ledger.total_eq_left (fun _ => rfl) heq]
  apply List.sum_eq_zero
  intro x hx
  obtain ⟨ev, hev, rfl⟩ := List.mem_map.mp hx
  exact if_neg (hnone ev hev)

theorem pending_eq_zero (H : Program.Protocol (S.program config times))
    (h : (S.program config times).Reachable s) (hmain : s.loc .main = MainLoc.done)
    (t : Thread P W) : (S.flowLedger config times).pending t (s.loc t) = 0 ∧
      (S.sampleLedger config times).pending t (s.loc t) = 0 := by
  have hreached := (shutdown_of_reachable (H := H) h).main
  rw [hmain] at hreached
  rcases t with k | _ | k | _
  · rw [hreached.ingress k trivial]
    exact ⟨rfl, rfl⟩
  · rw [hreached.dispatcher trivial]
    exact ⟨rfl, rfl⟩
  · rw [hreached.worker k trivial]
    exact ⟨rfl, rfl⟩
  · exact ⟨rfl, rfl⟩

/-- **A run that returns** has completed or dropped what it has accepted. -/
theorem flow_eq_zero (H : Program.Protocol (S.program config times))
    (h : (S.program config times).ReachableIf CloseHeeded s)
    (hmain : s.loc .main = MainLoc.done) : flow s.glob = 0 := by
  have hbalanced := flow_balanced H h
  rw [Ledger.Balanced, Finset.sum_eq_zero fun q _ => total_eq_zero H h hmain q,
    Finset.sum_eq_zero fun t _ => (pending_eq_zero H h.reachable hmain t).1, add_zero] at hbalanced
  exact hbalanced

/-- **A run that returns** has a latency for every completed event. -/
theorem sampled_eq_zero (H : Program.Protocol (S.program config times))
    (h : (S.program config times).Reachable s) (hmain : s.loc .main = MainLoc.done) :
    sampled s.glob = 0 := by
  have hbalanced := sample_balanced H h
  have htotal : ∀ q, (S.sampleLedger config times).total q (s.queue q) = 0 := by
    intro q
    simp [Ledger.total, sampleLedger]
  rw [Ledger.Balanced, Finset.sum_eq_zero fun q _ => htotal q,
    Finset.sum_eq_zero fun t _ => (pending_eq_zero H h hmain t).2, add_zero] at hbalanced
  exact hbalanced

theorem actDispatcher_ne_countDropped {l : DispatcherLoc W} :
    S.actDispatcher config times g l ≠ some (.own g' .countDropped) := by
  intro h
  cases l with
  | pop =>
    obtain ⟨q', -, h⟩ := Option.map_eq_some_iff.mp h
    cases h
  | close rest => cases rest <;> cases h
  | _ => cases h

omit [NeZero W] in
theorem resumeDispatcher_ne_countDropped (hblock : config.policy = .block) {l : DispatcherLoc W}
    {r : Return} (hl : l ≠ .countDropped) : resumeDispatcher config l r ≠ .countDropped := by
  unfold resumeDispatcher
  split
  · simp
  · simp
  · simp [hblock]
  · simp
  · exact hl

/-- Without a dispatcher, or when pushes wait, there is nothing to count as dropped between the
queues. -/
theorem ne_countDropped (hno : S.dispatch = none ∨ config.policy = .block)
    (h : (S.program config times).Reachable s) :
    s.loc .dispatcher ≠ DispatcherLoc.countDropped := by
  rcases hno with hnone | hblock
  · rw [(consistent h .dispatcher).1 hnone]
    nofun
  · let L : ∀ t, S.Loc t → Prop
      | .dispatcher, l => l ≠ DispatcherLoc.countDropped
      | _, _ => True
    refine Program.forall_loc_of_reachable (L := L) ?_ ?_ ?_ h .dispatcher
    · rintro (k | _ | k | _)
      · trivial
      · change (if S.dispatch.isSome then DispatcherLoc.pop else DispatcherLoc.done) ≠ _
        split_ifs <;> nofun
      · trivial
      · trivial
    · rintro input (k | _ | k | _) g loc g' l hact hl
      · trivial
      · rintro rfl
        exact actDispatcher_ne_countDropped hact
      · trivial
      · trivial
    · rintro (k | _ | k | _) l r hl
      · trivial
      · exact resumeDispatcher_ne_countDropped hblock hl
      · trivial
      · trivial

theorem dropped_dispatch_eq_zero (hno : S.dispatch = none ∨ config.policy = .block)
    (h : (S.program config times).Reachable s) : PipelineState.dropped_dispatch s.glob = 0 := by
  induction h with
  | refl => rfl
  | tail hreach hstep ih =>
    obtain ⟨⟨t, now, _, _, _⟩, -, hc⟩ := hstep
    rcases Program.step_cases hc with ⟨g, l, -, hact, rfl⟩ | ⟨_, _, -, -, rfl⟩ |
      ⟨_, _, -, -, rfl⟩ | ⟨_, _, -, -, rfl⟩
    · rcases t with k | _ | k | _
      · exact (flow_actIngress hact).2.2.trans ih
      · exact ((flow_actDispatcher hact).2.2 (ne_countDropped hno hreach)).trans ih
      · exact (flow_actWorker hact).2.trans ih
      · exact (flow_actMain hact).2.2.trans ih
    · exact ih
    · exact ih
    · exact ih

/-! ### The three topologies -/

theorem exists_protocol (h : ∀ q, ∃ Allowed, FollowsProtocol (S.queue q) Allowed ∧
    ∀ s : (S.program config times).State, (S.program config times).Reachable s → ∀ t call,
      (S.program config times).Issues t (s.loc t) q call → Allowed t call) :
    Nonempty (Program.Protocol (S.program config times)) := by
  choose Allowed hfollows hissues using h
  choose bound A hR using hfollows
  exact ⟨bound, A, Allowed, hR, fun hreach hissued => hissues _ _ hreach _ _ hissued⟩

end Pipeline

open Pipeline

universe u

variable {config : AcceptedConfig} {max_size : ℕ} {times : Times}
  {S : Pipeline config.ingress config.workers}

theorem bind_eq_ok {α β : Type u} {x : Except Error α} {f : α → Except Error β} {b : β}
    (h : x >>= f = .ok b) : ∃ a, x = .ok a ∧ f a = .ok b := by
  cases x with
  | error e => cases h
  | ok a => exact ⟨a, rfl, h⟩

/-- A queue that is no ring for one producer and one consumer may be used by anybody. -/
theorem disciplined_of_ne {kind : QueueKind} {ι : Type} [DecidableEq ι] (hkind : kind ≠ .spscRing)
    (p k i : ι) (call : Call) : Disciplined kind p k i call :=
  fun heq => absurd heq hkind

/-- Every queue is made by `makeQueue`, and a ring for one producer and one consumer has threads
that keep to it. -/
def Pipeline.KeepsDiscipline {P W : ℕ} [NeZero W] (S : Pipeline P W) (config : PipelineConfig)
    (times : Times) (max_size : ℕ) : Prop :=
  ∀ q, ∃ kind capacity options p k,
    makeQueue (Thread P W) max_size kind capacity options = .ok (S.queue q) ∧
      ∀ s : (S.program config times).State, (S.program config times).Reachable s → ∀ t call,
        (S.program config times).Issues t (s.loc t) q call → Disciplined kind p k t call

theorem runSharedQueuePipeline_discipline (hshared : config.topology = .sharedQueue)
    (h : runSharedQueuePipeline max_size config = .ok S) :
    S.KeepsDiscipline config.toPipelineConfig times max_size := by
  obtain ⟨Q, hQ, h⟩ := bind_eq_ok h
  cases h
  have hkind := config.valid.shared hshared
  exact fun _ => ⟨_, _, _, .main, .main, hQ, fun _ _ _ _ _ => disciplined_of_ne hkind _ _ _ _⟩

theorem runDispatchLocalSpscPipeline_discipline (hshared : config.topology ≠ .sharedQueue)
    (h : runDispatchLocalSpscPipeline max_size config = .ok S) :
    S.KeepsDiscipline config.toPipelineConfig times max_size := by
  obtain ⟨Q, hQ, h⟩ := bind_eq_ok h
  obtain ⟨R, hR, h⟩ := bind_eq_ok h
  cases h
  have hkind := config.valid.dispatch hshared
  rintro (_ | w)
  · exact ⟨_, _, _, .main, .main, hQ, fun _ _ _ _ _ => disciplined_of_ne hkind _ _ _ _⟩
  · refine ⟨_, _, _, .dispatcher, .worker w, hR, ?_⟩
    rintro s - t call hissued -
    rcases t with k | _ | k | _
    · obtain ⟨_, _, _, -, hq, -⟩ := issues_ingress hissued
      cases hq
    · rcases issues_dispatcher hissued with ⟨-, hq, -⟩ | ⟨_, _, -, -, rfl⟩ | ⟨_, _, -, -, rfl⟩
      · cases hq
      · rfl
      · trivial
    · obtain ⟨-, hq, rfl⟩ := issues_worker hissued
      cases hq
      rfl
    · obtain ⟨_, -, rfl⟩ := issues_main hissued
      trivial

theorem runDirectLocalSpscPipeline_discipline (hdirect : config.topology = .directLocalSpsc)
    (h : runDirectLocalSpscPipeline max_size config = .ok S) :
    S.KeepsDiscipline config.toPipelineConfig times max_size := by
  obtain ⟨R, hR, h⟩ := bind_eq_ok h
  cases h
  intro (w : Fin config.workers)
  -- There are no more ingress threads than workers, so each pushes to a ring of its own.
  have hle := config.valid.direct hdirect
  refine ⟨_, _, _, if hw : w.val < config.ingress then .ingress ⟨w, hw⟩ else .main, .worker w, hR,
    ?_⟩
  rintro s hreach t call hissued -
  rcases t with k | _ | k | _
  · obtain ⟨_, _, _, -, hq, rfl⟩ := issues_ingress hissued
    have hlt : (k : ℕ) < config.workers := by
      have hk : (k : ℕ) < config.ingress_threads.toNat := k.isLt
      change (k : ℕ) < config.worker_threads.toNat
      omega
    have hw : w.val = k := by
      rw [hq]
      exact Nat.mod_eq_of_lt hlt
    change Thread.ingress k = if hw : w.val < config.ingress then .ingress ⟨w, hw⟩ else .main
    rw [dif_pos (hw ▸ k.isLt)]
    exact congrArg Thread.ingress (Fin.ext hw.symm)
  · have hdone := (consistent hreach .dispatcher).1 rfl
    rw [hdone] at hissued
    rcases issues_dispatcher hissued with ⟨h, -⟩ | ⟨_, _, h, -⟩ | ⟨_, _, h, -⟩ <;> cases h
  · obtain ⟨-, rfl, rfl⟩ := issues_worker hissued
    rfl
  · obtain ⟨_, -, rfl⟩ := issues_main hissued
    trivial

/-- An accepted configuration is run with the pipeline of its topology. -/
theorem runPipelineScenario_eq : runPipelineScenario max_size config.toPipelineConfig =
    match config.topology with
    | .sharedQueue => runSharedQueuePipeline max_size config
    | .dispatchLocalSpsc => runDispatchLocalSpscPipeline max_size config
    | .directLocalSpsc => runDirectLocalSpscPipeline max_size config := by
  unfold runPipelineScenario
  split
  · rename_i e h
    rw [config.accepted] at h
    cases h
  · rfl

/-- Whatever pipeline a configuration is run with, its threads keep to its rings. -/
theorem runPipelineScenario_discipline
    (h : runPipelineScenario max_size config.toPipelineConfig = .ok S) :
    S.KeepsDiscipline config.toPipelineConfig times max_size := by
  rw [runPipelineScenario_eq] at h
  split at h
  · rename_i htop
    exact runSharedQueuePipeline_discipline htop h
  · rename_i htop
    exact runDispatchLocalSpscPipeline_discipline (by simp [htop]) h
  · rename_i htop
    exact runDirectLocalSpscPipeline_discipline htop h

/-- Its queues follow the permit protocol. -/
theorem runPipelineScenario_protocol
    (h : runPipelineScenario max_size config.toPipelineConfig = .ok S) :
    Nonempty (Program.Protocol (S.program config.toPipelineConfig times)) := by
  refine exists_protocol fun q => ?_
  obtain ⟨kind, capacity, options, p, k, hQ, hissues⟩ := runPipelineScenario_discipline h q
  exact ⟨_, makeQueue_follows p k hQ, hissues⟩

/-- Without a dispatcher in the topology there is none in the pipeline. -/
theorem dispatch_eq_none (h : runPipelineScenario max_size config.toPipelineConfig = .ok S)
    (htop : config.topology ≠ .dispatchLocalSpsc) : S.dispatch = none := by
  rw [runPipelineScenario_eq] at h
  split at h
  · obtain ⟨Q, -, h⟩ := bind_eq_ok h
    cases h
    rfl
  · rename_i hd
    exact absurd hd htop
  · obtain ⟨Q, -, h⟩ := bind_eq_ok h
    cases h
    rfl

/-! ### Conservation -/

/-- The samples of the result are the latencies of all workers. -/
theorem samples_result (s : (S.program config.toPipelineConfig times).State) :
    ((S.result config.toPipelineConfig times s).samples : ℤ) =
      ∑ k, ((PipelineState.worker_metrics s.glob k).latencies_ns.length : ℤ) := by
  change ((((List.finRange config.workers).map (PipelineState.worker_metrics s.glob)).flatMap
    WorkerMetrics.latencies_ns).length : ℤ) = _
  rw [List.length_flatMap, List.map_map, ← Fin.sum_univ_def]
  exact Nat.cast_sum _ _

/-- **Conservation at the end of a run.** A run that returns has completed or dropped between the
queues what it has accepted, and has one sample for each completed event; without a dispatcher, and
when pushes wait, nothing is dropped between the queues. -/
theorem accepted_eq_completed (h : runPipelineScenario max_size config.toPipelineConfig = .ok S)
    {s : (S.program config.toPipelineConfig times).State}
    (hreach : (S.program config.toPipelineConfig times).ReachableIf CloseHeeded s)
    (hmain : s.loc .main = MainLoc.done) :
    let r := S.result config.toPipelineConfig times s
    r.accepted = r.completed + r.dropped_dispatch ∧ r.samples = r.completed ∧
      (config.topology ≠ .dispatchLocalSpsc ∨ config.policy = .block →
        r.accepted = r.completed) := by
  obtain ⟨H⟩ : Nonempty (Program.Protocol (S.program config.toPipelineConfig times)) :=
    runPipelineScenario_protocol h
  have hflow : (s.glob.accepted : ℤ) - s.glob.completed - s.glob.dropped_dispatch = 0 :=
    flow_eq_zero H hreach hmain
  have hsampled : ∑ k, ((PipelineState.worker_metrics s.glob k).latencies_ns.length : ℤ) -
    s.glob.completed = 0 := sampled_eq_zero H hreach.reachable hmain
  refine ⟨?_, ?_, fun hno => ?_⟩
  · change PipelineState.accepted s.glob = s.glob.completed + s.glob.dropped_dispatch
    omega
  · have hsamples := samples_result s
    change _ = PipelineState.completed s.glob
    omega
  · have hdropped : PipelineState.dropped_dispatch s.glob = 0 :=
      dropped_dispatch_eq_zero (hno.imp_left (dispatch_eq_none h)) hreach.reachable
    change PipelineState.accepted s.glob = s.glob.completed
    omega

/-- One ingress thread and one worker share a queue of capacity 1 for a millisecond. -/
def oneOfEach : AcceptedConfig :=
  ⟨{ ingress_threads := 1, worker_threads := 1, duration := 1, ingress_queue_capacity := 1 },
    by decide⟩

/-- The worker takes `look` steps; the ingress thread then accepts one event and ends; the main
thread stops, joins it and closes the queue; the worker takes `find` steps and is joined. -/
def oneEventRun (S : Pipeline 1 1) (look find : ℕ) :
    List (S.program oneOfEach.toPipelineConfig (oneOfEach.times 0)).Choice :=
  List.replicate look { thread := .worker 0, input := (0 : ℤ) } ++
    List.replicate 19 { thread := .ingress 0, input := (0 : ℤ), addr := 1 } ++
    { thread := .ingress 0, input := (1000000 : ℤ) } ::
      List.replicate 9 { thread := .main, input := (1000000 : ℤ) } ++
    List.replicate find { thread := .worker 0, input := (1000000 : ℤ) } ++
    List.replicate 2 { thread := .main, input := (1000000 : ℤ) }

/-- A worker that starts after the queue is closed completes the event. -/
theorem accepted_eq_completed_one :
    ∃ S, runPipelineScenario (2 ^ 58) oneOfEach.toPipelineConfig = .ok S ∧
      ∃ s : (S.program oneOfEach.toPipelineConfig (oneOfEach.times 0)).State,
        (S.program oneOfEach.toPipelineConfig (oneOfEach.times 0)).ReachableIf CloseHeeded s ∧
          s.loc .main = MainLoc.done ∧
            let r := S.result oneOfEach.toPipelineConfig (oneOfEach.times 0) s
            r.completed = 1 ∧ r.accepted = r.completed + r.dropped_dispatch ∧
              r.samples = r.completed ∧ (oneOfEach.topology ≠ .dispatchLocalSpsc ∨
                oneOfEach.policy = .block → r.accepted = r.completed) := by
  have hrun {S : Pipeline oneOfEach.ingress oneOfEach.workers}
      {s : (S.program oneOfEach.toPipelineConfig (oneOfEach.times 0)).State}
      (h : runPipelineScenario (2 ^ 58) oneOfEach.toPipelineConfig = .ok S)
      (hs : (S.program oneOfEach.toPipelineConfig (oneOfEach.times 0)).runIf CloseHeeded
        (.initial _) (oneEventRun S 0 19) = some s) (hmain : s.loc .main = MainLoc.done) :=
    And.intro (Program.steps_of_runIf hs) (And.intro hmain
      (accepted_eq_completed h (Program.steps_of_runIf hs) hmain))
  obtain ⟨hreach, hmain, hcounts⟩ := hrun rfl (Option.some_get (by decide)).symm rfl
  exact ⟨_, rfl, _, hreach, hmain, rfl, hcounts⟩

/-- **An accepted event is lost**: the worker finds the queue empty, the event is pushed, the
queue is closed, and the worker sees that it is closed. -/
theorem accepted_event_lost :
    ∃ S, runPipelineScenario (2 ^ 58) oneOfEach.toPipelineConfig = .ok S ∧
      ∃ s : (S.program oneOfEach.toPipelineConfig (oneOfEach.times 0)).State,
        (S.program oneOfEach.toPipelineConfig (oneOfEach.times 0)).Reachable s ∧
          s.loc .main = MainLoc.done ∧
            let r := S.result oneOfEach.toPipelineConfig (oneOfEach.times 0) s
            r.accepted = 1 ∧ r.completed = 0 ∧ r.dropped_dispatch = 0 :=
  ⟨_, rfl, _, Program.reachable_of_run (oneEventRun _ 2 2) (Option.some_get (by decide)).symm, rfl,
    rfl, rfl, rfl⟩

/-! ### A run that drops events -/

/-- Two ingress threads push to one queue and a dispatcher to the rings of two workers, all of
capacity 1, and nobody waits. -/
def twoOfEach : AcceptedConfig :=
  ⟨{ ingress_threads := 2, worker_threads := 2, duration := 1, ingress_queue_capacity := 1,
     worker_queue_capacity := 1, policy := .drop, topology := .dispatchLocalSpsc }, by decide⟩

section

variable (S : Pipeline 2 2)

/-- The thread `t` takes `n` steps at the reading `now`. -/
def turns (t : Thread 2 2) (n : ℕ) (now : ℤ) (addr : ℕ) :
    List (S.program twoOfEach.toPipelineConfig (twoOfEach.times 0)).Choice :=
  List.replicate n { thread := t, input := now, addr }

/-- Of the first two events one is dropped.  Of the next two, which are meant for one worker, the
ring takes one, and rejects the other.  The worker `0` then takes `n` steps. -/
def rejectingRun (n : ℕ) :
    List (S.program twoOfEach.toPipelineConfig (twoOfEach.times 0)).Choice :=
  turns S (.ingress 0) 18 0 1 ++ turns S (.ingress 1) 10 0 0 ++ turns S .dispatcher 22 0 0 ++
    turns S (.ingress 1) 17 0 2 ++ turns S .dispatcher 22 0 0 ++ turns S (.ingress 0) 17 0 3 ++
    turns S .dispatcher 20 0 0 ++ turns S (.worker 0) n 0 0

/-- The workers complete their events, and the threads end one after the other. -/
def droppingRun : List (S.program twoOfEach.toPipelineConfig (twoOfEach.times 0)).Choice :=
  rejectingRun S 10 ++ turns S (.worker 1) 10 0 0 ++ turns S (.ingress 0) 2 1000000 0 ++
    turns S (.ingress 1) 2 1000000 0 ++ turns S .main 9 1000000 0 ++
    turns S .dispatcher 11 1000000 0 ++ turns S (.worker 0) 5 1000000 0 ++
    turns S (.worker 1) 5 1000000 0 ++ turns S .main 4 1000000 0

end

/-- The main thread is done. -/
def Pipeline.MainLoc.isDone {P W : ℕ} {QueueId : Type} : MainLoc P W QueueId → Bool
  | .done => true
  | _ => false

theorem Pipeline.main_isDone {P W : ℕ} {QueueId : Type} {l : MainLoc P W QueueId}
    (h : l.isDone = true) : l = .done := by
  cases l with
  | done => rfl
  | _ => cases h

end Laboratory.QueueLatency
