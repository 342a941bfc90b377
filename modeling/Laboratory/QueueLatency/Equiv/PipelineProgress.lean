import Laboratory.QueueLatency.Equiv.GlobalLockWait
import Laboratory.QueueLatency.Equiv.PipelineAdmission

/-!
# A pipeline does not get stuck

`never_stuck`: with a `GlobalLockQueue` between the ingress threads and the workers or the
dispatcher, the main thread always gets on or waits for somebody who does, if it sets `ingress_stop`
while there is an event for every push that waits for room, or if there is a dispatcher
(`StopServed`).

The proviso is needed.  Setting `ingress_stop` wakes nobody, and the main thread joins the ingress
threads before it closes the queue, so that two pushes that wait for the one place of a queue are
left with the one notification of the last `pop` (`main_stuck`).  It cannot come to that if pushes
drop, or if there are no more ingress threads than places (`reachableIf_of_room`).
-/

namespace Laboratory.QueueLatency

open Concurrency

namespace SpscRingQueue

variable {ι : Type} {capacity : ℕ} {env : Env ι} {i : ι} {x : Shared}
  {f : Frame (spscRingQueue ι capacity)}

/-- A `pop` of a ring never waits. -/
theorem ne_pop_of_stepFrame (hres : f.result = none) (h : QState.stepFrame env i x f = none) :
    f.toCall ≠ .pop := by
  cases f with
  | pop pc =>
    have h : pop env i x pc = none := Option.map_eq_none_iff.mp h
    cases pc with
    | loadTail spins head =>
      simp only [pop] at h
      split_ifs at h
    | emptyStop spins =>
      simp only [pop] at h
      split_ifs at h
    | returned out => cases hres
    | _ => cases h
  | push ev policy pc => rintro ⟨⟩
  | close done => rintro ⟨⟩

/-- Neither does a `close`. -/
theorem ne_close_of_stepFrame (hres : f.result = none) (h : QState.stepFrame env i x f = none) :
    f.toCall ≠ .close := by
  cases f with
  | close done =>
    cases done
    · cases h
    · cases hres
  | push ev policy pc => nofun
  | pop pc => nofun

end SpscRingQueue

namespace Pipeline

variable {P W : ℕ} {S : Pipeline P W} {config : PipelineConfig} {times : Times} [NeZero W]
  {s : (S.program config times).State}

/-- The main thread has not ended, and no thread takes a step without a spurious wake-up: a thread
that has not ended joins one that has not, waits for a mutex, or waits for a notification. -/
def Stuck (s : (S.program config times).State) : Prop :=
  s.loc .main ≠ MainLoc.done ∧ Program.Blocked s

/-- The main thread is about to set `ingress_stop`. -/
def MainLoc.isStop {QueueId : Type} : MainLoc P W QueueId → Bool
  | .stop => true
  | _ => false

/-- **There is an event for every push that waits for room**, or a dispatcher, if the main thread
sets `ingress_stop` in the step. -/
def StopServed (s : (S.program config times).State) (c : (S.program config times).Choice) : Prop :=
  c.thread = .main → MainLoc.isStop (s.loc .main) = true → S.dispatch = none →
    ∀ q, (s.queue q).Served

instance (s : (S.program config times).State) (c : (S.program config times).Choice) :
    Decidable (StopServed s c) :=
  inferInstanceAs (Decidable (_ = _ → _ = _ → _ = _ → _))

/-! ### Where the threads of a stuck pipeline are -/

omit [NeZero W] in
theorem actIngress_ne_none {k : Fin P} {now : ℤ} {g : PipelineState W} {l : IngressLoc}
    (hl : l ≠ .done) : S.actIngress config times now k g l ≠ none := by
  cases l with
  | readClock v =>
    simp only [actIngress]
    split_ifs <;> simp
  | makeEvent v =>
    simp only [actIngress]
    split_ifs <;> simp
  | done => exact absurd rfl hl
  | _ => simp [actIngress]

omit [NeZero W] in
theorem actWorker_ne_none {k : Fin W} {now : ℤ} {g : PipelineState W} {l : WorkerLoc}
    (hl : l ≠ .done) : S.actWorker times now k g l ≠ none := by
  cases l with
  | measure ev =>
    simp only [actWorker]
    split_ifs <;> simp
  | done => exact absurd rfl hl
  | _ => simp [actWorker]

omit [NeZero W] in
/-- The main thread waits for nobody but the threads it joins. -/
theorem actMain_eq_none {now : ℤ} {g : PipelineState W} {loc : ∀ t, S.Loc t}
    {l : MainLoc P W S.QueueId} (h : S.actMain times now g loc l = none) :
    l = .done ∨ (∃ k rest, l = .joinIngress (k :: rest) ∧ loc (.ingress k) ≠ IngressLoc.done) ∨
      (l = .joinDispatcher ∧ loc .dispatcher ≠ DispatcherLoc.done) ∨
        ∃ k rest, l = .joinWorkers (k :: rest) ∧ loc (.worker k) ≠ WorkerLoc.done := by
  cases l with
  | joinIngress rest =>
    cases rest with
    | nil => cases h
    | cons k rest =>
      simp only [actMain] at h
      split_ifs at h with hdone
      exact .inr (.inl ⟨k, rest, rfl, fun heq => hdone (by rw [heq]; rfl)⟩)
  | joinDispatcher =>
    simp only [actMain] at h
    split_ifs at h with hdone
    exact .inr (.inr (.inl ⟨rfl, fun heq => hdone (by rw [heq]; rfl)⟩))
  | joinWorkers rest =>
    cases rest with
    | nil => cases h
    | cons k rest =>
      simp only [actMain] at h
      split_ifs at h with hdone
      exact .inr (.inr (.inr ⟨k, rest, rfl, fun heq => hdone (by rw [heq]; rfl)⟩))
  | close rest => cases rest <;> cases h
  | done => exact .inl rfl
  | _ => cases h

/-- An ingress thread that has not ended waits in a push. -/
theorem blocked_ingress (h : Program.Blocked s) (hs : Program.Framed s) {k : Fin P}
    (hk : s.loc (.ingress k) ≠ IngressLoc.done) :
    ∃ f ev, (s.queue (S.source k)).frame (.ingress k) = some f ∧
      f.toCall = .push ev config.policy ∧ f.result = none := by
  cases hcalling : s.calling (.ingress k) with
  | none => exact absurd (h.act_eq_none hcalling (0 : ℤ)) (actIngress_ne_none hk)
  | some q =>
    obtain ⟨f, hf, hissued⟩ := hs.issues hcalling
    obtain ⟨v, ev, measured, -, rfl, hcall⟩ := issues_ingress hissued
    exact ⟨f, ev, hf, hcall, (h.stepFrame_eq_none hs hf (0 : ℤ) none).1⟩

/-- A worker that has not ended waits in a pop. -/
theorem blocked_worker (h : Program.Blocked s) (hs : Program.Framed s) {k : Fin W}
    (hk : s.loc (.worker k) ≠ WorkerLoc.done) :
    ∃ f, (s.queue (S.sink k)).frame (.worker k) = some f ∧ f.toCall = .pop ∧ f.result = none := by
  cases hcalling : s.calling (.worker k) with
  | none => exact absurd (h.act_eq_none hcalling (0 : ℤ)) (actWorker_ne_none hk)
  | some q =>
    obtain ⟨f, hf, hissued⟩ := hs.issues hcalling
    obtain ⟨-, rfl, hcall⟩ := issues_worker hissued
    exact ⟨f, hf, hcall, (h.stepFrame_eq_none hs hf (0 : ℤ) none).1⟩

/-- The main thread joins somebody who has not ended, or waits to close a queue. -/
theorem stuck_main (h : Stuck s) (hs : Program.Framed s) :
    (∃ q f, (s.queue q).frame .main = some f ∧ f.toCall = .close ∧ f.result = none) ∨
    (∃ k rest, s.loc .main = MainLoc.joinIngress (k :: rest) ∧
      s.loc (.ingress k) ≠ IngressLoc.done) ∨
    (s.loc .main = MainLoc.joinDispatcher ∧ s.loc .dispatcher ≠ DispatcherLoc.done) ∨
    ∃ k rest, s.loc .main = MainLoc.joinWorkers (k :: rest) ∧
      s.loc (.worker k) ≠ WorkerLoc.done := by
  obtain ⟨hmain, h⟩ := h
  cases hcalling : s.calling .main with
  | none => exact .inr ((actMain_eq_none (h.act_eq_none hcalling (0 : ℤ))).resolve_left hmain)
  | some q =>
    obtain ⟨f, hf, hissued⟩ := hs.issues hcalling
    obtain ⟨-, -, hcall⟩ := issues_main hissued
    exact .inl ⟨q, f, hf, hcall, (h.stepFrame_eq_none hs hf (0 : ℤ) none).1⟩

/-! ### The shared queue -/

/-- Ingress threads push, workers pop, and the main thread closes. -/
theorem issues_of_shared (h : (S.program config times).Reachable s) (hdispatch : S.dispatch = none)
    {t : Thread P W} {q : S.QueueId} {c : Call}
    (hissued : (S.program config times).Issues t (s.loc t) q c) :
    (∃ k ev, t = .ingress k ∧ c = .push ev config.policy) ∨ (∃ k, t = .worker k ∧ c = .pop) ∨
      t = .main ∧ c = .close := by
  rcases t with k | _ | k | _
  · obtain ⟨_, ev, _, -, -, rfl⟩ := issues_ingress hissued
    exact .inl ⟨k, ev, rfl, rfl⟩
  · have hdone := (consistent h .dispatcher).1 hdispatch
    rw [hdone] at hissued
    rcases issues_dispatcher hissued with ⟨h, -⟩ | ⟨_, _, h, -⟩ | ⟨_, _, h, -⟩ <;> cases h
  · obtain ⟨-, -, rfl⟩ := issues_worker hissued
    exact .inr (.inl ⟨k, rfl, rfl⟩)
  · obtain ⟨_, -, rfl⟩ := issues_main hissued
    exact .inr (.inr ⟨rfl, rfl⟩)

/-- The threads whose pushes may block. -/
def producers (P W : ℕ) (config : PipelineConfig) : Finset (Thread P W) :=
  if config.policy = .block then Finset.univ.image Thread.ingress else ∅

omit [NeZero W] in
theorem card_producers_le {n : ℕ} (h : config.policy = .drop ∨ P ≤ n) :
    (producers P W config).card ≤ n := by
  unfold producers
  split_ifs with hblock
  · rw [Finset.card_image_of_injective _ fun _ _ => Thread.ingress.inj, Finset.card_univ,
      Fintype.card_fin]
    exact h.resolve_left (by rw [hblock]; nofun)
  · exact Nat.zero_le _

theorem roles_of_issues (h : (S.program config times).Reachable s) (hdispatch : S.dispatch = none)
    {t : Thread P W} {q : S.QueueId} {c : Call}
    (hissued : (S.program config times).Issues t (s.loc t) q c) :
    GlobalLockQueue.Roles (producers P W config) (Finset.univ.image Thread.worker) t c := by
  rcases issues_of_shared h hdispatch hissued with ⟨k, ev, rfl, rfl⟩ | ⟨k, rfl, rfl⟩ | ⟨rfl, rfl⟩
  · intro hblock
    rw [producers, if_pos hblock]
    exact Finset.mem_image_of_mem _ (Finset.mem_univ k)
  · exact Finset.mem_image_of_mem _ (Finset.mem_univ k)
  · trivial

/-- A worker that has ended has seen its queue closed. -/
theorem worker_or_closed (H : Program.Protocol (S.program config times))
    (h : (S.program config times).Reachable s) (k : Fin W) :
    s.loc (.worker k) ≠ WorkerLoc.done ∨ (H.store s (S.sink k)).closed = true := by
  have hstart : (S.channel config times (S.sink k)).pops (.worker k) WorkerLoc.pop :=
    ⟨rfl, by rintro ⟨⟩⟩
  exact (Channel.pops_or_closed _ (fun s hs => closedLast H hs _) hstart h).imp_left And.right

/-- A queue that an ingress thread may still push to is open. -/
theorem closed_eq_false (H : Program.Protocol (S.program config times))
    (h : (S.program config times).Reachable s) {k : Fin P}
    (hk : s.loc (.ingress k) ≠ IngressLoc.done) :
    (H.store s (S.source k)).closed ≠ true :=
  fun hclosed => quiet H h _ hclosed (.ingress k) ⟨rfl, hk⟩

omit [NeZero W] in
theorem roles_univ (t : Thread P W) (c : Call) :
    GlobalLockQueue.Roles Finset.univ Finset.univ t c := by
  cases c
  · exact fun _ => Finset.mem_univ t
  · exact Finset.mem_univ t
  · trivial

/-! ### The stop flag -/

/-- Only the main thread sets `ingress_stop`. -/
theorem stop_of_own {input : ℤ} {t : Thread P W} {loc : ∀ t, S.Loc t} {l : S.Loc t}
    {g g' : PipelineState W}
    (h : (S.program config times).act input t g loc = some (.own g' l)) :
    g'.ingress_stop = g.ingress_stop ∨ t = .main ∧ MainLoc.isStop (loc .main) = true := by
  rcases t with k | _ | k | _
  · exact .inl (undecided_ingress (actIngress_own h)).2.1
  · exact .inl (undecided_dispatcher (actDispatcher_own h)).2.1
  · exact .inl (undecided_worker (actWorker_own h)).2.1
  · rcases actMain_own h with ⟨-, rfl⟩ | ⟨hstop, -, -⟩
    · exact .inl rfl
    · exact .inr ⟨rfl, by rw [hstop]; rfl⟩

/-- The main thread has set `ingress_stop`. -/
def MainLoc.hasStopped {QueueId : Type} : MainLoc P W QueueId → Prop
  | .sleep | .stop => False
  | _ => True

/-- The flag is up when the main thread has set it. -/
theorem ingress_stop_of_hasStopped (h : (S.program config times).Reachable s)
    (hmain : MainLoc.hasStopped (s.loc .main)) : PipelineState.ingress_stop s.glob = true := by
  induction h with
  | refl => exact hmain.elim
  | @tail s s' _ hstep ih =>
    obtain ⟨c, -, hc⟩ := hstep
    by_cases hbefore : MainLoc.hasStopped (s.loc .main)
    · exact ingress_stop_mono hc (ih hbefore)
    · -- The step takes the main thread past the place where it sets the flag.
      rcases Program.step_cases hc with ⟨g, l, -, hact, rfl⟩ | ⟨_, _, -, -, rfl⟩ |
        ⟨q, r, hcalling, hr, rfl⟩ | ⟨_, _, -, -, rfl⟩
      · obtain ⟨t, now, _, _, _⟩ := c
        rcases t with k | _ | k | _
        · exact absurd hmain hbefore
        · exact absurd hmain hbefore
        · exact absurd hmain hbefore
        · have hmain : MainLoc.hasStopped (l : MainLoc P W S.QueueId) := by
            simpa only [Function.update_self] using hmain
          change S.actMain times now s.glob s.loc (s.loc .main) = some (.own g l) at hact
          cases hl : (s.loc .main : MainLoc P W S.QueueId) with
          | sleep =>
            rw [hl] at hact
            cases hact
            split_ifs at hmain <;> exact hmain.elim
          | stop =>
            rw [hl] at hact
            cases hact
            rfl
          | _ => exact absurd (by rw [hl]; trivial) hbefore
      · exact absurd hmain hbefore
      · obtain ⟨t, now, _, _, _⟩ := c
        rcases t with k | _ | k | _
        · exact absurd hmain hbefore
        · exact absurd hmain hbefore
        · exact absurd hmain hbefore
        · simp only [Program.State.return, Function.update_self] at hmain
          change MainLoc.hasStopped (resumeMain (s.loc .main) r) at hmain
          refine absurd ?_ hbefore
          revert hmain
          cases (s.loc .main : MainLoc P W S.QueueId) with
          | sleep | stop => exact id
          | _ => exact fun _ => trivial
      · exact absurd hmain hbefore

/-- **Once the flag is up, the waiters are served**, in a run that meets the condition, if the steps
of the queue keep them served in which pushes are told to stop. -/
theorem served_of_stop {q : S.QueueId} (hdispatch : S.dispatch = none)
    (hlaw : FlagLaw ((S.program config times).queue q))
    (hkeeps : ∀ {s : (S.program config times).State} {env i x},
      (S.program config times).Reachable s → (s.queue q).Served →
        (∀ ev policy pc, (s.queue q).frame i = some (.push ev policy pc) → env.stop = true) →
          (s.queue q).step env i = some x → x.Served)
    (h : (S.program config times).ReachableIf StopServed s)
    (hstop : PipelineState.ingress_stop s.glob = true) : (s.queue q).Served := by
  induction h with
  | refl => cases hstop
  | @tail s s' hreach hstep ih =>
    obtain ⟨c, hok, hc⟩ := hstep
    have hframed := Program.framed_of_reachableIf hreach
    -- Either the flag was up before, or the main thread sets it in this step.
    obtain hbefore | ⟨hmain, hsets, hqueue⟩ : PipelineState.ingress_stop s.glob = true ∨
        c.thread = .main ∧ MainLoc.isStop (s.loc .main) = true ∧ s'.queue = s.queue := by
      rcases Program.step_cases hc with ⟨g, l, -, hact, rfl⟩ | ⟨_, _, -, -, rfl⟩ |
        ⟨_, _, -, -, rfl⟩ | ⟨_, _, -, -, rfl⟩
      · exact (stop_of_own hact).imp (fun heq => heq.symm.trans hstop) fun ⟨hmain, hsets⟩ =>
          ⟨hmain, hsets, rfl⟩
      · exact .inl hstop
      · exact .inl hstop
      · exact .inl hstop
    · have hserved := ih hbefore
      rcases Program.step_at q hc with ⟨-, -, -, hqueue⟩ | ⟨-, hqueue⟩ | ⟨-, -, -, -, hqueue⟩ |
        ⟨hfree, -, -, hqueue⟩ | ⟨-, hr, -, hqueue⟩ | ⟨-, hx, -⟩
      · rwa [hqueue]
      · rwa [hqueue]
      · rwa [hqueue]
      · rw [hqueue, served_call hlaw (hframed.frame_eq_none (by rw [hfree]; nofun))]
        exact hserved
      · rw [hqueue, served_leave hlaw hr]
        exact hserved
      · have hreach := Program.ReachableIf.reachable hreach
        refine hkeeps hreach hserved (fun ev policy pc hf => ?_) hx
        obtain ⟨t, now, spurious, wake, addr⟩ := c
        rcases issues_of_shared hreach hdispatch (hframed.issued _ q _ hf).2 with
          ⟨k, _, rfl, -⟩ | ⟨_, -, hcall⟩ | ⟨-, hcall⟩
        · exact hbefore
        · cases hcall
        · cases hcall
    · rw [hqueue]
      exact hok hmain hsets hdispatch q

/-- **Without a dispatcher**, nobody is stuck if no `close` waits, no `pop` waits on a closed queue,
and for every push that waits some worker does not wait in a `pop` of the same queue. -/
theorem not_stuck_of_shared (H : Program.Protocol (S.program config times))
    (h : (S.program config times).Reachable s) (hdispatch : S.dispatch = none)
    (hclose : ∀ q f, (s.queue q).frame .main = some f → f.result = none → f.toCall ≠ .close)
    (hpop : ∀ k f, (s.queue (S.sink k)).frame (.worker k) = some f → f.result = none →
      (H.store s (S.sink k)).closed = false)
    (hpush : PipelineState.ingress_stop s.glob = true → ∀ k f ev,
      (s.queue (S.source k)).frame (.ingress k) = some f → f.result = none →
      f.toCall = .push ev config.policy → ∃ w, S.sink w = S.source k ∧
        ∀ f, (s.queue (S.sink w)).frame (.worker w) = some f → f.toCall = .pop → f.result ≠ none) :
    ¬ Stuck s := by
  intro hstuck
  have hframed := Program.framed_of_reachableIf h
  rcases stuck_main hstuck hframed with ⟨q, f, hf, hcall, hres⟩ | ⟨k, rest, hmain, hk⟩ |
    ⟨hmain, hdispatcher⟩ | ⟨k, rest, hmain, hk⟩
  · exact hclose q f hf hres hcall
  · obtain ⟨f, ev, hf, hcall, hres⟩ := blocked_ingress hstuck.2 hframed hk
    have hstop := ingress_stop_of_hasStopped h (by rw [hmain]; trivial)
    obtain ⟨w, hw, hawake⟩ := hpush hstop k f ev hf hres hcall
    have hopen := closed_eq_false H h hk
    rw [← hw] at hopen
    obtain ⟨f, hf, hcall, hres⟩ :=
      blocked_worker hstuck.2 hframed ((worker_or_closed H h w).resolve_right hopen)
    exact hawake f hf hcall hres
  · exact hdispatcher ((consistent h .dispatcher).1 hdispatch)
  · obtain ⟨f, hf, -, hres⟩ := blocked_worker hstuck.2 hframed hk
    have hreached := (shutdown_of_reachable (H := H) h).main
    rw [hmain] at hreached
    have hclosed := hreached.closed (S.sink k) (S.closed hdispatch _) trivial
    rw [hpop k f hf hres] at hclosed
    cases hclosed

/-- The dispatcher moves events until its queue is closed. -/
theorem isMoving_or_closed (H : Program.Protocol (S.program config times))
    (h : (S.program config times).Reachable s) {d : S.QueueId} (hd : S.dispatch = some d) :
    DispatcherLoc.isMoving (s.loc .dispatcher) ∨ (H.store s d).closed = true := by
  have hstart : (S.channel config times d).pops .dispatcher
      (if S.dispatch.isSome then DispatcherLoc.pop else DispatcherLoc.done) := by
    rw [hd]
    exact ⟨hd, trivial⟩
  exact (Channel.pops_or_closed _ (fun s hs => closedLast H hs _) hstart h).imp_left And.right

/-- A dispatcher that closes queues has ended, unless a `close` waits. -/
theorem blocked_dispatcher (h : Program.Blocked s) (hs : Program.Framed s)
    (hmoving : ¬ DispatcherLoc.isMoving (s.loc .dispatcher))
    (hclose : ∀ q f, (s.queue q).frame .dispatcher = some f → f.result = none →
      f.toCall ≠ .close) : s.loc .dispatcher = DispatcherLoc.done := by
  by_contra hdone
  obtain ⟨rest, hloc⟩ : ∃ rest, s.loc .dispatcher = DispatcherLoc.close rest := by
    revert hmoving hdone
    cases (s.loc .dispatcher : DispatcherLoc W) with
    | close rest => exact fun _ _ => ⟨rest, rfl⟩
    | done => exact fun _ hdone => absurd rfl hdone
    | _ => exact fun hmoving _ => absurd trivial hmoving
  cases hcalling : s.calling .dispatcher with
  | none =>
    have hact : S.actDispatcher config times s.glob (s.loc .dispatcher) = none :=
      h.act_eq_none hcalling (0 : ℤ)
    rw [hloc] at hact
    cases rest <;> cases hact
  | some q =>
    obtain ⟨f, hf, hissued⟩ := hs.issues hcalling
    rw [hloc] at hissued
    rcases issues_dispatcher hissued with ⟨h, -⟩ | ⟨_, _, h, -⟩ | ⟨_, _, -, -, hcall⟩
    · cases h
    · cases h
    · exact hclose q f hf (h.stepFrame_eq_none hs hf (0 : ℤ) none).1 hcall

/-- **With a dispatcher**, nobody is stuck if no `close` waits and no `pop` of a worker does. -/
theorem not_stuck_of_dispatch (H : Program.Protocol (S.program config times))
    (h : (S.program config times).Reachable s) {d : S.QueueId} (hd : S.dispatch = some d)
    (hclose : ∀ q t f, (s.queue q).frame t = some f → f.result = none → f.toCall ≠ .close)
    (hpop : ∀ k f, (s.queue (S.sink k)).frame (.worker k) = some f → f.toCall = .pop →
      f.result ≠ none) : ¬ Stuck s := by
  intro hstuck
  have hframed := Program.framed_of_reachableIf h
  -- The workers have ended, so the dispatcher has closed their queues, and the main thread its.
  have hworker : ∀ k, s.loc (.worker k) = WorkerLoc.done := by
    intro k
    by_contra hk
    obtain ⟨f, hf, hcall, hres⟩ := blocked_worker hstuck.2 hframed hk
    exact hpop k f hf hcall hres
  have hsink := (worker_or_closed H h 0).resolve_left fun hne => hne (hworker 0)
  have hmoving : ¬ DispatcherLoc.isMoving (s.loc .dispatcher) := fun hmoving =>
    quiet H h _ hsink .dispatcher ⟨⟨0, rfl⟩, hmoving⟩
  have hclosed := (isMoving_or_closed H h hd).resolve_left hmoving
  rcases stuck_main hstuck hframed with ⟨q, f, hf, hcall, hres⟩ | ⟨k, rest, -, hk⟩ |
    ⟨-, hdispatcher⟩ | ⟨k, rest, -, hk⟩
  · exact hclose q _ f hf hres hcall
  · have hopen := closed_eq_false H h hk
    rw [(S.dispatched d hd).1 k] at hopen
    exact hopen hclosed
  · exact hdispatcher (blocked_dispatcher hstuck.2 hframed hmoving fun q f => hclose q _ f)
  · exact hk (hworker k)

end Pipeline

open Pipeline

variable {config : AcceptedConfig} {max_size : ℕ} {times : Times}
  {S : Pipeline config.ingress config.workers}

theorem runSharedQueuePipeline_not_stuck (h : runSharedQueuePipeline max_size config = .ok S)
    (hkind : config.shared_queue_kind = .globalLock)
    {s : (S.program config.toPipelineConfig times).State}
    (hreach : (S.program config.toPipelineConfig times).ReachableIf StopServed s) : ¬ Stuck s := by
  obtain ⟨Q, hQ, h⟩ := bind_eq_ok h
  rw [hkind] at hQ
  cases hQ
  cases h
  intro hstuck
  have hframed := Program.framed_of_reachableIf hreach
  have hmonitored := GlobalLockQueue.monitored_of_reachable ⟨.worker 0, by simp⟩
    (Program.queue_reachable (q := ()) (fun s hs t c => roles_of_issues hs rfl) hreach.reachable)
  have hidle : GlobalLockQueue.Idle _ (s.queue ()) := fun t f hf _ wake =>
    (hstuck.2.stepFrame_eq_none hframed hf (0 : ℤ) wake).2
  refine absurd hstuck (not_stuck_of_shared
    { bound := fun _ => none
      A := fun _ => GlobalLockQueue.abstraction _ config.ingress_queue_capacity
        { wait_strategy := config.wait_strategy }
      Allowed := fun _ _ _ => True
      refines := fun _ => GlobalLockQueue.refines _ _
      allowed := fun _ _ => trivial } hreach.reachable rfl ?_ ?_ ?_)
  · exact fun _ f hf hres => (hidle.asleep hmonitored hf hres).ne_close
  · exact fun k f hf hres => hidle.isOpen hmonitored hf hres
  · intro hstop k f ev hf hres hcall
    have hserved : (s.queue ()).Served := served_of_stop rfl GlobalLockQueue.flagLaw
      (fun hs hserved => GlobalLockQueue.served_step hserved
        (GlobalLockQueue.monitored_of_reachable ⟨.worker 0, by simp⟩
          (Program.queue_reachable (fun s hs t c => roles_of_issues hs rfl) hs))) hreach hstop
    cases f with
    | push ev' policy pc =>
      obtain ⟨t, ht, hawake⟩ := hidle.push hmonitored hserved hf hres
      obtain ⟨w, -, rfl⟩ := Finset.mem_image.mp ht
      exact ⟨w, rfl, hawake⟩
    | pop pc => cases hcall
    | close done => cases hcall

theorem runSharedQueuePipeline_served (h : runSharedQueuePipeline max_size config = .ok S)
    (hkind : config.shared_queue_kind = .globalLock)
    (hroom : config.policy = .drop ∨ config.ingress ≤ config.ingress_queue_capacity)
    {s : (S.program config.toPipelineConfig times).State}
    (hreach : (S.program config.toPipelineConfig times).Reachable s) (q : S.QueueId) :
    (s.queue q).Served := by
  obtain ⟨Q, hQ, h⟩ := bind_eq_ok h
  rw [hkind] at hQ
  cases hQ
  cases h
  exact (GlobalLockQueue.monitored_of_reachable ⟨.worker 0, by simp⟩ (Program.queue_reachable
    (fun s hs t c => roles_of_issues hs rfl) hreach)).served (card_producers_le hroom)

theorem runDispatchLocalSpscPipeline_not_stuck
    (htop : config.topology = .dispatchLocalSpsc)
    (h : runDispatchLocalSpscPipeline max_size config = .ok S)
    (hkind : config.dispatch_queue_kind = .globalLock)
    {s : (S.program config.toPipelineConfig times).State}
    (hreach : (S.program config.toPipelineConfig times).Reachable s) : ¬ Stuck s := by
  have hrun : runPipelineScenario max_size config.toPipelineConfig = .ok S := by
    rw [runPipelineScenario_eq, htop]
    exact h
  obtain ⟨H⟩ : Nonempty (Program.Protocol (S.program config.toPipelineConfig times)) :=
    runPipelineScenario_protocol hrun
  obtain ⟨Q, hQ, h⟩ := bind_eq_ok h
  obtain ⟨R, hR, h⟩ := bind_eq_ok h
  rw [hkind] at hQ
  cases hQ
  cases h
  simp only [makeQueue] at hR
  split_ifs at hR
  cases hR
  intro hstuck
  have hframed := Program.framed_of_reachableIf hreach
  refine absurd hstuck (not_stuck_of_dispatch H hreach rfl ?_ ?_)
  · rintro (_ | k) t f hf hres
    · have hmonitored := GlobalLockQueue.monitored_of_reachable ⟨.main, Finset.mem_univ _⟩
        (Program.queue_reachable (q := none) (fun s _ t c _ => roles_univ t c) hreach)
      have hidle : GlobalLockQueue.Idle _ (s.queue none) := fun t f hf _ wake =>
        (hstuck.2.stepFrame_eq_none hframed hf (0 : ℤ) wake).2
      exact (hidle.asleep hmonitored hf hres).ne_close
    · exact SpscRingQueue.ne_close_of_stepFrame hres
        (hstuck.2.stepFrame_eq_none hframed hf (0 : ℤ) none).2
  · intro k f hf hcall hres
    exact SpscRingQueue.ne_pop_of_stepFrame hres
      (hstuck.2.stepFrame_eq_none hframed hf (0 : ℤ) none).2 hcall

/-- **The main thread of a pipeline is never stuck**, when a `GlobalLockQueue` is between the
ingress threads and the workers or the dispatcher, in a run in which there is an event for every
push that waits when it sets `ingress_stop`, or a dispatcher. -/
theorem never_stuck (h : runPipelineScenario max_size config.toPipelineConfig = .ok S)
    (hkind : config.topology = .sharedQueue ∧ config.shared_queue_kind = .globalLock ∨
      config.topology = .dispatchLocalSpsc ∧ config.dispatch_queue_kind = .globalLock)
    {s : (S.program config.toPipelineConfig times).State}
    (hreach : (S.program config.toPipelineConfig times).ReachableIf StopServed s) : ¬ Stuck s := by
  rw [runPipelineScenario_eq] at h
  rcases hkind with ⟨htop, hkind⟩ | ⟨htop, hkind⟩
  · rw [htop] at h
    exact runSharedQueuePipeline_not_stuck h hkind hreach
  · rw [htop] at h
    exact runDispatchLocalSpscPipeline_not_stuck htop h hkind hreach.reachable

/-- **If pushes drop, or there are no more ingress threads than places**, every run of a shared
queue meets the condition. -/
theorem reachableIf_of_room (h : runPipelineScenario max_size config.toPipelineConfig = .ok S)
    (htop : config.topology = .sharedQueue) (hkind : config.shared_queue_kind = .globalLock)
    (hroom : config.policy = .drop ∨ config.ingress_threads ≤ config.ingress_queue_capacity)
    {s : (S.program config.toPipelineConfig times).State}
    (hreach : (S.program config.toPipelineConfig times).Reachable s) :
    (S.program config.toPipelineConfig times).ReachableIf StopServed s := by
  rw [runPipelineScenario_eq, htop] at h
  induction hreach with
  | refl => exact .refl
  | tail hreach hstep ih =>
    obtain ⟨c, -, hc⟩ := hstep
    refine ih.tail ⟨c, fun _ _ _ => runSharedQueuePipeline_served h hkind ?_ hreach, hc⟩
    exact hroom.imp_right fun hle => by rw [PipelineConfig.ingress]; omega

/-- One ingress thread and one worker share a `GlobalLockQueue` of capacity 1. -/
def oneLocked : AcceptedConfig :=
  ⟨{ ingress_threads := 1, worker_threads := 1, duration := 1, ingress_queue_capacity := 1,
     shared_queue_kind := .globalLock }, by decide⟩

/-- The ingress thread fills the queue and waits for room, and the main thread joins it. -/
def fullRun (S : Pipeline 1 1) :
    List (S.program oneLocked.toPipelineConfig (oneLocked.times 0)).Choice :=
  List.replicate 21 { thread := .ingress 0, input := (0 : ℤ) } ++
    List.replicate 2 { thread := .main, input := (1000000 : ℤ) }

/-- The worker still gets on. -/
theorem never_stuck_full :
    ∃ S, runPipelineScenario (2 ^ 58) oneLocked.toPipelineConfig = .ok S ∧
      ∃ s : (S.program oneLocked.toPipelineConfig (oneLocked.times 0)).State,
        (S.program oneLocked.toPipelineConfig (oneLocked.times 0)).ReachableIf StopServed s ∧
          s.loc .main = MainLoc.joinIngress [⟨0, by decide⟩] ∧ ¬ Stuck s := by
  have hrun {S : Pipeline oneLocked.ingress oneLocked.workers}
      {s : (S.program oneLocked.toPipelineConfig (oneLocked.times 0)).State}
      (h : runPipelineScenario (2 ^ 58) oneLocked.toPipelineConfig = .ok S)
      (hs : (S.program oneLocked.toPipelineConfig (oneLocked.times 0)).runIf StopServed
        (.initial _) (fullRun S) = some s) :=
    And.intro (Program.steps_of_runIf hs) (never_stuck h (by decide) (Program.steps_of_runIf hs))
  obtain ⟨hreach, hstuck⟩ := hrun rfl (Option.some_get (by decide +kernel)).symm
  exact ⟨_, rfl, _, hreach, rfl, hstuck⟩

/-- Two ingress threads and one worker share such a queue. -/
def twoLocked : AcceptedConfig :=
  ⟨{ ingress_threads := 2, worker_threads := 1, duration := 1, ingress_queue_capacity := 1,
     shared_queue_kind := .globalLock }, by decide⟩

/-- One ingress thread fills the queue, and both wait for room.  The main thread stops them, the
worker pops the event and notifies the first, and waits for another; the first ends and is
joined. -/
def stuckRun (S : Pipeline 2 1) :
    List (S.program twoLocked.toPipelineConfig (twoLocked.times 0)).Choice :=
  List.replicate 21 { thread := .ingress 0, input := (0 : ℤ) } ++
    List.replicate 9 { thread := .ingress 1, input := (0 : ℤ) } ++
    List.replicate 2 { thread := .main, input := (1000000 : ℤ) } ++
    List.replicate 11
      { thread := .worker 0, input := (1000000 : ℤ), wake := some (.ingress 0) } ++
    List.replicate 5 { thread := .ingress 0, input := (1000000 : ℤ) } ++
    [{ thread := .main, input := (1000000 : ℤ) }]

/-- **The main thread is stuck**, in a run without spurious wake-ups: it joins an ingress thread
that waits for room in a queue that is empty, and that only it would close. -/
theorem main_stuck :
    ∃ S, runPipelineScenario (2 ^ 58) twoLocked.toPipelineConfig = .ok S ∧
      ∃ s : (S.program twoLocked.toPipelineConfig (twoLocked.times 0)).State,
        (S.program twoLocked.toPipelineConfig (twoLocked.times 0)).ReachableIf
          (fun _ c => c.spurious = false) s ∧ Stuck s := by
  refine ⟨_, rfl, _, Program.steps_of_runIf (Option.some_get (by decide +kernel :
    (Program.runIf _ (.initial _) (stuckRun _)).isSome)).symm, ?_, ?_⟩
  · intro h
    cases h
  · rintro ⟨t, now, spurious, wake, addr⟩ rfl
    rcases t with ⟨_ | _ | k, hk⟩ | _ | ⟨_ | k, hk⟩ | _
    · rfl
    · rfl
    · exact absurd hk (by simp [twoLocked, PipelineConfig.ingress])
    · rfl
    · rfl
    · exact absurd hk (by simp [twoLocked, PipelineConfig.workers])
    · rfl

end Laboratory.QueueLatency
