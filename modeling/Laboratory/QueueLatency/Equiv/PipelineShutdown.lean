import Laboratory.QueueLatency.Equiv.Pipeline

/-!
# The shutdown of a pipeline

The main thread stops and joins the ingress threads, closes queues and joins the others; the
dispatcher closes the workers' queues.  `shutdown_of_reachable` says who is done and what is closed
at each place of that order; with it every queue satisfies the invariant of a queue that is closed
(`draining`), if the closing steps are heeded (`CloseHeeded`).
-/

namespace Laboratory.QueueLatency

open Concurrency

namespace Pipeline

variable {P W : ℕ} {S : Pipeline P W} {config : PipelineConfig} {times : Times} {now : ℤ}
  {g g' : PipelineState W} {q : S.QueueId} [NeZero W]
  {H : Program.Protocol (S.program config times)} {s s' : (S.program config times).State}
  {c : (S.program config times).Choice}

/-! ### Who is done with what -/

namespace MainLoc

variable {QueueId : Type}

/-- The main thread has joined the ingress thread `k`. -/
def joinedIngress (k : Fin P) : MainLoc P W QueueId → Prop
  | .sleep | .stop => False
  | .joinIngress rest => k ∉ rest
  | _ => True

/-- The main thread has closed the queue `q`. -/
def hasClosed (q : QueueId) : MainLoc P W QueueId → Prop
  | .close rest => q ∉ rest
  | .joinDispatcher | .joinWorkers _ | .done => True
  | _ => False

def joinedDispatcher : MainLoc P W QueueId → Prop
  | .joinWorkers _ | .done => True
  | _ => False

def joinedWorker (k : Fin W) : MainLoc P W QueueId → Prop
  | .joinWorkers rest => k ∉ rest
  | .done => True
  | _ => False

end MainLoc

/-- The dispatcher has closed the queue of the worker `k`. -/
def DispatcherLoc.hasClosed (k : Fin W) : DispatcherLoc W → Prop
  | .close rest => k ∉ rest
  | .done => True
  | _ => False

/-- What the main thread knows at the place `l`: the threads it has joined are done, and the
queues it has closed are closed. -/
structure Reached (H : Program.Protocol (S.program config times))
    (s : (S.program config times).State) (l : MainLoc P W S.QueueId) : Prop where
  ingress : ∀ k, l.joinedIngress k → s.loc (.ingress k) = IngressLoc.done
  closed : ∀ q ∈ S.closes, l.hasClosed q → (H.store s q).closed = true
  dispatcher : l.joinedDispatcher → s.loc .dispatcher = DispatcherLoc.done
  worker : ∀ k, l.joinedWorker k → s.loc (.worker k) = WorkerLoc.done

theorem ingress_stays {k : Fin P} (h : (S.program config times).step c s = some s')
    (hk : s.loc (.ingress k) = IngressLoc.done) : s'.loc (.ingress k) = IngressLoc.done := by
  refine Program.loc_stays ?_ (fun r => rfl) h hk
  intro input g loc g' l' hl hact
  change S.actIngress config times input k g (loc (.ingress k)) = _ at hact
  rw [hl] at hact
  cases hact

theorem dispatcher_stays (h : (S.program config times).step c s = some s')
    (hd : s.loc .dispatcher = DispatcherLoc.done) : s'.loc .dispatcher = DispatcherLoc.done := by
  refine Program.loc_stays ?_ (fun r => rfl) h hd
  intro input g loc g' l' hl hact
  change S.actDispatcher config times g (loc .dispatcher) = _ at hact
  rw [hl] at hact
  cases hact

theorem worker_stays {k : Fin W} (h : (S.program config times).step c s = some s')
    (hk : s.loc (.worker k) = WorkerLoc.done) : s'.loc (.worker k) = WorkerLoc.done := by
  refine Program.loc_stays ?_ (fun r => rfl) h hk
  intro input g loc g' l' hl hact
  change S.actWorker times input k g (loc (.worker k)) = _ at hact
  rw [hl] at hact
  cases hact

/-- Nothing that is done is undone. -/
theorem Reached.mono {l : MainLoc P W S.QueueId} (hl : Reached H s l) (hs : Program.Good H s)
    (h : (S.program config times).step c s = some s') : Reached H s' l where
  ingress k hk := ingress_stays h (hl.ingress k hk)
  closed q hq hc := hs.closed_mono h (hl.closed q hq hc)
  dispatcher hd := dispatcher_stays h (hl.dispatcher hd)
  worker k hk := worker_stays h (hl.worker k hk)

omit [NeZero W] in
theorem ingress_isDone {l : IngressLoc} (h : l.isDone = true) : l = .done := by
  revert h
  cases l <;> simp [IngressLoc.isDone]

omit [NeZero W] in
theorem dispatcher_isDone {l : DispatcherLoc W} (h : l.isDone = true) : l = .done := by
  revert h
  cases l <;> simp [DispatcherLoc.isDone]

omit [NeZero W] in
theorem worker_isDone {l : WorkerLoc} (h : l.isDone = true) : l = .done := by
  revert h
  cases l <;> simp [WorkerLoc.isDone]

/-- The main thread goes on: what it joins is done. -/
theorem Reached.own {l l' : MainLoc P W S.QueueId} (hl : Reached H s l)
    (hact : S.actMain times now g s.loc l = some (.own g' l')) : Reached H s l' := by
  cases l with
  | sleep =>
    cases hact
    split_ifs <;> exact ⟨by simp [MainLoc.joinedIngress], by simp [MainLoc.hasClosed],
      by simp [MainLoc.joinedDispatcher], by simp [MainLoc.joinedWorker]⟩
  | stop =>
    cases hact
    exact ⟨by simp [MainLoc.joinedIngress], by simp [MainLoc.hasClosed],
      by simp [MainLoc.joinedDispatcher], by simp [MainLoc.joinedWorker]⟩
  | joinIngress rest =>
    cases rest with
    | nil =>
      cases hact
      exact ⟨fun k _ => hl.ingress k (by simp [MainLoc.joinedIngress]),
        fun q hq hc => absurd hq hc, by simp [MainLoc.joinedDispatcher],
        by simp [MainLoc.joinedWorker]⟩
    | cons k rest =>
      simp only [actMain] at hact
      split_ifs at hact with hdone
      cases hact
      refine ⟨fun j hj => ?_, by simp [MainLoc.hasClosed], by simp [MainLoc.joinedDispatcher],
        by simp [MainLoc.joinedWorker]⟩
      -- The thread that is joined now, or one joined before.
      by_cases hjk : j = k
      · subst hjk
        exact ingress_isDone hdone
      · exact hl.ingress j (by simp [MainLoc.joinedIngress] at hj ⊢; exact ⟨hjk, hj⟩)
  | close rest =>
    cases rest with
    | nil =>
      cases hact
      exact ⟨fun k _ => hl.ingress k trivial, fun q hq _ => hl.closed q hq (by
        simp [MainLoc.hasClosed]), by simp [MainLoc.joinedDispatcher],
        by simp [MainLoc.joinedWorker]⟩
    | cons q rest => cases hact
  | joinDispatcher =>
    simp only [actMain] at hact
    split_ifs at hact with hdone
    cases hact
    exact ⟨fun k _ => hl.ingress k trivial, fun q hq _ => hl.closed q hq trivial,
      fun _ => dispatcher_isDone hdone, by simp [MainLoc.joinedWorker]⟩
  | joinWorkers rest =>
    cases rest with
    | nil =>
      cases hact
      exact ⟨fun k _ => hl.ingress k trivial, fun q hq _ => hl.closed q hq trivial,
        fun _ => hl.dispatcher trivial, fun k _ => hl.worker k (by simp [MainLoc.joinedWorker])⟩
    | cons k rest =>
      simp only [actMain] at hact
      split_ifs at hact with hdone
      cases hact
      refine ⟨fun k _ => hl.ingress k trivial, fun q hq _ => hl.closed q hq trivial,
        fun _ => hl.dispatcher trivial, fun j hj => ?_⟩
      by_cases hjk : j = k
      · subst hjk
        exact worker_isDone hdone
      · exact hl.worker j (by simp [MainLoc.joinedWorker] at hj ⊢; exact ⟨hjk, hj⟩)
  | done => cases hact

/-- The main thread has closed a queue. -/
theorem Reached.close {rest : List S.QueueId} (hl : Reached H s (.close (q :: rest)))
    (hq : (H.store s q).closed = true) : Reached H s (.close rest) where
  ingress k _ := hl.ingress k trivial
  closed q' hq' hc := by
    by_cases heq : q' = q
    · rw [heq, hq]
    · exact hl.closed q' hq' (by simp [MainLoc.hasClosed] at hc ⊢; exact ⟨heq, hc⟩)
  dispatcher h := h.elim
  worker _ h := h.elim

/-- **The order of the shutdown.** -/
structure Shutdown (H : Program.Protocol (S.program config times))
    (s : (S.program config times).State) : Prop where
  main : Reached H s (s.loc .main)
  dispatcher : ∀ k, S.dispatch.isSome → DispatcherLoc.hasClosed k (s.loc .dispatcher) →
    (H.store s (S.sink k)).closed = true

theorem shutdown_initial : Shutdown H (.initial _) := by
  refine ⟨⟨fun k h => h.elim, fun q _ h => h.elim, fun h => h.elim, fun k h => h.elim⟩, ?_⟩
  intro k hsome hk
  rw [show (Program.State.initial (S.program config times)).loc .dispatcher =
    (if S.dispatch.isSome then DispatcherLoc.pop else DispatcherLoc.done) from rfl,
    if_pos hsome] at hk
  exact hk.elim

theorem Shutdown.main_step (hs : Shutdown H s) (hgood : Program.Good H s)
    (h : (S.program config times).step c s = some s') : Reached H s' (s'.loc .main) := by
  obtain ⟨t, now, _, _, _⟩ := c
  by_cases ht : t = .main
  · subst ht
    rcases Program.loc_cases h with hloc | ⟨l, hloc, ⟨g, hact⟩ | ⟨q, r, hcalling, hr, rfl⟩⟩
    · rw [hloc]
      exact hs.main.mono hgood h
    · rw [hloc, Function.update_self]
      exact (hs.main.own hact).mono hgood h
    · rw [hloc, Function.update_self]
      refine Reached.mono ?_ hgood h
      obtain ⟨f, -, hissued, hanswer, -⟩ := hgood.returns hcalling hr
      obtain ⟨rest, hmain, hcall⟩ := issues_main hissued
      have hclosed := hgood.closed_of_returned hcalling hr fun hissued => by
        obtain ⟨_, _, hcall⟩ := issues_main hissued
        exact hcall
      rw [hcall] at hanswer
      have hreached := hs.main
      rw [hmain] at hreached ⊢
      obtain rfl := hanswer.close
      exact hreached.close hclosed
  · rw [(Program.others_eq h (Ne.symm ht)).2.2]
    exact hs.main.mono hgood h

/-- The dispatcher closes nothing by its own steps. -/
theorem hasClosed_of_own {k : Fin W} {l l' : DispatcherLoc W}
    (h : S.actDispatcher config times g l = some (.own g' l')) (hk : l'.hasClosed k) :
    l.hasClosed k := by
  cases l with
  | pop =>
    obtain ⟨q', -, h⟩ := Option.map_eq_some_iff.mp h
    cases h
  | close rest =>
    cases rest with
    | nil => simp [DispatcherLoc.hasClosed]
    | cons k rest => cases h
  | done => trivial
  | push ev measured => cases h
  | _ =>
    cases h
    exact hk

omit [NeZero W] in
/-- The dispatcher returns from `close` with one more queue closed. -/
theorem hasClosed_of_resume {k : Fin W} {l : DispatcherLoc W} {r : Return}
    (hk : (resumeDispatcher config l r).hasClosed k) :
    l.hasClosed k ∨ ∃ rest, l = .close (k :: rest) := by
  cases l with
  | close rest =>
    cases rest with
    | nil => exact .inl (by simp [DispatcherLoc.hasClosed])
    | cons k' rest =>
      by_cases hkk : k = k'
      · exact .inr ⟨rest, by rw [hkk]⟩
      · left
        cases r <;> simp_all [resumeDispatcher, DispatcherLoc.hasClosed]
  | done => exact .inl trivial
  | pop =>
    cases r with
    | popped ok out => cases ok <;> simp [resumeDispatcher, DispatcherLoc.hasClosed] at hk
    | _ => exact hk.elim
  | push ev measured =>
    cases r with
    | pushed ok =>
      simp only [resumeDispatcher] at hk
      split_ifs at hk <;> exact hk.elim
    | _ => exact hk.elim
  | route ev => exact hk.elim
  | countDropped => exact hk.elim

theorem Shutdown.dispatcher_step (hs : Shutdown H s) (hgood : Program.Good H s)
    (h : (S.program config times).step c s = some s') (k : Fin W) (hsome : S.dispatch.isSome)
    (hk : DispatcherLoc.hasClosed k (s'.loc .dispatcher)) :
    (H.store s' (S.sink k)).closed = true := by
  apply hgood.closed_mono h
  obtain ⟨t, now, _, _, _⟩ := c
  by_cases ht : t = .dispatcher
  · subst ht
    rcases Program.loc_cases h with hloc | ⟨l, hloc, ⟨g, hact⟩ | ⟨q, r, hcalling, hr, rfl⟩⟩
    · rw [hloc] at hk
      exact hs.dispatcher k hsome hk
    · rw [hloc, Function.update_self] at hk
      exact hs.dispatcher k hsome (hasClosed_of_own hact hk)
    · rw [hloc, Function.update_self] at hk
      rcases hasClosed_of_resume hk with hbefore | ⟨rest, hclose⟩
      · exact hs.dispatcher k hsome hbefore
      · have hissued : ∀ {q call}, (S.program config times).Issues .dispatcher
            (s.loc .dispatcher) q call → q = S.sink k ∧ call = .close := by
          intro q call hissued
          rw [hclose] at hissued
          rcases issues_dispatcher hissued with ⟨h, -⟩ | ⟨_, _, h, -⟩ | ⟨_, _, h, rfl, rfl⟩ <;>
            cases h
          exact ⟨rfl, rfl⟩
        obtain ⟨f, -, hf⟩ := hgood.issues hcalling
        rw [← (hissued hf).1]
        exact hgood.closed_of_returned hcalling hr fun h => (hissued h).2
  · rw [(Program.others_eq h (Ne.symm ht)).2.2] at hk
    exact hs.dispatcher k hsome hk

theorem shutdown_of_reachable (h : (S.program config times).Reachable s) : Shutdown H s := by
  induction h with
  | refl => exact shutdown_initial
  | tail hreach hstep ih =>
    obtain ⟨c, -, hc⟩ := hstep
    have hgood : Program.Good H _ := Program.good_of_reachableIf hreach
    exact ⟨ih.main_step hgood hc, fun k => ih.dispatcher_step hgood hc k⟩

/-! ### The closing steps -/

/-- Nobody closes a queue that somebody may still push to. -/
theorem closedLast (H : Program.Protocol (S.program config times))
    (h : (S.program config times).Reachable s) (q : S.QueueId) :
    (S.channel config times q).ClosedLast s := by
  intro t done hf t' hpush
  have hissued := ((Program.framed_of_reachableIf h).issued t q _ hf).2
  have hdispatcher := (consistent h .dispatcher).1
  cases t with
  | ingress k =>
    obtain ⟨_, _, _, -, -, hc⟩ := issues_ingress hissued
    cases hc
  | worker k => cases (issues_worker hissued).2.2
  | dispatcher =>
    rcases issues_dispatcher hissued with ⟨-, -, hc⟩ | ⟨_, _, -, -, hc⟩ | ⟨k, rest, hl, hq, -⟩
    · cases hc
    · cases hc
    · -- The dispatcher closes the workers' queues, which only it pushes to.
      cases t' with
      | ingress j =>
        cases hd : S.dispatch with
        | none =>
          rw [hdispatcher hd] at hl
          cases hl
        | some d =>
          obtain ⟨hsource, hsink, -⟩ := S.dispatched d hd
          exact hsink k (by rw [← hq, ← hpush.1, hsource j])
      | dispatcher =>
        have hmoving := hpush.2
        rw [hl] at hmoving
        exact hmoving
      | worker j => exact hpush
      | main => exact hpush
  | main =>
    obtain ⟨rest, hl, -⟩ := issues_main hissued
    cases t' with
    | ingress j =>
      -- The main thread closes after it has joined the ingress threads.
      have hdone := (shutdown_of_reachable (H := H) h).main.ingress j (by rw [hl]; trivial)
      exact hpush.2 hdone
    | dispatcher =>
      obtain ⟨⟨k, hk⟩, hmoving⟩ := hpush
      cases hd : S.dispatch with
      | none =>
        rw [hdispatcher hd] at hmoving
        exact hmoving
      | some d =>
        -- With a dispatcher the main thread closes none of the workers' queues.
        obtain ⟨-, hsink, hcloses⟩ := S.dispatched d hd
        have hmain : MainLoc.Consistent S.closes (s.loc .main) := consistent h .main
        rw [hl] at hmain
        have hq := hmain (.head _)
        rw [hcloses, List.mem_singleton] at hq
        exact hsink k (hk.trans hq)
    | worker j => exact hpush
    | main => exact hpush

/-- **Nobody pushes to a closed queue.** -/
theorem quiet (H : Program.Protocol (S.program config times))
    (h : (S.program config times).Reachable s) (q : S.QueueId)
    (hclosed : (H.store s q).closed = true) (t : Thread P W) : ¬ S.Pushes q t (s.loc t) := by
  -- For this part of `Draining` it does not matter which events are left.
  have hdraining : (S.channel config times q).Draining H (fun _ => False) s :=
    Channel.draining_of_reachableIf (fun s hs => closedLast H hs q)
      (fun _ _ _ _ => .inl fun _ _ => id) h
  exact hdraining.quiet hclosed t

/-- A closing step finds no measured event in the queue, or a thread that will look into it again:
one that still pops from it and has not just found it empty. -/
def CloseHeeded (s : (S.program config times).State) (c : (S.program config times).Choice) :
    Prop :=
  ∀ q, (s.queue q).closing c.thread = true →
    (∀ ev ∈ (S.queue q).content (s.queue q).shared, isMeasuredEvent times ev = false) ∨
      ∃ t, S.Pops q t (s.loc t) ∧ (s.queue q).foundEmpty t = false

instance (s : (S.program config times).State) (c : (S.program config times).Choice) :
    Decidable (CloseHeeded s c) :=
  haveI (q : S.QueueId) (t : Thread P W) : Decidable (S.Pops q t (s.loc t)) :=
    decidablePops q t (s.loc t)
  inferInstanceAs (Decidable (∀ q, _ → _ ∨ ∃ t, S.Pops q t (s.loc t) ∧ _))

theorem draining (h : (S.program config times).ReachableIf CloseHeeded s) (q : S.QueueId) :
    (S.channel config times q).Draining H (isMeasuredEvent times · = true) s := by
  refine Channel.draining_of_reachableIf (fun s hs => closedLast H hs q) ?_ h
  intro s c hok hclosing
  refine (hok q hclosing).imp_left ?_
  intro hnone ev hev
  simp [hnone ev hev]

end Pipeline

end Laboratory.QueueLatency
