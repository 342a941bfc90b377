import Laboratory.QueueLatency.Equiv.Channel
import Laboratory.QueueLatency.Equiv.MakeQueue
import Laboratory.QueueLatency.PipelineHistory

/-!
# The threads of a pipeline

What the four kinds of threads call (`issues_ingress` and so on), who uses which queue
(`Pipeline.channel`), and what a thread remembers of the event it handles (`consistent`).
-/

namespace Laboratory.QueueLatency

open Concurrency

namespace Pipeline

variable {P W : ℕ} {S : Pipeline P W} {config : PipelineConfig} {times : Times} {now : ℤ}
  {g g' : PipelineState W} {q : S.QueueId} {c : Call}

/-! ### What the threads do -/

theorem actIngress_call {k : Fin P} {l : IngressLoc}
    (h : S.actIngress config times now k g l = some (.call q c)) :
    ∃ v ev measured, l = .push v ev measured ∧ q = S.source k ∧ c = .push ev config.policy := by
  cases l with
  | push v ev measured =>
    cases h
    exact ⟨v, ev, measured, rfl, rfl, rfl⟩
  | readClock v =>
    simp only [actIngress] at h
    split_ifs at h <;> cases h
  | makeEvent v =>
    simp only [actIngress] at h
    split_ifs at h <;> cases h
  | _ => cases h

theorem actWorker_call {k : Fin W} {l : WorkerLoc}
    (h : S.actWorker times now k g l = some (.call q c)) :
    l = .pop ∧ q = S.sink k ∧ c = .pop := by
  cases l with
  | pop =>
    cases h
    exact ⟨rfl, rfl, rfl⟩
  | measure ev =>
    simp only [actWorker] at h
    split_ifs at h <;> cases h
  | _ => cases h

theorem actMain_call {loc : ∀ t, S.Loc t} {l : MainLoc P W S.QueueId}
    (h : S.actMain times now g loc l = some (.call q c)) :
    ∃ rest, l = .close (q :: rest) ∧ c = .close := by
  cases l with
  | close rest =>
    cases rest with
    | nil => cases h
    | cons q rest =>
      cases h
      exact ⟨rest, rfl, rfl⟩
  | joinIngress rest =>
    cases rest with
    | nil => cases h
    | cons k rest =>
      simp only [actMain] at h
      split_ifs at h
      cases h
  | joinDispatcher =>
    simp only [actMain] at h
    split_ifs at h
    cases h
  | joinWorkers rest =>
    cases rest with
    | nil => cases h
    | cons k rest =>
      simp only [actMain] at h
      split_ifs at h
      cases h
  | _ => cases h

variable [NeZero W]

theorem actDispatcher_call {l : DispatcherLoc W}
    (h : S.actDispatcher config times g l = some (.call q c)) :
    (l = .pop ∧ S.dispatch = some q ∧ c = .pop) ∨
      (∃ ev measured, l = .push ev measured ∧ (∃ k, q = S.sink k) ∧ c = .push ev config.policy) ∨
        ∃ k rest, l = .close (k :: rest) ∧ q = S.sink k ∧ c = .close := by
  cases l with
  | pop =>
    obtain ⟨q', hq', h⟩ := Option.map_eq_some_iff.mp h
    cases h
    exact .inl ⟨rfl, hq', rfl⟩
  | push ev measured =>
    cases h
    exact .inr (.inl ⟨ev, measured, rfl, ⟨_, rfl⟩, rfl⟩)
  | close rest =>
    cases rest with
    | nil => cases h
    | cons k rest =>
      cases h
      exact .inr (.inr ⟨k, rest, rfl, rfl, rfl⟩)
  | _ => cases h

theorem issues_ingress {k : Fin P} {l : IngressLoc}
    (h : (S.program config times).Issues (.ingress k) l q c) :
    ∃ v ev measured, l = .push v ev measured ∧ q = S.source k ∧ c = .push ev config.policy := by
  obtain ⟨now, g, loc, rfl, hact⟩ := h
  exact actIngress_call hact

theorem issues_dispatcher {l : DispatcherLoc W}
    (h : (S.program config times).Issues .dispatcher l q c) :
    (l = .pop ∧ S.dispatch = some q ∧ c = .pop) ∨
      (∃ ev measured, l = .push ev measured ∧ (∃ k, q = S.sink k) ∧ c = .push ev config.policy) ∨
        ∃ k rest, l = .close (k :: rest) ∧ q = S.sink k ∧ c = .close := by
  obtain ⟨now, g, loc, rfl, hact⟩ := h
  exact actDispatcher_call hact

theorem issues_worker {k : Fin W} {l : WorkerLoc}
    (h : (S.program config times).Issues (.worker k) l q c) :
    l = .pop ∧ q = S.sink k ∧ c = .pop := by
  obtain ⟨now, g, loc, rfl, hact⟩ := h
  exact actWorker_call hact

theorem issues_main {l : MainLoc P W S.QueueId}
    (h : (S.program config times).Issues .main l q c) :
    ∃ rest, l = .close (q :: rest) ∧ c = .close := by
  obtain ⟨now, g, loc, rfl, hact⟩ := h
  exact actMain_call hact

/-- Only ingress threads are told to stop. -/
theorem stop_eq_true {s : (S.program config times).State} {c : (S.program config times).Choice}
    (h : (c.env s).stop = true) :
    (∃ k, c.thread = .ingress k) ∧ PipelineState.ingress_stop s.glob = true := by
  obtain ⟨t, _, _, _, _⟩ := c
  rcases t with k | _ | k | _
  · exact ⟨⟨k, rfl⟩, h⟩
  all_goals cases h

/-! ### The own steps of the threads -/

/-- What a step of an ingress thread's own code does. -/
inductive IngressStep (S : Pipeline P W) (times : Times) (k : Fin P) (now : ℤ)
    (g : PipelineState W) : IngressLoc → PipelineState W → IngressLoc → Prop
  | start : IngressStep S times k now g .start g (.testStop { next_fire := now, seq := 0 })
  | stopped {v} (stop : g.ingress_stop = true) : IngressStep S times k now g (.testStop v) g .done
  | go {v} (stop : g.ingress_stop = false) :
      IngressStep S times k now g (.testStop v) g (.readClock v)
  | expired {v} : IngressStep S times k now g (.readClock v) g .done
  | early {v} : IngressStep S times k now g (.readClock v) g (.testStop v)
  | fire {v v'} (seq : v'.seq = v.seq) :
      IngressStep S times k now g (.readClock v) g (.makeEvent v')
  | measured {v} (measured : isMeasuredEvent times (S.newEvent k v.seq now) = true) :
      IngressStep S times k now g (.makeEvent v) g
        (.countGenerated { v with seq := v.seq + 1 } (S.newEvent k v.seq now))
  | unmeasured {v} (measured : isMeasuredEvent times (S.newEvent k v.seq now) = false) :
      IngressStep S times k now g (.makeEvent v) g
        (.push { v with seq := v.seq + 1 } (S.newEvent k v.seq now) false)
  | countGenerated {v ev} : IngressStep S times k now g (.countGenerated v ev)
      { g with generated := g.generated + 1 } (.push v ev true)
  | countAccepted {v} : IngressStep S times k now g (.countAccepted v)
      { g with accepted := g.accepted + 1 } (.testStop v)
  | countDropped {v} : IngressStep S times k now g (.countDropped v)
      { g with dropped_ingress := g.dropped_ingress + 1 } (.testStop v)

omit [NeZero W] in
theorem actIngress_own {k : Fin P} {l l' : IngressLoc}
    (h : S.actIngress config times now k g l = some (.own g' l')) :
    IngressStep S times k now g l g' l' := by
  cases l with
  | testStop v =>
    cases h
    split_ifs with hstop
    · exact .stopped hstop
    · exact .go (Bool.eq_false_iff.mpr hstop)
  | readClock v =>
    simp only [actIngress] at h
    split_ifs at h <;> cases h
    · exact .expired
    · exact .early
    · exact .fire rfl
    · exact .fire rfl
  | makeEvent v =>
    simp only [actIngress] at h
    split_ifs at h with hm <;> cases h
    · exact .measured hm
    · exact .unmeasured (Bool.eq_false_iff.mpr hm)
  | push v ev measured => cases h
  | done => cases h
  | _ =>
    cases h
    constructor

/-- What a step of the dispatcher's own code does. -/
inductive DispatcherStep (times : Times) (g : PipelineState W) :
    DispatcherLoc W → PipelineState W → DispatcherLoc W → Prop
  | route {ev} :
      DispatcherStep times g (.route ev) g (.push ev (isMeasuredEvent times ev))
  | countDropped : DispatcherStep times g .countDropped
      { g with dropped_dispatch := g.dropped_dispatch + 1 } .pop
  | finish : DispatcherStep times g (.close []) g .done

theorem actDispatcher_own {l l' : DispatcherLoc W}
    (h : S.actDispatcher config times g l = some (.own g' l')) :
    DispatcherStep times g l g' l' := by
  cases l with
  | pop =>
    obtain ⟨q', -, h⟩ := Option.map_eq_some_iff.mp h
    cases h
  | push ev measured => cases h
  | close rest =>
    cases rest <;> cases h
    exact .finish
  | done => cases h
  | _ =>
    cases h
    constructor

/-- What a step of a worker's own code does. -/
inductive WorkerStep (times : Times) (k : Fin W) (g : PipelineState W) :
    WorkerLoc → PipelineState W → WorkerLoc → Prop
  | measured {ev} (latency_ns : ℤ) (measured : isMeasuredEvent times ev = true) :
      WorkerStep times k g (.measure ev) g (.countCompleted latency_ns)
  | unmeasured {ev} (measured : isMeasuredEvent times ev = false) :
      WorkerStep times k g (.measure ev) g .pop
  | countCompleted {latency_ns} : WorkerStep times k g (.countCompleted latency_ns)
      { g with completed := g.completed + 1 } (.countOwn latency_ns)
  | countOwn {latency_ns} : WorkerStep times k g (.countOwn latency_ns)
      { g with
        worker_metrics := Function.update g.worker_metrics k
          { g.worker_metrics k with completed := (g.worker_metrics k).completed + 1 } }
      (.record latency_ns)
  | record {latency_ns} : WorkerStep times k g (.record latency_ns)
      { g with
        worker_metrics := Function.update g.worker_metrics k
          { g.worker_metrics k with
            latencies_ns := (g.worker_metrics k).latencies_ns ++ [latency_ns] } } .pop

omit [NeZero W] in
theorem actWorker_own {k : Fin W} {l l' : WorkerLoc}
    (h : S.actWorker times now k g l = some (.own g' l')) : WorkerStep times k g l g' l' := by
  cases l with
  | measure ev =>
    simp only [actWorker] at h
    split_ifs at h with hm <;> cases h
    · exact .measured _ hm
    · exact .unmeasured (Bool.eq_false_iff.mpr hm)
  | pop => cases h
  | done => cases h
  | _ =>
    cases h
    constructor

omit [NeZero W] in
/-- The main thread's own code changes the stop flag only. -/
theorem actMain_own {loc : ∀ t, S.Loc t} {l l' : MainLoc P W S.QueueId}
    (h : S.actMain times now g loc l = some (.own g' l')) :
    (l ≠ .stop ∧ g' = g) ∨
      (l = .stop ∧ g' = { g with ingress_stop := true } ∧ l' = .joinIngress (List.finRange P)) := by
  cases l with
  | stop =>
    cases h
    exact .inr ⟨rfl, rfl, rfl⟩
  | sleep =>
    cases h
    exact .inl ⟨by simp, rfl⟩
  | joinIngress rest =>
    left
    cases rest with
    | nil =>
      cases h
      exact ⟨by simp, rfl⟩
    | cons k rest =>
      simp only [actMain] at h
      split_ifs at h
      cases h
      exact ⟨by simp, rfl⟩
  | close rest =>
    cases rest <;> cases h
    exact .inl ⟨by simp, rfl⟩
  | joinDispatcher =>
    simp only [actMain] at h
    split_ifs at h
    cases h
    exact .inl ⟨by simp, rfl⟩
  | joinWorkers rest =>
    left
    cases rest with
    | nil =>
      cases h
      exact ⟨by simp, rfl⟩
    | cons k rest =>
      simp only [actMain] at h
      split_ifs at h
      cases h
      exact ⟨by simp, rfl⟩
  | done => cases h

/-! ### Who uses a queue -/

/-- The dispatcher still moves events. -/
def DispatcherLoc.isMoving : DispatcherLoc W → Prop
  | .close _ | .done => False
  | _ => True

/-- From the place `l` the thread may still push to the queue `q`. -/
def Pushes (S : Pipeline P W) (q : S.QueueId) : ∀ t, S.Loc t → Prop
  | .ingress k, l => S.source k = q ∧ l ≠ IngressLoc.done
  | .dispatcher, l => (∃ k, S.sink k = q) ∧ DispatcherLoc.isMoving l
  | _, _ => False

/-- At the place `l` the thread still pops from the queue `q`. -/
def Pops (S : Pipeline P W) (q : S.QueueId) : ∀ t, S.Loc t → Prop
  | .dispatcher, l => S.dispatch = some q ∧ DispatcherLoc.isMoving l
  | .worker k, l => S.sink k = q ∧ l ≠ WorkerLoc.done
  | _, _ => False

instance (l : DispatcherLoc W) : Decidable l.isMoving :=
  match l with
  | .close _ | .done => .isFalse id
  | .pop | .route _ | .push _ _ | .countDropped => .isTrue trivial

instance decidablePops (q : S.QueueId) (t : Thread P W) (l : S.Loc t) : Decidable (S.Pops q t l) :=
  match t, l with
  | .ingress _, _ | .main, _ => .isFalse id
  | .dispatcher, (l : DispatcherLoc W) =>
    inferInstanceAs (Decidable (S.dispatch = some q ∧ l.isMoving))
  | .worker k, (l : WorkerLoc) => inferInstanceAs (Decidable (S.sink k = q ∧ l ≠ .done))

theorem isMoving_of_own {l l' : DispatcherLoc W}
    (h : S.actDispatcher config times g l = some (.own g' l')) :
    l'.isMoving ↔ l.isMoving := by
  cases l with
  | pop =>
    obtain ⟨q', -, h⟩ := Option.map_eq_some_iff.mp h
    cases h
  | close rest =>
    cases rest <;> cases h
    exact Iff.rfl
  | push ev measured => cases h
  | done => cases h
  | _ =>
    cases h
    exact Iff.rfl

omit [NeZero W] in
theorem isMoving_of_resume {l : DispatcherLoc W} {r : Return}
    (h : (resumeDispatcher config l r).isMoving) : l.isMoving := by
  cases l with
  | close rest =>
    cases rest with
    | nil => exact h
    | cons k rest => cases r <;> exact h
  | done => exact h
  | _ => trivial

omit [NeZero W] in
theorem isMoving_resume {l : DispatcherLoc W} {r : Return} (hr : ∀ out, r ≠ .popped false out)
    (h : l.isMoving) : (resumeDispatcher config l r).isMoving := by
  cases l with
  | pop =>
    cases r with
    | popped ok out =>
      cases ok
      · exact absurd rfl (hr out)
      · trivial
    | _ => trivial
  | push ev measured =>
    cases r with
    | pushed ok =>
      simp only [resumeDispatcher]
      split_ifs <;> trivial
    | _ => trivial
  | close rest => exact h.elim
  | done => exact h.elim
  | _ => trivial

omit [NeZero W] in
theorem ne_done_of_own {k : Fin W} {l l' : WorkerLoc}
    (h : S.actWorker times now k g l = some (.own g' l')) : l' ≠ .done := by
  rintro rfl
  cases l with
  | measure ev =>
    simp only [actWorker] at h
    split_ifs at h <;> cases h
  | _ => cases h

theorem ne_done_resume {l : WorkerLoc} {r : Return} (hr : ∀ out, r ≠ .popped false out)
    (h : l ≠ .done) : resumeWorker l r ≠ .done := by
  cases l with
  | pop =>
    cases r with
    | popped ok out =>
      cases ok
      · exact absurd rfl (hr out)
      · nofun
    | _ => nofun
  | done => exact absurd rfl h
  | _ => nofun

/-- The threads that use the queue `q`. -/
def channel (S : Pipeline P W) (config : PipelineConfig) (times : Times) (q : S.QueueId) :
    Channel (S.program config times) q where
  pushes := S.Pushes q
  pops := S.Pops q
  issues_push := by
    rintro (k | _ | k | _) l ev policy h
    · obtain ⟨v, ev, measured, rfl, rfl, -⟩ := issues_ingress h
      exact ⟨rfl, nofun⟩
    · rcases issues_dispatcher h with ⟨-, -, hc⟩ | ⟨ev, measured, rfl, ⟨k, rfl⟩, -⟩ |
        ⟨_, _, -, -, hc⟩
      · cases hc
      · exact ⟨⟨k, rfl⟩, trivial⟩
      · cases hc
    · cases (issues_worker h).2.2
    · obtain ⟨rest, -, hc⟩ := issues_main h
      cases hc
  issues_pop := by
    rintro (k | _ | k | _) l h
    · obtain ⟨v, ev, measured, -, -, hc⟩ := issues_ingress h
      cases hc
    · rcases issues_dispatcher h with ⟨rfl, hq, -⟩ | ⟨_, _, -, -, hc⟩ | ⟨_, _, -, -, hc⟩
      · exact ⟨hq, trivial⟩
      · cases hc
      · cases hc
    · obtain ⟨rfl, rfl, -⟩ := issues_worker h
      exact ⟨rfl, nofun⟩
    · obtain ⟨rest, -, hc⟩ := issues_main h
      cases hc
  pops_only := by
    rintro (k | _ | k | _) l q' h hpop
    · exact hpop.elim
    · rcases issues_dispatcher h with ⟨-, hq, -⟩ | ⟨_, _, -, -, hc⟩ | ⟨_, _, -, -, hc⟩
      · exact Option.some_injective _ (hq.symm.trans hpop.1)
      · cases hc
      · cases hc
    · exact (issues_worker h).2.1.trans hpop.1
    · exact hpop.elim
  stop := by
    rintro (k | _ | k | _) l input g h
    · obtain ⟨v, ev, measured, -, -, hc⟩ := issues_ingress h
      cases hc
    · rfl
    · rfl
    · rfl
  own_pushes := by
    rintro input (k | _ | k | _) g loc g' l hact ⟨hq, hl⟩
    · refine ⟨hq, fun hdone => ?_⟩
      change S.actIngress config times input k g (loc (.ingress k)) = _ at hact
      rw [hdone] at hact
      cases hact
    · exact ⟨hq, (isMoving_of_own hact).mp hl⟩
  own_pops := by
    rintro input (k | _ | k | _) g loc g' l hact hpop
    · exact hpop.elim
    · exact ⟨hpop.1, (isMoving_of_own hact).mpr hpop.2⟩
    · exact ⟨hpop.1, ne_done_of_own hact⟩
    · exact hpop.elim
  resume_pushes := by
    rintro (k | _ | k | _) l r ⟨hq, hl⟩
    · refine ⟨hq, ?_⟩
      rintro rfl
      exact hl rfl
    · exact ⟨hq, isMoving_of_resume hl⟩
  resume_pops := by
    rintro (k | _ | k | _) l r hr hpop
    · exact hpop.elim
    · exact ⟨hpop.1, isMoving_resume hr hpop.2⟩
    · exact ⟨hpop.1, ne_done_resume hr hpop.2⟩
    · exact hpop.elim

/-! ### What the threads remember -/

/-- What an ingress thread remembers of an event is true. -/
def IngressLoc.Consistent (times : Times) : IngressLoc → Prop
  | .countGenerated _ ev => isMeasuredEvent times ev = true
  | .push _ ev measured => measured = isMeasuredEvent times ev
  | _ => True

def DispatcherLoc.Consistent (times : Times) : DispatcherLoc W → Prop
  | .push ev measured => measured = isMeasuredEvent times ev
  | _ => True

/-- The main thread closes only what it has to. -/
def MainLoc.Consistent {QueueId : Type} (closes : List QueueId) : MainLoc P W QueueId → Prop
  | .close rest => rest ⊆ closes
  | _ => True

def Consistent (S : Pipeline P W) (times : Times) : ∀ t, S.Loc t → Prop
  | .ingress _, l => IngressLoc.Consistent times l
  | .dispatcher, l =>
    (S.dispatch = none → l = DispatcherLoc.done) ∧ DispatcherLoc.Consistent times l
  | .worker _, _ => True
  | .main, l => MainLoc.Consistent S.closes l

omit [NeZero W] in
theorem consistent_ingress {k : Fin P} {l l' : IngressLoc}
    (h : S.actIngress config times now k g l = some (.own g' l')) (hl : l.Consistent times) :
    l'.Consistent times := by
  cases l with
  | testStop v =>
    cases h
    split_ifs <;> trivial
  | readClock v =>
    simp only [actIngress] at h
    split_ifs at h <;> cases h <;> trivial
  | makeEvent v =>
    simp only [actIngress] at h
    split_ifs at h with hm <;> cases h
    · exact hm
    · exact (Bool.eq_false_iff.mpr hm).symm
  | countGenerated v ev =>
    cases h
    exact hl.symm
  | push v ev measured => cases h
  | done => cases h
  | _ =>
    cases h
    trivial

theorem consistent_dispatcher {l l' : DispatcherLoc W}
    (h : S.actDispatcher config times g l = some (.own g' l')) : l'.Consistent times := by
  cases l with
  | pop =>
    obtain ⟨q', -, h⟩ := Option.map_eq_some_iff.mp h
    cases h
  | close rest =>
    cases rest <;> cases h
    trivial
  | push ev measured => cases h
  | done => cases h
  | _ =>
    cases h
    trivial

omit [NeZero W] in
theorem consistent_main {loc : ∀ t, S.Loc t} {l l' : MainLoc P W S.QueueId}
    (h : S.actMain times now g loc l = some (.own g' l')) : l'.Consistent S.closes := by
  cases l with
  | sleep =>
    cases h
    split_ifs <;> trivial
  | joinIngress rest =>
    cases rest with
    | nil =>
      cases h
      exact List.Subset.refl _
    | cons k rest =>
      simp only [actMain] at h
      split_ifs at h
      cases h
      trivial
  | close rest =>
    cases rest <;> cases h
    trivial
  | joinDispatcher =>
    simp only [actMain] at h
    split_ifs at h
    cases h
    trivial
  | joinWorkers rest =>
    cases rest with
    | nil =>
      cases h
      trivial
    | cons k rest =>
      simp only [actMain] at h
      split_ifs at h
      cases h
      trivial
  | done => cases h
  | _ =>
    cases h
    trivial

theorem consistent_resumeIngress {l : IngressLoc} {r : Return} (hl : l.Consistent times) :
    (resumeIngress config l r).Consistent times := by
  unfold resumeIngress
  split
  · split_ifs <;> trivial
  · split_ifs <;> trivial
  · exact hl

omit [NeZero W] in
theorem consistent_resumeDispatcher {l : DispatcherLoc W} {r : Return}
    (hl : l.Consistent times) : (resumeDispatcher config l r).Consistent times := by
  unfold resumeDispatcher
  split
  · trivial
  · trivial
  · split_ifs <;> trivial
  · trivial
  · exact hl

omit [NeZero W] in
theorem consistent_resumeMain {l : MainLoc P W S.QueueId} {r : Return}
    (hl : l.Consistent S.closes) : (resumeMain l r).Consistent S.closes := by
  unfold resumeMain
  split
  · exact (List.cons_subset.mp hl).2
  · exact hl

theorem consistent {s : (S.program config times).State}
    (h : (S.program config times).Reachable s) (t : Thread P W) :
    S.Consistent times t (s.loc t) := by
  refine Program.forall_loc_of_reachable ?_ ?_ ?_ h t
  · rintro (k | _ | k | _)
    · trivial
    · change (_ → (if S.dispatch.isSome then DispatcherLoc.pop else DispatcherLoc.done) = _) ∧
        DispatcherLoc.Consistent times
          (if S.dispatch.isSome then DispatcherLoc.pop else DispatcherLoc.done)
      split_ifs with hsome
      · exact ⟨fun hnone => by simp [hnone] at hsome, trivial⟩
      · exact ⟨fun _ => rfl, trivial⟩
    · trivial
    · trivial
  · rintro input (k | _ | k | _) g loc g' l hact hl
    · exact consistent_ingress hact hl
    · refine ⟨fun hnone => ?_, consistent_dispatcher hact⟩
      change S.actDispatcher config times g (loc .dispatcher) = _ at hact
      rw [hl.1 hnone] at hact
      cases hact
    · trivial
    · exact consistent_main hact
  · rintro (k | _ | k | _) l r hl
    · exact consistent_resumeIngress hl
    · refine ⟨fun hnone => ?_, consistent_resumeDispatcher hl.2⟩
      rw [hl.1 hnone]
      rfl
    · trivial
    · exact consistent_resumeMain hl

end Pipeline

end Laboratory.QueueLatency
