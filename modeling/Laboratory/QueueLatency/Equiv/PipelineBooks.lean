import Laboratory.QueueLatency.Equiv.CallLog
import Laboratory.QueueLatency.Equiv.PipelineClock

/-!
# The books of the threads

What the threads of a pipeline have made, accepted, taken and rejected are calls that they have
returned from (`exists_log`), and a call that has been answered was made at the front of the
pipeline or at its back: `front_pushes`, `back_pushes`, `back_taken` and `dispatch_taken` count the
calls to the queues thread by thread.
-/

namespace Laboratory.QueueLatency

open Concurrency

namespace Pipeline

variable {P W : ℕ} {S : Pipeline P W} {config : PipelineConfig} {times : Times} {now : ℤ}
  {g g' : PipelineState W} {loc : ∀ t, S.Loc t} {x : History P W}
  {log log' : List (CallReturn S.QueueId (Thread P W))}

/-! ### The books of the threads -/

/-- An accepted event that the thread has still to count, and a completed one. -/
def Unaccepted (S : Pipeline P W) : ∀ t, S.Loc t → ℕ
  | .ingress _, l => match (l : IngressLoc) with
    | .countAccepted _ => 1
    | _ => 0
  | _, _ => 0

def Uncompleted (S : Pipeline P W) : ∀ t, S.Loc t → ℕ
  | .worker _, l => match (l : WorkerLoc) with
    | .countCompleted _ => 1
    | _ => 0
  | _, _ => 0

/-- A dropped event that the dispatcher has still to count. -/
def DispatcherLoc.undropped : DispatcherLoc W → ℕ
  | .countDropped => 1
  | _ => 0

/-- **The books of the threads**: what they have made, accepted, taken, moved and rejected are the
calls that they have returned from, and the measured events of it are counted. -/
structure Accounted (S : Pipeline P W) (times : Times) (g : PipelineState W) (loc : ∀ t, S.Loc t)
    (log : List (CallReturn S.QueueId (Thread P W))) (x : History P W) : Prop where
  created : ∀ k, (x.created k).length = answersTo log (.ingress k) Return.isPush +
    (IngressLoc.event (loc (.ingress k))).length
  accepted : ∀ k, (x.accepted k).length = answersTo log (.ingress k) Return.hasStored
  taken : ∀ k, (x.taken k).length = answersTo log (.worker k) Return.hasTaken
  moved : answersTo log .dispatcher Return.hasTaken =
    answersTo log .dispatcher Return.isPush + (DispatcherLoc.event (loc .dispatcher)).length
  rejected : x.rejected.length + answersTo log .dispatcher Return.hasStored =
    answersTo log .dispatcher Return.isPush
  countAccepted : g.accepted + ∑ t, S.Unaccepted t (loc t) =
    ∑ k, (x.accepted k).countP (isMeasuredEvent times)
  countCompleted : g.completed + ∑ t, S.Uncompleted t (loc t) =
    ∑ k, (x.processed k).countP (isMeasuredEvent times)
  countDropped : g.dropped_dispatch + DispatcherLoc.undropped (loc .dispatcher) =
    x.rejected.countP (isMeasuredEvent times)

variable [NeZero W]

theorem accounted_start (config : PipelineConfig) :
    Accounted S times {} (S.program config times).start [] {} := by
  have hstart : DispatcherLoc.event ((S.program config times).start .dispatcher) = [] ∧
      DispatcherLoc.undropped ((S.program config times).start .dispatcher) = 0 := by
    change DispatcherLoc.event
        (if S.dispatch.isSome then DispatcherLoc.pop else DispatcherLoc.done) = [] ∧
      DispatcherLoc.undropped
        (if S.dispatch.isSome then DispatcherLoc.pop else DispatcherLoc.done) = 0
    split_ifs <;> exact ⟨rfl, rfl⟩
  have haccepted : ∑ t, S.Unaccepted t ((S.program config times).start t) = 0 :=
    Finset.sum_eq_zero fun t _ => by cases t <;> rfl
  have hcompleted : ∑ t, S.Uncompleted t ((S.program config times).start t) = 0 :=
    Finset.sum_eq_zero fun t _ => by cases t <;> rfl
  refine ⟨fun k => rfl, fun k => rfl, fun k => rfl, ?_, rfl, ?_, ?_, ?_⟩
  · rw [hstart.1]
    rfl
  · rw [haccepted]
    exact (Finset.sum_eq_zero fun k _ => rfl).symm
  · rw [hcompleted]
    exact (Finset.sum_eq_zero fun k _ => rfl).symm
  · rw [hstart.2]
    rfl

omit [NeZero W] in
/-- The ingress thread `k` goes from `l` to `l'`. -/
theorem Accounted.ingress (h : Accounted S times g loc log x) {k : Fin P} {l l' : IngressLoc}
    {r : Option Return} (hl : loc (.ingress k) = l)
    (hothers : ∀ t kind, t ≠ .ingress k → answersTo log' t kind = answersTo log t kind)
    (hpush : answersTo log' (.ingress k) Return.isPush + l'.event.length =
      answersTo log (.ingress k) Return.isPush + l.event.length + (S.makes k now l r).length)
    (hstored : answersTo log' (.ingress k) Return.hasStored =
      answersTo log (.ingress k) Return.hasStored + (l.accepts r).length)
    (haccepted : g'.accepted + S.Unaccepted (.ingress k) l' =
      g.accepted + S.Unaccepted (.ingress k) l + (l.accepts r).countP (isMeasuredEvent times))
    (hcompleted : g'.completed = g.completed)
    (hdropped : g'.dropped_dispatch = g.dropped_dispatch) :
    Accounted S times g' (Function.update loc (.ingress k) l') log'
      (S.observeIngress k now l r x) := by
  unfold observeIngress
  have hworker (j : Fin W) : Thread.worker (P := P) j ≠ .ingress k := nofun
  have hdispatcher : Thread.dispatcher (P := P) (W := W) ≠ .ingress k := nofun
  refine ⟨fun j => ?_, fun j => ?_, fun j => ?_, ?_, ?_, ?_, ?_, ?_⟩
  · have hcreated := h.created j
    by_cases hj : j = k
    · subst hj
      have hloc : Function.update loc (.ingress j) l' (.ingress j) = l' := Function.update_self ..
      rw [hl] at hcreated
      simp only [Function.update_self, List.length_append]
      rw [hloc]
      omega
    · have hne : Thread.ingress (W := W) j ≠ .ingress k := by simpa using hj
      have hloc : Function.update loc (.ingress k) l' (.ingress j) = loc (.ingress j) :=
        Function.update_of_ne hne _ _
      simp only [Function.update_of_ne hj]
      rw [hloc, hothers _ _ hne]
      exact hcreated
  · have haccepted := h.accepted j
    by_cases hj : j = k
    · subst hj
      simp only [Function.update_self, List.length_append]
      omega
    · have hne : Thread.ingress (W := W) j ≠ .ingress k := by simpa using hj
      simp only [Function.update_of_ne hj]
      rw [hothers _ _ hne]
      exact haccepted
  · rw [hothers _ _ (hworker j)]
    exact h.taken j
  · rw [hothers _ _ hdispatcher, hothers _ _ hdispatcher]
    exact h.moved
  · rw [hothers _ _ hdispatcher, hothers _ _ hdispatcher]
    exact h.rejected
  · have hsum := sum_update S.Unaccepted loc (.ingress k) l'
    rw [hl] at hsum
    rw [sum_countP, ← h.countAccepted]
    omega
  · rw [hcompleted, sum_update_eq S.Uncompleted loc (.ingress k) l' rfl]
    exact h.countCompleted
  · rw [hdropped]
    exact h.countDropped

omit [NeZero W] in
/-- The worker `k` goes from `l` to `l'`. -/
theorem Accounted.worker (h : Accounted S times g loc log x) {k : Fin W} {l l' : WorkerLoc}
    {r : Option Return} (hl : loc (.worker k) = l)
    (hothers : ∀ t kind, t ≠ .worker k → answersTo log' t kind = answersTo log t kind)
    (htaken : answersTo log' (.worker k) Return.hasTaken =
      answersTo log (.worker k) Return.hasTaken + (l.takes r).length)
    (haccepted : g'.accepted = g.accepted)
    (hcompleted : g'.completed + S.Uncompleted (.worker k) l' =
      g.completed + S.Uncompleted (.worker k) l + (l.processes r).countP (isMeasuredEvent times))
    (hdropped : g'.dropped_dispatch = g.dropped_dispatch) :
    Accounted S times g' (Function.update loc (.worker k) l') log'
      (observeWorker times k now l r x) := by
  unfold observeWorker
  have hingress (j : Fin P) : Thread.ingress (W := W) j ≠ .worker k := nofun
  have hdispatcher : Thread.dispatcher (P := P) (W := W) ≠ .worker k := nofun
  refine ⟨fun j => ?_, fun j => ?_, fun j => ?_, ?_, ?_, ?_, ?_, ?_⟩
  · rw [hothers _ _ (hingress j)]
    exact h.created j
  · rw [hothers _ _ (hingress j)]
    exact h.accepted j
  · have htaken' := h.taken j
    by_cases hj : j = k
    · subst hj
      simp only [Function.update_self, List.length_append]
      omega
    · have hne : Thread.worker (P := P) j ≠ .worker k := by simpa using hj
      simp only [Function.update_of_ne hj]
      rw [hothers _ _ hne]
      exact htaken'
  · rw [hothers _ _ hdispatcher, hothers _ _ hdispatcher]
    exact h.moved
  · rw [hothers _ _ hdispatcher, hothers _ _ hdispatcher]
    exact h.rejected
  · rw [haccepted, sum_update_eq S.Unaccepted loc (.worker k) l' rfl]
    exact h.countAccepted
  · have hsum := sum_update S.Uncompleted loc (.worker k) l'
    rw [hl] at hsum
    rw [sum_countP, ← h.countCompleted]
    omega
  · rw [hdropped]
    exact h.countDropped

omit [NeZero W] in
/-- The dispatcher goes from `l` to `l'`. -/
theorem Accounted.dispatcher (h : Accounted S times g loc log x) {l l' : DispatcherLoc W}
    {r : Option Return} (hl : loc .dispatcher = l)
    (hothers : ∀ t kind, t ≠ .dispatcher → answersTo log' t kind = answersTo log t kind)
    (hmoved : answersTo log' .dispatcher Return.hasTaken + answersTo log .dispatcher Return.isPush +
        l.event.length =
      answersTo log .dispatcher Return.hasTaken + answersTo log' .dispatcher Return.isPush +
        l'.event.length)
    (hrejected : (l.rejects r).length + answersTo log' .dispatcher Return.hasStored +
        answersTo log .dispatcher Return.isPush =
      answersTo log .dispatcher Return.hasStored + answersTo log' .dispatcher Return.isPush)
    (haccepted : g'.accepted = g.accepted) (hcompleted : g'.completed = g.completed)
    (hdropped : g'.dropped_dispatch + l'.undropped =
      g.dropped_dispatch + l.undropped + (l.rejects r).countP (isMeasuredEvent times)) :
    Accounted S times g' (Function.update loc .dispatcher l') log' (observeDispatcher l r x) := by
  unfold observeDispatcher
  have hingress (j : Fin P) : Thread.ingress (W := W) j ≠ .dispatcher := nofun
  have hworker (j : Fin W) : Thread.worker (P := P) j ≠ .dispatcher := nofun
  have hloc : Function.update loc .dispatcher l' .dispatcher = l' := Function.update_self ..
  refine ⟨fun j => ?_, fun j => ?_, fun j => ?_, ?_, ?_, ?_, ?_, ?_⟩
  · rw [hothers _ _ (hingress j)]
    exact h.created j
  · rw [hothers _ _ (hingress j)]
    exact h.accepted j
  · rw [hothers _ _ (hworker j)]
    exact h.taken j
  · have hmoved' := h.moved
    rw [hl] at hmoved'
    rw [hloc]
    omega
  · have hrejected' := h.rejected
    rw [List.length_append]
    omega
  · rw [haccepted, sum_update_eq S.Unaccepted loc .dispatcher l' rfl]
    exact h.countAccepted
  · rw [hcompleted, sum_update_eq S.Uncompleted loc .dispatcher l' rfl]
    exact h.countCompleted
  · have hdropped' := h.countDropped
    rw [hl] at hdropped'
    rw [hloc, List.countP_append, ← hdropped']
    omega

omit [NeZero W] in
/-- The main thread goes to `l`. -/
theorem Accounted.main (h : Accounted S times g loc log x) (l : S.Loc .main)
    (hothers : ∀ t kind, t ≠ .main → answersTo log' t kind = answersTo log t kind)
    (haccepted : g'.accepted = g.accepted) (hcompleted : g'.completed = g.completed)
    (hdropped : g'.dropped_dispatch = g.dropped_dispatch) :
    Accounted S times g' (Function.update loc .main l) log' x := by
  have hingress (j : Fin P) : Thread.ingress (W := W) j ≠ .main := nofun
  have hdispatcher : Thread.dispatcher (P := P) (W := W) ≠ .main := nofun
  have hworker (j : Fin W) : Thread.worker (P := P) j ≠ .main := nofun
  refine ⟨fun j => ?_, fun j => ?_, fun j => ?_, ?_, ?_, ?_, ?_, ?_⟩
  · rw [hothers _ _ (hingress j)]
    exact h.created j
  · rw [hothers _ _ (hingress j)]
    exact h.accepted j
  · rw [hothers _ _ (hworker j)]
    exact h.taken j
  · rw [hothers _ _ hdispatcher, hothers _ _ hdispatcher]
    exact h.moved
  · rw [hothers _ _ hdispatcher, hothers _ _ hdispatcher]
    exact h.rejected
  · rw [haccepted, sum_update_eq S.Unaccepted loc .main l rfl]
    exact h.countAccepted
  · rw [hcompleted, sum_update_eq S.Uncompleted loc .main l rfl]
    exact h.countCompleted
  · rw [hdropped]
    exact h.countDropped

omit [NeZero W] in
theorem books_ingress {k : Fin P} {l l' : IngressLoc} (h : IngressStep S times k now g l g' l') :
    l'.event.length = l.event.length + (S.makes k now l none).length ∧ l.accepts none = [] ∧
      g'.accepted + S.Unaccepted (.ingress k) l' = g.accepted + S.Unaccepted (.ingress k) l ∧
      g'.completed = g.completed ∧ g'.dropped_dispatch = g.dropped_dispatch := by
  cases h <;> exact ⟨rfl, rfl, rfl, rfl, rfl⟩

omit [NeZero W] in
/-- A push that has returned is over, and one that was accepted has to be counted. -/
theorem books_resumeIngress (S : Pipeline P W) (config : PipelineConfig) (times : Times) (k : Fin P)
    (v : Ingress) (ev : Event) (ok : Bool) :
    let l' := resumeIngress config (.push v ev (isMeasuredEvent times ev)) (.pushed ok)
    l'.event = [] ∧ S.Unaccepted (.ingress k) l' =
      ((IngressLoc.push v ev (isMeasuredEvent times ev)).accepts (some (.pushed ok))).countP
        (isMeasuredEvent times) := by
  cases ok
  · simp only [resumeIngress]
    split_ifs <;> exact ⟨rfl, rfl⟩
  · simp only [resumeIngress]
    split_ifs with hm
    · exact ⟨rfl, by simp [IngressLoc.accepts, Unaccepted, hm]⟩
    · exact ⟨rfl, by simp [IngressLoc.accepts, Unaccepted, hm]⟩

omit [NeZero W] in
theorem books_worker {k : Fin W} {l l' : WorkerLoc} (h : WorkerStep times k g l g' l') :
    l.takes none = [] ∧ g'.accepted = g.accepted ∧
      g'.completed + S.Uncompleted (.worker k) l' = g.completed + S.Uncompleted (.worker k) l +
        (l.processes none).countP (isMeasuredEvent times) ∧
      g'.dropped_dispatch = g.dropped_dispatch := by
  cases h with
  | measured latency_ns hm =>
    refine ⟨rfl, rfl, ?_, rfl⟩
    change _ = _ + _ + List.countP _ [_]
    rw [List.countP_singleton, if_pos hm]
    rfl
  | unmeasured hm =>
    refine ⟨rfl, rfl, ?_, rfl⟩
    change _ = _ + _ + List.countP _ [_]
    rw [List.countP_singleton, if_neg (by simp [hm])]
    rfl
  | _ => exact ⟨rfl, rfl, rfl, rfl⟩

omit [NeZero W] in
theorem books_dispatcher {l l' : DispatcherLoc W} (h : DispatcherStep times g l g' l') :
    l'.event = l.event ∧ l.rejects none = [] ∧ g'.accepted = g.accepted ∧
      g'.completed = g.completed ∧
      g'.dropped_dispatch + l'.undropped = g.dropped_dispatch + l.undropped := by
  cases h <;> exact ⟨rfl, rfl, rfl, rfl, rfl⟩

omit [NeZero W] in
/-- The dispatcher holds an event from its pop to its push; what has been rejected it has to count,
if pushes drop. -/
theorem books_resumeDispatcher {l : DispatcherLoc W} {call : Call} {r : Return}
    (hl : l.Consistent times) (hanswer : call.Answer r)
    (hissued : (l = .pop ∧ call = .pop) ∨
      (∃ ev measured, l = .push ev measured ∧ call = .push ev config.policy) ∨
        ∃ k rest, l = .close (k :: rest) ∧ call = .close)
    (hdrop : r = .pushed false → config.policy = .drop) :
    r.hasTaken.toNat + l.event.length =
        r.isPush.toNat + (resumeDispatcher config l r).event.length ∧
      (l.rejects r).length + r.hasStored.toNat = r.isPush.toNat ∧
      (resumeDispatcher config l r).undropped =
        l.undropped + (l.rejects r).countP (isMeasuredEvent times) := by
  rcases hissued with ⟨rfl, rfl⟩ | ⟨ev, measured, rfl, rfl⟩ | ⟨k, rest, rfl, rfl⟩
  · rcases hanswer.pop with ⟨out, rfl⟩ | ⟨ev, rfl⟩ <;> exact ⟨rfl, rfl, rfl⟩
  · have hm : measured = isMeasuredEvent times ev := hl
    subst hm
    obtain ⟨ok, rfl⟩ := hanswer.push
    cases ok
    · simp only [resumeDispatcher, hdrop rfl]
      split_ifs with hm
      · exact ⟨rfl, rfl, by simp_all [DispatcherLoc.rejects, DispatcherLoc.undropped]⟩
      · exact ⟨rfl, rfl, by simp_all [DispatcherLoc.rejects, DispatcherLoc.undropped]⟩
    · exact ⟨rfl, rfl, rfl⟩
  · obtain rfl := hanswer.close
    exact ⟨rfl, rfl, rfl⟩

section

variable {s s' : (S.program config times).State} {c : (S.program config times).Choice}
  {H : Program.Protocol (S.program config times)}

/-- One step of an ingress thread. -/
theorem Accounted.step_ingress (h : Accounted S times s.glob s.loc log x) {k : Fin P}
    (hl : IngressLoc.Consistent times (s.loc (.ingress k)))
    (hmoves : Program.Moves H (.ingress k) now s s')
    (hadds : Program.Adds s (.ingress k) log log') :
    Accounted S times s'.glob s'.loc log'
      (S.observeIngress k now (s.loc (.ingress k)) (s.returning (.ingress k)) x) := by
  have hothers (t : Thread P W) (kind : Return → Bool) (ht : t ≠ .ingress k) :=
    hadds.others ht kind
  have hself := hadds.self
  cases hmoves with
  | own free acts glob loc =>
    obtain ⟨hevent, haccepts, haccepted, hcompleted, hdropped⟩ :=
      books_ingress (actIngress_own acts)
    rw [free] at hself ⊢
    rw [loc, glob]
    refine h.ingress rfl hothers ?_ ?_ ?_ hcompleted hdropped
    · rw [hself, hevent]
      exact (add_assoc _ _ _).symm
    · rw [hself, haccepts]
      rfl
    · rw [haccepted, haccepts]
      rfl
  | inside free issues glob loc =>
    obtain ⟨v, ev, measured, hpush, -, -⟩ := issues_ingress issues
    rw [free] at hself ⊢
    rw [loc, glob, hpush]
    exact h.ingress hpush hothers (by rw [hself]; rfl) (by rw [hself]; rfl) rfl rfl rfl
  | back returning frame issues answer reports glob loc =>
    obtain ⟨v, ev, measured, hpush, -, hc⟩ := issues_ingress issues
    obtain ⟨ok, rfl⟩ := (hc ▸ answer).push
    rw [hpush] at hl
    rw [returning] at hself ⊢
    rw [loc, glob, hpush]
    have hm : measured = isMeasuredEvent times ev := hl
    subst hm
    change Accounted S times s.glob (Function.update s.loc (.ingress k)
      (resumeIngress config (.push v ev (isMeasuredEvent times ev)) (.pushed ok))) _ _
    obtain ⟨hevent, haccepted⟩ := books_resumeIngress S config times k v ev ok
    refine h.ingress hpush hothers ?_ ?_ ?_ rfl rfl
    · rw [hself, hevent]
      rfl
    · rw [hself]
      cases ok <;> rfl
    · rw [haccepted]
      rfl

/-- One step of a worker. -/
theorem Accounted.step_worker (h : Accounted S times s.glob s.loc log x) {k : Fin W}
    (hmoves : Program.Moves H (.worker k) now s s')
    (hadds : Program.Adds s (.worker k) log log') :
    Accounted S times s'.glob s'.loc log'
      (observeWorker times k now (s.loc (.worker k)) (s.returning (.worker k)) x) := by
  have hothers (t : Thread P W) (kind : Return → Bool) (ht : t ≠ .worker k) :=
    hadds.others ht kind
  have hself := hadds.self
  cases hmoves with
  | own free acts glob loc =>
    obtain ⟨htakes, haccepted, hcompleted, hdropped⟩ := books_worker (S := S) (actWorker_own acts)
    rw [free] at hself ⊢
    rw [loc, glob]
    refine h.worker rfl hothers ?_ haccepted hcompleted hdropped
    rw [hself, htakes]
    rfl
  | inside free issues glob loc =>
    obtain ⟨hpop, -, -⟩ := issues_worker issues
    rw [free] at hself ⊢
    rw [loc, glob, hpop]
    exact h.worker hpop hothers (by rw [hself]; rfl) rfl rfl rfl
  | back returning frame issues answer reports glob loc =>
    obtain ⟨hpop, -, hc⟩ := issues_worker issues
    rw [hc] at answer
    rw [returning] at hself ⊢
    rw [loc, glob, hpop]
    rcases answer.pop with ⟨out, rfl⟩ | ⟨ev, rfl⟩
    · exact h.worker hpop hothers (by rw [hself]; rfl) rfl rfl rfl
    · exact h.worker hpop hothers (by rw [hself]; rfl) rfl rfl rfl

/-- One step of the dispatcher. -/
theorem Accounted.step_dispatcher (h : Accounted S times s.glob s.loc log x)
    (hreach : (S.program config times).Reachable s)
    (hmoves : Program.Moves H .dispatcher now s s')
    (hadds : Program.Adds s .dispatcher log log') :
    Accounted S times s'.glob s'.loc log'
      (observeDispatcher (s.loc .dispatcher) (s.returning .dispatcher) x) := by
  have hothers (t : Thread P W) (kind : Return → Bool) (ht : t ≠ .dispatcher) :=
    hadds.others ht kind
  have hself := hadds.self
  have hconsistent : DispatcherLoc.Consistent times (s.loc .dispatcher) :=
    (consistent hreach .dispatcher).2
  cases hmoves with
  | own free acts glob loc =>
    obtain ⟨hevent, hrejects, haccepted, hcompleted, hdropped⟩ :=
      books_dispatcher (actDispatcher_own acts)
    rw [free] at hself ⊢
    rw [loc, glob]
    refine h.dispatcher rfl hothers ?_ ?_ haccepted hcompleted ?_
    · rw [hself, hself, hevent]
      rfl
    · rw [hself, hself, hrejects]
      simp
    · rw [hdropped, hrejects]
      rfl
  | inside free issues glob loc =>
    have hrejects : DispatcherLoc.rejects (s.loc .dispatcher) none = [] := by
      cases s.loc .dispatcher <;> rfl
    rw [free] at hself ⊢
    rw [loc, glob]
    refine h.dispatcher rfl hothers ?_ ?_ rfl rfl ?_
    · rw [hself, hself]
      rfl
    · rw [hself, hself, hrejects]
      simp
    · rw [hrejects]
      rfl
  | @back q f r returning frame issues answer reports glob loc =>
    rw [returning] at hself ⊢
    simp only [Option.elim_some] at hself
    have hissued := issues_dispatcher issues
    have hdrop : r = .pushed false → config.policy = .drop := by
      rintro rfl
      rcases hissued with ⟨-, -, hc⟩ | ⟨ev, measured, -, -, hc⟩ | ⟨k, rest, -, -, hc⟩
      · rw [hc] at answer
        cases answer
      · exact policy_eq_drop hreach frame hc reports
      · rw [hc] at answer
        cases answer
    -- Only a push that drops is rejected, so what the dispatcher has to count is what was rejected.
    obtain ⟨hmoved, hrejected, hdropped⟩ := books_resumeDispatcher hconsistent answer
      (hissued.imp (fun h => ⟨h.1, h.2.2⟩) (Or.imp
        (fun ⟨ev, measured, hl, _, hc⟩ => ⟨ev, measured, hl, hc⟩)
        fun ⟨k, rest, hl, _, hc⟩ => ⟨k, rest, hl, hc⟩)) hdrop
    rw [loc, glob]
    refine h.dispatcher rfl hothers ?_ ?_ rfl rfl ?_
    · simp only [hself]
      change _ = _ + (DispatcherLoc.event (resumeDispatcher config (s.loc .dispatcher) r)).length
      omega
    · simp only [hself]
      omega
    · rw [add_assoc, ← hdropped]
      rfl

/-- One step of the main thread. -/
theorem Accounted.step_main (h : Accounted S times s.glob s.loc log x)
    (hmoves : Program.Moves H .main now s s') (hadds : Program.Adds s .main log log') :
    Accounted S times s'.glob s'.loc log' x := by
  have hothers (t : Thread P W) (kind : Return → Bool) (ht : t ≠ .main) := hadds.others ht kind
  cases hmoves with
  | own free acts glob loc =>
    rw [loc, glob]
    rcases actMain_own acts with ⟨-, rfl⟩ | ⟨-, rfl, -⟩ <;> exact h.main _ hothers rfl rfl rfl
  | inside free issues glob loc =>
    rw [loc, glob]
    exact h.main _ hothers rfl rfl rfl
  | back returning frame issues answer reports glob loc =>
    rw [loc, glob]
    exact h.main _ hothers rfl rfl rfl

/-- **Every run has a log**, with which the books of its threads agree. -/
theorem exists_log (H : Program.Protocol (S.program config times))
    {begun : ∀ q, (S.queue q).PushPC → Bool} (hlaw : ∀ q, AttemptLaw (S.queue q) (begun q))
    (h : S.Observed config times s x) :
    ∃ log, Program.Traced (S.program config times) begun log s ∧
      Accounted S times s.glob s.loc log x := by
  induction h with
  | start => exact ⟨[], Program.traced_initial hlaw, accounted_start config⟩
  | @step s s' x c hobserved hstep ih =>
    obtain ⟨log, htraced, haccounted⟩ := ih
    have hreach := hobserved.reachable
    have hgood : Program.Good H s := Program.good_of_reachableIf hreach
    have hmoves := hgood.moves hstep
    obtain ⟨log', hadds, htraced'⟩ := htraced.step H hlaw hreach hstep
    refine ⟨log', htraced', ?_⟩
    -- The history observes what the thread returns from, and so does the log.
    obtain ⟨t, now, spurious, wake, addr⟩ := c
    rcases t with k | _ | k | _
    · exact haccounted.step_ingress (consistent hreach (.ingress k)) hmoves hadds
    · exact haccounted.step_dispatcher hreach hmoves hadds
    · exact haccounted.step_worker hmoves hadds
    · exact haccounted.step_main hmoves hadds

end

section

variable {s : (S.program config times).State}

/-! ### Both ends of a pipeline -/

/-- The queues that ingress threads push to, and those that workers pop from. -/
def front (S : Pipeline P W) : Finset S.QueueId :=
  {q | S.dispatch = none ∨ S.dispatch = some q}

def back (S : Pipeline P W) : Finset S.QueueId :=
  {q | S.dispatch ≠ some q}

omit [NeZero W] in
theorem mem_front {q : S.QueueId} : q ∈ S.front ↔ S.dispatch = none ∨ S.dispatch = some q := by
  simp [front]

omit [NeZero W] in
theorem mem_back {q : S.QueueId} : q ∈ S.back ↔ S.dispatch ≠ some q := by
  simp [back]

/-- Who pushes, and where to. -/
theorem thread_of_isPush {c : CallReturn S.QueueId (Thread P W)} (hanswer : c.call.Answer c.answer)
    (hreach : (S.program config times).Reachable s)
    (hissued : (S.program config times).Issues c.thread (s.loc c.thread) c.queue c.call)
    (hpush : c.answer.isPush = true) :
    (∃ k, c.thread = .ingress k) ∧ c.queue ∈ S.front ∨
      c.thread = .dispatcher ∧ S.dispatch ≠ none ∧ c.queue ∈ S.back := by
  obtain ⟨t, q, call, r⟩ := c
  rcases t with k | _ | k | _
  · obtain ⟨_, _, _, -, rfl, -⟩ := issues_ingress hissued
    refine .inl ⟨⟨k, rfl⟩, mem_front.mpr ?_⟩
    cases hd : S.dispatch with
    | none => exact .inl rfl
    | some d => exact .inr (congrArg some ((S.dispatched d hd).1 k).symm)
  · have hsome : S.dispatch ≠ none := by
      intro hnone
      have hdone := (consistent hreach .dispatcher).1 hnone
      rw [hdone] at hissued
      rcases issues_dispatcher hissued with ⟨h, -⟩ | ⟨_, _, h, -⟩ | ⟨_, _, h, -⟩ <;> cases h
    refine .inr ⟨rfl, hsome, mem_back.mpr fun hd => ?_⟩
    rcases issues_dispatcher hissued with ⟨-, -, rfl⟩ | ⟨_, _, -, ⟨k, rfl⟩, -⟩ | ⟨_, _, -, -, rfl⟩
    · rcases hanswer.pop with ⟨out, rfl⟩ | ⟨ev, rfl⟩ <;> cases hpush
    · exact (S.dispatched _ hd).2.1 k rfl
    · obtain rfl := hanswer.close
      cases hpush
  · obtain ⟨-, -, rfl⟩ := issues_worker hissued
    rcases hanswer.pop with ⟨out, rfl⟩ | ⟨ev, rfl⟩ <;> cases hpush
  · obtain ⟨_, -, rfl⟩ := issues_main hissued
    obtain rfl := hanswer.close
    cases hpush

/-- Who pops, and where from. -/
theorem thread_of_hasTaken {c : CallReturn S.QueueId (Thread P W)}
    (hanswer : c.call.Answer c.answer)
    (hissued : (S.program config times).Issues c.thread (s.loc c.thread) c.queue c.call)
    (htaken : c.answer.hasTaken = true) :
    (∃ k, c.thread = .worker k) ∧ c.queue ∈ S.back ∨
      c.thread = .dispatcher ∧ S.dispatch = some c.queue := by
  obtain ⟨t, q, call, r⟩ := c
  rcases t with k | _ | k | _
  · obtain ⟨_, _, _, -, -, rfl⟩ := issues_ingress hissued
    obtain ⟨ok, rfl⟩ := hanswer.push
    cases htaken
  · rcases issues_dispatcher hissued with ⟨-, hd, -⟩ | ⟨_, _, -, -, rfl⟩ | ⟨_, _, -, -, rfl⟩
    · exact .inr ⟨rfl, hd⟩
    · obtain ⟨ok, rfl⟩ := hanswer.push
      cases htaken
    · obtain rfl := hanswer.close
      cases htaken
  · obtain ⟨-, rfl, -⟩ := issues_worker hissued
    exact .inl ⟨⟨k, rfl⟩, mem_back.mpr fun hd => (S.dispatched _ hd).2.1 k rfl⟩
  · obtain ⟨_, -, rfl⟩ := issues_main hissued
    obtain rfl := hanswer.close
    cases htaken

variable {begun : ∀ q, (S.queue q).PushPC → Bool} {kind : Return → Bool}

/-- The pushes to the front are those of the ingress threads. -/
theorem front_pushes (h : Program.Traced (S.program config times) begun log s)
    (hkind : ∀ r, kind r = true → r.isPush = true) :
    ∑ q ∈ S.front, answersOf log q kind = ∑ k, answersTo log (.ingress k) kind := by
  rw [sum_answersOf, sum_answersTo fun _ _ => Thread.ingress.inj]
  refine answers_congr fun c hc hk => decide_eq_decide.mpr ?_
  obtain ⟨hanswer, s', hreach, hissued⟩ := h.issued c hc
  rcases thread_of_isPush hanswer hreach hissued (hkind _ hk) with ⟨⟨k, ht⟩, hq⟩ | ⟨ht, hd, hq⟩
  · rw [ht]
    exact iff_of_true hq (Finset.mem_image_of_mem _ (Finset.mem_univ k))
  · rw [ht]
    refine iff_of_false (fun hq' => ?_) (by simp)
    exact (mem_front.mp hq').elim hd (mem_back.mp hq)

/-- Those to the back are the dispatcher's, if there is one. -/
theorem back_pushes (h : Program.Traced (S.program config times) begun log s)
    (hdispatch : S.dispatch ≠ none) (hkind : ∀ r, kind r = true → r.isPush = true) :
    ∑ q ∈ S.back, answersOf log q kind = answersTo log .dispatcher kind := by
  rw [sum_answersOf]
  refine answers_congr fun c hc hk => decide_eq_decide.mpr ?_
  obtain ⟨hanswer, s', hreach, hissued⟩ := h.issued c hc
  rcases thread_of_isPush hanswer hreach hissued (hkind _ hk) with ⟨⟨k, ht⟩, hq⟩ | ⟨ht, -, hq⟩
  · refine iff_of_false (fun hq' => ?_) (by rw [ht]; rintro ⟨⟩)
    exact (mem_front.mp hq).elim hdispatch (mem_back.mp hq')
  · exact iff_of_true hq ht

/-- What is taken from the back is taken by the workers. -/
theorem back_taken (h : Program.Traced (S.program config times) begun log s) :
    ∑ q ∈ S.back, answersOf log q Return.hasTaken =
      ∑ k, answersTo log (.worker k) Return.hasTaken := by
  rw [sum_answersOf, sum_answersTo fun _ _ => Thread.worker.inj]
  refine answers_congr fun c hc hk => decide_eq_decide.mpr ?_
  obtain ⟨hanswer, s', -, hissued⟩ := h.issued c hc
  rcases thread_of_hasTaken hanswer hissued hk with ⟨⟨k, ht⟩, hq⟩ | ⟨ht, hd⟩
  · rw [ht]
    exact iff_of_true hq (Finset.mem_image_of_mem _ (Finset.mem_univ k))
  · rw [ht]
    exact iff_of_false (fun hq' => mem_back.mp hq' hd) (by simp)

/-- What is taken from its queue is taken by the dispatcher. -/
theorem dispatch_taken (h : Program.Traced (S.program config times) begun log s) {d : S.QueueId}
    (hdispatch : S.dispatch = some d) :
    answersOf log d Return.hasTaken = answersTo log .dispatcher Return.hasTaken := by
  refine answers_congr fun c hc hk => decide_eq_decide.mpr ?_
  obtain ⟨hanswer, s', -, hissued⟩ := h.issued c hc
  rcases thread_of_hasTaken hanswer hissued hk with ⟨⟨k, ht⟩, hq⟩ | ⟨ht, hd⟩
  · refine iff_of_false (fun hq' => ?_) (by rw [ht]; rintro ⟨⟩)
    rw [hq'] at hq
    exact mem_back.mp hq hdispatch
  · exact iff_of_true (Option.some.inj (hd.symm.trans hdispatch)) ht

end

end Pipeline

end Laboratory.QueueLatency
