import Laboratory.QueueLatency.Equiv.PipelineCounts

/-!
# What a pipeline admits

`admission`: in the result of a run, a generated event is accepted or dropped by the ingress thread
that made it.  When pushes wait, an ingress thread may fail to push one event at the end, which is
counted as neither; it can only be one, since a push that waits fails only when `ingress_stop` is
set, and the thread tests that flag before it makes another event.
-/

namespace Laboratory.QueueLatency

open Concurrency

namespace Pipeline

variable {P W : ℕ} {S : Pipeline P W} {config : PipelineConfig} {times : Times} {now : ℤ}
  {g g' : PipelineState W} {q : S.QueueId} [NeZero W]
  {H : Program.Protocol (S.program config times)} {s s' : (S.program config times).State}
  {c : (S.program config times).Choice}

/-! ### Admission -/

/-- The generated events that are neither accepted nor dropped. -/
def undecided (g : PipelineState W) : ℤ :=
  g.generated - g.accepted - g.dropped_ingress

/-- The thread has generated an event and not entered yet what has become of it. -/
def IngressLoc.undecided : IngressLoc → ℤ
  | .push _ _ measured => if measured then 1 else 0
  | .countAccepted _ | .countDropped _ => 1
  | _ => 0

def Undecided (S : Pipeline P W) : ∀ t, S.Loc t → ℤ
  | .ingress _, l => IngressLoc.undecided l
  | _, _ => 0

/-- The ingress thread is about to count an event as dropped. -/
def IngressLoc.isDropping : IngressLoc → Bool
  | .countDropped _ => true
  | _ => false

omit [NeZero W] in
theorem undecided_ingress {k : Fin P} {l l' : IngressLoc}
    (h : IngressStep S times k now g l g' l') :
    undecided g' - l'.undecided = undecided g - l.undecided ∧ g'.ingress_stop = g.ingress_stop ∧
      l'.isDropping = false ∧ (l.isDropping = false → g'.dropped_ingress = g.dropped_ingress) := by
  cases h with
  | countGenerated | countAccepted | countDropped =>
    simp [undecided, IngressLoc.undecided, IngressLoc.isDropping]
    omega
  | _ => simp [IngressLoc.undecided, IngressLoc.isDropping]

omit [NeZero W] in
theorem undecided_dispatcher {l l' : DispatcherLoc W} (h : DispatcherStep times g l g' l') :
    undecided g' = undecided g ∧ g'.ingress_stop = g.ingress_stop ∧
      g'.dropped_ingress = g.dropped_ingress := by
  cases h <;> exact ⟨rfl, rfl, rfl⟩

omit [NeZero W] in
theorem undecided_worker {k : Fin W} {l l' : WorkerLoc} (h : WorkerStep times k g l g' l') :
    undecided g' = undecided g ∧ g'.ingress_stop = g.ingress_stop ∧
      g'.dropped_ingress = g.dropped_ingress := by
  cases h <;> exact ⟨rfl, rfl, rfl⟩

/-- A step of a thread's own code decides nothing, and never takes the stop flag back. -/
theorem undecided_own {input : ℤ} {t : Thread P W} {loc : ∀ t, S.Loc t} {l : S.Loc t}
    (h : (S.program config times).act input t g loc = some (.own g' l)) :
    undecided g' - S.Undecided t l = undecided g - S.Undecided t (loc t) ∧
      (g.ingress_stop = true → g'.ingress_stop = true) := by
  rcases t with k | _ | k | _
  · obtain ⟨hcount, hstop, -⟩ := undecided_ingress (actIngress_own h)
    exact ⟨hcount, fun hg => hstop.trans hg⟩
  · obtain ⟨hcount, hstop, -⟩ := undecided_dispatcher (actDispatcher_own h)
    exact ⟨congrArg (· - 0) hcount, fun hg => hstop.trans hg⟩
  · obtain ⟨hcount, hstop, -⟩ := undecided_worker (actWorker_own h)
    exact ⟨congrArg (· - 0) hcount, fun hg => hstop.trans hg⟩
  · rcases actMain_own h with ⟨-, rfl⟩ | ⟨-, rfl, -⟩
    · exact ⟨rfl, id⟩
    · exact ⟨rfl, fun _ => rfl⟩

/-- The stop flag stays set. -/
theorem ingress_stop_mono (h : (S.program config times).step c s = some s')
    (hs : PipelineState.ingress_stop s.glob = true) :
    PipelineState.ingress_stop s'.glob = true := by
  rcases Program.step_cases h with ⟨g, l, -, hact, rfl⟩ | ⟨_, _, -, -, rfl⟩ |
    ⟨_, _, -, -, rfl⟩ | ⟨_, _, -, -, rfl⟩
  · exact (undecided_own hact).2 hs
  · exact hs
  · exact hs
  · exact hs

/-- **A push of an ingress thread that waits fails only when `ingress_stop` is set.** -/
theorem ingress_stop_of_refused (h : (S.program config times).Reachable s) {k : Fin P}
    {f : Frame (S.queue q)} (hf : (s.queue q).frame (.ingress k) = some f) {ev : Event}
    (hcall : f.toCall = .push ev .block) (hrefused : (H.A q).Reports (.pushed false) f) :
    PipelineState.ingress_stop s.glob = true := by
  have hissued : (S.program config times).Issues (.ingress k) (s.loc (.ingress k)) q
      (.push ev .block) := by
    rw [← hcall]
    exact ((Program.framed_of_reachableIf h).issued _ q f hf).2
  have hphase : H.phase s q (.ingress k) = .refused := (phases_eq _ hf).trans hrefused
  have hdeclined : (H.store s q).closed = true ∨ PipelineState.ingress_stop s.glob = true :=
    Program.declined_closed (fun s => PipelineState.ingress_stop s.glob = true) h
      ingress_stop_mono (fun _ hstop => (stop_eq_true hstop).2) hf hcall (by rw [hphase]; rfl)
  -- A closed queue has no thread that still pushes to it.
  exact hdeclined.resolve_left fun hclosed =>
    quiet H h q hclosed _ ((S.channel config times q).issues_push hissued)

/-- The ingress thread makes no other event once `ingress_stop` is set. -/
def IngressLoc.isBetween : IngressLoc → Prop
  | .testStop _ | .done => True
  | _ => False

/-- **The invariant of the admission.** `failed` are the ingress threads whose last push has failed
although it waits: they have been told to stop, and will make no other event. -/
structure Admission (s : (S.program config times).State) (failed : Finset (Fin P)) : Prop where
  count : undecided s.glob = ∑ t, S.Undecided t (s.loc t) + failed.card
  block : failed.Nonempty → config.policy = .block
  stopped : ∀ k ∈ failed, PipelineState.ingress_stop s.glob = true ∧
    IngressLoc.isBetween (s.loc (.ingress k))

omit [NeZero W] in
theorem isBetween_own {k : Fin P} {l l' : IngressLoc} (hstop : g.ingress_stop = true)
    (hl : l.isBetween) (h : IngressStep S times k now g l g' l') : l'.isBetween := by
  cases h with
  | stopped => trivial
  | go stop =>
    rw [hstop] at stop
    cases stop
  | _ => exact hl.elim

theorem isBetween_resume {l : IngressLoc} (hl : l.isBetween) (r : Return) :
    (resumeIngress config l r).isBetween := by
  cases l with
  | testStop | done => trivial
  | _ => exact hl.elim

/-- An ingress thread that has been told to stop makes no other event. -/
theorem isBetween_step (h : (S.program config times).step c s = some s') {k : Fin P}
    (hstop : PipelineState.ingress_stop s.glob = true)
    (hk : IngressLoc.isBetween (s.loc (.ingress k))) :
    IngressLoc.isBetween (s'.loc (.ingress k)) := by
  rcases Program.loc_cases h with hloc | ⟨l, hloc, h'⟩
  · rw [hloc]
    exact hk
  · rw [hloc]
    by_cases ht : .ingress k = c.thread
    · obtain ⟨t, now, _, _, _⟩ := c
      subst ht
      rw [Function.update_self]
      rcases h' with ⟨g, hact⟩ | ⟨q, r, -, -, rfl⟩
      · exact isBetween_own hstop hk (actIngress_own hact)
      · exact isBetween_resume hk r
    · rw [Function.update_of_ne ht]
      exact hk

/-- A push that has returned is accepted or dropped, unless it has failed although it waits. -/
theorem undecided_resume (config : PipelineConfig) (v : Ingress) (ev : Event) (measured ok : Bool) :
    (resumeIngress config (.push v ev measured) (.pushed ok)).undecided =
        (IngressLoc.push v ev measured).undecided ∨
      (ok = false ∧ config.policy = .block ∧
        (resumeIngress config (.push v ev measured) (.pushed ok)) = .testStop v ∧
          (IngressLoc.push v ev measured).undecided = 1) := by
  cases ok <;> cases measured <;> cases hp : config.policy <;>
    simp [resumeIngress, IngressLoc.undecided, hp]

omit [NeZero W] in
/-- The count after one thread has changed its place. -/
theorem undecided_update {loc : ∀ t, S.Loc t} {t : Thread P W} {l : S.Loc t} {n n' : ℤ}
    (hcount : undecided g = ∑ t', S.Undecided t' (loc t') + n)
    (h : undecided g' - S.Undecided t l - n' = undecided g - S.Undecided t (loc t) - n) :
    undecided g' = ∑ t', S.Undecided t' (Function.update loc t l t') + n' := by
  have hsum := sum_update S.Undecided loc t l
  omega

/-- A return of an operation. -/
theorem Admission.return {failed : Finset (Fin P)} (hs : Admission s failed)
    (h : (S.program config times).Reachable s) (H : Program.Protocol (S.program config times))
    {t : Thread P W} {r : Return} (hcalling : s.calling t = some q)
    (hr : (s.queue q).returned t = some r)
    (hstopped : ∀ k ∈ failed, PipelineState.ingress_stop s.glob = true ∧
      IngressLoc.isBetween ((s.return t q r).loc (.ingress k))) :
    ∃ failed', Admission (s.return t q r) failed' := by
  have hgood : Program.Good H s := Program.good_of_reachableIf h
  obtain ⟨f, hf, hissued, hanswer, hreports⟩ := hgood.returns hcalling hr
  have hsame : S.Undecided t ((S.program config times).resume t (s.loc t) r) =
      S.Undecided t (s.loc t) → ∃ failed', Admission (s.return t q r) failed' := by
    intro heq
    exact ⟨failed, undecided_update hs.count (by rw [heq]; rfl), hs.block, hstopped⟩
  rcases t with k | _ | k | _
  · obtain ⟨v, ev, measured, hl, -, hc⟩ := issues_ingress hissued
    rw [hc] at hanswer
    obtain ⟨ok, rfl⟩ := hanswer.push
    rcases undecided_resume config v ev measured ok with heq | ⟨rfl, hblock, hnext, hone⟩
    · apply hsame
      rw [hl]
      exact heq
    · -- The thread joins those that have failed.
      rw [hblock] at hc
      have hstop := ingress_stop_of_refused h hf hc hreports
      have hk : k ∉ failed := by
        intro hk
        have hbetween := (hs.stopped k hk).2
        rw [hl] at hbetween
        exact hbetween
      have hbefore : S.Undecided (.ingress k) (s.loc (.ingress k)) = 1 := by
        rw [hl]
        exact hone
      have hafter : S.Undecided (.ingress k) ((S.program config times).resume (.ingress k)
          (s.loc (.ingress k)) (.pushed false)) = 0 := by
        rw [hl]
        exact congrArg IngressLoc.undecided hnext
      refine ⟨insert k failed, ?_, fun _ => hblock, ?_⟩
      · refine undecided_update hs.count ?_
        rw [hbefore, hafter, Finset.card_insert_of_notMem hk]
        change undecided s.glob - 0 - _ = undecided s.glob - 1 - _
        push_cast
        omega
      · intro j hj
        rcases Finset.mem_insert.mp hj with rfl | hj
        · refine ⟨hstop, ?_⟩
          change IngressLoc.isBetween (Function.update s.loc (.ingress j) _ (.ingress j))
          rw [Function.update_self, hl]
          change (resumeIngress config (.push v ev measured) (.pushed false)).isBetween
          rw [hnext]
          trivial
        · exact hstopped j hj
  · exact hsame rfl
  · exact hsame rfl
  · exact hsame rfl

theorem Admission.step {failed : Finset (Fin P)} (hs : Admission s failed)
    (H : Program.Protocol (S.program config times)) (hreach : (S.program config times).Reachable s)
    (h : (S.program config times).step c s = some s') : ∃ failed', Admission s' failed' := by
  have hstopped : ∀ k ∈ failed, PipelineState.ingress_stop s'.glob = true ∧
      IngressLoc.isBetween (s'.loc (.ingress k)) := by
    intro k hk
    obtain ⟨hstop, hbetween⟩ := hs.stopped k hk
    exact ⟨ingress_stop_mono h hstop, isBetween_step h hstop hbetween⟩
  rcases Program.step_cases h with ⟨g, l, -, hact, rfl⟩ | ⟨_, _, -, -, rfl⟩ |
    ⟨q, r, hcalling, hr, rfl⟩ | ⟨_, _, -, -, rfl⟩
  · refine ⟨failed, ?_, hs.block, hstopped⟩
    exact undecided_update hs.count (congrArg (· - (failed.card : ℤ)) (undecided_own hact).1)
  · exact ⟨failed, hs.count, hs.block, hstopped⟩
  · exact hs.return hreach H hcalling hr hstopped
  · exact ⟨failed, hs.count, hs.block, hstopped⟩

theorem exists_admission (H : Program.Protocol (S.program config times))
    (h : (S.program config times).Reachable s) : ∃ failed, Admission s failed := by
  induction h with
  | refl =>
    refine ⟨∅, ?_, by simp, by simp⟩
    have hsum : ∑ t, S.Undecided t ((S.program config times).start t) = 0 := by
      refine Finset.sum_eq_zero ?_
      rintro (k | _ | k | _) - <;> rfl
    rw [Finset.card_empty, Nat.cast_zero, add_zero]
    exact hsum.symm
  | tail hreach hstep ih =>
    obtain ⟨failed, hs⟩ := ih
    obtain ⟨c, -, hc⟩ := hstep
    exact hs.step H hreach hc

/-! ### Events dropped at the ingress -/

theorem isDropping_resume (hblock : config.policy = .block) {l : IngressLoc} {r : Return}
    (hl : l.isDropping = false) : (resumeIngress config l r).isDropping = false := by
  unfold resumeIngress
  split
  · split_ifs <;> rfl
  · simp [hblock, IngressLoc.isDropping]
  · exact hl

/-- When pushes wait, no ingress thread counts an event as dropped. -/
theorem isDropping_eq_false (hblock : config.policy = .block)
    (h : (S.program config times).Reachable s) (k : Fin P) :
    IngressLoc.isDropping (s.loc (.ingress k)) = false := by
  let L : ∀ t, S.Loc t → Prop
    | .ingress _, l => IngressLoc.isDropping l = false
    | _, _ => True
  refine Program.forall_loc_of_reachable (L := L) ?_ ?_ ?_ h (.ingress k)
  · rintro (k | _ | k | _)
    · rfl
    all_goals trivial
  · rintro input (k | _ | k | _) g loc g' l hact -
    · exact (undecided_ingress (actIngress_own hact)).2.2.1
    all_goals trivial
  · rintro (k | _ | k | _) l r hl
    · exact isDropping_resume hblock hl
    all_goals trivial

theorem dropped_ingress_eq_zero (hblock : config.policy = .block)
    (h : (S.program config times).Reachable s) : PipelineState.dropped_ingress s.glob = 0 := by
  induction h with
  | refl => rfl
  | tail hreach hstep ih =>
    obtain ⟨⟨t, now, _, _, _⟩, -, hc⟩ := hstep
    rcases Program.step_cases hc with ⟨g, l, -, hact, rfl⟩ | ⟨_, _, -, -, rfl⟩ |
      ⟨_, _, -, -, rfl⟩ | ⟨_, _, -, -, rfl⟩
    · rcases t with k | _ | k | _
      · obtain ⟨-, -, -, hdropped⟩ := undecided_ingress (actIngress_own hact)
        exact (hdropped (isDropping_eq_false hblock hreach k)).trans ih
      · exact (undecided_dispatcher (actDispatcher_own hact)).2.2.trans ih
      · exact (undecided_worker (actWorker_own hact)).2.2.trans ih
      · rcases actMain_own hact with ⟨-, rfl⟩ | ⟨-, rfl, -⟩ <;> exact ih
    · exact ih
    · exact ih
    · exact ih

/-- Nothing is undecided when the main thread is done. -/
theorem undecided_eq_zero (H : Program.Protocol (S.program config times))
    (h : (S.program config times).Reachable s) (hmain : s.loc .main = MainLoc.done)
    (t : Thread P W) : S.Undecided t (s.loc t) = 0 := by
  have hreached := (shutdown_of_reachable (H := H) h).main
  rw [hmain] at hreached
  rcases t with k | _ | k | _
  · rw [hreached.ingress k trivial]
    rfl
  all_goals rfl

end Pipeline

open Pipeline

variable {config : AcceptedConfig} {max_size : ℕ} {times : Times}
  {S : Pipeline config.ingress config.workers}

/-- **What a run admits.** When pushes drop, every generated event is accepted or dropped by the
ingress thread that made it.  When they wait, nothing is dropped, and there may be one generated
event for each ingress thread that is not accepted. -/
theorem admission (h : runPipelineScenario max_size config.toPipelineConfig = .ok S)
    {s : (S.program config.toPipelineConfig times).State}
    (hreach : (S.program config.toPipelineConfig times).Reachable s)
    (hmain : s.loc .main = MainLoc.done) :
    let r := S.result config.toPipelineConfig times s
    (config.policy = .drop → r.generated = r.accepted + r.dropped_ingress) ∧
      (config.policy = .block → r.dropped_ingress = 0 ∧ r.dropped_dispatch = 0 ∧
        r.accepted ≤ r.generated ∧ (r.generated : ℤ) ≤ r.accepted + config.ingress_threads) := by
  obtain ⟨H⟩ : Nonempty (Program.Protocol (S.program config.toPipelineConfig times)) :=
    runPipelineScenario_protocol h
  obtain ⟨failed, hs⟩ := exists_admission H hreach
  have hcount : undecided s.glob = failed.card := by
    rw [hs.count, Finset.sum_eq_zero fun t _ => undecided_eq_zero H hreach hmain t, zero_add]
  have hle : failed.card ≤ config.ingress_threads.toNat :=
    (Finset.card_le_univ failed).trans (Fintype.card_fin _).le
  have hthreads := config.valid.ingress_threads
  have hgenerated : (PipelineState.generated s.glob : ℤ) - PipelineState.accepted s.glob -
    PipelineState.dropped_ingress s.glob = failed.card := hcount
  refine ⟨fun hdrop => ?_, fun hblock => ?_⟩
  · have hempty : failed = ∅ := by
      by_contra hne
      have := hs.block (Finset.nonempty_iff_ne_empty.mpr hne)
      rw [hdrop] at this
      cases this
    rw [hempty, Finset.card_empty] at hgenerated
    change PipelineState.generated s.glob = s.glob.accepted + s.glob.dropped_ingress
    omega
  · have hingress : PipelineState.dropped_ingress s.glob = 0 :=
      dropped_ingress_eq_zero hblock hreach
    have hdispatch : PipelineState.dropped_dispatch s.glob = 0 :=
      dropped_dispatch_eq_zero (.inr hblock) hreach
    refine ⟨hingress, hdispatch, ?_, ?_⟩
    · change PipelineState.accepted s.glob ≤ s.glob.generated
      omega
    · change (PipelineState.generated s.glob : ℤ) ≤
        PipelineState.accepted s.glob + config.ingress_threads
      omega

/-- Of four generated events three are accepted, and one of these is dropped by the dispatcher. -/
theorem admission_drop :
    ∃ S, runPipelineScenario (2 ^ 58) twoOfEach.toPipelineConfig = .ok S ∧
      ∃ s : (S.program twoOfEach.toPipelineConfig (twoOfEach.times 0)).State,
        (S.program twoOfEach.toPipelineConfig (twoOfEach.times 0)).Reachable s ∧
          s.loc .main = MainLoc.done ∧
            let r := S.result twoOfEach.toPipelineConfig (twoOfEach.times 0) s
            r.generated = 4 ∧ r.dropped_ingress = 1 ∧ r.dropped_dispatch = 1 ∧
              (twoOfEach.policy = .drop → r.generated = r.accepted + r.dropped_ingress) ∧
                (twoOfEach.policy = .block → r.dropped_ingress = 0 ∧ r.dropped_dispatch = 0 ∧
                  r.accepted ≤ r.generated ∧
                    (r.generated : ℤ) ≤ r.accepted + twoOfEach.ingress_threads) := by
  have hrun {S : Pipeline twoOfEach.ingress twoOfEach.workers}
      {s : (S.program twoOfEach.toPipelineConfig (twoOfEach.times 0)).State}
      (h : runPipelineScenario (2 ^ 58) twoOfEach.toPipelineConfig = .ok S)
      (hs : (S.program twoOfEach.toPipelineConfig (twoOfEach.times 0)).runIf (fun _ _ => True)
        (.initial _) (droppingRun S) = some s) (hmain : s.loc .main = MainLoc.done) :=
    And.intro (Program.reachable_of_run _ hs) (And.intro hmain
      (admission h (Program.reachable_of_run _ hs) hmain))
  obtain ⟨hreach, hmain, hcounts⟩ := hrun rfl (Option.some_get (by decide +kernel)).symm
    (main_isDone (by decide +kernel))
  exact ⟨_, rfl, _, hreach, hmain, by decide +kernel, by decide +kernel, by decide +kernel,
    hcounts⟩

end Laboratory.QueueLatency
