import Laboratory.QueueLatency.Equiv.Depth
import Laboratory.QueueLatency.Equiv.PipelineHistory
import Mathlib.Algebra.BigOperators.Group.Finset.Piecewise

/-!
# The calls that have returned

The log of a run lists its calls in the order in which they have returned, and with it the counters
of a queue can be checked against what the threads of a program have done: a queue has counted as
many pushes as the log has, and those in progress (`Traced.attempts`).
-/

namespace Laboratory.QueueLatency

open Concurrency

/-! ### `push_attempts` -/

section

variable {ι : Type} {Q : IEventQueue ι}

/-- **A push is counted once**: in its first step, after which `begun` holds of it, and by nobody
else. -/
structure AttemptLaw (Q : IEventQueue ι) (begun : Q.PushPC → Bool) : Prop where
  init : (Q.stats Q.init).push_attempts = 0
  entry : begun Q.pushEntry = false
  push : ∀ {env i ev policy x pc x' pc'}, Q.push env i ev policy x pc = some (x', pc') →
    (Q.stats x').push_attempts + (begun pc).toNat = (Q.stats x).push_attempts + (begun pc').toNat
  pop : ∀ {env i x pc x' pc'}, Q.pop env i x pc = some (x', pc') →
    (Q.stats x').push_attempts = (Q.stats x).push_attempts
  close : ∀ {i x x'}, Q.close i x = some x' →
    (Q.stats x').push_attempts = (Q.stats x).push_attempts
  returned : ∀ {pc ok}, Q.pushReturned pc = some ok → begun pc = true

end

@[simp]
theorem push_attempts_pause (stats : QueueStats) (spins : ℕ) :
    (pause stats spins).1.push_attempts = stats.push_attempts := by
  unfold pause
  split_ifs <;> rfl

@[simp]
theorem push_attempts_updateMaxDepth (stats : QueueStats) (depth : ℤ) :
    (updateMaxDepth stats depth).push_attempts = stats.push_attempts := rfl

namespace GlobalLockQueue

variable {ι : Type} [DecidableEq ι] {capacity : ℕ} {options : QueueOptions}

def begun : PushPC → Bool
  | .lock => false
  | _ => true

theorem push_attempts_finishPop {env : Env ι} {x : Shared ι} {r : Shared ι × PopPC}
    (h : finishPop env x = some r) : r.1.stats_.push_attempts = x.stats_.push_attempts := by
  unfold finishPop at h
  split at h
  · cases h
    rfl
  · obtain ⟨waiters, -, rfl⟩ := Option.map_eq_some_iff.mp h
    rfl

theorem attemptLaw : AttemptLaw (globalLockQueue ι capacity options) begun where
  init := rfl
  entry := rfl
  push := by
    intro env i ev policy x pc x' pc' h
    have h : push env i ev policy x pc = some (x', pc') := h
    show (Shared.stats_ x').push_attempts + _ = (Shared.stats_ x).push_attempts + _
    cases pc with
    | append =>
      obtain ⟨waiters, -, heq⟩ := Option.map_eq_some_iff.mp h
      cases heq
      rfl
    | returned ok => cases h
    | _ =>
      simp only [push, failPush] at h
      split_ifs at h <;> cases h <;> simp [begun]
  pop := by
    intro env i x pc x' pc' h
    have h : pop env i x pc = some (x', pc') := h
    show (Shared.stats_ x').push_attempts = (Shared.stats_ x).push_attempts
    cases pc with
    | waitTest =>
      simp only [pop] at h
      split_ifs at h
      · exact push_attempts_finishPop h
      · cases h
        rfl
    | spinTest spins =>
      simp only [pop] at h
      split_ifs at h
      · cases h
        rfl
      · cases h
        rfl
      · exact push_attempts_finishPop h
    | returned out => cases h
    | _ =>
      simp only [pop] at h
      split_ifs at h <;> cases h <;> simp
  close := by
    intro i x x' h
    obtain ⟨-, h⟩ := Option.ite_none_right_eq_some.mp h
    cases h
    rfl
  returned := by
    intro pc ok h
    cases pc <;> cases h
    rfl

end GlobalLockQueue

namespace SplitLockLinkedQueue

variable {ι : Type} [DecidableEq ι] {capacity : ℕ}

def begun : PushPC → Bool
  | .entry => false
  | _ => true

theorem attemptLaw : AttemptLaw (splitLockLinkedQueue ι capacity) begun where
  init := rfl
  entry := rfl
  push := by
    intro env i ev policy x pc x' pc' h
    have h : push env i ev policy x pc = some (x', pc') := h
    show (Shared.stats_ x').push_attempts + _ = (Shared.stats_ x).push_attempts + _
    cases pc with
    | link node =>
      obtain ⟨last, -, heq⟩ := Option.map_eq_some_iff.mp h
      cases heq
      rfl
    | returned ok => cases h
    | _ =>
      simp only [push] at h
      try split_ifs at h
      all_goals cases h
      all_goals simp [begun]
  pop := by
    intro env i x pc x' pc' h
    have h : pop env i x pc = some (x', pc') := h
    show (Shared.stats_ x').push_attempts = (Shared.stats_ x).push_attempts
    cases pc with
    | readNext =>
      obtain ⟨old, -, heq⟩ := Option.map_eq_some_iff.mp h
      cases heq
      rfl
    | moveOut old_head new_head =>
      obtain ⟨out, -, heq⟩ := Option.map_eq_some_iff.mp h
      cases heq
      rfl
    | returned out => cases h
    | returnedNull ok => cases h
    | _ =>
      simp only [pop] at h
      try split_ifs at h
      all_goals cases h
      all_goals simp
  close := by
    intro i x x' h
    cases h
    rfl
  returned := by
    intro pc ok h
    cases pc <;> cases h
    rfl

end SplitLockLinkedQueue

namespace MpmcRingQueue

variable {ι : Type} [DecidableEq ι] {capacity : ℕ}

def begun : PushPC → Bool
  | .entry => false
  | _ => true

theorem attemptLaw : AttemptLaw (mpmcRingQueue ι capacity) begun where
  init := rfl
  entry := rfl
  push := by
    intro env i ev policy x pc x' pc' h
    have h : push env i ev policy x pc = some (x', pc') := h
    show (Shared.stats_ x').push_attempts + _ = (Shared.stats_ x).push_attempts + _
    cases pc with
    | returned ok => cases h
    | _ =>
      simp only [push] at h
      try split_ifs at h
      all_goals cases h
      all_goals simp [begun]
  pop := by
    intro env i x pc x' pc' h
    have h : pop env i x pc = some (x', pc') := h
    show (Shared.stats_ x').push_attempts = (Shared.stats_ x).push_attempts
    cases pc with
    | returned out => cases h
    | _ =>
      simp only [pop] at h
      try split_ifs at h
      all_goals cases h
      all_goals simp
  close := by
    intro i x x' h
    cases h
    rfl
  returned := by
    intro pc ok h
    cases pc <;> cases h
    rfl

end MpmcRingQueue

namespace SpscRingQueue

variable {ι : Type} {capacity : ℕ}

def begun : PushPC → Bool
  | .entry => false
  | _ => true

theorem attemptLaw : AttemptLaw (spscRingQueue ι capacity) begun where
  init := rfl
  entry := rfl
  push := by
    intro env i ev policy x pc x' pc' h
    have h : push env i ev policy x pc = some (x', pc') := h
    show (Shared.stats_ x').push_attempts + _ = (Shared.stats_ x).push_attempts + _
    cases pc with
    | returned ok => cases h
    | _ =>
      simp only [push] at h
      try split_ifs at h
      all_goals cases h
      all_goals simp [begun]
  pop := by
    intro env i x pc x' pc' h
    have h : pop env i x pc = some (x', pc') := h
    show (Shared.stats_ x').push_attempts = (Shared.stats_ x).push_attempts
    cases pc with
    | returned out => cases h
    | _ =>
      simp only [pop] at h
      try split_ifs at h
      all_goals cases h
      all_goals simp
  close := by
    intro i x x' h
    cases h
    rfl
  returned := by
    intro pc ok h
    cases pc <;> cases h
    rfl

end SpscRingQueue

theorem makeQueue_attemptLaw {ι : Type} [DecidableEq ι] {max_size : ℕ} {kind : QueueKind}
    {capacity : ℕ} {options : QueueOptions} {Q : IEventQueue ι}
    (h : makeQueue ι max_size kind capacity options = .ok Q) : ∃ begun, AttemptLaw Q begun := by
  cases kind with
  | globalLock =>
    cases h
    exact ⟨_, GlobalLockQueue.attemptLaw⟩
  | splitLockLinked =>
    cases h
    exact ⟨_, SplitLockLinkedQueue.attemptLaw⟩
  | mpmcRing =>
    simp only [makeQueue] at h
    split_ifs at h
    cases h
    exact ⟨_, MpmcRingQueue.attemptLaw⟩
  | spscRing =>
    simp only [makeQueue] at h
    split_ifs at h
    cases h
    exact ⟨_, SpscRingQueue.attemptLaw⟩

/-! ### The returns of a queue -/

def Return.isPush : Return → Bool
  | .pushed _ => true
  | _ => false

def Return.hasStored : Return → Bool
  | .pushed ok => ok
  | _ => false

def Return.hasTaken : Return → Bool
  | .popped ok _ => ok
  | _ => false

section

variable {ι : Type} {Q : IEventQueue ι} {begun : Q.PushPC → Bool}

/-- A push in progress that has been counted. -/
def Frame.attempts (begun : Q.PushPC → Bool) : Option (Frame Q) → ℕ
  | some (.push _ _ pc) => (begun pc).toNat
  | _ => 0

theorem begun_enter (hlaw : AttemptLaw Q begun) (c : Call) :
    Frame.attempts begun (some (Frame.enter Q c)) = 0 := by
  cases c with
  | push ev policy => exact congrArg Bool.toNat hlaw.entry
  | pop => rfl
  | close => rfl

theorem begun_stepFrame (hlaw : AttemptLaw Q begun) {env : Env ι} {i : ι} {x x' : Q.Shared}
    {f f' : Frame Q} (h : QState.stepFrame env i x f = some (x', f')) :
    (Q.stats x').push_attempts + Frame.attempts begun (some f) =
      (Q.stats x).push_attempts + Frame.attempts begun (some f') := by
  cases stepFrame_cases h with
  | push h => exact hlaw.push h
  | pop h => exact congrArg (· + 0) (hlaw.pop h)
  | close h => exact congrArg (· + 0) (hlaw.close h)

/-- What is through has been counted, if it is a push. -/
theorem begun_of_result (hlaw : AttemptLaw Q begun) {f : Frame Q} {r : Return}
    (h : f.result = some r) : Frame.attempts begun (some f) = r.isPush.toNat := by
  cases f with
  | push ev policy pc =>
    obtain ⟨ok, hok, rfl⟩ := Option.map_eq_some_iff.mp h
    exact congrArg Bool.toNat (hlaw.returned hok)
  | pop pc =>
    obtain ⟨r, -, rfl⟩ := Option.map_eq_some_iff.mp h
    rfl
  | close done =>
    cases done <;> cases h
    rfl

variable [Fintype ι]

/-- `n` pushes have returned, `a` of them `true`, and `b` pops have returned an event. -/
structure Tallied (begun : Q.PushPC → Bool) (x : QState Q) (n a b : ℕ) : Prop where
  attempts : (Q.stats x.shared).push_attempts = n + ∑ i, Frame.attempts begun (x.frame i)
  stored : x.pushed.length = a
  taken : x.popped.length = b

variable [DecidableEq ι] {x x' : QState Q} {n a b : ℕ} {i : ι}

omit [DecidableEq ι] in
theorem tallied_start (hlaw : AttemptLaw Q begun) : Tallied begun (QState.start Q) 0 0 0 := by
  refine ⟨?_, rfl, rfl⟩
  have hsum : ∑ i, Frame.attempts begun ((QState.start Q).frame i) = 0 :=
    Finset.sum_eq_zero fun i _ => rfl
  rw [hsum]
  exact hlaw.init

theorem Tallied.call (h : Tallied begun x n a b) (hlaw : AttemptLaw Q begun)
    (hfree : x.frame i = none) (c : Call) : Tallied begun (x.call i c) n a b := by
  refine ⟨h.attempts.trans (congrArg _ (Eq.symm ?_)), h.stored, h.taken⟩
  refine sum_update_eq (fun _ => Frame.attempts begun) x.frame i _ ?_
  rw [hfree]
  exact begun_enter hlaw c

theorem Tallied.step (h : Tallied begun x n a b) (hlaw : AttemptLaw Q begun) {env : Env ι}
    (hx : x.step env i = some x') : Tallied begun x' n a b := by
  obtain ⟨f, r, hf, hr, rfl⟩ := step_eq_some hx
  refine ⟨?_, h.stored, h.taken⟩
  have hsum := sum_update (fun _ => Frame.attempts begun) x.frame i (some r.2)
  have hframe := begun_stepFrame hlaw hr
  have hattempts := h.attempts
  rw [hf] at hsum
  simp only
  omega

theorem Tallied.leave (h : Tallied begun x n a b) (hlaw : AttemptLaw Q begun) {f : Frame Q}
    {r : Return} (hf : x.frame i = some f) (hr : f.result = some r) (hanswer : f.toCall.Answer r) :
    Tallied begun (x.leave i r) (n + r.isPush.toNat) (a + r.hasStored.toNat)
      (b + r.hasTaken.toNat) := by
  have hsum := sum_update (fun _ => Frame.attempts begun) x.frame i none
  have hresult := begun_of_result hlaw hr
  have hnone : Frame.attempts begun none = 0 := rfl
  have hattempts := h.attempts
  have hstored := h.stored
  have htaken := h.taken
  rw [hf] at hsum
  refine ⟨?_, ?_, ?_⟩
  · simp only [QState.leave]
    omega
  · cases f with
    | push ev policy pc =>
      obtain ⟨ok, rfl⟩ := Call.Answer.push hanswer
      cases ok
      · exact hstored
      · simp only [QState.leave, hf, Option.bind_some, Frame.event, Option.toList_some,
          List.length_append, List.length_singleton, hstored]
        rfl
    | pop pc =>
      rcases Call.Answer.pop hanswer with ⟨out, rfl⟩ | ⟨ev, rfl⟩ <;> exact hstored
    | close done =>
      obtain rfl := Call.Answer.close hanswer
      exact hstored
  · cases f with
    | push ev policy pc =>
      obtain ⟨ok, rfl⟩ := Call.Answer.push hanswer
      exact htaken
    | pop pc =>
      rcases Call.Answer.pop hanswer with ⟨out, rfl⟩ | ⟨ev, rfl⟩
      · exact htaken
      · simp only [QState.leave, Option.toList_some, List.length_append, List.length_singleton,
          htaken]
        rfl
    | close done =>
      obtain rfl := Call.Answer.close hanswer
      exact htaken

end

/-! ### The log of a program -/

/-- A call that has returned. -/
structure CallReturn (κ τ : Type) where
  thread : τ
  queue : κ
  call : Call
  answer : Return

section

variable {κ τ : Type} [DecidableEq κ] [DecidableEq τ]

/-- How many of the selected calls have had an answer of a kind. -/
def answers (log : List (CallReturn κ τ)) (select : CallReturn κ τ → Bool) (kind : Return → Bool) :
    ℕ :=
  log.countP fun c => select c && kind c.answer

/-- The calls to a queue, and those of a thread. -/
def answersOf (log : List (CallReturn κ τ)) (q : κ) (kind : Return → Bool) : ℕ :=
  answers log (fun c => c.queue = q) kind

def answersTo (log : List (CallReturn κ τ)) (t : τ) (kind : Return → Bool) : ℕ :=
  answers log (fun c => c.thread = t) kind

variable {log : List (CallReturn κ τ)} {c : CallReturn κ τ} {kind : Return → Bool}

omit [DecidableEq κ] [DecidableEq τ] in
theorem answers_concat (select : CallReturn κ τ → Bool) : answers (log ++ [c]) select kind =
    answers log select kind + if select c then (kind c.answer).toNat else 0 := by
  rw [answers, List.countP_append, List.countP_singleton]
  cases hs : select c
  · simp [answers]
  · cases kind c.answer <;> simp [answers]

omit [DecidableEq κ] [DecidableEq τ] in
/-- Two selections count the same if they agree on what has been answered so. -/
theorem answers_congr {select select' : CallReturn κ τ → Bool}
    (h : ∀ c ∈ log, kind c.answer = true → select c = select' c) :
    answers log select kind = answers log select' kind := by
  apply List.countP_congr
  intro c hc
  cases hk : kind c.answer
  · simp
  · rw [h c hc hk]

variable (log kind) in
omit [DecidableEq κ] [DecidableEq τ] in
/-- The calls are counted key by key. -/
theorem sum_answers {I : Type} [DecidableEq I] (A : Finset I) (key : CallReturn κ τ → I) :
    ∑ i ∈ A, answers log (fun c => key c = i) kind = answers log (fun c => key c ∈ A) kind := by
  induction log using List.reverseRecOn with
  | nil => exact Finset.sum_eq_zero fun i _ => rfl
  | append_singleton log c ih =>
    simp only [answers_concat, Finset.sum_add_distrib, ih, decide_eq_true_eq]
    rw [Finset.sum_ite_eq]

omit [DecidableEq τ] in
/-- The calls to some queues. -/
theorem sum_answersOf (A : Finset κ) :
    ∑ q ∈ A, answersOf log q kind = answers log (fun c => c.queue ∈ A) kind :=
  sum_answers log kind A CallReturn.queue

omit [DecidableEq κ] in
/-- The calls of the threads of one sort. -/
theorem sum_answersTo {I : Type} [Fintype I] {thread : I → τ}
    (hthread : Function.Injective thread) :
    ∑ i, answersTo log (thread i) kind =
      answers log (fun c => c.thread ∈ Finset.univ.image thread) kind := by
  rw [← sum_answers log kind _ CallReturn.thread, Finset.sum_image fun _ _ _ _ h => hthread h]
  rfl

omit [DecidableEq τ] in
theorem answersOf_concat (q : κ) : answersOf (log ++ [c]) q kind =
    answersOf log q kind + if c.queue = q then (kind c.answer).toNat else 0 := by
  simp only [answersOf, answers_concat, decide_eq_true_eq]

omit [DecidableEq κ] in
theorem answersTo_concat (t : τ) : answersTo (log ++ [c]) t kind =
    answersTo log t kind + if c.thread = t then (kind c.answer).toNat else 0 := by
  simp only [answersTo, answers_concat, decide_eq_true_eq]

end

namespace Program

variable {κ τ : Type} [DecidableEq κ] [DecidableEq τ] [Fintype τ] {P : Program κ τ}
  {begun : ∀ q, (P.queue q).PushPC → Bool} {log : List (CallReturn κ τ)} {s s' : P.State}
  {c : P.Choice}

/-- **The log of a run**: its calls were issued in the run and answered to, and the queues have
counted them. -/
structure Traced (P : Program κ τ) (begun : ∀ q, (P.queue q).PushPC → Bool)
    (log : List (CallReturn κ τ)) (s : P.State) : Prop where
  tallied : ∀ q, Tallied (begun q) (s.queue q) (answersOf log q Return.isPush)
    (answersOf log q Return.hasStored) (answersOf log q Return.hasTaken)
  issued : ∀ c ∈ log, c.call.Answer c.answer ∧
    ∃ s : P.State, P.Reachable s ∧ P.Issues c.thread (s.loc c.thread) c.queue c.call

theorem traced_initial (hlaw : ∀ q, AttemptLaw (P.queue q) (begun q)) :
    Traced P begun [] (.initial P) :=
  ⟨fun q => tallied_start (hlaw q), by simp⟩

/-- What a step of the thread `t` adds to the log. -/
inductive Adds (s : P.State) (t : τ) (log : List (CallReturn κ τ)) : List (CallReturn κ τ) → Prop
  | nothing (free : s.returning t = none) : Adds s t log log
  | call {q : κ} {call : Call} {r : Return} (returning : s.returning t = some r)
      (issues : P.Issues t (s.loc t) q call) (answer : call.Answer r) :
      Adds s t log (log ++ [⟨t, q, call, r⟩])

variable {log' : List (CallReturn κ τ)} {t : τ}

omit [DecidableEq κ] [Fintype τ] in
theorem Adds.others (h : Adds s t log log') {t' : τ} (ht : t' ≠ t) (kind : Return → Bool) :
    answersTo log' t' kind = answersTo log t' kind := by
  cases h with
  | nothing => rfl
  | call => rw [answersTo_concat, if_neg ht.symm, add_zero]

omit [DecidableEq κ] [Fintype τ] in
theorem Adds.self (h : Adds s t log log') (kind : Return → Bool) :
    answersTo log' t kind =
      answersTo log t kind + (s.returning t).elim 0 fun r => (kind r).toNat := by
  cases h with
  | nothing free =>
    rw [free]
    rfl
  | call returning =>
    rw [answersTo_concat, if_pos rfl, returning]
    rfl

/-- **One step of the program** adds a call to the log if its thread returns from one. -/
theorem Traced.step (hlog : Traced P begun log s) (H : Program.Protocol P)
    (hlaw : ∀ q, AttemptLaw (P.queue q) (begun q)) (hreach : P.Reachable s)
    (h : P.step c s = some s') :
    ∃ log', Adds s c.thread log log' ∧ Traced P begun log' s' := by
  have hs : Program.Good H s := Program.good_of_reachableIf hreach
  have hupdate {q : κ} {x : QState (P.queue q)} (hx : Tallied (begun q) x
      (answersOf log q Return.isPush) (answersOf log q Return.hasStored)
      (answersOf log q Return.hasTaken)) (q' : κ) :
      Tallied (begun q') (Function.update s.queue q x q') (answersOf log q' Return.isPush)
        (answersOf log q' Return.hasStored) (answersOf log q' Return.hasTaken) := by
    by_cases hq : q' = q
    · subst hq
      rwa [Function.update_self]
    · rw [Function.update_of_ne hq]
      exact hlog.tallied q'
  unfold Program.step at h
  split at h
  · rename_i hcalling
    have hfree : s.returning c.thread = none := by rw [State.returning, hcalling]; rfl
    obtain ⟨a, ha, rfl⟩ := Option.map_eq_some_iff.mp h
    refine ⟨log, .nothing hfree, ?_, hlog.issued⟩
    cases a with
    | own g l => exact hlog.tallied
    | call q call =>
      have hframe := hs.frame_eq_none (t := c.thread) (q := q) (by rw [hcalling]; rintro ⟨⟩)
      exact hupdate ((hlog.tallied q).call (hlaw q) hframe call)
  · rename_i q hcalling
    split at h
    · rename_i r hr
      cases h
      obtain ⟨f, hf, hissued, hanswer, -⟩ := hs.returns hcalling hr
      obtain ⟨f', hf', hresult⟩ := returned_eq_some hr
      cases hf.symm.trans hf'
      have hreturning : s.returning c.thread = some r := by
        rw [State.returning, hcalling]
        exact hr
      refine ⟨_, .call hreturning hissued hanswer, fun q' => ?_, ?_⟩
      · simp only [answersOf_concat, State.return]
        by_cases hq : q' = q
        · subst hq
          simp only [Function.update_self, if_true]
          exact (hlog.tallied q').leave (hlaw q') hf hresult hanswer
        · simp only [Function.update_of_ne hq, if_neg (Ne.symm hq)]
          exact hlog.tallied q'
      · intro c' hc'
        rcases List.mem_append.mp hc' with hc' | hc'
        · exact hlog.issued c' hc'
        · rw [List.mem_singleton.mp hc']
          exact ⟨hanswer, s, hreach, hissued⟩
    · rename_i hr
      obtain ⟨x, hx, rfl⟩ := Option.map_eq_some_iff.mp h
      refine ⟨log, .nothing (by rw [State.returning, hcalling]; exact hr), ?_, hlog.issued⟩
      exact hupdate ((hlog.tallied q).step (hlaw q) hx)

end Program

end Laboratory.QueueLatency
