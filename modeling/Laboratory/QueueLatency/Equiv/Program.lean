import Laboratory.QueueLatency.Equiv.Refinement
import Laboratory.QueueLatency.Program

/-!
# Programs over queues that follow the permit protocol

`step_cases` says what a step of a program is: a step of the thread's own code, a call, a return,
or a step inside an operation.  `Framed` ties the operations in progress to the places in the code
they were called from; with it, every queue of a reachable state satisfies its invariant
(`Sound.reachable`), and a program invariant has to be checked against the moves of the protocol
only.
-/

namespace Laboratory.QueueLatency

open Concurrency

variable {κ τ : Type} [DecidableEq κ] [DecidableEq τ] {P : Program κ τ}

/-- What a call may return: a `pop` that succeeds returns an event. -/
def Call.Answer : Call → Return → Prop
  | .push _ _, .pushed _ => True
  | .pop, .popped true out => ∃ ev, out = some ev
  | .pop, .popped false _ => True
  | .close, .closed => True
  | _, _ => False

theorem Call.Answer.push {ev : Event} {policy : BackpressurePolicy} {r : Return}
    (h : (Call.push ev policy).Answer r) : ∃ ok, r = .pushed ok := by
  cases r with
  | pushed ok => exact ⟨ok, rfl⟩
  | popped => cases h
  | closed => cases h

theorem Call.Answer.pop {r : Return} (h : Call.pop.Answer r) :
    (∃ out, r = .popped false out) ∨ ∃ ev, r = .popped true (some ev) := by
  cases r with
  | popped ok out =>
    cases ok
    · exact .inl ⟨out, rfl⟩
    · obtain ⟨ev, rfl⟩ := h
      exact .inr ⟨ev, rfl⟩
  | pushed => cases h
  | closed => cases h

theorem Call.Answer.close {r : Return} (h : Call.close.Answer r) : r = .closed := by
  cases r with
  | closed => rfl
  | pushed => cases h
  | popped => cases h

namespace Program

/-- From the place `l` in its code the thread `t` may call `c` on the queue `q`. -/
def Issues (P : Program κ τ) (t : τ) (l : P.Loc t) (q : κ) (c : Call) : Prop :=
  ∃ input g loc, loc t = l ∧ P.act input t g loc = some (.call q c)

variable {s s' : P.State} {c : P.Choice}

/-- **What a step is.** -/
theorem step_cases (h : P.step c s = some s') :
    (∃ g l, s.calling c.thread = none ∧
      P.act c.input c.thread s.glob s.loc = some (.own g l) ∧
      s' = { s with glob := g, loc := Function.update s.loc c.thread l }) ∨
    (∃ q call, s.calling c.thread = none ∧
      P.act c.input c.thread s.glob s.loc = some (.call q call) ∧
      s' = { s with
        calling := Function.update s.calling c.thread (some q)
        queue := Function.update s.queue q ((s.queue q).call c.thread call) }) ∨
    (∃ q r, s.calling c.thread = some q ∧ (s.queue q).returned c.thread = some r ∧
      s' = s.return c.thread q r) ∨
    (∃ q x, s.calling c.thread = some q ∧ (s.queue q).step (c.env s) c.thread = some x ∧
      s' = { s with queue := Function.update s.queue q x }) := by
  unfold step at h
  split at h
  · rename_i hcalling
    obtain ⟨a, ha, rfl⟩ := Option.map_eq_some_iff.mp h
    cases a with
    | own g l => exact .inl ⟨g, l, hcalling, ha, rfl⟩
    | call q call => exact .inr (.inl ⟨q, call, hcalling, ha, rfl⟩)
  · rename_i q hcalling
    split at h
    · rename_i r hr
      cases h
      exact .inr (.inr (.inl ⟨q, r, hcalling, hr, rfl⟩))
    · obtain ⟨x, hx, rfl⟩ := Option.map_eq_some_iff.mp h
      exact .inr (.inr (.inr ⟨q, x, hcalling, hx, rfl⟩))

/-- What a step means to the places in the code. -/
theorem loc_cases (h : P.step c s = some s') :
    s'.loc = s.loc ∨ ∃ l, s'.loc = Function.update s.loc c.thread l ∧
      ((∃ g, P.act c.input c.thread s.glob s.loc = some (.own g l)) ∨
        ∃ q r, s.calling c.thread = some q ∧ (s.queue q).returned c.thread = some r ∧
          l = P.resume c.thread (s.loc c.thread) r) := by
  rcases step_cases h with ⟨g, l, -, hact, rfl⟩ | ⟨q', call, -, -, rfl⟩ |
    ⟨q', r, hcalling, hr, rfl⟩ | ⟨q', x, -, -, rfl⟩
  · exact .inr ⟨l, rfl, .inl ⟨g, hact⟩⟩
  · exact .inl rfl
  · exact .inr ⟨_, rfl, .inr ⟨q', r, hcalling, hr, rfl⟩⟩
  · exact .inl rfl

/-- A thread stays where it neither acts nor returns to another place. -/
theorem loc_stays {t : τ} {l : P.Loc t}
    (hact : ∀ {input g loc g' l'}, loc t = l → P.act input t g loc ≠ some (.own g' l'))
    (hresume : ∀ r, P.resume t l r = l) (h : P.step c s = some s') (hl : s.loc t = l) :
    s'.loc t = l := by
  rcases loc_cases h with hloc | ⟨l', hloc, h'⟩
  · rw [hloc, hl]
  · rw [hloc]
    by_cases ht : t = c.thread
    · subst ht
      rw [Function.update_self]
      rcases h' with ⟨g, hown⟩ | ⟨q, r, -, -, rfl⟩
      · exact absurd hown (hact hl)
      · rw [hl, hresume]
    · rw [Function.update_of_ne ht, hl]

/-- What holds of a place in the code of one thread holds in every reachable state, if its actions
and returns keep it. -/
theorem forall_loc_of_reachable {L : ∀ t, P.Loc t → Prop} (hstart : ∀ t, L t (P.start t))
    (hown : ∀ {input t g loc g' l}, P.act input t g loc = some (.own g' l) → L t (loc t) → L t l)
    (hresume : ∀ {t l r}, L t l → L t (P.resume t l r)) (h : P.Reachable s) (t : τ) :
    L t (s.loc t) := by
  induction h with
  | refl => exact hstart t
  | tail _ hstep ih =>
    obtain ⟨c, -, hc⟩ := hstep
    rcases loc_cases hc with hloc | ⟨l, hloc, h'⟩
    · rw [hloc]
      exact ih
    · rw [hloc]
      by_cases ht : t = c.thread
      · subst ht
        rw [Function.update_self]
        rcases h' with ⟨g, hact⟩ | ⟨q, r, -, -, rfl⟩
        · exact hown hact ih
        · exact hresume ih
      · rw [Function.update_of_ne ht]
        exact ih

/-- **What a step means to one queue.** It is not concerned (`own`, `away`, `back`), or its thread
enters an operation on it, leaves one, or takes a step of one. -/
inductive StepAt (q : κ) (c : P.Choice) (s s' : P.State) : Prop
  | own {g : P.Glob} {l : P.Loc c.thread} (free : s.calling c.thread = none)
      (acts : P.act c.input c.thread s.glob s.loc = some (.own g l))
      (loc : s'.loc = Function.update s.loc c.thread l) (queue : s'.queue q = s.queue q)
  | away (loc : s'.loc = s.loc) (queue : s'.queue q = s.queue q)
  | back {q' : κ} {r : Return} (other : q ≠ q') (calling : s.calling c.thread = some q')
      (returned : (s.queue q').returned c.thread = some r)
      (loc : s'.loc = Function.update s.loc c.thread (P.resume c.thread (s.loc c.thread) r))
      (queue : s'.queue q = s.queue q)
  | enter {call : Call} (free : s.calling c.thread = none)
      (acts : P.act c.input c.thread s.glob s.loc = some (.call q call))
      (loc : s'.loc = s.loc) (queue : s'.queue q = (s.queue q).call c.thread call)
  | leave {r : Return} (calling : s.calling c.thread = some q)
      (returned : (s.queue q).returned c.thread = some r)
      (loc : s'.loc = Function.update s.loc c.thread (P.resume c.thread (s.loc c.thread) r))
      (queue : s'.queue q = (s.queue q).leave c.thread r)
  | inside (calling : s.calling c.thread = some q)
      (moves : (s.queue q).step (c.env s) c.thread = some (s'.queue q)) (loc : s'.loc = s.loc)

theorem step_at (q : κ) (h : P.step c s = some s') : StepAt q c s s' := by
  rcases step_cases h with ⟨g, l, hfree, hact, rfl⟩ | ⟨q', call, hfree, hact, rfl⟩ |
    ⟨q', r, hcalling, hr, rfl⟩ | ⟨q', x, hcalling, hx, rfl⟩
  · exact .own hfree hact rfl rfl
  · by_cases hq : q = q'
    · subst hq
      exact .enter hfree hact rfl (Function.update_self ..)
    · exact .away rfl (Function.update_of_ne hq ..)
  · by_cases hq : q = q'
    · subst hq
      exact .leave hcalling hr rfl (Function.update_self ..)
    · exact .back hq hcalling hr rfl (Function.update_of_ne hq ..)
  · by_cases hq : q = q'
    · subst hq
      refine .inside hcalling ?_ rfl
      simpa only [Function.update_self] using hx
    · exact .away rfl (Function.update_of_ne hq ..)

/-- A thread whose operation is through returns from it. -/
theorem step_of_returned {q : κ} {r : Return} (h : P.step c s = some s')
    (hcalling : s.calling c.thread = some q) (hr : (s.queue q).returned c.thread = some r) :
    s' = s.return c.thread q r := by
  unfold step at h
  rw [hcalling] at h
  simp only [hr, Option.some.injEq] at h
  exact h.symm

/-- Every operation in progress was called from where its thread stands. -/
structure Framed (s : P.State) : Prop where
  issued : ∀ t q f, (s.queue q).frame t = some f →
    s.calling t = some q ∧ P.Issues t (s.loc t) q f.toCall
  framed : ∀ t q, s.calling t = some q → (s.queue q).frame t ≠ none

omit [DecidableEq κ] [DecidableEq τ] in
theorem framed_initial : Framed (State.initial P) := by
  refine ⟨?_, ?_⟩
  · rintro t q f ⟨⟩
  · rintro t q ⟨⟩

omit [DecidableEq τ] in
/-- A queue that keeps the frame of a thread may be replaced, as far as the thread is concerned. -/
theorem frame_update {qs : ∀ q, QState (P.queue q)} {q' : κ} {x : QState (P.queue q')} {t : τ}
    (h : x.frame t = (qs q').frame t) (q : κ) :
    (Function.update qs q' x q).frame t = (qs q).frame t := by
  by_cases hq : q = q'
  · subst hq
    rw [Function.update_self, h]
  · rw [Function.update_of_ne hq]

/-- The other threads stay where they are. -/
theorem others_eq {t : τ} (h : P.step c s = some s') (ht : t ≠ c.thread) :
    (∀ q, (s'.queue q).frame t = (s.queue q).frame t) ∧ s'.calling t = s.calling t ∧
      s'.loc t = s.loc t := by
  rcases step_cases h with ⟨g, l, -, -, rfl⟩ | ⟨q', call, -, -, rfl⟩ | ⟨q', r, -, -, rfl⟩ |
    ⟨q', x, -, hx, rfl⟩
  · exact ⟨fun _ => rfl, rfl, Function.update_of_ne ht _ _⟩
  · exact ⟨frame_update (Function.update_of_ne ht _ _), Function.update_of_ne ht _ _, rfl⟩
  · exact ⟨frame_update (Function.update_of_ne ht _ _), Function.update_of_ne ht _ _,
      Function.update_of_ne ht _ _⟩
  · obtain ⟨f, r, -, -, rfl⟩ := step_eq_some hx
    exact ⟨frame_update (Function.update_of_ne ht _ _), rfl, rfl⟩

omit [DecidableEq κ] [DecidableEq τ] in
/-- A thread is in the operation it has called and in no other. -/
theorem Framed.frame_eq_none (hs : Framed s) {t : τ} {q : κ} (h : s.calling t ≠ some q) :
    (s.queue q).frame t = none := by
  cases hf : (s.queue q).frame t with
  | none => rfl
  | some f => exact absurd (hs.issued t q f hf).1 h

/-- **Every step keeps the operations in progress where they were called.** -/
theorem Framed.step (hs : Framed s) (h : P.step c s = some s') : Framed s' := by
  -- The thread that steps; the others keep their frames and places.
  have key : ∀ q, (∀ f, (s'.queue q).frame c.thread = some f →
      s'.calling c.thread = some q ∧ P.Issues c.thread (s'.loc c.thread) q f.toCall) ∧
      (s'.calling c.thread = some q → (s'.queue q).frame c.thread ≠ none) := by
    intro q
    rcases step_cases h with ⟨g, l, hnone, -, rfl⟩ | ⟨q', call, hnone, hact, rfl⟩ |
      ⟨q', r, hcall, -, rfl⟩ | ⟨q', x, hcall, hx, rfl⟩
    · have hfree := hs.frame_eq_none (q := q) (by rw [hnone]; rintro ⟨⟩)
      refine ⟨fun f hf => ?_, fun hq => ?_⟩
      · rw [hfree] at hf
        cases hf
      · rw [hnone] at hq
        cases hq
    · have hfree := hs.frame_eq_none (q := q) (by rw [hnone]; rintro ⟨⟩)
      by_cases hq : q = q'
      · subst hq
        refine ⟨fun f hf => ?_, fun _ => ?_⟩
        · simp only [Function.update_self, QState.call, Option.some.injEq] at hf
          subst hf
          exact ⟨Function.update_self .., _, _, _, rfl, (toCall_enter call).symm ▸ hact⟩
        · simp only [Function.update_self, QState.call]
          rintro ⟨⟩
      · refine ⟨fun f hf => ?_, fun hq' => ?_⟩
        · simp only [Function.update_of_ne hq, hfree] at hf
          cases hf
        · simp only [Function.update_self, Option.some.injEq] at hq'
          exact absurd hq'.symm hq
    · refine ⟨fun f hf => ?_, fun hq => ?_⟩
      · by_cases hq : q = q'
        · subst hq
          simp only [State.return, Function.update_self, QState.leave] at hf
          cases hf
        · simp only [State.return, Function.update_of_ne hq] at hf
          have := (hs.issued _ q f hf).1
          rw [hcall, Option.some.injEq] at this
          exact absurd this.symm hq
      · simp only [State.return, Function.update_self] at hq
        cases hq
    · obtain ⟨f₀, r, hf₀, hr, rfl⟩ := step_eq_some hx
      by_cases hq : q = q'
      · subst hq
        refine ⟨fun f hf => ?_, fun _ => ?_⟩
        · simp only [Function.update_self, Option.some.injEq] at hf
          subst hf
          rw [toCall_stepFrame hr]
          exact hs.issued _ q f₀ hf₀
        · simp only [Function.update_self]
          rintro ⟨⟩
      · simp only [Function.update_of_ne hq]
        exact ⟨hs.issued _ q, hs.framed _ q⟩
  constructor
  · intro t q f hf
    by_cases ht : t = c.thread
    · subst ht
      exact (key q).1 f hf
    · obtain ⟨hframe, hcalling, hloc⟩ := others_eq h ht
      rw [hframe] at hf
      rw [hcalling, hloc]
      exact hs.issued t q f hf
  · intro t q hq
    by_cases ht : t = c.thread
    · subst ht
      exact (key q).2 hq
    · obtain ⟨hframe, hcalling, -⟩ := others_eq h ht
      rw [hframe]
      exact hs.framed t q (hcalling ▸ hq)

/-- A thread takes a step of the operation it is in, if it is not through. -/
theorem Framed.inside (hs : Framed s) (h : P.step c s = some s') {q : κ} {f : Frame (P.queue q)}
    (hf : (s.queue q).frame c.thread = some f) (hres : f.result = none) :
    (s.queue q).step (c.env s) c.thread = some (s'.queue q) := by
  have hcalling := (hs.issued _ q f hf).1
  rcases step_cases h with ⟨g, l, hfree, -, -⟩ | ⟨q', call, hfree, -, -⟩ |
    ⟨q', r, hcalling', hr, -⟩ | ⟨q', x, hcalling', hx, rfl⟩
  · rw [hcalling] at hfree
    cases hfree
  · rw [hcalling] at hfree
    cases hfree
  · rw [hcalling, Option.some.injEq] at hcalling'
    subst hcalling'
    rw [QState.returned, hf, Option.bind_some, hres] at hr
    cases hr
  · rw [hcalling, Option.some.injEq] at hcalling'
    subst hcalling'
    simpa only [Function.update_self] using hx

theorem framed_of_reachableIf {ok : P.State → P.Choice → Prop} (h : P.ReachableIf ok s) :
    Framed s := by
  induction h with
  | refl => exact framed_initial
  | tail _ hstep ih =>
    obtain ⟨c, -, hc⟩ := hstep
    exact ih.step hc

omit [DecidableEq κ] [DecidableEq τ] in
/-- A thread that is in an operation has issued it. -/
theorem Framed.issues (hs : Framed s) {t : τ} {q : κ} (h : s.calling t = some q) :
    ∃ f, (s.queue q).frame t = some f ∧ P.Issues t (s.loc t) q f.toCall := by
  obtain ⟨f, hf⟩ := Option.ne_none_iff_exists'.mp (hs.framed t q h)
  exact ⟨f, hf, (hs.issued t q f hf).2⟩

/-- **Every queue of a program runs** as a queue whose threads make the calls that the program
issues. -/
theorem queue_reachable {q : κ} {Allowed : τ → Call → Prop}
    (hissues : ∀ s : P.State, P.Reachable s → ∀ t call, P.Issues t (s.loc t) q call →
      Allowed t call) (h : P.Reachable s) : QReachable (P.queue q) Allowed (s.queue q) := by
  induction h with
  | refl => exact .refl
  | @tail s s' hreach hstep ih =>
    obtain ⟨c, -, hc⟩ := hstep
    rcases step_at q hc with ⟨-, -, -, hqueue⟩ | ⟨-, hqueue⟩ | ⟨-, -, -, -, hqueue⟩ |
      ⟨hfree, hact, -, hqueue⟩ | ⟨-, hr, -, hqueue⟩ | ⟨-, hx, -⟩
    · rwa [hqueue]
    · rwa [hqueue]
    · rwa [hqueue]
    · have hframe := (framed_of_reachableIf hreach).frame_eq_none (t := c.thread) (q := q)
        (by rw [hfree]; rintro ⟨⟩)
      rw [hqueue]
      exact ih.tail (.call hframe (hissues s hreach _ _ ⟨_, _, _, rfl, hact⟩))
    · rw [hqueue]
      exact ih.tail (.leave hr)
    · exact ih.tail (.step hx)

/-! ### States without a step -/

/-- No thread takes a step, unless a condition variable wakes it without a notification. -/
def Blocked (s : P.State) : Prop :=
  ∀ c : P.Choice, c.spurious = false → P.step c s = none

/-- A thread in its own code has ended or has to wait. -/
theorem Blocked.act_eq_none (h : Blocked s) {t : τ} (hfree : s.calling t = none)
    (input : P.Input) : P.act input t s.glob s.loc = none := by
  have hstep := h { thread := t, input } rfl
  rw [step, hfree] at hstep
  exact Option.map_eq_none_iff.mp hstep

/-- A thread in an operation cannot go on with it. -/
theorem Blocked.stepFrame_eq_none (h : Blocked s) (hs : Framed s) {t : τ} {q : κ}
    {f : Frame (P.queue q)} (hf : (s.queue q).frame t = some f) (input : P.Input)
    (wake : Option τ) :
    f.result = none ∧ QState.stepFrame { stop := P.stop input t s.glob (s.loc t), wake } t
      (s.queue q).shared f = none := by
  have hstep := h { thread := t, input, wake } rfl
  rw [step, (hs.issued t q f hf).1] at hstep
  simp only [QState.returned, hf, Option.bind_some] at hstep
  split at hstep
  · cases hstep
  · rename_i hres
    simp only [QState.step, hf, Option.bind_some, Option.map_eq_none_iff] at hstep
    exact ⟨hres, hstep⟩

/-! ### The queues of a program -/

variable [Fintype τ]

/-- Every queue of the program follows the permit protocol, under rules that the calls of every run
keep. -/
structure Protocol (P : Program κ τ) where
  bound : κ → Option ℕ
  A : ∀ q, Abstraction (P.queue q)
  Allowed : κ → τ → Call → Prop
  refines : ∀ q, Refines (P.queue q) (bound q) (Allowed q) (A q)
  allowed : ∀ {s : P.State} {t q c}, P.Reachable s → P.Issues t (s.loc t) q c → Allowed q t c

variable (H : Protocol P)

def Protocol.store (s : P.State) (q : κ) : Store Event :=
  (H.A q).store (s.queue q).shared

def Protocol.phase (s : P.State) (q : κ) : τ → Phase Event :=
  (H.A q).phases (s.queue q).frame

/-- What holds in every reachable state. -/
structure Good (s : P.State) : Prop extends Framed s where
  queue : ∀ q, Invariant (H.bound q) (H.A q) (s.queue q)

variable {H}

theorem good_initial : Good H (State.initial P) :=
  ⟨framed_initial, fun q => (H.refines q).start⟩

theorem Good.update (hs : Good H s) (hframed : Framed s') {q' : κ} {x : QState (P.queue q')}
    (hx : Invariant (H.bound q') (H.A q') x) (hs' : s'.queue = Function.update s.queue q' x) :
    Good H s' := by
  refine ⟨hframed, ?_⟩
  rw [hs', Function.forall_update_iff s.queue fun q x => Invariant (H.bound q) (H.A q) x]
  exact ⟨hx, fun q _ => hs.queue q⟩

/-- **One step of the program keeps every queue right.** -/
theorem Good.step (hs : Good H s) (hreach : P.Reachable s) (h : P.step c s = some s') :
    Good H s' := by
  have hframed := hs.toFramed.step h
  rcases step_cases h with ⟨g, l, -, -, rfl⟩ | ⟨q', call, hnone, hact, rfl⟩ |
    ⟨q', r, -, hr, rfl⟩ | ⟨q', x, -, hx, rfl⟩
  · exact ⟨hframed, hs.queue⟩
  · refine hs.update hframed ((H.refines q').call (hs.queue q') ?_ ?_) rfl
    · exact hs.frame_eq_none (by rw [hnone]; rintro ⟨⟩)
    · exact H.allowed hreach ⟨_, _, _, rfl, hact⟩
  · exact hs.update hframed ((H.refines q').leave (hs.queue q') hr) rfl
  · exact hs.update hframed ((H.refines q').step (hs.queue q') hx) rfl

theorem good_of_reachableIf {ok : P.State → P.Choice → Prop} (h : P.ReachableIf ok s) :
    Good H s := by
  induction h with
  | refl => exact good_initial
  | tail hreach hstep ih =>
    obtain ⟨c, -, hc⟩ := hstep
    exact ih.step (ReachableIf.reachable hreach) hc

/-- A step that closes the queue is a step of `close`. -/
theorem Good.frame_of_closing (hs : Good H s) {q : κ}
    (hx : (s.queue q).step (c.env s) c.thread = some (s'.queue q))
    (hp : H.phase s q c.thread = .closing) :
    (s.queue q).frame c.thread = some (.close false) := by
  obtain ⟨f, r, hf, hr, -⟩ := step_eq_some hx
  have htyped := (hs.queue q).typed _ f hf
  rw [show H.phase s q c.thread = (H.A q).framePhase f from phases_eq _ hf] at hp
  rw [hp] at htyped
  rw [hf]
  cases f with
  | push ev policy pc => cases htyped
  | pop pc => cases htyped
  | close done =>
    cases done
    · rfl
    · cases hr

/-- What a thread that takes a step of an operation on the queue is doing. -/
theorem Good.exists_move (hs : Good H s) {q : κ}
    (hx : (s.queue q).step (c.env s) c.thread = some (s'.queue q)) :
    ∃ p' f, (s.queue q).frame c.thread = some f ∧ p'.of f.toCall.operation ∧
      Move (c.env s).stop (H.store s q) (H.phase s q c.thread) (H.store s' q) p' ∧
      H.phase s' q = Function.update (H.phase s q) c.thread p' := by
  obtain ⟨p', hmove, hphases⟩ := (H.refines q).exists_move (hs.queue q).toReady hx
  obtain ⟨f, r, hf, hr, -⟩ := step_eq_some hx
  refine ⟨p', f, hf, hmove.of ?_, hmove, hphases⟩
  rw [show (H.A q).phases (s.queue q).frame c.thread = (H.A q).framePhase f from phases_eq _ hf]
  exact (hs.queue q).typed _ f hf

/-- **What returns** from an operation: an answer to the call, which the phase of the operation
confirms. -/
theorem Good.returns (hs : Good H s) {t : τ} {q : κ} (hcalling : s.calling t = some q)
    {r : Return} (hr : (s.queue q).returned t = some r) :
    ∃ f, (s.queue q).frame t = some f ∧ P.Issues t (s.loc t) q f.toCall ∧ f.toCall.Answer r ∧
      (H.A q).Reports r f := by
  obtain ⟨f, hf, hissued⟩ := hs.issues hcalling
  obtain ⟨f', hf', hres⟩ := returned_eq_some hr
  rw [hf, Option.some.injEq] at hf'
  subst hf'
  have hreports := ((H.refines q).reports (hs.queue q).inv hf hres).2
  refine ⟨f, hf, hissued, ?_, hreports⟩
  cases f with
  | push ev policy pc =>
    obtain ⟨ok, -, rfl⟩ := Option.map_eq_some_iff.mp hres
    trivial
  | pop pc =>
    obtain ⟨⟨ok, out⟩, -, rfl⟩ := Option.map_eq_some_iff.mp hres
    cases ok
    · trivial
    · obtain ⟨ev, rfl, -⟩ := hreports
      exact ⟨ev, rfl⟩
  | close done =>
    cases done <;> cases hres
    trivial

/-- Who has closed a queue finds it closed. -/
theorem Good.closed_of_returned (hs : Good H s) {t : τ} {q : κ} (hcalling : s.calling t = some q)
    {r : Return} (hr : (s.queue q).returned t = some r)
    (hclose : ∀ {call}, P.Issues t (s.loc t) q call → call = .close) :
    (H.store s q).closed = true := by
  obtain ⟨f, hf, hissued, hanswer, hreports⟩ := hs.returns hcalling hr
  rw [hclose hissued] at hanswer
  obtain rfl := hanswer.close
  apply (hs.queue q).closes t
  rw [phases_eq _ hf]
  exact hreports

/-- A closed queue stays closed. -/
theorem Good.closed_mono (hs : Good H s) (h : P.step c s = some s') {q : κ}
    (hc : (H.store s q).closed = true) : (H.store s' q).closed = true := by
  have hsame : (s'.queue q).shared = (s.queue q).shared → (H.store s' q).closed = true := by
    intro heq
    rwa [Protocol.store, heq]
  rcases step_at q h with ⟨-, -, -, hqueue⟩ | ⟨-, hqueue⟩ | ⟨-, -, -, -, hqueue⟩ |
    ⟨-, -, -, hqueue⟩ | ⟨-, -, -, hqueue⟩ | ⟨-, hx, -⟩
  · exact hsame (by rw [hqueue])
  · exact hsame (by rw [hqueue])
  · exact hsame (by rw [hqueue])
  · exact hsame (by rw [hqueue]; rfl)
  · exact hsame (by rw [hqueue]; rfl)
  · obtain ⟨p', f, -, -, hmove, -⟩ := hs.exists_move hx
    exact hmove.closed_mono hc

/-- One step, for a push that waits for a place: what the step declines, a closed queue declines, or
the stop flag, of which the program remembers that it was set. -/
theorem Good.declined_step (hs : Good H s) (h : P.step c s = some s') {t : τ} {q : κ} {ev : Event}
    {stopped : P.State → Prop} (hmono : stopped s → stopped s')
    (hstop : c.thread = t → (c.env s).stop = true → stopped s)
    (ih : ∀ f, (s.queue q).frame t = some f → f.toCall = .push ev .block →
      (H.phase s q t).isDeclined = true → (H.store s q).closed = true ∨ stopped s)
    {f' : Frame (P.queue q)} (hf' : (s'.queue q).frame t = some f')
    (hcall : f'.toCall = .push ev .block) (hd : (H.phase s' q t).isDeclined = true) :
    (H.store s' q).closed = true ∨ stopped s' := by
  refine Or.imp (hs.closed_mono h) hmono ?_
  have hsame : (s'.queue q).frame t = (s.queue q).frame t →
      (H.store s q).closed = true ∨ stopped s := by
    intro heq
    refine ih f' (heq ▸ hf') hcall ?_
    rwa [show H.phase s q t = (H.A q).phase ((s.queue q).frame t) from rfl, ← heq]
  by_cases ht : t = c.thread
  · subst ht
    rcases step_at q h with ⟨-, -, -, hqueue⟩ | ⟨-, hqueue⟩ | ⟨-, -, -, -, hqueue⟩ |
      ⟨-, -, -, hqueue⟩ | ⟨-, -, -, hqueue⟩ | ⟨-, hx, -⟩
    · exact hsame (by rw [hqueue])
    · exact hsame (by rw [hqueue])
    · exact hsame (by rw [hqueue])
    · rename_i call
      rw [Protocol.phase, hqueue, (H.refines q).phases_call, Function.update_self] at hd
      cases call <;> cases hd
    · rw [hqueue] at hf'
      rw [show ((s.queue q).leave c.thread _).frame c.thread = none from
        Function.update_self ..] at hf'
      cases hf'
    · obtain ⟨p', f, hf, htyped, hmove, hphase⟩ := hs.exists_move hx
      obtain ⟨f₀, r, hf₀, hr, hs'⟩ := step_eq_some hx
      rw [hf, Option.some.injEq] at hf₀
      subst hf₀
      have hcall₀ : f.toCall = .push ev .block := by
        rw [← hcall, ← toCall_stepFrame hr]
        rw [hs'] at hf'
        simp only [Function.update_self, Option.some.injEq] at hf'
        rw [hf']
      have htyped₀ : (H.phase s q c.thread).of (.push ev false) := by
        have := (hs.queue q).typed _ f hf
        rw [hcall₀] at this
        rwa [show H.phase s q c.thread = (H.A q).framePhase f from phases_eq _ hf]
      rw [hphase, Function.update_self] at hd
      -- It had declined before, or it declines in this step.
      rcases hmove.declined htyped₀ hd with hbefore | hclosed | hstopped
      · exact ih f hf hcall₀ hbefore
      · exact .inl hclosed
      · exact .inr (hstop rfl hstopped)
  · exact hsame ((others_eq h ht).1 q)

/-- **A push that waits for a place is declined by a closed queue**, or when it is told to stop. -/
theorem declined_closed (stopped : P.State → Prop) (h : P.Reachable s) {t : τ}
    (hmono : ∀ {s s' c}, P.step c s = some s' → stopped s → stopped s')
    (hstop : ∀ {s c}, c.thread = t → (Choice.env c s).stop = true → stopped s)
    {q : κ} {ev : Event} {f : Frame (P.queue q)} (hf : (s.queue q).frame t = some f)
    (hcall : f.toCall = .push ev .block) (hd : (H.phase s q t).isDeclined = true) :
    (H.store s q).closed = true ∨ stopped s := by
  induction h generalizing f with
  | refl => cases hf
  | tail hreach hstep ih =>
    obtain ⟨c, -, hc⟩ := hstep
    have hgood : Good H _ := good_of_reachableIf hreach
    exact hgood.declined_step hc (hmono hc) hstop (fun f hf hcall hd => ih hf hcall hd) hf hcall hd

end Program

end Laboratory.QueueLatency
