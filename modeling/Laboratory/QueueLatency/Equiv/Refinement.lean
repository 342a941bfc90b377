import Laboratory.Concurrency.PermitQueue
import Laboratory.QueueLatency.QueueState

/-!
# Queues refine the permit protocol

`Abstraction` reads the store of a `PermitQueue` off the fields of a queue, and a phase off the
place where a thread stands; it also carries the invariant of the fields and threads.  `Refines`
says that every step of the code is a move of the protocol.  From it follow, once for all queues,
the accounts and the flow in every reachable state (`Refines.reachable`).
-/

namespace Laboratory.QueueLatency

open Concurrency

variable {ι : Type} [DecidableEq ι]

/-- The first phase of an operation. -/
def Call.phase : Call → Phase Event
  | .push ev policy => .pushing ev (policy = .drop)
  | .pop => .searching
  | .close => .closing

/-- The operation that a call starts. -/
def Call.operation : Call → Operation Event
  | .push ev policy => .push ev (policy = .drop)
  | .pop => .pop
  | .close => .close

theorem Call.phase_of_operation (c : Call) : c.phase.of c.operation := by
  cases c with
  | push => exact ⟨rfl, rfl⟩
  | pop => trivial
  | close => trivial

theorem Call.eq_pop_of_operation {c : Call} (h : c.operation = .pop) : c = .pop := by
  cases c with
  | pop => rfl
  | push ev policy => cases h
  | close => cases h

/-- There is no third policy. -/
theorem eq_drop_of_ne_block {policy : BackpressurePolicy} (h : policy ≠ .block) :
    policy = .drop := by
  cases policy with
  | block => exact absurd rfl h
  | drop => rfl

omit [DecidableEq ι] in
/-- What holds when a mutex is free says nothing while it is held. -/
theorem of_held {mu : Option ι} {i : ι} {p : Prop} (hheld : mu = some i) (hfree : mu = none) :
    p := by
  rw [hheld] at hfree
  cases hfree

/-- The call an operation in progress was entered by. -/
def Frame.toCall {Q : IEventQueue ι} : Frame Q → Call
  | .push ev policy _ => .push ev policy
  | .pop _ => .pop
  | .close _ => .close

section

variable {Q : IEventQueue ι}

omit [DecidableEq ι] in
theorem toCall_enter (c : Call) : (Frame.enter Q c).toCall = c := by
  cases c <;> rfl

/-- **What a step of an operation is**: a step of its code. -/
inductive FrameStep (env : Env ι) (i : ι) (x : Q.Shared) : Frame Q → Q.Shared → Frame Q → Prop
  | push {ev policy pc x' pc'} (h : Q.push env i ev policy x pc = some (x', pc')) :
      FrameStep env i x (.push ev policy pc) x' (.push ev policy pc')
  | pop {pc x' pc'} (h : Q.pop env i x pc = some (x', pc')) :
      FrameStep env i x (.pop pc) x' (.pop pc')
  | close {x'} (h : Q.close i x = some x') : FrameStep env i x (.close false) x' (.close true)

omit [DecidableEq ι] in
theorem stepFrame_cases {env : Env ι} {i : ι} {x : Q.Shared} {f : Frame Q}
    {r : Q.Shared × Frame Q} (h : QState.stepFrame env i x f = some r) :
    FrameStep env i x f r.1 r.2 := by
  cases f with
  | push ev policy pc =>
    obtain ⟨r, hr, rfl⟩ := Option.map_eq_some_iff.mp h
    exact .push hr
  | pop pc =>
    obtain ⟨r, hr, rfl⟩ := Option.map_eq_some_iff.mp h
    exact .pop hr
  | close done =>
    cases done
    · obtain ⟨x', hx', rfl⟩ := Option.map_eq_some_iff.mp h
      exact .close hx'
    · cases h

omit [DecidableEq ι] in
theorem toCall_stepFrame {env : Env ι} {i : ι} {s : Q.Shared} {f : Frame Q}
    {r : Q.Shared × Frame Q} (h : QState.stepFrame env i s f = some r) :
    r.2.toCall = f.toCall := by
  obtain ⟨x', f'⟩ := r
  cases stepFrame_cases h <;> rfl

/-- What holds of the other operations in progress, and of the one that replaces that of thread `i`,
holds of all. -/
theorem forall_frame_update_of_ne {p : ι → Frame Q → Prop} {frame : ι → Option (Frame Q)} {i : ι}
    {x : Option (Frame Q)} (h : ∀ j, j ≠ i → ∀ f, frame j = some f → p j f)
    (hx : ∀ f, x = some f → p i f) : ∀ j f, Function.update frame i x j = some f → p j f :=
  (Function.forall_update_iff frame fun j x => ∀ f, x = some f → p j f).mpr ⟨hx, h⟩

/-- What holds of all operations in progress holds after one of them is replaced. -/
theorem forall_frame_update {p : ι → Frame Q → Prop} {frame : ι → Option (Frame Q)} {i : ι}
    {x : Option (Frame Q)} (h : ∀ j f, frame j = some f → p j f) (hx : ∀ f, x = some f → p i f) :
    ∀ j f, Function.update frame i x j = some f → p j f :=
  forall_frame_update_of_ne (fun j _ => h j) hx

end

/-- How the fields and the threads of a queue are read, and the invariant that ties them. -/
structure Abstraction (Q : IEventQueue ι) where
  store : Q.Shared → Store Event
  pushPhase : Event → BackpressurePolicy → Q.PushPC → Phase Event
  popPhase : Q.PopPC → Phase Event
  inv : Q.Shared → (ι → Option (Frame Q)) → Prop

namespace Abstraction

variable {Q : IEventQueue ι} (A : Abstraction Q)

def framePhase : Frame Q → Phase Event
  | .push ev policy pc => A.pushPhase ev policy pc
  | .pop pc => A.popPhase pc
  | .close done => if done then .closed else .closing

def phase : Option (Frame Q) → Phase Event
  | none => .idle
  | some f => A.framePhase f

/-- The phases of all threads. -/
def phases (frame : ι → Option (Frame Q)) (i : ι) : Phase Event :=
  A.phase (frame i)

/-- A step of thread `i` from `f` to `f'` is a move and keeps the invariant. -/
structure Sound (stop : Bool) (i : ι) (s : Q.Shared) (frame : ι → Option (Frame Q)) (f : Frame Q)
    (s' : Q.Shared) (f' : Frame Q) : Prop where
  move : Move stop (A.store s) (A.framePhase f) (A.store s') (A.framePhase f')
  inv : A.inv s' (Function.update frame i (some f'))

/-- The phase of an operation that is through says what it returns. -/
def Reports (r : Return) (f : Frame Q) : Prop :=
  match r with
  | .pushed true => ∃ a, f.event = some a ∧ A.framePhase f = .accepted a
  | .pushed false => A.framePhase f = .refused
  | .popped true out => ∃ a, out = some a ∧ A.framePhase f = .holding a
  | .popped false _ => A.framePhase f = .leaving
  | .closed => A.framePhase f = .closed

variable [Fintype ι]

/-- What holds before a step of a thread: the invariant and the accounts. -/
structure Ready (capacity : Option ℕ) (s : Q.Shared) (frame : ι → Option (Frame Q)) : Prop where
  inv : A.inv s frame
  accounts : Accounts capacity (A.store s) (A.phases frame)

end Abstraction

section

variable {Q : IEventQueue ι} {A : Abstraction Q} {capacity : Option ℕ} {s : Q.Shared}
  {frame : ι → Option (Frame Q)} {i : ι} {f : Frame Q}

omit [DecidableEq ι] in
theorem phases_eq (A : Abstraction Q) (hf : frame i = some f) :
    A.phases frame i = A.framePhase f := by
  rw [Abstraction.phases, hf]
  rfl

/-- The phases after thread `i` has changed its frame. -/
theorem phases_update (A : Abstraction Q) (frame : ι → Option (Frame Q)) (i : ι)
    (x : Option (Frame Q)) :
    A.phases (Function.update frame i x) = Function.update (A.phases frame) i (A.phase x) := by
  funext j
  rw [Abstraction.phases]
  by_cases hj : j = i
  · subst hj
    rw [Function.update_self, Function.update_self]
  · rw [Function.update_of_ne hj, Function.update_of_ne hj]
    rfl

variable [Fintype ι]

omit [DecidableEq ι] in
/-- A claimed value is there. -/
theorem Abstraction.Ready.value (h : A.Ready capacity s frame) (hf : frame i = some f)
    (hp : A.framePhase f = .claimed) : (A.store s).stored ≠ [] :=
  h.accounts.stored_ne_nil (i := i) ((phases_eq A hf).trans hp)

omit [DecidableEq ι] in
/-- A reserved place is there. -/
theorem Abstraction.Ready.place {c : ℕ} {a : Event} (h : A.Ready (some c) s frame)
    (hf : frame i = some f) (hp : A.framePhase f = .reserved a) :
    (A.store s).stored.length < c :=
  h.accounts.stored_length_lt (i := i) ((phases_eq A hf).trans hp)

end

variable [Fintype ι]

/-- **The queue follows the permit protocol** with the given capacity, as long as its threads
make only allowed calls. -/
structure Refines (Q : IEventQueue ι) (capacity : Option ℕ) (Allowed : ι → Call → Prop)
    (A : Abstraction Q) : Prop where
  init_store : A.store Q.init = ⟨[], 0, capacity, false⟩
  init_inv : A.inv Q.init fun _ => none
  pushEntry : ∀ ev policy, A.pushPhase ev policy Q.pushEntry = .pushing ev (policy = .drop)
  popEntry : A.popPhase Q.popEntry = .searching
  enter : ∀ {i c s frame}, Allowed i c → A.inv s frame → frame i = none →
    A.inv s (Function.update frame i (some (Frame.enter Q c)))
  push : ∀ {env i ev policy s frame pc s' pc'}, Q.push env i ev policy s pc = some (s', pc') →
    A.Ready capacity s frame → frame i = some (.push ev policy pc) →
    A.Sound env.stop i s frame (.push ev policy pc) s' (.push ev policy pc')
  pop : ∀ {env i s frame pc s' pc'}, Q.pop env i s pc = some (s', pc') →
    A.Ready capacity s frame → frame i = some (.pop pc) →
    A.Sound env.stop i s frame (.pop pc) s' (.pop pc')
  close : ∀ {stop i s frame s'}, Q.close i s = some s' → A.Ready capacity s frame →
    frame i = some (.close false) → A.Sound stop i s frame (.close false) s' (.close true)
  leavePush : ∀ {i s frame ev policy pc ok}, Q.pushReturned pc = some ok →
    A.inv s frame → frame i = some (.push ev policy pc) →
    A.inv s (Function.update frame i none) ∧ A.Reports (.pushed ok) (.push ev policy pc)
  leavePop : ∀ {i s frame pc ok out}, Q.popReturned pc = some (ok, out) →
    A.inv s frame → frame i = some (.pop pc) →
    A.inv s (Function.update frame i none) ∧ A.Reports (.popped ok out) (.pop pc)
  leaveClose : ∀ {i s frame}, A.inv s frame → frame i = some (.close true) →
    A.inv s (Function.update frame i none)
  content : ∀ s, Q.content s = (A.store s).stored
  foundEmpty : ∀ pc, Q.foundEmpty pc = true ↔ A.popPhase pc = .sawEmpty
  hasStored : ∀ ev policy pc,
    (A.pushPhase ev policy pc).stowed = if Q.hasStored pc then {ev} else 0
  hasTaken : ∀ pc, (A.popPhase pc).carried = ((Q.hasTaken pc).toList : Multiset Event)

/-- What holds in every reachable state of a queue. -/
structure Invariant {Q : IEventQueue ι} (capacity : Option ℕ) (A : Abstraction Q)
    (s : QState Q) : Prop extends A.Ready capacity s.shared s.frame where
  flow : Flow s.pushed s.popped (A.store s.shared) (A.phases s.frame)
  typed : ∀ i f, s.frame i = some f → (A.framePhase f).of f.toCall.operation
  closes : ∀ i, A.phases s.frame i = .closed → (A.store s.shared).closed = true

variable {Q : IEventQueue ι} {capacity : Option ℕ} {Allowed : ι → Call → Prop}
  {A : Abstraction Q} {s s' : QState Q} {env : Env ι} {i : ι} {f : Frame Q}

omit [Fintype ι] in
/-- The parts of a step: the frame it starts from, and the state it leads to. -/
theorem step_eq_some (h : s.step env i = some s') :
    ∃ f r, s.frame i = some f ∧ QState.stepFrame env i s.shared f = some r ∧
      s' = { s with shared := r.1, frame := Function.update s.frame i (some r.2) } := by
  obtain ⟨f, hf, h⟩ := Option.bind_eq_some_iff.mp h
  obtain ⟨r, hr, rfl⟩ := Option.map_eq_some_iff.mp h
  exact ⟨f, r, hf, hr, rfl⟩

omit [Fintype ι] [DecidableEq ι] in
theorem returned_eq_some {r : Return} (h : s.returned i = some r) :
    ∃ f, s.frame i = some f ∧ f.result = some r :=
  Option.bind_eq_some_iff.mp h

namespace Refines

/-- Every step of a thread is sound. -/
theorem sound (hR : Refines Q capacity Allowed A) (hs : A.Ready capacity s.shared s.frame)
    (hf : s.frame i = some f) {r : Q.Shared × Frame Q}
    (h : QState.stepFrame env i s.shared f = some r) :
    A.Sound env.stop i s.shared s.frame f r.1 r.2 := by
  obtain ⟨x', f'⟩ := r
  cases stepFrame_cases h with
  | push h => exact hR.push h hs hf
  | pop h => exact hR.pop h hs hf
  | close h => exact hR.close h hs hf

/-- Every operation that is through reports truly. -/
theorem reports (hR : Refines Q capacity Allowed A) (hs : A.inv s.shared s.frame)
    (hf : s.frame i = some f) {r : Return} (h : Frame.result f = some r) :
    A.inv s.shared (Function.update s.frame i none) ∧ A.Reports r f := by
  cases f with
  | push ev policy pc =>
    obtain ⟨ok, hok, rfl⟩ := Option.map_eq_some_iff.mp h
    exact hR.leavePush hok hs hf
  | pop pc =>
    obtain ⟨⟨ok, out⟩, hok, rfl⟩ := Option.map_eq_some_iff.mp h
    exact hR.leavePop hok hs hf
  | close done =>
    cases done <;> cases h
    exact ⟨hR.leaveClose hs hf, rfl⟩

theorem start (hR : Refines Q capacity Allowed A) : Invariant capacity A (QState.start Q) := by
  have hstore : A.store (QState.start Q).shared = ⟨[], 0, capacity, false⟩ := hR.init_store
  refine ⟨⟨hR.init_inv, ?_⟩, ?_, ?_, ?_⟩
  · rw [hstore]
    exact Accounts.start fun _ => rfl
  · rw [hstore]
    exact Flow.start fun _ => rfl
  · rintro i f ⟨⟩
  · rintro i ⟨⟩

theorem framePhase_enter (hR : Refines Q capacity Allowed A) (c : Call) :
    A.framePhase (Frame.enter Q c) = c.phase := by
  cases c with
  | push ev policy => exact hR.pushEntry ev policy
  | pop => exact hR.popEntry
  | close => rfl

/-- Entering an operation is entering its first phase. -/
theorem phases_call (hR : Refines Q capacity Allowed A) (s : QState Q) (i : ι) (c : Call) :
    A.phases (s.call i c).frame = Function.update (A.phases s.frame) i c.phase := by
  rw [← hR.framePhase_enter]
  exact phases_update A s.frame i _

/-- A step of an operation is a move. -/
theorem exists_move (hR : Refines Q capacity Allowed A) (hs : A.Ready capacity s.shared s.frame)
    (h : s.step env i = some s') :
    ∃ p', Move env.stop (A.store s.shared) (A.phases s.frame i) (A.store s'.shared) p' ∧
      A.phases s'.frame = Function.update (A.phases s.frame) i p' := by
  obtain ⟨f, r, hf, hr, rfl⟩ := step_eq_some h
  refine ⟨A.framePhase r.2, ?_, phases_update A s.frame i _⟩
  rw [phases_eq A hf]
  exact (hR.sound hs hf hr).move

omit [Fintype ι] in
/-- Leaving an operation ends its last phase. -/
theorem phases_leave (A : Abstraction Q) (s : QState Q) (i : ι) (r : Return) :
    A.phases (s.leave i r).frame = Function.update (A.phases s.frame) i .idle :=
  phases_update A s.frame i none

/-- **Entering an operation** keeps the invariant: its first phase holds nothing. -/
theorem call (hR : Refines Q capacity Allowed A) (hs : Invariant capacity A s)
    (hfree : s.frame i = none) {c : Call} (hmay : Allowed i c) :
    Invariant capacity A (s.call i c) := by
  have hidle : A.phases s.frame i = .idle := by
    rw [Abstraction.phases, hfree]
    rfl
  refine ⟨⟨hR.enter hmay hs.inv hfree, ?_⟩, ?_, ?_, ?_⟩
  · rw [hR.phases_call]
    apply hs.accounts.replace <;> rw [hidle] <;> cases c <;> rfl
  · rw [hR.phases_call]
    apply hs.flow.replace <;> rw [hidle] <;> cases c <;> rfl
  · refine forall_frame_update hs.typed ?_
    rintro _ ⟨⟩
    rw [toCall_enter, hR.framePhase_enter]
    exact c.phase_of_operation
  · intro j hj
    rw [hR.phases_call] at hj
    exact hs.closes j (eq_of_update_eq hj (by cases c <;> simp [Call.phase]))

/-- **A step of an operation** keeps the invariant. -/
theorem step (hR : Refines Q capacity Allowed A) (hs : Invariant capacity A s)
    (h : s.step env i = some s') : Invariant capacity A s' := by
  obtain ⟨p', hmove, hphases⟩ := hR.exists_move hs.toReady h
  obtain ⟨f, r, hf, hr, rfl⟩ := step_eq_some h
  have hsound := hR.sound hs.toReady hf hr
  refine ⟨⟨hsound.inv, ?_⟩, ?_, ?_, ?_⟩
  · rw [hphases]
    exact hs.accounts.move hmove
  · rw [hphases]
    exact hs.flow.move hmove
  · refine forall_frame_update hs.typed ?_
    rintro _ ⟨⟩
    rw [toCall_stepFrame hr]
    exact hsound.move.of (hs.typed i f hf)
  · intro j hj
    rw [hphases] at hj
    by_cases hp : p' = .closed
    · subst hp
      rcases hmove.closes with h | h
      · exact hmove.closed_mono (hs.closes i h)
      · exact h
    · exact hmove.closed_mono (hs.closes j (eq_of_update_eq hj hp))

/-- **Leaving an operation** keeps the invariant: its value goes to the history lists. -/
theorem leave (hR : Refines Q capacity Allowed A) (hs : Invariant capacity A s)
    {r : Return} (h : s.returned i = some r) : Invariant capacity A (s.leave i r) := by
  obtain ⟨f, hf, hres⟩ := returned_eq_some h
  obtain ⟨hinv, hreports⟩ := hR.reports hs.inv hf hres
  have hp := phases_eq A hf
  refine ⟨⟨hinv, ?_⟩, ?_, ?_, ?_⟩
  · rw [phases_leave]
    match r, hreports with
    | .pushed true, ⟨a, _, ha⟩ | .popped true _, ⟨a, _, ha⟩ =>
      apply hs.accounts.replace <;> rw [hp, ha] <;> rfl
    | .pushed false, ha | .popped false _, ha | .closed, ha =>
      apply hs.accounts.replace <;> rw [hp, show A.framePhase f = _ from ha] <;> rfl
  · rw [phases_leave]
    match r, hreports with
    | .pushed true, ⟨a, hev, ha⟩ =>
      rw [show (s.leave i (.pushed true)).pushed = s.pushed ++ [a] by
        simp only [QState.leave, hf, Option.bind_some, hev, Option.toList_some]]
      exact hs.flow.report_push (hp.trans ha)
    | .popped true _, ⟨a, rfl, ha⟩ =>
      exact hs.flow.report_pop (hp.trans ha)
    | .pushed false, ha | .popped false _, ha | .closed, ha =>
      apply hs.flow.replace <;> rw [hp, show A.framePhase f = _ from ha] <;> rfl
  · refine forall_frame_update hs.typed ?_
    rintro _ ⟨⟩
  · intro j hj
    rw [phases_leave] at hj
    exact hs.closes j (eq_of_update_eq hj (by simp))

/-- One step of any thread keeps the invariant. -/
theorem qstep (hR : Refines Q capacity Allowed A) (hs : Invariant capacity A s)
    (h : QStep Q Allowed s s') : Invariant capacity A s' := by
  cases h with
  | call free may => exact hR.call hs free may
  | step h => exact hR.step hs h
  | leave h => exact hR.leave hs h

/-- **The invariant holds in every reachable state**, by induction on the run. -/
theorem reachable (hR : Refines Q capacity Allowed A) (h : QReachable Q Allowed s) :
    Invariant capacity A s := by
  induction h with
  | refl => exact hR.start
  | tail _ hstep ih => exact hR.qstep ih hstep

end Refines

/-! ### Between operations -/

omit [Fintype ι] [DecidableEq ι] in
/-- No event is on its way between operations, and none is hidden. -/
theorem phases_of_quiet (A : Abstraction Q) (hq : s.Quiet) (i : ι) :
    (A.phases s.frame i).hidden = 0 ∧ (A.phases s.frame i).stowed = 0 ∧
      (A.phases s.frame i).carried = 0 := by
  unfold Abstraction.phases
  cases hf : s.frame i with
  | none => exact ⟨rfl, rfl, rfl⟩
  | some f =>
    obtain ⟨done, rfl⟩ := hq i f hf
    cases done <;> exact ⟨rfl, rfl, rfl⟩

/-- Between operations the events that have been pushed have been popped or are stored. -/
theorem Refines.flow_of_quiet (hR : Refines Q capacity Allowed A) (hs : Invariant capacity A s)
    (hq : s.Quiet) : (s.pushed : Multiset Event) = s.popped + Q.content s.shared := by
  have hflow := hs.flow
  rw [Concurrency.Flow, Finset.sum_eq_zero fun i _ => (phases_of_quiet A hq i).2.1,
    Finset.sum_eq_zero fun i _ => (phases_of_quiet A hq i).2.2, add_zero, add_zero] at hflow
  rw [hR.content]
  exact hflow

/-! ### Invariants thread by thread -/

section Local

omit [Fintype ι]

variable {shared : Q.Shared → Prop} {thread : ι → Q.Shared → Option (Frame Q) → Prop}
  {sh sh' : Q.Shared} {frame : ι → Option (Frame Q)} {x : Option (Frame Q)}

/-- An invariant of the fields, and of each thread with the fields. -/
def Local (shared : Q.Shared → Prop) (thread : ι → Q.Shared → Option (Frame Q) → Prop)
    (s : Q.Shared) (frame : ι → Option (Frame Q)) : Prop :=
  shared s ∧ ∀ i, thread i s (frame i)

/-- A step of thread `i` has to care for the fields, for itself, and for what others rely on. -/
theorem Local.update (h : Local shared thread sh frame) (hs : shared sh') (hi : thread i sh' x)
    (hothers : ∀ j, j ≠ i → ∀ f, thread j sh f → thread j sh' f) :
    Local shared thread sh' (Function.update frame i x) :=
  ⟨hs, (Function.forall_update_iff frame fun j f => thread j sh' f).mpr
    ⟨hi, fun j hj => hothers j hj _ (h.2 j)⟩⟩

/-- A thread that enters or leaves an operation. -/
theorem Local.replace {y : Option (Frame Q)} (h : Local shared thread sh frame) (hf : frame i = y)
    (hi : thread i sh y → thread i sh x) : Local shared thread sh (Function.update frame i x) :=
  h.update h.1 (hi (hf ▸ h.2 i)) fun _ _ _ hj => hj

/-- **A local invariant holds in every reachable state**, if threads enter and leave operations
with it, and a step keeps the fields right, the thread, and what the others rely on. -/
theorem Local.reachable {Allowed : ι → Call → Prop} {s : QState Q} (hinit : shared Q.init)
    (hnone : ∀ i x, thread i x none)
    (henter : ∀ i x c, Allowed i c → thread i x (some (Frame.enter Q c)))
    (hstep : ∀ {env i x f x' f'}, QState.stepFrame env i x f = some (x', f') → shared x →
      thread i x (some f) → shared x' ∧ thread i x' (some f') ∧
        ∀ j, j ≠ i → ∀ g, thread j x g → thread j x' g)
    (h : QReachable Q Allowed s) : Local shared thread s.shared s.frame := by
  induction h with
  | refl => exact ⟨hinit, fun i => hnone i _⟩
  | tail _ hturn ih =>
    cases hturn with
    | call _ may => exact ih.replace rfl fun _ => henter _ _ _ may
    | step h =>
      obtain ⟨f, ⟨x', f'⟩, hf, hr, rfl⟩ := step_eq_some h
      obtain ⟨hshared, hthread, hothers⟩ := hstep hr ih.1 (hf ▸ ih.2 _)
      exact ih.update hshared hthread hothers
    | leave _ => exact ih.replace rfl fun _ => hnone _ _

end Local

end Laboratory.QueueLatency
