import Laboratory.QueueLatency.Equiv.Depth
import Laboratory.QueueLatency.Equiv.GlobalLockClose

/-!
# The capacity of the queues

`within_capacity`: none of the four queues ever holds more events than its capacity, and every depth
that a `push` hands to `updateMaxDepth` lies between one and the capacity, so that the maximum it
keeps does too.

In `GlobalLockQueue` a `push` that waits on the condition variable loads its stop flag twice, and
only the second load makes it give up.  So the bound relies on the callers, who raise a stop flag
and never lower it: `FlagStep` is a step of the threads together with their flags.
-/

namespace Laboratory.QueueLatency

variable {ι : Type}

/-! ### Stop flags -/

/-- **One step of the queue's threads and of their stop flags.**  `stop i` is the flag that thread
`i` has passed to the operation it is in; it may be up when the operation starts, and may go up at
any time. -/
inductive FlagStep [DecidableEq ι] (Q : IEventQueue ι) (Allowed : ι → Call → Prop) :
    QState Q × (ι → Bool) → QState Q × (ι → Bool) → Prop
  | call {s : QState Q} {stop : ι → Bool} {i : ι} {c : Call} (flag : Bool) (free : s.frame i = none)
      (may : Allowed i c) : FlagStep Q Allowed (s, stop) (s.call i c, Function.update stop i flag)
  | raise {s : QState Q} {stop : ι → Bool} (i : ι) :
      FlagStep Q Allowed (s, stop) (s, Function.update stop i true)
  | step {s s' : QState Q} {stop : ι → Bool} {env : Env ι} {i : ι} (h : s.step env i = some s')
      (flag : env.stop = stop i) : FlagStep Q Allowed (s, stop) (s', stop)
  | leave {s : QState Q} {stop : ι → Bool} {i : ι} {r : Return} (h : s.returned i = some r) :
      FlagStep Q Allowed (s, stop) (s.leave i r, stop)

/-- The states a queue can reach while no stop flag is lowered during an operation. -/
def FlagReachable [DecidableEq ι] (Q : IEventQueue ι) (Allowed : ι → Call → Prop) :
    QState Q × (ι → Bool) → Prop :=
  Relation.ReflTransGen (FlagStep Q Allowed) (QState.start Q, fun _ => false)

theorem FlagStep.qstep [DecidableEq ι] {Q : IEventQueue ι} {Allowed : ι → Call → Prop}
    {a b : QState Q × (ι → Bool)} (h : FlagStep Q Allowed a b) :
    b.1 = a.1 ∨ QStep Q Allowed a.1 b.1 := by
  cases h with
  | call flag free may => exact .inr (.call free may)
  | raise i => exact .inl rfl
  | step h flag => exact .inr (.step h)
  | leave h => exact .inr (.leave h)

/-! ### `GlobalLockQueue` -/

namespace GlobalLockQueue

variable [DecidableEq ι] {capacity : ℕ} {options : QueueOptions} {env : Env ι} {i : ι}
  {x x' : Shared ι} {f f' : Frame (globalLockQueue ι capacity options)}
  {s s' : QState (globalLockQueue ι capacity options)} {stop stop' : ι → Bool}

/-- The depth that `push` hands over in its next step. -/
def handed (x : Shared ι) : PushPC → Option ℤ
  | .append => some (x.queue_.length + 1 : ℕ)
  | _ => none

omit [DecidableEq ι] in
theorem max_observed_depth_finishPop [DecidableEq ι] {r : Shared ι × PopPC}
    (h : finishPop env x = some r) :
    r.1.stats_.max_observed_depth = x.stats_.max_observed_depth := by
  unfold finishPop at h
  split at h
  · cases h
    rfl
  · obtain ⟨waiters, -, rfl⟩ := Option.map_eq_some_iff.mp h
    rfl

theorem depthLaw : DepthLaw (globalLockQueue ι capacity options) handed where
  init := rfl
  push := by
    intro env i ev policy x pc x' pc' h
    have h : push env i ev policy x pc = some (x', pc') := h
    show (Shared.stats_ x').max_observed_depth = _
    cases pc with
    | append =>
      obtain ⟨waiters, -, heq⟩ := Option.map_eq_some_iff.mp h
      cases heq
      rfl
    | relock spins =>
      simp only [push] at h
      split_ifs at h
      cases h
      exact max_observed_depth_pause x.stats_ spins
    | returned ok => cases h
    | _ =>
      simp only [push, failPush] at h
      split_ifs at h <;> cases h <;> rfl
  pop := by
    intro env i x pc x' pc' h
    have h : pop env i x pc = some (x', pc') := h
    show (Shared.stats_ x').max_observed_depth = (Shared.stats_ x).max_observed_depth
    cases pc with
    | waitTest =>
      simp only [pop] at h
      split_ifs at h
      · exact max_observed_depth_finishPop h
      · cases h
        rfl
    | spinTest spins =>
      simp only [pop] at h
      split_ifs at h
      · cases h
        rfl
      · cases h
        rfl
      · exact max_observed_depth_finishPop h
    | relock spins =>
      simp only [pop] at h
      split_ifs at h
      cases h
      exact max_observed_depth_pause x.stats_ spins
    | returned out => cases h
    | _ =>
      simp only [pop] at h
      split_ifs at h <;> cases h <;> rfl
  close := by
    intro i x x' h
    obtain ⟨-, heq⟩ := Option.ite_none_right_eq_some.mp h
    cases heq
    rfl

/-! ### What a push knows of the room -/

/-- After the wait there is room, or a reason to give up; before the append there is room. -/
def PushPC.Room (x : Shared ι) (stop : Bool) : PushPC → Prop
  | .recheck => x.closed_ = true ∨ stop = true ∨ x.queue_.length < x.capacity_
  | .append => x.queue_.length < x.capacity_
  | _ => True

/-- The queue is within its capacity, which a step does not change. -/
structure Bounded (capacity : ℕ) (x : Shared ι) : Prop where
  capacity_eq : x.capacity_ = capacity
  length_le : x.queue_.length ≤ capacity

/-- **A push appends only where there is room.** -/
theorem push_room {ev : Event} {policy : BackpressurePolicy} {pc pc' : PushPC}
    (h : push env i ev policy x pc = some (x', pc')) (hcap : 1 ≤ capacity)
    (hx : Bounded capacity x) (hpc : pc.Room x env.stop) :
    Bounded capacity x' ∧ pc'.Room x' env.stop := by
  obtain ⟨hc, hle⟩ := hx
  cases pc with
  | checkClosed =>
    simp only [push, failPush] at h
    split_ifs at h with hclosed hzero hblock hwait hfull <;> cases h
    · exact ⟨⟨hc, hle⟩, trivial⟩
    · omega
    · exact ⟨⟨hc, hle⟩, trivial⟩
    · exact ⟨⟨hc, hle⟩, trivial⟩
    · exact ⟨⟨hc, hle⟩, trivial⟩
    · exact ⟨⟨hc, hle⟩, not_le.mp hfull⟩
  -- The predicate of the wait is what `recheck` starts from.
  | waitTest =>
    simp only [push, Bool.or_eq_true, decide_eq_true_eq, or_assoc] at h
    split_ifs at h with hready <;> cases h
    · exact ⟨⟨hc, hle⟩, hready⟩
    · exact ⟨⟨hc, hle⟩, trivial⟩
  | recheck =>
    simp only [push, failPush, Bool.or_eq_true] at h
    split_ifs at h with hflag <;> cases h
    · exact ⟨⟨hc, hle⟩, trivial⟩
    · -- the flag that was seen up by the predicate is still up
      refine ⟨⟨hc, hle⟩, ?_⟩
      rcases hpc with hclosed | hstop | hroom
      · exact absurd (.inl hclosed) hflag
      · exact absurd (.inr hstop) hflag
      · exact hroom
  | spinTest spins =>
    simp only [push, failPush] at h
    split_ifs at h with hfull hflag <;> cases h
    · exact ⟨⟨hc, hle⟩, trivial⟩
    · exact ⟨⟨hc, hle⟩, trivial⟩
    · exact ⟨⟨hc, hle⟩, not_le.mp hfull⟩
  | append =>
    obtain ⟨waiters, -, heq⟩ := Option.map_eq_some_iff.mp h
    cases heq
    -- The mutex has been held since the room was seen.
    have hroom : x.queue_.length < x.capacity_ := hpc
    refine ⟨⟨hc, ?_⟩, trivial⟩
    rw [List.length_append, List.length_singleton]
    omega
  | returned ok => cases h
  | _ =>
    simp only [push] at h
    split_ifs at h <;> cases h <;> exact ⟨⟨hc, hle⟩, trivial⟩

theorem capacity_finishPop {r : Shared ι × PopPC} (h : finishPop env x = some r) :
    r.1.capacity_ = x.capacity_ := by
  unfold finishPop at h
  split at h
  · cases h
    rfl
  · obtain ⟨waiters, -, rfl⟩ := Option.map_eq_some_iff.mp h
    rfl

theorem capacity_pop {pc pc' : PopPC} (h : pop env i x pc = some (x', pc')) :
    x'.capacity_ = x.capacity_ := by
  cases pc with
  | waitTest =>
    simp only [pop] at h
    split_ifs at h
    · exact capacity_finishPop h
    · cases h
      rfl
  | spinTest spins =>
    simp only [pop] at h
    split_ifs at h
    · cases h
      rfl
    · cases h
      rfl
    · exact capacity_finishPop h
  | returned out => cases h
  | _ =>
    simp only [pop] at h
    split_ifs at h <;> cases h <;> rfl

def FrameRoom (x : Shared ι) (stop : Bool) : Frame (globalLockQueue ι capacity options) → Prop
  | .push _ _ pc => PushPC.Room x stop pc
  | _ => True

theorem stepFrame_room (h : QState.stepFrame env i x f = some (x', f')) (hcap : 1 ≤ capacity)
    (hx : Bounded capacity x) (hf : FrameRoom x env.stop f) :
    Bounded capacity x' ∧ FrameRoom x' env.stop f' := by
  cases stepFrame_cases h with
  | push h => exact push_room h hcap hx hf
  | pop h =>
    refine ⟨⟨(capacity_pop h).trans hx.capacity_eq, ?_⟩, trivial⟩
    exact (pop_shrinks h).queue.length_le.trans hx.length_le
  | close h =>
    obtain ⟨-, heq⟩ := Option.ite_none_right_eq_some.mp h
    cases heq
    exact ⟨⟨hx.capacity_eq, hx.length_le⟩, trivial⟩

/-- **A thread that does not hold the mutex** changes neither the queue nor the flag while another
one holds it. -/
theorem push_outside {ev : Event} {policy : BackpressurePolicy} {pc pc' : PushPC}
    (h : push env i ev policy x pc = some (x', pc')) (hown : ¬ pc.owns) (hmu : x.mu_ ≠ none) :
    x'.queue_ = x.queue_ ∧ x'.closed_ = x.closed_ := by
  cases pc with
  | lock =>
    simp only [push, if_neg hmu] at h
    cases h
  | sleeping =>
    simp only [push, if_neg hmu] at h
    split_ifs at h
    cases h
    exact ⟨rfl, rfl⟩
  | relock spins =>
    simp only [push, if_neg hmu] at h
    cases h
  | returned ok => cases h
  | _ => exact absurd trivial hown

theorem pop_outside {pc pc' : PopPC} (h : pop env i x pc = some (x', pc')) (hown : ¬ pc.owns)
    (hmu : x.mu_ ≠ none) : x'.queue_ = x.queue_ ∧ x'.closed_ = x.closed_ := by
  cases pc with
  | lock =>
    simp only [pop, if_neg hmu] at h
    cases h
  | sleeping =>
    simp only [pop, if_neg hmu] at h
    split_ifs at h
    cases h
    exact ⟨rfl, rfl⟩
  | relock spins =>
    simp only [pop, if_neg hmu] at h
    cases h
  | returned out => cases h
  | _ => exact absurd trivial hown

theorem stepFrame_outside (h : QState.stepFrame env i x f = some (x', f')) (hown : ¬ owns f)
    (hmu : x.mu_ ≠ none) : x'.queue_ = x.queue_ ∧ x'.closed_ = x.closed_ := by
  cases stepFrame_cases h with
  | push h => exact push_outside h hown hmu
  | pop h => exact pop_outside h hown hmu
  | close h => exact absurd (Option.ite_none_right_eq_some.mp h).1 hmu

/-- What the push of another thread knows stays true. -/
theorem FrameRoom.congr {flag : Bool} (hf : FrameRoom x flag f) (hq : x'.queue_ = x.queue_)
    (hclosed : x'.closed_ = x.closed_) (hcap : x'.capacity_ = x.capacity_) :
    FrameRoom x' flag f := by
  cases f with
  | push ev policy pc =>
    cases pc with
    | recheck =>
      show x'.closed_ = true ∨ flag = true ∨ x'.queue_.length < x'.capacity_
      rw [hq, hclosed, hcap]
      exact hf
    | append =>
      show x'.queue_.length < x'.capacity_
      rw [hq, hcap]
      exact hf
    | _ => trivial
  | _ => trivial

/-- A push that knows of the room holds the mutex, or knows nothing. -/
theorem FrameRoom.of_not_owns {flag : Bool} (h : ¬ owns f) : FrameRoom x flag f := by
  cases f with
  | push ev policy pc =>
    cases pc with
    | recheck => exact absurd trivial h
    | append => exact absurd trivial h
    | _ => trivial
  | _ => trivial

/-- A raised flag is one more reason to give up. -/
theorem FrameRoom.raise {flag : Bool} (hf : FrameRoom x flag f) : FrameRoom x true f := by
  cases f with
  | push ev policy pc =>
    cases pc with
    | recheck => exact .inr (.inl rfl)
    | append => exact hf
    | _ => trivial
  | _ => trivial

/-- **The invariant of the room**: the queue is within its capacity, and what each push knows of the
room is true. -/
structure Roomy (s : QState (globalLockQueue ι capacity options)) (stop : ι → Bool) : Prop where
  bounded : Bounded capacity s.shared
  locked : Locked s.shared s.frame
  room : ∀ i f, s.frame i = some f → FrameRoom s.shared (stop i) f

/-- **A step of the threads keeps the invariant.** -/
theorem Roomy.flagStep {Allowed : ι → Call → Prop} (hs : Roomy s stop) (hcap : 1 ≤ capacity)
    (h : FlagStep _ Allowed (s, stop) (s', stop')) : Roomy s' stop' := by
  cases h with
  | @call _ _ i c flag free may =>
    have hturn : s.turn (.call i c) = some (s.call i c) := by
      simp only [QState.turn, free, Option.isNone_none, if_true]
    refine ⟨hs.bounded, hs.locked.turn hturn, ?_⟩
    apply forall_frame_update_of_ne
    · intro j hj f hf
      rw [Function.update_of_ne hj]
      exact hs.room j f hf
    · rintro _ ⟨⟩
      cases c <;> trivial
  | raise i =>
    refine ⟨hs.bounded, hs.locked, fun j f hf => ?_⟩
    by_cases hj : j = i
    · -- Only the flag of thread `i` is raised.
      subst hj
      rw [Function.update_self]
      exact (hs.room j f hf).raise
    · rw [Function.update_of_ne hj]
      exact hs.room j f hf
  | @step _ _ _ env i h flag =>
    have hlocked := hs.locked.step h
    obtain ⟨f, ⟨y, f'⟩, hf, hr, rfl⟩ := step_eq_some h
    have hi := hs.room i f hf
    rw [← flag] at hi
    obtain ⟨hy, hi'⟩ := stepFrame_room hr hcap hs.bounded hi
    refine ⟨hy, hlocked, ?_⟩
    apply forall_frame_update_of_ne
    · intro j hj g hg
      by_cases hown : owns g
      · -- thread `j` holds the mutex, so thread `i` does not
        have hmu := hs.locked j g hg hown
        have hnot : ¬ owns f := fun hi => by
          rw [hs.locked i f hf hi] at hmu
          exact hj (Option.some.inj hmu).symm
        obtain ⟨hq, hclosed⟩ := stepFrame_outside hr hnot (by rw [hmu]; exact Option.some_ne_none j)
        exact (hs.room j g hg).congr hq hclosed (hy.capacity_eq.trans hs.bounded.capacity_eq.symm)
      · exact .of_not_owns hown
    · rintro _ ⟨⟩
      rw [← flag]
      exact hi'
  | @leave _ _ i r h =>
    have hturn : s.turn (.leave i) = some (s.leave i r) := by
      rw [QState.turn, h]
      rfl
    refine ⟨hs.bounded, hs.locked.turn hturn, ?_⟩
    exact forall_frame_update hs.room (by rintro _ ⟨⟩)

theorem roomy_of_flagReachable {Allowed : ι → Call → Prop} (hcap : 1 ≤ capacity)
    {a : QState (globalLockQueue ι capacity options) × (ι → Bool)} (h : FlagReachable _ Allowed a) :
    Roomy a.1 a.2 := by
  induction h with
  | refl =>
    refine ⟨⟨rfl, Nat.zero_le _⟩, ?_, ?_⟩
    · rintro i f ⟨⟩
    · rintro i f ⟨⟩
  | tail _ hstep ih => exact ih.flagStep hcap hstep

/-- A push hands over one more than what it has found, below the capacity. -/
theorem Roomy.handsWithin (hs : Roomy s stop) : HandsWithin handed capacity s := by
  intro i ev policy pc depth hf hd
  have hcap := hs.bounded.capacity_eq
  have hi := hs.room i _ hf
  cases pc with
  | append =>
    have hroom : (Shared.queue_ s.shared).length < Shared.capacity_ s.shared := hi
    cases hd
    omega
  | _ => cases hd

/-- **`GlobalLockQueue` stays within its capacity**, as long as no stop flag is lowered during an
operation. -/
theorem withinCapacity (hcap : 1 ≤ capacity)
    (h : FlagReachable (globalLockQueue ι capacity options) (fun _ _ => True) (s, stop)) :
    WithinCapacity handed capacity s := by
  have hroomy := roomy_of_flagReachable hcap h
  refine ⟨hroomy.bounded.length_le, hroomy.handsWithin, ?_⟩
  exact depthLaw.max_le Prod.fst rfl (fun _ _ hstep => hstep.qstep)
    (fun _ h => (roomy_of_flagReachable hcap h).handsWithin) h

open QState.Turn in
/-- Two pushes to a queue of capacity `1`; the flag of the second one is up when the wait tests it,
and down again at the test that follows. -/
def loweredTurns : List (QState.Turn Bool) :=
  [call true (.push {} .block)] ++ List.replicate 5 (step {} true) ++
    [leave true, call true (.push {} .block), step {} true, step {} true,
      step { stop := true } true, step {} true, step {} true]

/-- Why no flag may be lowered: the second push appends to the full queue. -/
example : ((QState.start (globalLockQueue Bool 1 {})).run loweredTurns).map
    (fun s => (Shared.queue_ s.shared).length) = some 2 := by
  decide

end GlobalLockQueue

/-! ### The four queues -/

variable [DecidableEq ι]

/-- **No queue exceeds or over-reports its capacity**: for every capacity but zero, every policy,
every wait strategy and any order of the steps of any number of threads, a queue holds no more
events than its capacity, and what it reports as its depth lies between one and the capacity. -/
theorem within_capacity [Fintype ι] {capacity : ℕ} (hcap : 1 ≤ capacity) (options : QueueOptions)
    (p k : ι) :
    (∀ s stop, FlagReachable (globalLockQueue ι capacity options) (fun _ _ => True) (s, stop) →
      WithinCapacity GlobalLockQueue.handed capacity s) ∧
    (∀ s, QReachable (splitLockLinkedQueue ι capacity) (fun _ _ => True) s →
      WithinCapacity SplitLockLinkedQueue.handed capacity s) ∧
    (∀ s, QReachable (mpmcRingQueue ι capacity) (fun _ _ => True) s →
      WithinCapacity MpmcRingQueue.handed capacity s) ∧
    (capacity < 2 ^ 63 →
      ∀ s, QReachable (spscRingQueue ι capacity) (SpscRingQueue.Discipline p k) s →
        WithinCapacity SpscRingQueue.handed capacity s) := by
  refine ⟨fun s stop h => ?_, fun s h => ?_, fun s h => ?_, fun hlt s h => ?_⟩
  · exact GlobalLockQueue.withinCapacity hcap h
  · exact SplitLockLinkedQueue.withinCapacity hcap h
  · exact MpmcRingQueue.withinCapacity hcap h
  · exact SpscRingQueue.withinCapacity (by omega) h

/-- The queue of capacity `1` after a push and one that was dropped, and a ring with its first push
under way. -/
theorem within_capacity_one :
    WithinCapacity SplitLockLinkedQueue.handed 1 dropState ∧
      (SplitLockLinkedQueue.Shared.stats_ dropState.shared).max_observed_depth = 1 ∧
      WithinCapacity SpscRingQueue.handed 1
        ((QState.start (spscRingQueue Bool 1)).call true (.push {} .block)) ∧
      WithinCapacity GlobalLockQueue.handed 1
        ((QState.start (globalLockQueue Bool 1 {})).call true (.push {} .drop)) := by
  obtain ⟨hglobal, hlinked, -, hspsc⟩ :=
    within_capacity (le_refl 1) {} true false
  refine ⟨hlinked _ ?_, rfl, hspsc (by decide) _ ?_,
    hglobal _ (Function.update (fun _ => false) true false) ?_⟩
  · exact QState.steps_of_run (fun _ _ _ => trivial) (Option.some_get _).symm
  · exact .single (.call rfl rfl)
  · exact .single (.call false rfl trivial)

end Laboratory.QueueLatency
