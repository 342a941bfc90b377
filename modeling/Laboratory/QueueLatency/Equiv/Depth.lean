import Laboratory.QueueLatency.Equiv.QueueStats
import Laboratory.QueueLatency.Equiv.RingBounds

/-!
# The depths that the queues report

`handed` is the depth that a `push` hands to `updateMaxDepth` in its next step, and `DepthLaw` says
that nothing else changes the maximum.  `WithinCapacity` is what a bounded queue is to keep: it
holds no more events than its capacity, and every depth it hands over lies between one and the
capacity, so that the maximum does too (`DepthLaw.max_le`).

`SplitLockLinkedQueue` and `MpmcRingQueue` count the depth apart from the events that are stored,
late on both sides; that the count stays in range rests on the places that a `pop` keeps until it
has been counted (`depth_lt`).  `SpscRingQueue` computes the depth from two indices, of which one
may be out of date.
-/

namespace Laboratory.QueueLatency

open Concurrency

variable {ι : Type} {Q : IEventQueue ι}

/-! ### The depths that are handed over -/

/-- The depth that a `push` hands to `updateMaxDepth` in its next step is `handed`, and no other
step changes the maximum. -/
structure DepthLaw (Q : IEventQueue ι) (handed : Q.Shared → Q.PushPC → Option ℤ) : Prop where
  init : (Q.stats Q.init).max_observed_depth = 0
  push : ∀ {env i ev policy x pc x' pc'}, Q.push env i ev policy x pc = some (x', pc') →
    (Q.stats x').max_observed_depth = (handed x pc).elim (Q.stats x).max_observed_depth
      (max (Q.stats x).max_observed_depth)
  pop : ∀ {env i x pc x' pc'}, Q.pop env i x pc = some (x', pc') →
    (Q.stats x').max_observed_depth = (Q.stats x).max_observed_depth
  close : ∀ {i x x'}, Q.close i x = some x' →
    (Q.stats x').max_observed_depth = (Q.stats x).max_observed_depth

/-- The depths that the threads are about to hand over lie between `1` and the capacity. -/
def HandsWithin (handed : Q.Shared → Q.PushPC → Option ℤ) (capacity : ℕ) (s : QState Q) : Prop :=
  ∀ i ev policy pc depth, s.frame i = some (.push ev policy pc) →
    handed s.shared pc = some depth → 1 ≤ depth ∧ depth ≤ capacity

/-- **A queue within its capacity.** -/
structure WithinCapacity (handed : Q.Shared → Q.PushPC → Option ℤ) (capacity : ℕ) (s : QState Q) :
    Prop where
  stored : (Q.content s.shared).length ≤ capacity
  handed : HandsWithin handed capacity s
  max_le : (Q.stats s.shared).max_observed_depth ≤ capacity

theorem WithinCapacity.mono {handed : Q.Shared → Q.PushPC → Option ℤ} {m n : ℕ} {s : QState Q}
    (h : WithinCapacity handed m s) (hmn : m ≤ n) : WithinCapacity handed n s where
  stored := h.stored.trans hmn
  handed := fun i ev policy pc depth hf hd => by
    obtain ⟨hpos, hle⟩ := h.handed i ev policy pc depth hf hd
    exact ⟨hpos, hle.trans (Int.ofNat_le.mpr hmn)⟩
  max_le := h.max_le.trans (Int.ofNat_le.mpr hmn)

section Law

variable [DecidableEq ι] {handed : Q.Shared → Q.PushPC → Option ℤ} {capacity : ℕ}
  {Allowed : ι → Call → Prop} {s s' : QState Q}

/-- A step raises the maximum to a depth that was handed over, if at all. -/
theorem DepthLaw.qstep (hlaw : DepthLaw Q handed) (hs : HandsWithin handed capacity s)
    (hmax : (Q.stats s.shared).max_observed_depth ≤ capacity) (h : QStep Q Allowed s s') :
    (Q.stats s'.shared).max_observed_depth ≤ capacity := by
  cases h with
  | call => exact hmax
  | leave => exact hmax
  | step h =>
    obtain ⟨f, ⟨x', f'⟩, hf, hr, rfl⟩ := step_eq_some h
    cases stepFrame_cases hr with
    | @push ev policy pc _ _ h =>
      have hlaw := hlaw.push h
      cases hd : handed s.shared pc with
      | none =>
        rw [hd] at hlaw
        exact hlaw.le.trans hmax
      | some depth =>
        rw [hd] at hlaw
        exact hlaw.le.trans (max_le hmax (hs _ ev policy pc depth hf hd).2)
    | pop h => exact (hlaw.pop h).le.trans hmax
    | close h => exact (hlaw.close h).le.trans hmax

/-- **The maximum of a run** whose steps are steps of the queue, if all that is handed over lies
within the capacity. -/
theorem DepthLaw.max_le {α : Type} {r : α → α → Prop} (state : α → QState Q) {a b : α}
    (hlaw : DepthLaw Q handed) (ha : state a = QState.start Q)
    (hstep : ∀ a b, r a b → state b = state a ∨ QStep Q Allowed (state a) (state b))
    (hhands : ∀ b, Relation.ReflTransGen r a b → HandsWithin handed capacity (state b))
    (h : Relation.ReflTransGen r a b) :
    (Q.stats (state b).shared).max_observed_depth ≤ capacity := by
  induction h with
  | refl =>
    rw [ha]
    exact hlaw.init.le.trans (Int.natCast_nonneg capacity)
  | @tail b c hab hbc ih =>
    rcases hstep b c hbc with heq | hq
    · rw [heq]
      exact ih
    · exact hlaw.qstep (hhands b hab) ih hq

end Law

@[simp]
theorem max_observed_depth_pause (stats : QueueStats) (spins : ℕ) :
    (pause stats spins).1.max_observed_depth = stats.max_observed_depth := by
  unfold pause
  split_ifs <;> rfl

/-! ### Queues with permits -/

section Permits

variable [Fintype ι] [DecidableEq ι] {A : Abstraction Q} {T : Tally Q (ℤ × ℤ × ℤ × ℤ)}
  {capacity : ℕ} {Allowed : ι → Call → Prop} {s : QState Q} {i : ι} {f : Frame Q}

/-- An operation that is late with the depth for an event that has left the queue still keeps its
place. -/
def DepthCovered (T : Tally Q (ℤ × ℤ × ℤ × ℤ)) (A : Abstraction Q) : Prop :=
  ∀ f, ((A.framePhase f).carried.card : ℤ) ≤
    (A.framePhase f).stowed.card + (T.pending f).2.2.2 + (A.framePhase f).places

/-- A bounded queue holds no more than its capacity. -/
theorem Refines.length_le (hR : Refines Q (some capacity) Allowed A) (h : QReachable Q Allowed s) :
    (Q.content s.shared).length ≤ capacity := by
  obtain ⟨room, -, hroom⟩ := Option.map_eq_some_iff.mp (hR.reachable h).accounts.room
  rw [hR.content]
  omega

/-- **The depth is below the capacity** while an operation has stored an event and not counted it:
the events that are counted too long keep their places. -/
theorem depth_lt (hR : Refines Q (some capacity) Allowed A) (hT : T.Lawful)
    (hpushed : T.pushed = (0, 1, 0, 1)) (hpopped : T.popped = (0, 0, 1, -1))
    (hcovered : DepthCovered T A) (h : QReachable Q Allowed s) (hf : s.frame i = some f)
    (hi : ((A.framePhase f).carried.card : ℤ) <
      (A.framePhase f).stowed.card + (T.pending f).2.2.2 + (A.framePhase f).places) :
    (T.book s.shared).2.2.2 < capacity := by
  have hs := hR.reachable h
  have hflow := hR.flow_card hs
  obtain ⟨room, -, hroom⟩ := Option.map_eq_some_iff.mp hs.accounts.room
  have hbalanced := congrArg (fun x => x.2.2.2) (hT.balanced h)
  simp only [hpushed, hpopped, Prod.snd_add, Prod.snd_sum, Prod.smul_snd] at hbalanced
  -- Every thread covers what it has not subtracted yet, and thread `i` covers more.
  have hlt : ∑ j, (((A.phases s.frame j).carried.card : ℕ) : ℤ) <
      ∑ j, ((((A.phases s.frame j).stowed.card : ℕ) : ℤ) + (T.pendingOf (s.frame j)).2.2.2 +
        ((A.phases s.frame j).places : ℕ)) := by
    apply Finset.sum_lt_sum
    · intro j _
      unfold Abstraction.phases
      cases hfj : s.frame j with
      | none => exact le_refl 0
      | some g => exact hcovered g
    · refine ⟨i, Finset.mem_univ i, ?_⟩
      rw [phases_eq A hf, hf]
      exact hi
  rw [Finset.sum_add_distrib, Finset.sum_add_distrib] at hlt
  rw [hR.content] at hflow
  simp only [nsmul_eq_mul, mul_one, mul_neg] at hbalanced
  zify at hflow hroom
  omega

/-- A queue that counts its depth is within its capacity, if it hands over the depth it has after
the event of the `push`, which it has stored and not counted. -/
theorem Refines.withinCapacity {handed : Q.Shared → Q.PushPC → Option ℤ}
    (hR : Refines Q (some capacity) Allowed A) (hT : T.Lawful) (hpushed : T.pushed = (0, 1, 0, 1))
    (hpopped : T.popped = (0, 0, 1, -1)) (hbounded : DepthBounded T A)
    (hcovered : DepthCovered T A) (hlaw : DepthLaw Q handed)
    (hhanded : ∀ ev policy x pc depth, handed x pc = some depth →
      depth = (T.book x).2.2.2 + 1 ∧
        ((A.pushPhase ev policy pc).carried.card : ℤ) <
          (A.pushPhase ev policy pc).stowed.card + (T.pushing pc).2.2.2 +
            (A.pushPhase ev policy pc).places)
    (h : QReachable Q Allowed s) : WithinCapacity handed capacity s := by
  have hhands : ∀ s, QReachable Q Allowed s → HandsWithin handed capacity s := by
    intro s h i ev policy pc depth hf hd
    obtain ⟨rfl, hi⟩ := hhanded ev policy s.shared pc depth hd
    have hlower := depth_nonneg hR hT hpushed hpopped hbounded h
    have hupper := depth_lt hR hT hpushed hpopped hcovered h hf hi
    omega
  exact ⟨hR.length_le h, hhands s h,
    hlaw.max_le id rfl (fun _ _ hstep => .inr hstep) (fun s h => hhands s h) h⟩

end Permits

namespace SplitLockLinkedQueue

variable [DecidableEq ι] {capacity : ℕ}

/-- The depth that `push` hands over in its next step. -/
def handed (x : Shared ι) : PushPC → Option ℤ
  | .addDepth => some (x.depth_ + 1)
  | _ => none

theorem depthLaw : DepthLaw (splitLockLinkedQueue ι capacity) handed where
  init := rfl
  push := by
    intro env i ev policy x pc x' pc' h
    have h : push env i ev policy x pc = some (x', pc') := h
    show (Shared.stats_ x').max_observed_depth = _
    cases pc with
    | link node =>
      obtain ⟨last, -, heq⟩ := Option.map_eq_some_iff.mp h
      cases heq
      rfl
    | fullStop spins =>
      simp only [push] at h
      split_ifs at h <;> cases h
      · rfl
      · exact max_observed_depth_pause x.stats_ spins
    | returned ok => cases h
    | _ =>
      simp only [push] at h
      try split_ifs at h
      all_goals
        cases h
        rfl
  pop := by
    intro env i x pc x' pc' h
    have h : pop env i x pc = some (x', pc') := h
    show (Shared.stats_ x').max_observed_depth = _
    cases pc with
    | readNext =>
      obtain ⟨old, -, heq⟩ := Option.map_eq_some_iff.mp h
      cases heq
      rfl
    | moveOut old_head new_head =>
      obtain ⟨out, -, heq⟩ := Option.map_eq_some_iff.mp h
      cases heq
      rfl
    | emptyStop spins =>
      simp only [pop] at h
      split_ifs at h <;> cases h
      · rfl
      · exact max_observed_depth_pause x.stats_ spins
    | returned out => cases h
    | returnedNull ok => cases h
    | _ =>
      simp only [pop] at h
      try split_ifs at h
      all_goals
        cases h
        rfl
  close := by
    intro i x x' h
    cases h
    rfl

theorem depth_covered : DepthCovered (tally ι capacity) (abstraction ι capacity) := by
  rintro (⟨ev, policy, pc⟩ | pc | done)
  · cases pc with
    | returned ok => cases ok <;> simp [tally, pushing, abstraction, pushPhase, Tally.pending,
        Abstraction.framePhase, Phase.stowed, Phase.places, Phase.carried]
    | _ => simp [tally, pushing, abstraction, pushPhase, Tally.pending, Abstraction.framePhase,
        Phase.stowed, Phase.places, Phase.carried]
  · cases pc with
    | returned out => cases out <;> simp [tally, popping, abstraction, popPhase, Tally.pending,
        Abstraction.framePhase, Phase.stowed, Phase.places, Phase.carried]
    | _ => simp [tally, popping, abstraction, popPhase, Tally.pending, Abstraction.framePhase,
        Phase.stowed, Phase.places, Phase.carried]
  · cases done <;> simp [Tally.pending, Abstraction.framePhase, Phase.stowed, Phase.places,
      Phase.carried]

/-- **`SplitLockLinkedQueue` stays within its capacity.** -/
theorem withinCapacity [Fintype ι] (hcap : 1 ≤ capacity)
    {s : QState (splitLockLinkedQueue ι capacity)}
    (h : QReachable (splitLockLinkedQueue ι capacity) (fun _ _ => True) s) :
    WithinCapacity handed capacity s := by
  have hR := SplitLockLinkedQueue.refines (ι := ι) capacity
  rw [bound, if_pos (by omega)] at hR
  refine .mono (hR.withinCapacity tally_lawful rfl rfl depth_bounded depth_covered depthLaw ?_ h)
    (semaphorePermits_le capacity)
  intro ev policy x pc depth hd
  cases pc <;> cases hd
  refine ⟨rfl, ?_⟩
  simp [tally, pushing, abstraction, pushPhase, Phase.stowed, Phase.places, Phase.carried]

end SplitLockLinkedQueue

namespace MpmcRingQueue

variable [DecidableEq ι] {capacity : ℕ}

/-- The depth that `push` hands over in its next step. -/
def handed (x : Shared ι) : PushPC → Option ℤ
  | .addDepth => some (x.depth_ + 1)
  | _ => none

theorem depthLaw : DepthLaw (mpmcRingQueue ι capacity) handed where
  init := rfl
  push := by
    intro env i ev policy x pc x' pc' h
    have h : push env i ev policy x pc = some (x', pc') := h
    show (Shared.stats_ x').max_observed_depth = _
    cases pc with
    | fullStop spins =>
      simp only [push] at h
      split_ifs at h <;> cases h
      · rfl
      · exact max_observed_depth_pause x.stats_ spins
    | returned ok => cases h
    | _ =>
      simp only [push] at h
      try split_ifs at h
      all_goals
        cases h
        rfl
  pop := by
    intro env i x pc x' pc' h
    have h : pop env i x pc = some (x', pc') := h
    show (Shared.stats_ x').max_observed_depth = _
    cases pc with
    | emptyStop spins =>
      simp only [pop] at h
      split_ifs at h <;> cases h
      · rfl
      · exact max_observed_depth_pause x.stats_ spins
    | returned out => cases h
    | _ =>
      simp only [pop] at h
      try split_ifs at h
      all_goals
        cases h
        rfl
  close := by
    intro i x x' h
    cases h
    rfl

theorem depth_covered : DepthCovered (tally ι capacity) (abstraction ι capacity) := by
  rintro (⟨ev, policy, pc⟩ | pc | done)
  · cases pc with
    | returned ok => cases ok <;> simp [tally, pushing, abstraction, pushPhase, Tally.pending,
        Abstraction.framePhase, Phase.stowed, Phase.places, Phase.carried]
    | _ => simp [tally, pushing, abstraction, pushPhase, Tally.pending, Abstraction.framePhase,
        Phase.stowed, Phase.places, Phase.carried]
  · cases pc with
    | returned out => cases out <;> simp [tally, popping, abstraction, popPhase, Tally.pending,
        Abstraction.framePhase, Phase.stowed, Phase.places, Phase.carried]
    | _ => simp [tally, popping, abstraction, popPhase, Tally.pending, Abstraction.framePhase,
        Phase.stowed, Phase.places, Phase.carried]
  · cases done <;> simp [Tally.pending, Abstraction.framePhase, Phase.stowed, Phase.places,
      Phase.carried]

/-- **`MpmcRingQueue` stays within its capacity.** -/
theorem withinCapacity [Fintype ι] (hcap : 1 ≤ capacity) {s : QState (mpmcRingQueue ι capacity)}
    (h : QReachable (mpmcRingQueue ι capacity) (fun _ _ => True) s) :
    WithinCapacity handed capacity s := by
  refine .mono ((MpmcRingQueue.refines hcap).withinCapacity tally_lawful rfl rfl depth_bounded
    depth_covered depthLaw ?_ h) (semaphorePermits_le capacity)
  intro ev policy x pc depth hd
  cases pc <;> cases hd
  refine ⟨rfl, ?_⟩
  simp [tally, pushing, abstraction, pushPhase, Phase.stowed, Phase.places, Phase.carried]

end MpmcRingQueue

namespace SpscRingQueue

variable {capacity : ℕ} {p k : ι}

/-- The depth that `push` hands over in its next step, from the index of the consumer that it has
loaded. -/
def handed (x : Shared) : PushPC → Option ℤ
  | .updateDepth next head =>
    some (if next > head then next - head else x.ring_capacity_ - head + next)
  | _ => none

theorem depthLaw : DepthLaw (spscRingQueue ι capacity) handed where
  init := rfl
  push := by
    intro env i ev policy x pc x' pc' h
    have h : push env i ev policy x pc = some (x', pc') := h
    show (Shared.stats_ x').max_observed_depth = _
    cases pc with
    | loadHead spins tail =>
      simp only [push] at h
      split_ifs at h <;> cases h
      · rfl
      · rfl
      · exact max_observed_depth_pause _ spins
    -- The only step that touches the maximum.
    | updateDepth next head =>
      cases h
      rfl
    | returned ok => cases h
    | _ =>
      simp only [push] at h
      try split_ifs at h
      all_goals
        cases h
        rfl
  pop := by
    intro env i x pc x' pc' h
    have h : pop env i x pc = some (x', pc') := h
    show (Shared.stats_ x').max_observed_depth = _
    cases pc with
    | emptyStop spins =>
      simp only [pop] at h
      split_ifs at h <;> cases h
      · rfl
      · exact max_observed_depth_pause x.stats_ spins
    | returned out => cases h
    | _ =>
      simp only [pop] at h
      try split_ifs at h
      all_goals
        cases h
        rfl
  close := by
    intro i x x' h
    cases h
    rfl

/-- The index that a push is going to store and the index of the consumer that it has loaded are
different slots of the buffer. -/
def PushPC.Apart (n : ℕ) : PushPC → Prop
  | .loadHead _ tail => tail < n
  | .write _ next head | .storeTail next head | .updateDepth next head =>
    next < n ∧ head < n ∧ next ≠ head
  | _ => True

def FrameApart (n : ℕ) : Option (Frame (spscRingQueue ι capacity)) → Prop
  | some (.push _ _ pc) => PushPC.Apart n pc
  | _ => True

theorem push_apart {n : ℕ} (hn : n < 2 ^ 64) {env : Env ι} {i : ι} {ev : Event}
    {policy : BackpressurePolicy} {x x' : Shared} {pc pc' : PushPC}
    (h : push env i ev policy x pc = some (x', pc')) (hx : Indexed n x) (hpc : pc.Apart n) :
    pc'.Apart n := by
  cases pc with
  | loadTail spins =>
    cases h
    exact hx.tail
  | loadHead spins tail =>
    simp only [push] at h
    split_ifs at h with hroom <;> cases h
    · exact ⟨nextIndex_lt hx.capacity hn hpc, hx.head, hroom⟩
    · trivial
    · trivial
  | write tail next head =>
    simp only [push] at h
    split_ifs at h
    cases h
    exact hpc
  | storeTail next head =>
    cases h
    exact hpc
  | returned ok => cases h
  | _ =>
    simp only [push] at h
    try split_ifs at h
    all_goals
      cases h
      trivial

/-- The index that a push stores stays apart from the one it has loaded. -/
theorem stepFrame_apart {n : ℕ} (hn : n < 2 ^ 64) {env : Env ι} {i : ι} {x x' : Shared}
    {f f' : Frame (spscRingQueue ι capacity)} (h : QState.stepFrame env i x f = some (x', f'))
    (hx : Indexed n x) (hf : FrameApart n (some f)) : FrameApart n (some f') := by
  cases stepFrame_cases h with
  | push h => exact push_apart (i := i) hn h hx hf
  | pop => trivial
  | close => trivial

variable [DecidableEq ι]

/-- The depth that is handed over is the distance of two different slots of the buffer. -/
theorem handsWithin (hcap : capacity + 1 < 2 ^ 64) {Allowed : ι → Call → Prop}
    {s : QState (spscRingQueue ι capacity)}
    (h : QReachable (spscRingQueue ι capacity) Allowed s) : HandsWithin handed capacity s := by
  have hlocal : Local (Indexed (capacity + 1))
      (fun _ _ g => FrameIndexed (capacity + 1) g ∧ FrameApart (capacity + 1) g)
      s.shared s.frame := by
    refine Local.reachable ⟨Nat.mod_eq_of_lt hcap, Nat.succ_pos _, Nat.succ_pos _⟩
      (fun _ _ => ⟨trivial, trivial⟩) ?_ ?_ h
    · intro i x c _
      cases c <;> exact ⟨trivial, trivial⟩
    · intro env i x f x' f' hr hx hf
      obtain ⟨hx', hf'⟩ := stepFrame_indexed hcap hr hx hf.1
      exact ⟨hx', ⟨hf', stepFrame_apart hcap hr hx hf.2⟩, fun _ _ _ hg => hg⟩
  intro i ev policy pc depth hf hd
  have hx := hlocal.1.capacity
  have hi := (hlocal.2 i).2
  rw [hf] at hi
  cases pc with
  | updateDepth next head =>
    obtain ⟨hnext, hhead, hne⟩ := hi
    cases hd
    split_ifs with hlt
    · omega
    · -- the producer is behind the consumer, across the end of the buffer
      rw [hx]
      push_cast
      omega
  | _ => cases hd

variable [Fintype ι]

/-- **`SpscRingQueue` stays within its capacity**, for one producer and one consumer. -/
theorem withinCapacity (hcap : capacity + 1 < 2 ^ 64) {s : QState (spscRingQueue ι capacity)}
    (h : QReachable (spscRingQueue ι capacity) (Discipline p k) s) :
    WithinCapacity handed capacity s := by
  have hinv := ((refines hcap p k).reachable h).inv
  have hring : Ring capacity s.shared := hinv.1
  refine ⟨?_, handsWithin hcap h,
    depthLaw.max_le id rfl (fun _ _ hstep => .inr hstep) (fun s h => handsWithin hcap h) h⟩
  have hpublished := hring.published_le
  have hpopped := hring.popped_prefix.length_le
  show ((Shared.published s.shared).drop (Shared.copied s.shared).length).length ≤ capacity
  rw [List.length_drop]
  omega

end SpscRingQueue

end Laboratory.QueueLatency
