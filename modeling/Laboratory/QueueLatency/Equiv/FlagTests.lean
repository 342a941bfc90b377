import Laboratory.QueueLatency.Equiv.MakeQueue

/-!
# Where the queues test their flags

`FlagLaw` says of the observers of a queue what their names promise: a `push` stores its event if
and only if it has passed the last of its tests, and a `pop` returns `false` if and only if it has
found a flag up.  `makeQueue_flagLaw`: all four queues keep it.

`QState.Owes` puts the events that are stored and those that will be together.  A step of a queue
adds one where a `push` passes its tests, and otherwise only a `pop` changes them.
-/

namespace Laboratory.QueueLatency

open Concurrency

variable {ι : Type} {Q : IEventQueue ι}

/-- **The tests of `push` and `pop`.** -/
structure FlagLaw (Q : IEventQueue ι) : Prop where
  entry : Q.willStore Q.pushEntry = false
  push : ∀ {env i ev policy x pc x' pc'}, Q.push env i ev policy x pc = some (x', pc') →
    (Q.willStore pc' || Q.hasStored pc') =
      (Q.willStore pc || Q.hasStored pc || Q.passes env.stop policy x pc)
  apart : ∀ {stop policy x pc}, (Q.willStore pc || Q.passes stop policy x pc) = true →
    Q.hasStored pc = false
  pushReturned : ∀ {stop policy x pc ok}, Q.pushReturned pc = some ok →
    (Q.willStore pc || Q.passes stop policy x pc) = false
  popReturned : ∀ {stop x pc r}, Q.popReturned pc = some r → Q.leaves stop x pc = false
  pop : ∀ {env i x pc x' pc'}, Q.pop env i x pc = some (x', pc') →
    ((∃ out, Q.popReturned pc' = some (false, out)) ↔ Q.leaves env.stop x pc = true)

namespace GlobalLockQueue

variable [DecidableEq ι] {capacity : ℕ} {options : QueueOptions}

theorem flagLaw_push {env : Env ι} {i : ι} {ev : Event} {policy : BackpressurePolicy}
    {x x' : Shared ι} {pc pc' : PushPC} (h : push env i ev policy x pc = some (x', pc')) :
    let Q := globalLockQueue ι capacity options
    (Q.willStore pc' || Q.hasStored pc') =
      (Q.willStore pc || Q.hasStored pc || Q.passes env.stop policy x pc) := by
  intro Q
  cases pc with
  | checkClosed =>
    simp only [push, failPush] at h
    split_ifs at h with hclosed hcap hblock hwait hfull <;> cases h
    · simp [Q, globalLockQueue, hclosed]
    · simp [Q, globalLockQueue, hclosed, hcap]
    · simp [Q, globalLockQueue, hcap, hblock]
    · simp [Q, globalLockQueue, hcap, hblock]
    · simp [Q, globalLockQueue, hcap, hfull]
    · simp [Q, globalLockQueue, hclosed, eq_drop_of_ne_block hblock, not_le.mp hfull]
  | recheck =>
    have hpasses : Q.passes env.stop policy x PushPC.recheck = !(x.closed_ || env.stop) := rfl
    simp only [push, failPush] at h
    split_ifs at h with hup <;> cases h
    · rw [hpasses, hup]
      rfl
    · rw [hpasses, Bool.eq_false_iff.mpr hup]
      rfl
  | append =>
    obtain ⟨waiters, -, heq⟩ := Option.map_eq_some_iff.mp h
    cases heq
    rfl
  | returned ok => cases h
  | _ =>
    simp only [push, failPush] at h
    split_ifs at h <;> cases h <;> simp_all [Q, globalLockQueue]

/-- The end of `pop` returns `false` from an empty queue. -/
theorem finishPop_returns_false {env : Env ι} {x : Shared ι} {r : Shared ι × PopPC}
    (h : finishPop env x = some r) :
    (∃ out, (globalLockQueue ι capacity options).popReturned r.2 = some (false, out)) ↔
      x.queue_.isEmpty = true := by
  unfold finishPop at h
  split at h
  · rename_i hnil
    cases h
    exact iff_of_true ⟨none, rfl⟩ (by rw [hnil]; rfl)
  · rename_i out rest hcons
    obtain ⟨waiters, -, rfl⟩ := Option.map_eq_some_iff.mp h
    exact iff_of_false (by rintro ⟨_, ⟨⟩⟩) (by rw [hcons]; exact Bool.false_ne_true)

theorem flagLaw_pop {env : Env ι} {i : ι} {x x' : Shared ι} {pc pc' : PopPC}
    (h : pop env i x pc = some (x', pc')) :
    let Q := globalLockQueue ι capacity options
    (∃ out, Q.popReturned pc' = some (false, out)) ↔ Q.leaves env.stop x pc = true := by
  intro Q
  cases pc with
  | waitTest =>
    have hleaves : Q.leaves env.stop x PopPC.waitTest =
      (x.queue_.isEmpty && (x.closed_ || env.stop)) := rfl
    simp only [pop] at h
    split_ifs at h with hready
    · rw [finishPop_returns_false h, hleaves]
      cases hempty : x.queue_.isEmpty <;> simp_all
    · cases h
      refine iff_of_false (by rintro ⟨_, ⟨⟩⟩) ?_
      rw [hleaves]
      simp_all
  | spinTest spins =>
    have hleaves : Q.leaves env.stop x (PopPC.spinTest spins) =
      (x.queue_.isEmpty && (x.closed_ || env.stop)) := rfl
    simp only [pop] at h
    rw [hleaves]
    split_ifs at h with hempty hup
    · cases h
      exact iff_of_true ⟨none, rfl⟩ (by rw [hempty, hup]; rfl)
    · cases h
      exact iff_of_false (by rintro ⟨_, ⟨⟩⟩) (by simp [hempty, hup])
    · rw [finishPop_returns_false h]
      simp [hempty]
  | returned out => cases h
  | _ =>
    simp only [pop] at h
    split_ifs at h <;> cases h <;> exact iff_of_false (by rintro ⟨_, ⟨⟩⟩) Bool.false_ne_true

theorem flagLaw : FlagLaw (globalLockQueue ι capacity options) where
  entry := rfl
  push := flagLaw_push
  apart := by
    intro stop policy x pc h
    cases pc <;> first | rfl | cases h
  pushReturned := by
    intro stop policy x pc ok h
    cases pc <;> cases h
    rfl
  popReturned := by
    intro stop x pc r h
    cases pc <;> cases h
    rfl
  pop := flagLaw_pop

end GlobalLockQueue

namespace SplitLockLinkedQueue

variable [DecidableEq ι] {capacity : ℕ}

theorem flagLaw : FlagLaw (splitLockLinkedQueue ι capacity) where
  entry := rfl
  push := by
    intro env i ev policy x pc x' pc' h
    have h : push env i ev policy x pc = some (x', pc') := h
    cases pc with
    | recheck reserved_slot node =>
      cases h
      cases hclosed : x.closed_ <;> simp [splitLockLinkedQueue, hclosed]
    | link node =>
      obtain ⟨last, -, heq⟩ := Option.map_eq_some_iff.mp h
      cases heq
      rfl
    | returned ok => cases h
    | _ =>
      simp only [push] at h
      try split_ifs at h
      all_goals
        cases h
        rfl
  apart := by
    intro stop policy x pc h
    cases pc <;> first | rfl | cases h
  pushReturned := by
    intro stop policy x pc ok h
    cases pc <;> cases h
    rfl
  popReturned := by
    intro stop x pc r h
    cases pc <;> cases h <;> rfl
  pop := by
    intro env i x pc x' pc' h
    have h : pop env i x pc = some (x', pc') := h
    cases pc with
    | emptyClosed spins =>
      cases h
      cases hclosed : x.closed_ <;> simp [splitLockLinkedQueue, hclosed]
    | emptyStop spins =>
      simp only [pop] at h
      split_ifs at h with hstop <;> cases h <;> simp [splitLockLinkedQueue, hstop]
    | readNext =>
      obtain ⟨old, -, heq⟩ := Option.map_eq_some_iff.mp h
      cases heq
      cases old.next <;> exact iff_of_false (by rintro ⟨_, ⟨⟩⟩) Bool.false_ne_true
    | nullClosed =>
      cases h
      cases hclosed : x.closed_ <;> exact iff_of_false (by rintro ⟨_, ⟨⟩⟩) Bool.false_ne_true
    | unlockNull ok =>
      cases h
      cases ok <;> simp [splitLockLinkedQueue]
    | moveOut old_head new_head =>
      obtain ⟨out, -, heq⟩ := Option.map_eq_some_iff.mp h
      cases heq
      exact iff_of_false (by rintro ⟨_, ⟨⟩⟩) Bool.false_ne_true
    | returned out => cases h
    | returnedNull ok => cases h
    | _ =>
      simp only [pop] at h
      try split_ifs at h
      all_goals
        cases h
        exact iff_of_false (by rintro ⟨_, ⟨⟩⟩) Bool.false_ne_true

end SplitLockLinkedQueue

namespace MpmcRingQueue

variable [DecidableEq ι] {capacity : ℕ}

theorem flagLaw : FlagLaw (mpmcRingQueue ι capacity) where
  entry := rfl
  push := by
    intro env i ev policy x pc x' pc' h
    have h : push env i ev policy x pc = some (x', pc') := h
    cases pc with
    | admitClosed =>
      cases h
      cases x.closed_ <;> rfl
    | admitStop =>
      cases h
      cases env.stop <;> rfl
    | returned ok => cases h
    | _ =>
      simp only [push] at h
      try split_ifs at h
      all_goals
        cases h
        rfl
  apart := by
    intro stop policy x pc h
    cases pc <;> first | rfl | cases h
  pushReturned := by
    intro stop policy x pc ok h
    cases pc <;> cases h
    rfl
  popReturned := by
    intro stop x pc r h
    cases pc <;> cases h
    rfl
  pop := by
    intro env i x pc x' pc' h
    have h : pop env i x pc = some (x', pc') := h
    cases pc with
    | emptyClosed spins =>
      cases h
      cases hclosed : x.closed_ <;> simp [mpmcRingQueue, hclosed]
    | emptyStop spins =>
      simp only [pop] at h
      split_ifs at h with hstop <;> cases h <;> simp [mpmcRingQueue, hstop]
    | returned out => cases h
    | _ =>
      simp only [pop] at h
      try split_ifs at h
      all_goals
        cases h
        exact iff_of_false (by rintro ⟨_, ⟨⟩⟩) Bool.false_ne_true

end MpmcRingQueue

namespace SpscRingQueue

variable {capacity : ℕ}

theorem flagLaw : FlagLaw (spscRingQueue ι capacity) where
  entry := rfl
  push := by
    intro env i ev policy x pc x' pc' h
    have h : push env i ev policy x pc = some (x', pc') := h
    cases pc with
    | loadHead spins tail =>
      simp only [push] at h
      split_ifs at h with hroom hdrop <;> cases h <;> simp [spscRingQueue, hroom]
    | returned ok => cases h
    | _ =>
      simp only [push] at h
      try split_ifs at h
      all_goals
        cases h
        rfl
  apart := by
    intro stop policy x pc h
    cases pc <;> first | rfl | cases h
  pushReturned := by
    intro stop policy x pc ok h
    cases pc <;> cases h
    rfl
  popReturned := by
    intro stop x pc r h
    cases pc <;> cases h
    rfl
  pop := by
    intro env i x pc x' pc' h
    have h : pop env i x pc = some (x', pc') := h
    cases pc with
    | emptyClosed spins =>
      cases h
      cases hclosed : x.closed_ <;> simp [spscRingQueue, hclosed]
    | emptyStop spins =>
      simp only [pop] at h
      split_ifs at h with hstop <;> cases h <;> simp [spscRingQueue, hstop]
    | returned out => cases h
    | _ =>
      simp only [pop] at h
      try split_ifs at h
      all_goals
        cases h
        exact iff_of_false (by rintro ⟨_, ⟨⟩⟩) Bool.false_ne_true

end SpscRingQueue

theorem makeQueue_flagLaw [DecidableEq ι] {max_size : ℕ} {kind : QueueKind} {capacity : ℕ}
    {options : QueueOptions} (h : makeQueue ι max_size kind capacity options = .ok Q) :
    FlagLaw Q := by
  cases kind with
  | globalLock =>
    cases h
    exact GlobalLockQueue.flagLaw
  | splitLockLinked =>
    cases h
    exact SplitLockLinkedQueue.flagLaw
  | mpmcRing =>
    simp only [makeQueue] at h
    split_ifs at h
    cases h
    exact MpmcRingQueue.flagLaw
  | spscRing =>
    simp only [makeQueue] at h
    split_ifs at h
    cases h
    exact SpscRingQueue.flagLaw

/-! ### The events that are stored and those that will be -/

/-- The event is in the queue, or a `push` that has passed its tests will put it there. -/
def QState.Owes (s : QState Q) (ev : Event) : Prop :=
  ev ∈ Q.content s.shared ∨ ∃ i, s.storing i = some ev

variable {s s' : QState Q} {env : Env ι} {i : ι} {ev : Event}

/-- A `push` in progress that will store its event. -/
theorem storing_eq_some_iff : s.storing i = some ev ↔
    ∃ policy pc, s.frame i = some (.push ev policy pc) ∧ Q.willStore pc = true := by
  unfold QState.storing
  split
  · rename_i ev' policy pc hf
    rw [hf]
    simp only [Option.ite_none_right_eq_some, Option.some.injEq, Frame.push.injEq]
    constructor
    · rintro ⟨hwill, rfl⟩
      exact ⟨policy, pc, ⟨rfl, rfl, rfl⟩, hwill⟩
    · rintro ⟨_, _, ⟨rfl, rfl, rfl⟩, hwill⟩
      exact ⟨hwill, rfl⟩
  · rename_i hf
    exact iff_of_false nofun fun ⟨policy, pc, h, _⟩ => hf _ _ _ h

theorem passing_eq_some_iff {stop : Bool} : s.passing stop i = some ev ↔
    ∃ policy pc, s.frame i = some (.push ev policy pc) ∧
      Q.passes stop policy s.shared pc = true := by
  unfold QState.passing
  split
  · rename_i ev' policy pc hf
    rw [hf]
    simp only [Option.ite_none_right_eq_some, Option.some.injEq, Frame.push.injEq]
    constructor
    · rintro ⟨hpasses, rfl⟩
      exact ⟨policy, pc, ⟨rfl, rfl, rfl⟩, hpasses⟩
    · rintro ⟨_, _, ⟨rfl, rfl, rfl⟩, hpasses⟩
      exact ⟨hpasses, rfl⟩
  · rename_i hf
    exact iff_of_false nofun fun ⟨policy, pc, h, _⟩ => hf _ _ _ h

theorem leaves_eq_true_iff {stop : Bool} : s.leaves stop i = true ↔
    ∃ pc, s.frame i = some (.pop pc) ∧ Q.leaves stop s.shared pc = true := by
  unfold QState.leaves
  split
  · rename_i pc hf
    rw [hf]
    simp
  · rename_i hf
    exact iff_of_false nofun fun ⟨pc, h, _⟩ => hf _ h

/-- Who leaves or passes its tests is in the middle of an operation. -/
theorem pop_of_leaves (hlaw : FlagLaw Q) {stop : Bool} (h : s.leaves stop i = true) :
    ∃ pc, s.frame i = some (.pop pc) ∧ Frame.result (Q := Q) (.pop pc) = none := by
  obtain ⟨pc, hf, hpc⟩ := leaves_eq_true_iff.mp h
  refine ⟨pc, hf, ?_⟩
  by_contra hne
  obtain ⟨r, hr⟩ := Option.ne_none_iff_exists'.mp hne
  obtain ⟨r', hr', -⟩ := Option.map_eq_some_iff.mp hr
  rw [hlaw.popReturned hr'] at hpc
  cases hpc

theorem push_of_passing (hlaw : FlagLaw Q) {stop : Bool} (h : s.passing stop i = some ev) :
    ∃ policy pc, s.frame i = some (.push ev policy pc) ∧
      Frame.result (Q := Q) (.push ev policy pc) = none := by
  obtain ⟨policy, pc, hf, hpasses⟩ := passing_eq_some_iff.mp h
  refine ⟨policy, pc, hf, ?_⟩
  by_contra hne
  obtain ⟨r, hr⟩ := Option.ne_none_iff_exists'.mp hne
  obtain ⟨ok, hok, -⟩ := Option.map_eq_some_iff.mp hr
  rw [(Bool.or_eq_false_iff.mp (hlaw.pushReturned hok)).2] at hpasses
  cases hpasses

/-- A `push` that is committed after a step, and was not through, was committed before or passes its
tests in the step. -/
theorem committed_of_push (hlaw : FlagLaw Q) {policy : BackpressurePolicy} {pc pc' : Q.PushPC}
    {x' : Q.Shared} (hf : s.frame i = some (.push ev policy pc))
    (h : Q.push env i ev policy s.shared pc = some (x', pc')) (hnot : Q.hasStored pc = false)
    (hcommitted : (Q.willStore pc' || Q.hasStored pc') = true) :
    s.Owes ev ∨ s.passing env.stop i = some ev := by
  rw [hlaw.push h, hnot, Bool.or_false, Bool.or_eq_true] at hcommitted
  exact hcommitted.imp (fun hwill => .inr ⟨i, storing_eq_some_iff.mpr ⟨_, _, hf, hwill⟩⟩)
    fun hpasses => passing_eq_some_iff.mpr ⟨_, _, hf, hpasses⟩

variable [DecidableEq ι]

theorem storing_call (hlaw : FlagLaw Q) (hi : s.frame i = none) (c : Call) :
    (s.call i c).storing = s.storing := by
  funext j
  simp only [QState.storing, QState.call]
  by_cases hj : j = i
  · subst hj
    rw [Function.update_self, hi]
    cases c with
    | push ev policy => exact if_neg (by rw [hlaw.entry]; exact Bool.false_ne_true)
    | pop => rfl
    | close => rfl
  · rw [Function.update_of_ne hj]

theorem storing_leave (hlaw : FlagLaw Q) {r : Return} (hi : s.returned i = some r) :
    (s.leave i r).storing = s.storing := by
  obtain ⟨f, hf, hres⟩ := returned_eq_some hi
  funext j
  simp only [QState.storing, QState.leave]
  by_cases hj : j = i
  · subst hj
    rw [Function.update_self, hf]
    cases f with
    | push ev policy pc =>
      obtain ⟨ok, hok, -⟩ := Option.map_eq_some_iff.mp hres
      have hlast : (Q.willStore pc || Q.passes false policy s.shared pc) = false :=
        hlaw.pushReturned hok
      have hwill := (Bool.or_eq_false_iff.mp hlast).1
      exact (if_neg (by rw [hwill]; exact Bool.false_ne_true)).symm
    | pop pc => rfl
    | close done => rfl
  · rw [Function.update_of_ne hj]

/-- Entering and leaving an operation changes nothing. -/
theorem owes_call (hlaw : FlagLaw Q) (hi : s.frame i = none) (c : Call) :
    (s.call i c).Owes ev ↔ s.Owes ev := by
  rw [QState.Owes, storing_call hlaw hi]
  exact Iff.rfl

theorem owes_leave (hlaw : FlagLaw Q) {r : Return} (hi : s.returned i = some r) :
    (s.leave i r).Owes ev ↔ s.Owes ev := by
  rw [QState.Owes, storing_leave hlaw hi]
  exact Iff.rfl

variable [Fintype ι] {capacity : Option ℕ} {Allowed : ι → Call → Prop} {A : Abstraction Q}

/-- **What a step of `push` does to the queue**: nothing, or it stores its event. -/
theorem Refines.push_stores (hR : Refines Q capacity Allowed A) (hs : Invariant capacity A s)
    {policy : BackpressurePolicy} {pc pc' : Q.PushPC} {x' : Q.Shared}
    (hf : s.frame i = some (.push ev policy pc))
    (h : Q.push env i ev policy s.shared pc = some (x', pc')) :
    Q.hasStored pc' = Q.hasStored pc ∧ Q.content x' = Q.content s.shared ∨
      Q.hasStored pc = false ∧ Q.hasStored pc' = true ∧
        Q.content x' = Q.content s.shared ++ [ev] := by
  have hmove := (hR.push h hs.toReady hf).move
  have htyped := hmove.of (hs.typed i _ hf)
  have hstowed := hR.hasStored ev policy pc
  have hstowed' := hR.hasStored ev policy pc'
  rw [hR.content, hR.content]
  rcases hmove.effect with ⟨hstored, hsame, -⟩ | ⟨a, hstored, hbefore, hafter, -⟩ |
    ⟨a, -, -, hcarried, -⟩
  · refine .inl ⟨?_, hstored⟩
    have heq := hstowed'.symm.trans (hsame.trans hstowed)
    cases hpc : Q.hasStored pc <;> cases hpc' : Q.hasStored pc' <;> simp_all
  · right
    have hpc := hstowed.symm.trans hbefore
    have hpc' := hstowed'.symm.trans hafter
    cases hb : Q.hasStored pc <;> cases hb' : Q.hasStored pc' <;> simp_all
  · -- A push carries nothing away.
    revert hcarried htyped
    simp only [Abstraction.framePhase, Frame.toCall, Call.operation]
    cases A.pushPhase ev policy pc' <;> simp [Phase.of, Phase.carried]

/-- What is not a `push` adds nothing to the queue. -/
theorem Refines.content_subset (hR : Refines Q capacity Allowed A) (hs : Invariant capacity A s)
    {f : Frame Q} {r : Q.Shared × Frame Q} (hf : s.frame i = some f)
    (hr : QState.stepFrame env i s.shared f = some r)
    (hpush : ∀ ev policy pc, f ≠ .push ev policy pc) :
    Q.content r.1 ⊆ Q.content s.shared := by
  have htyped := hs.typed i f hf
  rw [hR.content, hR.content]
  refine ((hR.sound hs.toReady hf hr).move.shrinks ?_).1.subset
  cases f with
  | push ev policy pc => exact absurd rfl (hpush ev policy pc)
  | pop pc =>
    revert htyped
    simp only [Abstraction.framePhase, Frame.toCall, Call.operation]
    cases A.popPhase pc <;> simp [Phase.of, Phase.isPush]
  | close done => cases done <;> rfl

/-- **A step adds an event where a `push` passes its tests**, and nowhere else. -/
theorem owes_or_passing (hR : Refines Q capacity Allowed A) (hlaw : FlagLaw Q)
    (hs : Invariant capacity A s) (h : s.step env i = some s') (howes : s'.Owes ev) :
    s.Owes ev ∨ s.passing env.stop i = some ev := by
  obtain ⟨f, ⟨x', f'⟩, hf, hr, rfl⟩ := step_eq_some h
  have hframe : (Function.update s.frame i (some f')) i = some f' := Function.update_self ..
  rcases howes with hmem | ⟨j, hj⟩
  · change ev ∈ Q.content x' at hmem
    cases stepFrame_cases hr with
    | @push ev' policy pc _ pc' hstep =>
      rcases hR.push_stores hs hf hstep with ⟨-, hcontent⟩ | ⟨hnot, hstored, hcontent⟩
      · exact .inl (.inl (hcontent ▸ hmem))
      · rw [hcontent, List.mem_append, List.mem_singleton] at hmem
        refine hmem.elim (fun hmem => .inl (.inl hmem)) ?_
        rintro rfl
        exact committed_of_push hlaw hf hstep hnot (by rw [hstored, Bool.or_true])
    | pop hstep => exact .inl (.inl ((hR.content_subset hs hf hr nofun) hmem))
    | close hstep => exact .inl (.inl ((hR.content_subset hs hf hr nofun) hmem))
  · obtain ⟨policy, pc', hf', hwill⟩ := storing_eq_some_iff.mp hj
    change Function.update s.frame i (some f') j = _ at hf'
    by_cases hji : j = i
    · subst hji
      rw [hframe, Option.some.injEq] at hf'
      subst hf'
      cases stepFrame_cases hr with
      | @push _ _ pc _ _ hstep =>
        have hlast : (Q.willStore pc' || Q.passes env.stop policy s.shared pc') = true := by
          rw [hwill, Bool.true_or]
        have hafter := hlaw.apart hlast
        rcases hR.push_stores hs hf hstep with ⟨hsame, -⟩ | ⟨-, hstored, -⟩
        · exact committed_of_push hlaw hf hstep (hsame.symm.trans hafter)
            (by rw [hwill, Bool.true_or])
        · rw [hstored] at hafter
          cases hafter
    · rw [Function.update_of_ne hji] at hf'
      exact .inl (.inr ⟨j, storing_eq_some_iff.mpr ⟨_, _, hf', hwill⟩⟩)

/-- A `push` that has passed its tests keeps its event until it stores it. -/
theorem owes_of_committed (hR : Refines Q capacity Allowed A) (hlaw : FlagLaw Q)
    (hs : Invariant capacity A s) (h : s.step env i = some s')
    (hi : s.storing i = some ev ∨ s.passing env.stop i = some ev) : s'.Owes ev := by
  obtain ⟨policy, pc, hf, hcommitted⟩ : ∃ policy pc, s.frame i = some (.push ev policy pc) ∧
      (Q.willStore pc || Q.passes env.stop policy s.shared pc) = true := by
    rcases hi with hi | hi
    · obtain ⟨policy, pc, hf, hwill⟩ := storing_eq_some_iff.mp hi
      exact ⟨policy, pc, hf, by rw [hwill]; rfl⟩
    · obtain ⟨policy, pc, hf, hpasses⟩ := passing_eq_some_iff.mp hi
      exact ⟨policy, pc, hf, by rw [hpasses, Bool.or_true]⟩
  obtain ⟨f, ⟨x', f'⟩, hf', hr, rfl⟩ := step_eq_some h
  rw [hf, Option.some.injEq] at hf'
  subst hf'
  cases stepFrame_cases hr with
  | @push _ _ _ _ pc' hstep =>
    have hbefore := hlaw.apart hcommitted
    have hafter := hlaw.push hstep
    rw [hbefore, Bool.or_false, hcommitted, Bool.or_eq_true] at hafter
    rcases hafter with hwill | hstored
    · exact .inr ⟨i, storing_eq_some_iff.mpr ⟨_, _, Function.update_self .., hwill⟩⟩
    · rcases hR.push_stores hs hf hstep with ⟨hsame, -⟩ | ⟨-, -, hcontent⟩
      · rw [hstored, hbefore] at hsame
        cases hsame
      · left
        change ev ∈ Q.content x'
        rw [hcontent]
        exact List.mem_append_right _ List.mem_cons_self

/-- **Only a `pop` takes an event away.** -/
theorem Owes.of_step (hR : Refines Q capacity Allowed A) (hlaw : FlagLaw Q)
    (hs : Invariant capacity A s) (h : s.step env i = some s')
    (hgrows : Q.content s.shared <+: Q.content s'.shared) (howes : s.Owes ev) : s'.Owes ev := by
  rcases howes with hmem | ⟨j, hj⟩
  · exact .inl (hgrows.subset hmem)
  · by_cases hji : j = i
    · subst hji
      exact owes_of_committed hR hlaw hs h (.inl hj)
    · obtain ⟨f, r, -, -, rfl⟩ := step_eq_some h
      obtain ⟨policy, pc, hf, hwill⟩ := storing_eq_some_iff.mp hj
      exact .inr ⟨j, storing_eq_some_iff.mpr ⟨_, _, (Function.update_of_ne hji ..).trans hf, hwill⟩⟩

omit [Fintype ι] in
/-- **A `pop` fails where it leaves**, and leaves the queue as it is. -/
theorem leaves_iff (hlaw : FlagLaw Q) (h : s.step env i = some s') :
    s.leaves env.stop i = true ↔ ∃ out, s'.returned i = some (.popped false out) := by
  obtain ⟨f, ⟨x', f'⟩, hf, hr, rfl⟩ := step_eq_some h
  have hret : (QState.returned { s with
      shared := x', frame := Function.update s.frame i (some f') } i) = f'.result := by
    change (Function.update s.frame i (some f') i).bind _ = _
    rw [Function.update_self, Option.bind_some]
  rw [hret, QState.leaves, hf]
  cases stepFrame_cases hr with
  | push hstep => exact iff_of_false nofun (by simp [Frame.result])
  | @pop _ _ pc' hstep =>
    rw [← hlaw.pop hstep]
    simp [Frame.result]
  | close hstep => exact iff_of_false nofun (by simp [Frame.result])

theorem content_of_leaves (hR : Refines Q capacity Allowed A) (hlaw : FlagLaw Q)
    (hs : Invariant capacity A s) (h : s.step env i = some s')
    (hleaves : s.leaves env.stop i = true) : Q.content s'.shared = Q.content s.shared := by
  obtain ⟨out, hret⟩ := (leaves_iff hlaw h).mp hleaves
  obtain ⟨f, ⟨x', f'⟩, hf, hr, rfl⟩ := step_eq_some h
  have hreturned : f'.result = some (.popped false out) := by
    change (Function.update s.frame i (some f') i).bind _ = _ at hret
    rwa [Function.update_self, Option.bind_some] at hret
  have hsound := hR.sound hs.toReady hf hr
  have hphase : A.framePhase f' = .leaving :=
    (hR.reports (s := { s with shared := x', frame := Function.update s.frame i (some f') })
      hsound.inv (Function.update_self ..) hreturned).2
  have hmove := hsound.move
  rw [hphase] at hmove
  change Q.content x' = Q.content s.shared
  rw [hR.content, hR.content]
  rcases hmove.effect with ⟨hstored, -, -⟩ | ⟨a, -, -, hstowed, -⟩ | ⟨a, -, -, hcarried, -⟩
  · exact hstored
  · exact absurd hstowed (Multiset.singleton_ne_zero a).symm
  · exact absurd hcarried (Multiset.singleton_ne_zero a).symm

end Laboratory.QueueLatency
