import Laboratory.QueueLatency.Equiv.MakeQueue
import Laboratory.QueueLatency.Equiv.Tally
import Mathlib.Algebra.BigOperators.Pi
import Mathlib.Algebra.Order.BigOperators.Group.Finset
import Mathlib.Algebra.BigOperators.Ring.Finset
import Mathlib.Algebra.Order.Ring.Int
import Mathlib.Tactic.Zify

/-!
# The statistics of the queues

`stats_balance`: whenever no `push` and no `pop` is in progress, the statistics of each of the four
queues agree with each other, with what the operations have returned and with what is stored, and
so does the counter `depth_` of the two queues that have one; `depth_` is never negative.
-/

namespace Laboratory.QueueLatency

open Concurrency

/-- The attempts without an outcome, the two counters of success, and the depth. -/
def counters (stats : QueueStats) (depth : ℤ) : ℤ × ℤ × ℤ × ℤ :=
  (stats.push_attempts - stats.push_success - stats.push_fail, stats.push_success,
    stats.pop_success, depth)

@[simp]
theorem counters_pause (stats : QueueStats) (spins : ℕ) (depth : ℤ) :
    counters (pause stats spins).1 depth = counters stats depth := by
  unfold pause
  split_ifs <;> rfl

/-! ### Counters and phases -/

section

variable {ι : Type} {Q : IEventQueue ι} {A : Abstraction Q} {T : Tally Q (ℤ × ℤ × ℤ × ℤ)}

/-- An operation may be late with the depth for an event that is stored, but not for one that
another operation may take. -/
def DepthBounded (T : Tally Q (ℤ × ℤ × ℤ × ℤ)) (A : Abstraction Q) : Prop :=
  ∀ f, (T.pending f).2.2.2 + ((A.framePhase f).stowed.card : ℤ) ≤
    (A.framePhase f).hidden + ((A.framePhase f).carried.card : ℤ)

variable {s : QState Q}

/-- Nothing is pending between operations. -/
theorem Tally.pendingOf_of_quiet (hq : s.Quiet) (i : ι) : T.pendingOf (s.frame i) = 0 := by
  cases hf : s.frame i with
  | none => rfl
  | some f =>
    obtain ⟨done, rfl⟩ := hq i f hf
    rfl

variable [Fintype ι] [DecidableEq ι] {capacity : Option ℕ} {Allowed : ι → Call → Prop}

/-- The flow of events, counted. -/
theorem Refines.flow_card (hR : Refines Q capacity Allowed A) (hs : Invariant capacity A s) :
    s.pushed.length + ∑ i, (A.phases s.frame i).stowed.card =
      s.popped.length + ∑ i, (A.phases s.frame i).carried.card +
        (Q.content s.shared).length := by
  have h := congrArg Multiset.card hs.flow
  simp only [Multiset.card_add, Multiset.coe_card, Multiset.card_sum] at h
  rw [hR.content]
  exact h

/-- Between operations the events that have been pushed have been popped or are stored. -/
theorem Refines.pushed_length (hR : Refines Q capacity Allowed A) (hs : Invariant capacity A s)
    (hq : s.Quiet) :
    s.pushed.length = s.popped.length + (Q.content s.shared).length := by
  have h := congrArg Multiset.card (hR.flow_of_quiet hs hq)
  rwa [Multiset.card_add, Multiset.coe_card, Multiset.coe_card, Multiset.coe_card] at h

/-- The books between operations. -/
theorem Tally.Lawful.book_of_quiet (hT : T.Lawful) (h : QReachable Q Allowed s) (hq : s.Quiet) :
    T.book s.shared = s.pushed.length • T.pushed + s.popped.length • T.popped := by
  have hbalanced := hT.balanced h
  rw [Tally.Balanced, Finset.sum_eq_zero fun i _ => Tally.pendingOf_of_quiet hq i,
    add_zero] at hbalanced
  exact hbalanced

/-- **The depth is never negative**: an event that is counted late is still stored, and one that is
discounted late has been counted. -/
theorem depth_nonneg (hR : Refines Q capacity Allowed A) (hT : T.Lawful)
    (hpushed : T.pushed = (0, 1, 0, 1)) (hpopped : T.popped = (0, 0, 1, -1))
    (hbounded : DepthBounded T A) (h : QReachable Q Allowed s) : 0 ≤ (T.book s.shared).2.2.2 := by
  have hs := hR.reachable h
  have hflow := hR.flow_card hs
  have hstored := hs.accounts.avail
  have hbalanced := congrArg (fun x => x.2.2.2) (hT.balanced h)
  simp only [hpushed, hpopped, Prod.snd_add, Prod.snd_sum, Prod.smul_snd] at hbalanced
  have hle : ∑ i, ((T.pendingOf (s.frame i)).2.2.2 + ((A.phases s.frame i).stowed.card : ℤ)) ≤
      ∑ i, (((A.phases s.frame i).hidden : ℤ) + ((A.phases s.frame i).carried.card : ℤ)) := by
    apply Finset.sum_le_sum
    intro i _
    unfold Abstraction.phases
    cases hf : s.frame i with
    | none => exact le_refl 0
    | some f => exact hbounded f
  rw [Finset.sum_add_distrib, Finset.sum_add_distrib] at hle
  rw [hR.content] at hflow
  simp only [nsmul_eq_mul, mul_one, mul_neg] at hbalanced
  zify at hflow hstored
  omega

end

variable {ι : Type}

namespace GlobalLockQueue

def pushing : PushPC → ℤ × ℤ × ℤ × ℤ
  | .lock | .returned false => 0
  | .returned true => (0, -1, 0, 0)
  | _ => (-1, 0, 0, 0)

def popping : PopPC → ℤ × ℤ × ℤ × ℤ
  | .returned (some _) => (0, 0, -1, 0)
  | _ => 0

variable [DecidableEq ι] {capacity : ℕ} {options : QueueOptions}

def tally (ι : Type) [DecidableEq ι] (capacity : ℕ) (options : QueueOptions) :
    Tally (globalLockQueue ι capacity options) (ℤ × ℤ × ℤ × ℤ) where
  book s := counters (Shared.stats_ s) 0
  pushing := pushing
  popping := popping
  pushed := (0, 1, 0, 0)
  popped := (0, 0, 1, 0)

theorem push_counters {env : Env ι} {i : ι} {ev : Event} {policy : BackpressurePolicy}
    {s s' : Shared ι} {pc pc' : PushPC} (h : push env i ev policy s pc = some (s', pc')) :
    counters s'.stats_ 0 + pushing pc' = counters s.stats_ 0 + pushing pc := by
  cases pc with
  | append =>
    obtain ⟨waiters, -, heq⟩ := Option.map_eq_some_iff.mp h
    cases heq
    simp [counters, pushing, updateMaxDepth]
    omega
  | relock spins =>
    simp only [push] at h
    split_ifs at h
    cases h
    simp [pushing]
  | returned ok => cases h
  | _ =>
    simp only [push, failPush] at h
    split_ifs at h <;> cases h <;> simp [counters, pushing] <;> omega

theorem pop_counters {env : Env ι} {i : ι} {s s' : Shared ι} {pc pc' : PopPC}
    (h : pop env i s pc = some (s', pc')) :
    counters s'.stats_ 0 + popping pc' = counters s.stats_ 0 + popping pc := by
  have hfinish : ∀ {r}, finishPop env s = some r →
      counters r.1.stats_ 0 + popping r.2 = counters s.stats_ 0 := by
    intro r hr
    unfold finishPop at hr
    split at hr
    · cases hr
      simp [popping]
    · obtain ⟨waiters, -, rfl⟩ := Option.map_eq_some_iff.mp hr
      simp [counters, popping]
  cases pc with
  | waitTest =>
    simp only [pop] at h
    split_ifs at h
    · exact (hfinish h).trans (add_zero _).symm
    · cases h
      simp [popping]
  | spinTest spins =>
    simp only [pop] at h
    split_ifs at h
    · cases h
      simp [counters, popping]
    · cases h
      simp [counters, popping]
    · exact (hfinish h).trans (add_zero _).symm
  | relock spins =>
    simp only [pop] at h
    split_ifs at h
    cases h
    simp [popping]
  | returned out => cases h
  | _ =>
    simp only [pop] at h
    split_ifs at h <;> cases h <;> simp [counters, popping]

theorem tally_lawful : (tally ι capacity options).Lawful where
  init := rfl
  pushEntry := rfl
  popEntry := rfl
  push := push_counters
  pop := pop_counters
  close := by
    intro i s s' h
    obtain ⟨-, h⟩ := Option.ite_none_right_eq_some.mp h
    cases h
    rfl
  pushReturned := by
    intro pc ok h
    cases pc <;> cases h
    cases ok <;> rfl
  popReturned := by
    intro pc ok out h
    cases pc <;> cases h
    cases out <;> rfl

end GlobalLockQueue

namespace SplitLockLinkedQueue

def pushing : PushPC → ℤ × ℤ × ℤ × ℤ
  | .entry | .unlockFailed | .returned false => 0
  | .unlockTail | .release => (-1, 0, 0, -1)
  | .returned true => (0, -1, 0, -1)
  | _ => (-1, 0, 0, 0)

def popping : PopPC → ℤ × ℤ × ℤ × ℤ
  | .unlockHead _ _ | .deleteOld _ _ | .release _ => (0, 0, 0, 1)
  | .returned (some _) => (0, 0, -1, 1)
  | _ => 0

variable [DecidableEq ι] {capacity : ℕ}

def tally (ι : Type) [DecidableEq ι] (capacity : ℕ) :
    Tally (splitLockLinkedQueue ι capacity) (ℤ × ℤ × ℤ × ℤ) where
  book s := counters (Shared.stats_ s) (Shared.depth_ s)
  pushing := pushing
  popping := popping
  pushed := (0, 1, 0, 1)
  popped := (0, 0, 1, -1)

omit [DecidableEq ι] in
theorem push_counters {env : Env ι} {i : ι} {ev : Event} {policy : BackpressurePolicy}
    {s s' : Shared ι} {pc pc' : PushPC} (h : push env i ev policy s pc = some (s', pc')) :
    counters s'.stats_ s'.depth_ + pushing pc' = counters s.stats_ s.depth_ + pushing pc := by
  cases pc with
  | link node =>
    obtain ⟨last, -, heq⟩ := Option.map_eq_some_iff.mp h
    cases heq
    simp [pushing]
  | recheck reserved_slot node =>
    cases h
    split_ifs <;> simp [pushing]
  | fullStop spins =>
    simp only [push] at h
    split_ifs at h <;> cases h <;> simp [pushing]
    simp [counters]
    omega
  | returned ok => cases h
  | addDepth =>
    cases h
    simp [counters, pushing, updateMaxDepth]
  | _ =>
    simp only [push] at h
    try split_ifs at h
    all_goals cases h
    all_goals simp [counters, pushing]
    all_goals omega

omit [DecidableEq ι] in
theorem pop_counters {env : Env ι} {i : ι} {s s' : Shared ι} {pc pc' : PopPC}
    (h : pop env i s pc = some (s', pc')) :
    counters s'.stats_ s'.depth_ + popping pc' = counters s.stats_ s.depth_ + popping pc := by
  cases pc with
  | readNext =>
    obtain ⟨old, -, heq⟩ := Option.map_eq_some_iff.mp h
    cases heq
    split <;> simp [popping]
  | moveOut old_head new_head =>
    obtain ⟨out, -, heq⟩ := Option.map_eq_some_iff.mp h
    cases heq
    simp [popping]
  | emptyClosed spins =>
    cases h
    split_ifs <;> simp [popping]
  | nullClosed =>
    cases h
    split_ifs <;> simp [popping]
  | returned out => cases h
  | returnedNull ok => cases h
  | subDepth old_head out =>
    cases h
    simp [counters, popping]
  | release out =>
    cases h
    simp [counters, popping]
  | _ =>
    simp only [pop] at h
    try split_ifs at h
    all_goals cases h
    all_goals simp [popping]
    all_goals simp [counters]

theorem tally_lawful : (tally ι capacity).Lawful where
  init := rfl
  pushEntry := rfl
  popEntry := rfl
  push := push_counters
  pop := pop_counters
  close := by
    intro i s s' h
    cases h
    rfl
  pushReturned := by
    intro pc ok h
    cases pc <;> cases h
    cases ok <;> rfl
  popReturned := by
    intro pc ok out h
    cases pc <;> cases h
    · rename_i out
      cases out <;> rfl
    · cases ok <;> rfl

theorem depth_bounded : DepthBounded (tally ι capacity) (abstraction ι capacity) := by
  rintro (⟨ev, policy, pc⟩ | pc | done)
  · cases pc with
    | returned ok => cases ok <;> simp [tally, pushing, abstraction, pushPhase, Tally.pending,
        Abstraction.framePhase, Phase.stowed, Phase.hidden, Phase.carried]
    | _ => simp [tally, pushing, abstraction, pushPhase, Tally.pending, Abstraction.framePhase,
        Phase.stowed, Phase.hidden, Phase.carried]
  · cases pc with
    | returned out => cases out <;> simp [tally, popping, abstraction, popPhase, Tally.pending,
        Abstraction.framePhase, Phase.stowed, Phase.hidden, Phase.carried]
    | _ => simp [tally, popping, abstraction, popPhase, Tally.pending, Abstraction.framePhase,
        Phase.stowed, Phase.hidden, Phase.carried]
  · cases done <;> simp [Tally.pending, Abstraction.framePhase, Phase.stowed, Phase.hidden,
      Phase.carried]

end SplitLockLinkedQueue

namespace MpmcRingQueue

def pushing : PushPC → ℤ × ℤ × ℤ × ℤ
  | .entry | .returned false => 0
  | .unlockTail | .release => (-1, 0, 0, -1)
  | .returned true => (0, -1, 0, -1)
  | _ => (-1, 0, 0, 0)

def popping : PopPC → ℤ × ℤ × ℤ × ℤ
  | .unlockHead _ | .release _ => (0, 0, 0, 1)
  | .returned (some _) => (0, 0, -1, 1)
  | _ => 0

variable [DecidableEq ι] {capacity : ℕ}

def tally (ι : Type) [DecidableEq ι] (capacity : ℕ) :
    Tally (mpmcRingQueue ι capacity) (ℤ × ℤ × ℤ × ℤ) where
  book s := counters (Shared.stats_ s) (Shared.depth_ s)
  pushing := pushing
  popping := popping
  pushed := (0, 1, 0, 1)
  popped := (0, 0, 1, -1)

omit [DecidableEq ι] in
theorem push_counters {env : Env ι} {i : ι} {ev : Event} {policy : BackpressurePolicy}
    {s s' : Shared ι} {pc pc' : PushPC} (h : push env i ev policy s pc = some (s', pc')) :
    counters s'.stats_ s'.depth_ + pushing pc' = counters s.stats_ s.depth_ + pushing pc := by
  cases pc with
  | admitClosed =>
    cases h
    split_ifs <;> simp [pushing]
  | admitStop =>
    cases h
    split_ifs <;> simp [pushing]
  | fullStop spins =>
    simp only [push] at h
    split_ifs at h <;> cases h
    · simp [counters, pushing]
      omega
    · simp [pushing]
  | addDepth =>
    cases h
    simp [counters, pushing, updateMaxDepth]
  | returned ok => cases h
  | _ =>
    simp only [push] at h
    try split_ifs at h
    all_goals cases h
    all_goals simp [counters, pushing]
    all_goals omega

omit [DecidableEq ι] in
theorem pop_counters {env : Env ι} {i : ι} {s s' : Shared ι} {pc pc' : PopPC}
    (h : pop env i s pc = some (s', pc')) :
    counters s'.stats_ s'.depth_ + popping pc' = counters s.stats_ s.depth_ + popping pc := by
  cases pc with
  | emptyClosed spins =>
    cases h
    split_ifs <;> simp [popping]
  | emptyStop spins =>
    simp only [pop] at h
    split_ifs at h <;> cases h <;> simp [popping]
  | returned out => cases h
  | _ =>
    simp only [pop] at h
    try split_ifs at h
    all_goals cases h
    all_goals simp [counters, popping]

theorem tally_lawful : (tally ι capacity).Lawful where
  init := rfl
  pushEntry := rfl
  popEntry := rfl
  push := push_counters
  pop := pop_counters
  close := by
    intro i s s' h
    cases h
    rfl
  pushReturned := by
    intro pc ok h
    cases pc <;> cases h
    cases ok <;> rfl
  popReturned := by
    intro pc ok out h
    cases pc <;> cases h
    cases out <;> rfl

theorem depth_bounded : DepthBounded (tally ι capacity) (abstraction ι capacity) := by
  rintro (⟨ev, policy, pc⟩ | pc | done)
  · cases pc with
    | returned ok => cases ok <;> simp [tally, pushing, abstraction, pushPhase, Tally.pending,
        Abstraction.framePhase, Phase.stowed, Phase.hidden, Phase.carried]
    | _ => simp [tally, pushing, abstraction, pushPhase, Tally.pending, Abstraction.framePhase,
        Phase.stowed, Phase.hidden, Phase.carried]
  · cases pc with
    | returned out => cases out <;> simp [tally, popping, abstraction, popPhase, Tally.pending,
        Abstraction.framePhase, Phase.stowed, Phase.hidden, Phase.carried]
    | _ => simp [tally, popping, abstraction, popPhase, Tally.pending, Abstraction.framePhase,
        Phase.stowed, Phase.hidden, Phase.carried]
  · cases done <;> simp [Tally.pending, Abstraction.framePhase, Phase.stowed, Phase.hidden,
      Phase.carried]

end MpmcRingQueue

namespace SpscRingQueue

def pushing : PushPC → ℤ × ℤ × ℤ × ℤ
  | .entry | .returned false => 0
  | .returned true => (0, -1, 0, 0)
  | _ => (-1, 0, 0, 0)

def popping : PopPC → ℤ × ℤ × ℤ × ℤ
  | .returned (some _) => (0, 0, -1, 0)
  | _ => 0

variable {capacity : ℕ}

def tally (ι : Type) (capacity : ℕ) : Tally (spscRingQueue ι capacity) (ℤ × ℤ × ℤ × ℤ) where
  book s := counters (Shared.stats_ s) 0
  pushing := pushing
  popping := popping
  pushed := (0, 1, 0, 0)
  popped := (0, 0, 1, 0)

theorem push_counters {env : Env ι} {i : ι} {ev : Event} {policy : BackpressurePolicy}
    {s s' : Shared} {pc pc' : PushPC} (h : push env i ev policy s pc = some (s', pc')) :
    counters s'.stats_ 0 + pushing pc' = counters s.stats_ 0 + pushing pc := by
  cases pc with
  | loadHead spins tail =>
    simp only [push] at h
    split_ifs at h <;> cases h
    · simp [pushing]
    · simp [counters, pushing]
      omega
    · simp only [counters_pause, pushing]
      rfl
  | updateDepth next head =>
    cases h
    simp [counters, pushing, updateMaxDepth]
    omega
  | returned ok => cases h
  | _ =>
    simp only [push] at h
    try split_ifs at h
    all_goals cases h
    all_goals simp [counters, pushing]
    all_goals omega

theorem pop_counters {env : Env ι} {i : ι} {s s' : Shared} {pc pc' : PopPC}
    (h : pop env i s pc = some (s', pc')) :
    counters s'.stats_ 0 + popping pc' = counters s.stats_ 0 + popping pc := by
  cases pc with
  | emptyClosed spins =>
    cases h
    split_ifs <;> simp [popping]
  | emptyStop spins =>
    simp only [pop] at h
    split_ifs at h <;> cases h <;> simp [popping]
  | returned out => cases h
  | _ =>
    simp only [pop] at h
    try split_ifs at h
    all_goals cases h
    all_goals simp [counters, popping]

theorem tally_lawful : (tally ι capacity).Lawful where
  init := rfl
  pushEntry := rfl
  popEntry := rfl
  push := by
    intro env i ev policy s pc s' pc' h
    exact push_counters (i := i) h
  pop := by
    intro env i s pc s' pc' h
    exact pop_counters (i := i) h
  close := by
    intro i s s' h
    cases h
    rfl
  pushReturned := by
    intro pc ok h
    cases pc <;> cases h
    cases ok <;> rfl
  popReturned := by
    intro pc ok out h
    cases pc <;> cases h
    cases out <;> rfl

end SpscRingQueue

/-! ### Balance -/

variable {Q : IEventQueue ι}

/-- The statistics agree with each other, with the events that `pop` has returned and with the
events that are stored. -/
structure StatsBalance (s : QState Q) : Prop where
  attempts : (Q.stats s.shared).push_attempts =
    (Q.stats s.shared).push_success + (Q.stats s.shared).push_fail
  stored : (Q.stats s.shared).push_success =
    (Q.stats s.shared).pop_success + (Q.content s.shared).length
  popped : (Q.stats s.shared).pop_success = s.popped.length

variable [Fintype ι] [DecidableEq ι]

/-- A queue whose books are kept is in balance between operations. -/
theorem Refines.statsBalance {A : Abstraction Q} {T : Tally Q (ℤ × ℤ × ℤ × ℤ)}
    {capacity : Option ℕ} {Allowed : ι → Call → Prop} {s : QState Q}
    (hR : Refines Q capacity Allowed A) (hT : T.Lawful) {m n : ℤ} {depth : Q.Shared → ℤ}
    (hbook : ∀ x, T.book x = counters (Q.stats x) (depth x)) (hpushed : T.pushed = (0, 1, 0, m))
    (hpopped : T.popped = (0, 0, 1, n)) (h : QReachable Q Allowed s) (hq : s.Quiet) :
    StatsBalance s := by
  have hlength := hR.pushed_length (hR.reachable h) hq
  have heq := hT.book_of_quiet h hq
  rw [hbook, hpushed, hpopped] at heq
  simp only [counters, Prod.smul_mk, Prod.mk_add_mk, Prod.mk.injEq, nsmul_eq_mul, mul_one] at heq
  obtain ⟨hattempts, hsuccess, hpops, -⟩ := heq
  exact ⟨by omega, by omega, by omega⟩

/-- Between operations the depth is the number of stored events. -/
theorem Refines.depth_eq {A : Abstraction Q} {T : Tally Q (ℤ × ℤ × ℤ × ℤ)}
    {capacity : Option ℕ} {Allowed : ι → Call → Prop} {s : QState Q}
    (hR : Refines Q capacity Allowed A) (hT : T.Lawful) (hpushed : T.pushed = (0, 1, 0, 1))
    (hpopped : T.popped = (0, 0, 1, -1)) (h : QReachable Q Allowed s) (hq : s.Quiet) :
    (T.book s.shared).2.2.2 = (Q.content s.shared).length := by
  have hlength := hR.pushed_length (hR.reachable h) hq
  have heq := congrArg (fun x => x.2.2.2) (hT.book_of_quiet h hq)
  simp only [hpushed, hpopped, Prod.snd_add, Prod.smul_snd] at heq
  simp only [nsmul_eq_mul, mul_one, mul_neg] at heq
  omega

/-- When nobody is in a call, the statistics are in balance and what has been pushed has been popped
or is stored. -/
theorem makeQueue_statsBalance {max_size : ℕ} {kind : QueueKind} {capacity : ℕ}
    {options : QueueOptions} {Q : IEventQueue ι} (p k : ι)
    (hQ : makeQueue ι max_size kind capacity options = .ok Q) {s : QState Q}
    (h : QReachable Q (Disciplined kind p k) s) (hquiet : s.Quiet) :
    StatsBalance s ∧ s.pushed.length = s.popped.length + (Q.content s.shared).length := by
  obtain ⟨bound, A, hR⟩ := makeQueue_follows p k hQ
  refine ⟨?_, hR.pushed_length (hR.reachable h) hquiet⟩
  cases kind with
  | globalLock =>
    cases hQ
    exact hR.statsBalance GlobalLockQueue.tally_lawful (fun _ => rfl) rfl rfl h hquiet
  | splitLockLinked =>
    cases hQ
    exact hR.statsBalance SplitLockLinkedQueue.tally_lawful (fun _ => rfl) rfl rfl h hquiet
  | mpmcRing =>
    simp only [makeQueue] at hQ
    split_ifs at hQ
    cases hQ
    exact hR.statsBalance MpmcRingQueue.tally_lawful (fun _ => rfl) rfl rfl h hquiet
  | spscRing =>
    simp only [makeQueue] at hQ
    split_ifs at hQ
    cases hQ
    exact hR.statsBalance SpscRingQueue.tally_lawful (fun _ => rfl) rfl rfl h hquiet

/-- **The statistics of the four queues**, for any threads, any policy and any order of steps,
`close` and changes of the stop flag included.  Whenever no `push` and no `pop` is in progress they
are in balance, a `pop` that returns `true` returns an event, and `depth_` is the number of stored
events; at no step is `depth_` negative. -/
theorem stats_balance (max_size capacity : ℕ) (kind : QueueKind) (options : QueueOptions)
    (p k : ι) :
    (∀ Q, makeQueue ι max_size kind capacity options = .ok Q →
      ∀ s, QReachable Q (Disciplined kind p k) s →
        (s.Quiet → StatsBalance s) ∧
        ∀ i out, s.returned i = some (.popped true out) → ∃ ev, out = some ev) ∧
    (∀ s : QState (splitLockLinkedQueue ι capacity), QReachable _ (fun _ _ => True) s →
      0 ≤ SplitLockLinkedQueue.Shared.depth_ s.shared ∧
      (s.Quiet → SplitLockLinkedQueue.Shared.depth_ s.shared =
        ((splitLockLinkedQueue ι capacity).content s.shared).length)) ∧
    (0 < capacity → ∀ s : QState (mpmcRingQueue ι capacity), QReachable _ (fun _ _ => True) s →
      0 ≤ MpmcRingQueue.Shared.depth_ s.shared ∧
      (s.Quiet → MpmcRingQueue.Shared.depth_ s.shared =
        ((mpmcRingQueue ι capacity).content s.shared).length)) := by
  refine ⟨fun Q hQ s h => ⟨fun hq => (makeQueue_statsBalance p k hQ h hq).1, fun i out hr => ?_⟩,
    fun s h => ?_, fun hcap s h => ?_⟩
  · obtain ⟨bound, A, hR⟩ := makeQueue_follows p k hQ
    obtain ⟨f, hf, hres⟩ := returned_eq_some hr
    obtain ⟨ev, hev, -⟩ := (hR.reports (hR.reachable h).inv hf hres).2
    exact ⟨ev, hev⟩
  · have hR := SplitLockLinkedQueue.refines (ι := ι) capacity
    exact ⟨depth_nonneg hR SplitLockLinkedQueue.tally_lawful rfl rfl
      SplitLockLinkedQueue.depth_bounded h, hR.depth_eq SplitLockLinkedQueue.tally_lawful rfl rfl h⟩
  · have hR := MpmcRingQueue.refines (ι := ι) hcap
    exact ⟨depth_nonneg hR MpmcRingQueue.tally_lawful rfl rfl MpmcRingQueue.depth_bounded h,
      hR.depth_eq MpmcRingQueue.tally_lawful rfl rfl h⟩

open QState.Turn in
/-- A push to a queue of capacity `1`, and one that is dropped. -/
def dropTurns : List (QState.Turn Bool) :=
  call true (.push {} .drop) :: List.replicate 10 (step { addr := 1 } true) ++
    [leave true, call true (.push {} .drop), step {} true, step {} true, leave true]

def dropState : QState (splitLockLinkedQueue Bool 1) :=
  ((QState.start _).run dropTurns).get (by decide)

theorem stats_balance_drop :
    (SplitLockLinkedQueue.Shared.stats_ dropState.shared).push_attempts = 2 ∧
      (SplitLockLinkedQueue.Shared.stats_ dropState.shared).push_fail = 1 ∧
      StatsBalance dropState ∧ SplitLockLinkedQueue.Shared.depth_ dropState.shared = 1 := by
  have hquiet : dropState.Quiet := by
    intro i f hf
    cases i <;> cases hf
  have hreach {Allowed : Bool → Call → Prop} (hmay : ∀ i c, Allowed i c) :
      QReachable (splitLockLinkedQueue Bool 1) Allowed dropState :=
    QState.steps_of_run (fun i c _ => hmay i c) (Option.some_get _).symm
  obtain ⟨hstats, hdepth, -⟩ := stats_balance 1 1 .splitLockLinked {} true false
  refine ⟨rfl, rfl, (hstats _ rfl _ (hreach fun _ _ => nofun)).1 hquiet, ?_⟩
  exact (hdepth _ (hreach fun _ _ => trivial)).2 hquiet

end Laboratory.QueueLatency
