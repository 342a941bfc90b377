import Laboratory.QueueLatency.Equiv.GlobalLockQueue
import Laboratory.QueueLatency.Equiv.MpmcRingQueue
import Laboratory.QueueLatency.Equiv.SplitLockLinkedQueue
import Laboratory.QueueLatency.Equiv.SpscRingQueue
import Laboratory.QueueLatency.MakeQueue

/-!
# Every queue that `makeQueue` returns follows the permit protocol
-/

namespace Laboratory.QueueLatency

variable {ι : Type} [DecidableEq ι]

/-- A ring for one producer and one consumer needs threads that keep to it; the other queues do
not mind. -/
def Disciplined (kind : QueueKind) (p k : ι) (i : ι) (c : Call) : Prop :=
  kind = .spscRing → SpscRingQueue.Discipline p k i c

/-- **A queue follows the permit protocol**, with some bound and some reading of its fields. -/
def FollowsProtocol [Fintype ι] (Q : IEventQueue ι) (Allowed : ι → Call → Prop) : Prop :=
  ∃ (bound : Option ℕ) (A : Abstraction Q), Refines Q bound Allowed A

/-- A weaker rule for the calls is harder to follow. -/
theorem Refines.weaken [Fintype ι] {Q : IEventQueue ι} {bound : Option ℕ} {A : Abstraction Q}
    {Allowed Allowed' : ι → Call → Prop} (hR : Refines Q bound Allowed A)
    (h : ∀ i c, Allowed' i c → Allowed i c) : Refines Q bound Allowed' A :=
  { hR with enter := fun hmay => hR.enter (h _ _ hmay) }

theorem makeQueue_follows [Fintype ι] {max_size : ℕ} {kind : QueueKind} {capacity : ℕ}
    {options : QueueOptions} {Q : IEventQueue ι} (p k : ι)
    (h : makeQueue ι max_size kind capacity options = .ok Q) :
    FollowsProtocol Q (Disciplined kind p k) := by
  cases kind with
  | globalLock =>
    cases h
    exact ⟨_, _, (GlobalLockQueue.refines capacity options).weaken fun _ _ _ => trivial⟩
  | splitLockLinked =>
    cases h
    exact ⟨_, _, (SplitLockLinkedQueue.refines capacity).weaken fun _ _ _ => trivial⟩
  | mpmcRing =>
    simp only [makeQueue] at h
    split_ifs at h with hsize hzero
    cases h
    exact ⟨_, _, (MpmcRingQueue.refines (Nat.pos_of_ne_zero hzero)).weaken fun _ _ _ => trivial⟩
  | spscRing =>
    simp only [makeQueue] at h
    split_ifs at h with hsize hzero
    cases h
    obtain ⟨A, hR⟩ := SpscRingQueue.exists_refines capacity p k
    exact ⟨_, A, hR.weaken fun _ _ hd => hd rfl⟩

end Laboratory.QueueLatency
