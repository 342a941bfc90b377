import Laboratory.QueueLatency.Equiv.MpmcRingQueue
import Laboratory.QueueLatency.Equiv.SpscRingQueue
import Laboratory.QueueLatency.MakeQueue

/-!
# The indices of the rings

`ring_bounds`: in both rings `head_` and `tail_` stay inside the buffer, however many threads push
and pop, and so does every index a thread has loaded from them.  The one capacity for which this
fails is the greatest `size_t`: `SpscRingQueue` adds one to it, and the buffer has no slot at all
(`write_out_of_bounds`).
-/

namespace Laboratory.QueueLatency

variable {ι : Type} {capacity : ℕ} {Allowed : ι → Call → Prop} {env : Env ι} {i : ι}

namespace SpscRingQueue

variable {x x' : Shared}

/-- The indices are inside the buffer, which has `ring_capacity_` slots, and so is the slot that a
thread is about to write or to read. -/
structure InBounds (s : QState (spscRingQueue ι capacity)) : Prop where
  head : Shared.head_ s.shared < Shared.ring_capacity_ s.shared
  tail : Shared.tail_ s.shared < Shared.ring_capacity_ s.shared
  write : ∀ i ev policy tail next head,
    s.frame i = some (.push ev policy (PushPC.write tail next head)) →
      tail < Shared.ring_capacity_ s.shared
  copy : ∀ i head, s.frame i = some (.pop (PopPC.copy head)) →
    head < Shared.ring_capacity_ s.shared

/-- The fields stay inside a buffer of `n` slots. -/
structure Indexed (n : ℕ) (x : Shared) : Prop where
  capacity : x.ring_capacity_ = n
  head : x.head_ < n
  tail : x.tail_ < n

/-- The indices that a push has loaded and will use. -/
def PushPC.Indexed (n : ℕ) : PushPC → Prop
  | .loadHead _ tail => tail < n
  | .write tail next _ => tail < n ∧ next < n
  | .storeTail next _ => next < n
  | _ => True

def PopPC.Indexed (n : ℕ) : PopPC → Prop
  | .loadTail _ head | .copy head | .storeHead head _ => head < n
  | _ => True

def FrameIndexed (n : ℕ) : Option (Frame (spscRingQueue ι capacity)) → Prop
  | some (.push _ _ pc) => PushPC.Indexed n pc
  | some (.pop pc) => PopPC.Indexed n pc
  | _ => True

/-- The index after one inside the buffer is inside the buffer. -/
theorem nextIndex_lt {n idx : ℕ} (hx : x.ring_capacity_ = n) (hn : n < 2 ^ 64) (hidx : idx < n) :
    nextIndex x idx < n := by
  rw [nextIndex, hx, Nat.mod_eq_of_lt (by omega)]
  split_ifs <;> omega

theorem push_indexed {n : ℕ} (hn : n < 2 ^ 64) {ev : Event} {policy : BackpressurePolicy}
    {pc pc' : PushPC} (h : push env i ev policy x pc = some (x', pc')) (hx : Indexed n x)
    (hpc : pc.Indexed n) : Indexed n x' ∧ pc'.Indexed n := by
  obtain ⟨hcap, hhead, htail⟩ := hx
  cases pc with
  | loadTail spins =>
    cases h
    exact ⟨⟨hcap, hhead, htail⟩, htail⟩
  | loadHead spins tail =>
    simp only [push] at h
    split_ifs at h <;> cases h
    · exact ⟨⟨hcap, hhead, htail⟩, hpc, nextIndex_lt hcap hn hpc⟩
    · exact ⟨⟨hcap, hhead, htail⟩, trivial⟩
    · exact ⟨⟨hcap, hhead, htail⟩, trivial⟩
  | write tail next head =>
    simp only [push] at h
    split_ifs at h
    cases h
    exact ⟨⟨hcap, hhead, htail⟩, hpc.2⟩
  | storeTail next head =>
    cases h
    exact ⟨⟨hcap, hhead, hpc⟩, trivial⟩
  | returned ok => cases h
  | _ =>
    simp only [push] at h
    try split_ifs at h
    all_goals
      cases h
      exact ⟨⟨hcap, hhead, htail⟩, trivial⟩

theorem pop_indexed {n : ℕ} (hn : n < 2 ^ 64) {pc pc' : PopPC}
    (h : pop env i x pc = some (x', pc')) (hx : Indexed n x) (hpc : pc.Indexed n) :
    Indexed n x' ∧ pc'.Indexed n := by
  obtain ⟨hcap, hhead, htail⟩ := hx
  cases pc with
  | loadHead spins =>
    cases h
    exact ⟨⟨hcap, hhead, htail⟩, hhead⟩
  | loadTail spins head =>
    simp only [pop] at h
    split_ifs at h <;> cases h
    · exact ⟨⟨hcap, hhead, htail⟩, hpc⟩
    · exact ⟨⟨hcap, hhead, htail⟩, trivial⟩
  | copy head =>
    cases h
    exact ⟨⟨hcap, hhead, htail⟩, hpc⟩
  | storeHead head out =>
    cases h
    exact ⟨⟨hcap, nextIndex_lt hcap hn hpc, htail⟩, trivial⟩
  | emptyClosed spins =>
    cases h
    refine ⟨⟨hcap, hhead, htail⟩, ?_⟩
    split_ifs <;> trivial
  | emptyStop spins =>
    simp only [pop] at h
    split_ifs at h <;> cases h <;> exact ⟨⟨hcap, hhead, htail⟩, trivial⟩
  | returned out => cases h

theorem stepFrame_indexed {n : ℕ} (hn : n < 2 ^ 64) {f f' : Frame (spscRingQueue ι capacity)}
    (h : QState.stepFrame env i x f = some (x', f')) (hx : Indexed n x)
    (hf : FrameIndexed n (some f)) : Indexed n x' ∧ FrameIndexed n (some f') := by
  cases stepFrame_cases h with
  | push h => exact push_indexed (i := i) hn h hx hf
  | pop h => exact pop_indexed (i := i) hn h hx hf
  | close h =>
    cases h
    exact ⟨⟨hx.capacity, hx.head, hx.tail⟩, trivial⟩

/-- **The indices stay inside the buffer**, if it has a slot. -/
theorem inBounds_of_reachable [DecidableEq ι] (hslot : 0 < (capacity + 1) % 2 ^ 64)
    {s : QState (spscRingQueue ι capacity)}
    (h : QReachable (spscRingQueue ι capacity) Allowed s) : InBounds s := by
  have hn : (capacity + 1) % 2 ^ 64 < 2 ^ 64 := Nat.mod_lt _ (by decide)
  have hlocal : Local (Indexed ((capacity + 1) % 2 ^ 64))
      (fun _ _ => FrameIndexed ((capacity + 1) % 2 ^ 64)) s.shared s.frame := by
    refine Local.reachable ⟨rfl, hslot, hslot⟩ (fun _ _ => trivial) ?_ ?_ h
    · intro i x c _
      cases c <;> trivial
    · intro env i x f x' f' hr hx hf
      obtain ⟨hx', hf'⟩ := stepFrame_indexed hn hr hx hf
      exact ⟨hx', hf', fun _ _ _ hg => hg⟩
  obtain ⟨⟨hcap, hhead, htail⟩, hthread⟩ := hlocal
  refine ⟨by rwa [hcap], by rwa [hcap], ?_, ?_⟩
  · intro i ev policy tail next head hf
    have hi := hthread i
    rw [hf] at hi
    rw [hcap]
    exact hi.1
  · intro i head hf
    have hi := hthread i
    rw [hf] at hi
    rw [hcap]
    exact hi

end SpscRingQueue

namespace MpmcRingQueue

variable [DecidableEq ι]

variable {x x' : Shared ι}

/-- The indices are inside the buffer; a thread reads and writes the slots they name. -/
structure InBounds (s : QState (mpmcRingQueue ι capacity)) : Prop where
  head : Shared.head_ s.shared < Shared.ring_capacity_ s.shared
  tail : Shared.tail_ s.shared < Shared.ring_capacity_ s.shared

/-- The fields stay inside a buffer of `n` slots. -/
structure Indexed (n : ℕ) (x : Shared ι) : Prop where
  capacity : x.ring_capacity_ = n
  head : x.head_ < n
  tail : x.tail_ < n

omit [DecidableEq ι] in
theorem nextIndex_lt {n idx : ℕ} (hx : x.ring_capacity_ = n) (hidx : idx < n) :
    nextIndex x idx < n := by
  rw [nextIndex, hx]
  split_ifs <;> omega

omit [DecidableEq ι] in
theorem push_indexed {n : ℕ} {ev : Event} {policy : BackpressurePolicy} {pc pc' : PushPC}
    (h : push env i ev policy x pc = some (x', pc')) (hx : Indexed n x) : Indexed n x' := by
  obtain ⟨hcap, hhead, htail⟩ := hx
  cases pc with
  | advance =>
    cases h
    exact ⟨hcap, hhead, nextIndex_lt hcap htail⟩
  | returned ok => cases h
  | _ =>
    simp only [push] at h
    try split_ifs at h
    all_goals
      cases h
      exact ⟨hcap, hhead, htail⟩

omit [DecidableEq ι] in
theorem pop_indexed {n : ℕ} {pc pc' : PopPC} (h : pop env i x pc = some (x', pc'))
    (hx : Indexed n x) : Indexed n x' := by
  obtain ⟨hcap, hhead, htail⟩ := hx
  cases pc with
  | advance out =>
    cases h
    exact ⟨hcap, nextIndex_lt hcap hhead, htail⟩
  | returned out => cases h
  | _ =>
    simp only [pop] at h
    try split_ifs at h
    all_goals
      cases h
      exact ⟨hcap, hhead, htail⟩

/-- **The indices stay inside the buffer.** -/
theorem inBounds_of_reachable (hslot : 0 < capacity) {s : QState (mpmcRingQueue ι capacity)}
    (h : QReachable (mpmcRingQueue ι capacity) Allowed s) : InBounds s := by
  have hlocal : Local (Indexed capacity) (fun _ _ _ => True) s.shared s.frame := by
    refine Local.reachable ⟨rfl, hslot, hslot⟩ (fun _ _ => trivial) (fun _ _ _ _ => trivial) ?_ h
    intro env i x f x' f' hr hx _
    refine ⟨?_, trivial, fun _ _ _ _ => trivial⟩
    cases f with
    | push ev policy pc =>
      obtain ⟨r, hpush, heq⟩ := Option.map_eq_some_iff.mp hr
      cases heq
      exact push_indexed hpush hx
    | pop pc =>
      obtain ⟨r, hpop, heq⟩ := Option.map_eq_some_iff.mp hr
      cases heq
      exact pop_indexed hpop hx
    | close done =>
      cases done <;> cases hr
      exact ⟨hx.capacity, hx.head, hx.tail⟩
  obtain ⟨hcap, hhead, htail⟩ := hlocal.1
  exact ⟨by rwa [hcap], by rwa [hcap]⟩

end MpmcRingQueue

variable [DecidableEq ι]

/-- **Ring indices stay inside the buffer** in every reachable state, whoever pushes and pops, for
every capacity with which a ring is made, but for the greatest `size_t` in `SpscRingQueue`. -/
theorem ring_bounds (Allowed : ι → Call → Prop) (max_size : ℕ) {capacity : ℕ}
    (hcap : capacity < 2 ^ 64)
    (options : QueueOptions) :
    (makeQueue ι max_size .spscRing capacity options = .ok (spscRingQueue ι capacity) →
      ((∀ s, QReachable (spscRingQueue ι capacity) Allowed s → SpscRingQueue.InBounds s) ↔
        capacity ≠ 2 ^ 64 - 1)) ∧
    (makeQueue ι max_size .mpmcRing capacity options = .ok (mpmcRingQueue ι capacity) →
      ∀ s, QReachable (mpmcRingQueue ι capacity) Allowed s → MpmcRingQueue.InBounds s) := by
  refine ⟨fun _ => ⟨fun h heq => ?_, fun hne s h => ?_⟩, fun hmake s h => ?_⟩
  · -- The buffer of the greatest capacity is empty from the start.
    have hhead := (h _ .refl).head
    change 0 < (capacity + 1) % 2 ^ 64 at hhead
    rw [heq] at hhead
    exact absurd hhead (by decide)
  · exact SpscRingQueue.inBounds_of_reachable (by rw [Nat.mod_eq_of_lt] <;> omega) h
  · simp only [makeQueue] at hmake
    split_ifs at hmake with hsize hzero
    exact MpmcRingQueue.inBounds_of_reachable (Nat.pos_of_ne_zero hzero) h

/-- The rings of capacity `3`. -/
theorem ring_bounds_three :
    (∀ s, QReachable (spscRingQueue Bool 3) (fun _ _ => True) s → SpscRingQueue.InBounds s) ∧
      ∀ s, QReachable (mpmcRingQueue Bool 3) (fun _ _ => True) s → MpmcRingQueue.InBounds s := by
  obtain ⟨hspsc, hmpmc⟩ :=
    ring_bounds (fun (_ : Bool) _ => True) 8 (by decide : 3 < 2 ^ 64) {}
  exact ⟨(hspsc rfl).mpr (by decide), hmpmc rfl⟩

def overrunTurns : List (QState.Turn Bool) :=
  .call true (.push {} .block) :: List.replicate 5 (.step {} true)

/-- **A push writes outside the buffer**: the ring of the greatest capacity is made, its buffer has
no slot, and the first push finds room and is about to write to slot `0`. -/
theorem write_out_of_bounds :
    makeQueue Bool (2 ^ 58) .spscRing (2 ^ 64 - 1) {} = .ok (spscRingQueue Bool (2 ^ 64 - 1)) ∧
      ∃ s : QState (spscRingQueue Bool (2 ^ 64 - 1)),
        QReachable (spscRingQueue Bool (2 ^ 64 - 1)) (fun _ _ => True) s ∧
          s.frame true = some (.push {} .block (SpscRingQueue.PushPC.write 0 1 0)) ∧
            SpscRingQueue.Shared.ring_capacity_ s.shared = 0 := by
  have hrun {s : QState (spscRingQueue Bool (2 ^ 64 - 1))}
      (h : (QState.start _).run overrunTurns = some s) :
      QReachable (spscRingQueue Bool (2 ^ 64 - 1)) (fun _ _ => True) s :=
    QState.steps_of_run (fun _ _ _ => trivial) h
  exact ⟨rfl, _, hrun rfl, rfl, rfl⟩

end Laboratory.QueueLatency
