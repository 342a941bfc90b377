import Laboratory.Concurrency.RingLog
import Laboratory.QueueLatency.Equiv.Refinement
import Laboratory.QueueLatency.MpmcRingQueue

/-!
# `MpmcRingQueue` refines the permit protocol

The two semaphores are the permits of the protocol, and the ring with its history is a `RingLog`.
Under a mutex, the index of a side lags one behind the history between the access to the slot and
the store of the index; `Thread` says so for each thread.
-/

namespace Laboratory.QueueLatency

namespace MpmcRingQueue

open Concurrency

variable {ι : Type} [DecidableEq ι] {capacity : ℕ} {i j : ι} {s : Shared ι}

/-- How far `tail_` is behind the events written, for a thread in the critical section of
`push`. -/
def PushPC.lag : PushPC → Option ℕ
  | .write | .addDepth | .unlockTail => some 0
  | .advance => some 1
  | _ => none

/-- How far `head_` is behind the events read, for a thread in the critical section of `pop`. -/
def PopPC.lag : PopPC → Option ℕ
  | .read | .subDepth _ | .unlockHead _ => some 0
  | .advance _ => some 1
  | _ => none

def pushPhase (ev : Event) (policy : BackpressurePolicy) : PushPC → Phase Event
  | .entry | .acquire _ | .fullClosed _ | .fullStop _ => .pushing ev (policy = .drop)
  | .admitClosed | .admitStop | .lockTail | .write => .reserved ev
  | .giveBack => .rejected
  | .advance | .addDepth | .unlockTail | .release => .unsignalled ev
  | .returned true => .accepted ev
  | .returned false => .refused

def popPhase : PopPC → Phase Event
  | .acquire _ => .searching
  | .emptyClosed _ => .sawEmpty
  | .emptyStop _ => .sawOpen
  | .lockHead | .read => .claimed
  | .advance out | .subDepth out | .unlockHead out | .release out => .taken out
  | .returned (some out) => .holding out
  | .returned none => .leaving

/-- The events that wait are those written and not yet read. -/
def store (s : Shared ι) : Store Event where
  stored := s.written.drop s.read.length
  avail := s.items_
  room := some s.slots_available_
  closed := s.closed_

/-- The ring agrees with its history, and so do the indices while their mutex is free. -/
structure Ring (capacity : ℕ) (s : Shared ι) : Prop where
  capacity_eq : s.ring_capacity_ = capacity
  log : RingLog capacity s.buffer_ s.filled s.written s.read
  tail : s.tail_mu_ = none → s.tail_ = s.written.length % capacity
  head : s.head_mu_ = none → s.head_ = s.read.length % capacity

def tailLag : Option (Frame (mpmcRingQueue ι capacity)) → Option ℕ
  | some (.push _ _ pc) => PushPC.lag pc
  | _ => none

def headLag : Option (Frame (mpmcRingQueue ι capacity)) → Option ℕ
  | some (.pop pc) => PopPC.lag pc
  | _ => none

/-- What a thread relies on: the two indices, as far as it holds their mutex. -/
structure Thread (capacity : ℕ) (i : ι) (s : Shared ι)
    (f : Option (Frame (mpmcRingQueue ι capacity))) : Prop where
  tail : Guarded capacity s.tail_mu_ s.tail_ s.written.length i (tailLag f)
  head : Guarded capacity s.head_mu_ s.head_ s.read.length i (headLag f)

def abstraction (ι : Type) [DecidableEq ι] (capacity : ℕ) :
    Abstraction (mpmcRingQueue ι capacity) where
  store := store
  pushPhase := pushPhase
  popPhase := popPhase
  inv := Local (Ring capacity) (Thread capacity)

variable {f f' : Frame (mpmcRingQueue ι capacity)} {stop : Bool}
  {frame : ι → Option (Frame (mpmcRingQueue ι capacity))}

/-- A step that touches neither the ring nor a mutex is sound if it is a move. -/
theorem sound_quiet (hs : Local (Ring capacity) (Thread capacity) s frame) (hf : frame i = some f)
    {items slots : ℕ}
    {depth : ℤ} {closed : Bool} {stats : QueueStats} (htail : tailLag (some f') = tailLag (some f))
    (hhead : headLag (some f') = headLag (some f))
    (move : Move stop (store s) ((abstraction ι capacity).framePhase f)
      { store s with avail := items, room := some slots, closed := closed }
      ((abstraction ι capacity).framePhase f')) :
    (abstraction ι capacity).Sound stop i s frame f
      { s with
        items_ := items
        slots_available_ := slots
        depth_ := depth
        closed_ := closed
        stats_ := stats } f' where
  move := move
  inv := by
    have ht := hf ▸ hs.2 i
    refine hs.update ⟨hs.1.capacity_eq, hs.1.log, hs.1.tail, hs.1.head⟩ ?_ ?_
    · exact ⟨htail ▸ ht.tail, hhead ▸ ht.head⟩
    · exact fun _ _ _ hj => ⟨hj.tail, hj.head⟩

omit [DecidableEq ι] in
/-- The next index counts one more event. -/
theorem nextIndex_eq (hs : Ring capacity s) (hcap : 0 < capacity) (k : ℕ) :
    nextIndex s (k % capacity) = (k + 1) % capacity := by
  rw [nextIndex, hs.capacity_eq]
  exact next_mod k hcap

/-- A step of thread `i` on the side of the producers is sound if it is a move, keeps the history
and leaves the index right. -/
theorem sound_tail (hs : Local (Ring capacity) (Thread capacity) s frame) (hf : frame i = some f)
    {mu : Option ι}
    {buffer : ℕ → Event} {tail : ℕ} {written : List Event} {filled : ℕ → Bool}
    (hmu : s.tail_mu_ = none ∨ s.tail_mu_ = some i) (hmu' : mu = none ∨ mu = some i)
    (hlog : RingLog capacity buffer filled written s.read)
    (htail : Guarded capacity mu tail written.length i (tailLag (some f')))
    (hrest : mu = none → tail = written.length % capacity)
    (hhead : headLag (some f') = headLag (some f))
    (move : Move stop (store s) ((abstraction ι capacity).framePhase f)
      { store s with stored := written.drop s.read.length }
      ((abstraction ι capacity).framePhase f')) :
    (abstraction ι capacity).Sound stop i s frame f
      { s with
        tail_mu_ := mu
        buffer_ := buffer
        tail_ := tail
        written := written
        filled := filled } f' where
  move := move
  inv := by
    refine hs.update ⟨hs.1.capacity_eq, hlog, hrest, hs.1.head⟩ ?_ ?_
    · exact ⟨htail, hhead ▸ (hf ▸ hs.2 i).head⟩
    · intro j hj g hg
      refine ⟨hg.tail.other ?_ ?_, hg.head⟩
      · rcases hmu with h | h <;> simp [h, hj.symm]
      · rcases hmu' with h | h <;> simp [h, hj.symm]

/-- A step of thread `i` on the side of the consumers is sound if it is a move, keeps the history
and leaves the index right. -/
theorem sound_head (hs : Local (Ring capacity) (Thread capacity) s frame) (hf : frame i = some f)
    {mu : Option ι}
    {head : ℕ} {read : List Event} {filled : ℕ → Bool}
    (hmu : s.head_mu_ = none ∨ s.head_mu_ = some i) (hmu' : mu = none ∨ mu = some i)
    (hlog : RingLog capacity s.buffer_ filled s.written read)
    (hhead : Guarded capacity mu head read.length i (headLag (some f')))
    (hrest : mu = none → head = read.length % capacity)
    (htail : tailLag (some f') = tailLag (some f))
    (move : Move stop (store s) ((abstraction ι capacity).framePhase f)
      { store s with stored := s.written.drop read.length }
      ((abstraction ι capacity).framePhase f')) :
    (abstraction ι capacity).Sound stop i s frame f
      { s with
        head_mu_ := mu
        head_ := head
        read := read
        filled := filled } f' where
  move := move
  inv := by
    refine hs.update ⟨hs.1.capacity_eq, hlog, hs.1.tail, hrest⟩ ?_ ?_
    · exact ⟨htail ▸ (hf ▸ hs.2 i).tail, hhead⟩
    · intro j hj g hg
      refine ⟨hg.tail, hg.head.other ?_ ?_⟩
      · rcases hmu with h | h <;> simp [h, hj.symm]
      · rcases hmu' with h | h <;> simp [h, hj.symm]

variable [Fintype ι]

/-- A thread about to write has the current index, and its permit is worth a slot. -/
theorem write_ready {ev : Event} {policy : BackpressurePolicy}
    (hr : (abstraction ι capacity).Ready (some (semaphorePermits capacity)) s frame)
    (hf : frame i = some (.push ev policy PushPC.write)) :
    s.tail_ = s.written.length % capacity ∧ s.written.length < s.read.length + capacity := by
  obtain ⟨k, hk, hidx⟩ := (hf ▸ hr.inv.2 i).tail.index_eq 0 rfl
  have hplace : (s.written.drop s.read.length).length < semaphorePermits capacity :=
    hr.place hf rfl
  have hle := semaphorePermits_le capacity
  rw [Nat.add_zero] at hk
  rw [List.length_drop] at hplace
  exact ⟨hk ▸ hidx, by omega⟩

/-- A thread about to read has the current index, and its permit is worth an event. -/
theorem read_ready (hr : (abstraction ι capacity).Ready (some (semaphorePermits capacity)) s frame)
    (hf : frame i = some (.pop PopPC.read)) :
    s.head_ = s.read.length % capacity ∧ s.read.length < s.written.length := by
  obtain ⟨k, hk, hidx⟩ := (hf ▸ hr.inv.2 i).head.index_eq 0 rfl
  have hvalue : s.written.drop s.read.length ≠ [] := hr.value hf rfl
  rw [Nat.add_zero] at hk
  rw [Ne, List.drop_eq_nil_iff] at hvalue
  exact ⟨hk ▸ hidx, by omega⟩

/-- **Every step of `push` is a move** that keeps the ring right. -/
theorem push_sound (hcap : 0 < capacity) {env : Env ι} {ev : Event} {policy : BackpressurePolicy}
    {pc pc' : PushPC} {s' : Shared ι} (h : push env i ev policy s pc = some (s', pc'))
    (hr : (abstraction ι capacity).Ready (some (semaphorePermits capacity)) s frame)
    (hf : frame i = some (.push ev policy pc)) :
    (abstraction ι capacity).Sound env.stop i s frame (.push ev policy pc) s'
      (.push ev policy pc') := by
  have hs := hr.inv
  have ht := hf ▸ hs.2 i
  cases pc with
  | entry =>
    cases h
    exact sound_quiet hs hf rfl rfl .stay
  | acquire spins =>
    simp only [push] at h
    split_ifs at h with hslot hblock <;> cases h
    · exact sound_quiet hs hf rfl rfl (.reserve (by simpa [store] using hslot))
    · exact sound_quiet hs hf rfl rfl .stay
    · have hdrop : policy = .drop := eq_drop_of_ne_block hblock
      exact sound_quiet hs hf rfl rfl (.refuse (.inl (decide_eq_true hdrop)))
  | fullClosed spins =>
    simp only [push] at h
    split_ifs at h with hclosed <;> cases h
    · exact sound_quiet hs hf rfl rfl (.refuse (.inr (.inl hclosed)))
    · exact sound_quiet hs hf rfl rfl .stay
  | fullStop spins =>
    simp only [push] at h
    split_ifs at h with hstop <;> cases h
    · exact sound_quiet hs hf rfl rfl (.refuse (.inr (.inr hstop)))
    · exact sound_quiet hs hf rfl rfl .stay
  | admitClosed =>
    simp only [push] at h
    split_ifs at h with hclosed <;> cases h
    · exact sound_quiet hs hf rfl rfl (.reject (.inl hclosed))
    · exact sound_quiet hs hf rfl rfl .stay
  | admitStop =>
    simp only [push] at h
    split_ifs at h with hstop <;> cases h
    · exact sound_quiet hs hf rfl rfl (.reject (.inr hstop))
    · exact sound_quiet hs hf rfl rfl .stay
  | giveBack =>
    cases h
    exact sound_quiet hs hf rfl rfl .giveBack
  | lockTail =>
    simp only [push] at h
    split_ifs at h with hmu
    cases h
    refine sound_tail hs hf (.inl hmu) (.inr rfl) hs.1.log ?_ (fun h => by cases h) rfl .stay
    exact .inside rfl (hs.1.tail hmu)
  -- The permit is worth a slot, so that the write hits an empty one.
  | write =>
    cases h
    have hmu : s.tail_mu_ = some i := ht.tail.owner.mpr rfl
    obtain ⟨hidx, hroom⟩ := write_ready hr hf
    rw [hidx]
    refine sound_tail hs hf (.inr hmu) (.inr hmu) (hs.1.log.write hroom ev) ?_ ?_ rfl ?_
    · rw [hmu, List.length_append, List.length_singleton]
      exact .inside rfl rfl
    · exact of_held hmu
    · rw [hs.1.log.drop_write]
      exact .publish
  | advance =>
    cases h
    have hmu : s.tail_mu_ = some i := ht.tail.owner.mpr rfl
    -- The index is one behind the events written, and catches up.
    obtain ⟨k, hk, hidx⟩ := ht.tail.index_eq 1 rfl
    refine sound_tail hs hf (.inr hmu) (.inr hmu) hs.1.log ?_ ?_ rfl .stay
    · rw [hmu, hidx, nextIndex_eq hs.1 hcap, ← hk]
      exact .inside rfl rfl
    · exact of_held hmu
  | addDepth =>
    cases h
    exact sound_quiet hs hf rfl rfl .stay
  | unlockTail =>
    cases h
    have hmu : s.tail_mu_ = some i := ht.tail.owner.mpr rfl
    obtain ⟨k, hk, hidx⟩ := ht.tail.index_eq 0 rfl
    rw [Nat.add_zero] at hk
    -- A free mutex comes with the current index.
    subst hk
    exact sound_tail hs hf (.inr hmu) (.inl rfl) hs.1.log (.outside (by simp)) (fun _ => hidx) rfl
      .stay
  | release =>
    cases h
    exact sound_quiet hs hf rfl rfl .signal
  | returned ok => cases h

/-- **Every step of `pop` is a move** that keeps the ring right. -/
theorem pop_sound (hcap : 0 < capacity) {env : Env ι} {pc pc' : PopPC} {s' : Shared ι}
    (h : pop env i s pc = some (s', pc'))
    (hr : (abstraction ι capacity).Ready (some (semaphorePermits capacity)) s frame)
    (hf : frame i = some (.pop pc)) :
    (abstraction ι capacity).Sound env.stop i s frame (.pop pc) s' (.pop pc') := by
  have hs := hr.inv
  have ht := hf ▸ hs.2 i
  cases pc with
  | acquire spins =>
    simp only [pop] at h
    split_ifs at h with hitem <;> cases h
    · exact sound_quiet hs hf rfl rfl (.claim (Nat.succ_pred hitem).symm)
    · exact sound_quiet hs hf rfl rfl (.miss (not_not.mp hitem))
  | emptyClosed spins =>
    simp only [pop] at h
    split_ifs at h with hclosed <;> cases h
    · exact sound_quiet hs hf rfl rfl (.seeClosed hclosed)
    · exact sound_quiet hs hf rfl rfl (.seeOpen (Bool.not_eq_true _ ▸ hclosed))
  | emptyStop spins =>
    simp only [pop] at h
    split_ifs at h with hstop <;> cases h
    · exact sound_quiet hs hf rfl rfl (.seeStop hstop)
    · exact sound_quiet hs hf rfl rfl .retry
  | lockHead =>
    simp only [pop] at h
    split_ifs at h with hmu
    cases h
    refine sound_head hs hf (.inl hmu) (.inr rfl) hs.1.log ?_ (fun h => by cases h) rfl .stay
    exact .inside rfl (hs.1.head hmu)
  -- The permit is worth an event, so that the slot read is a full one.
  | read =>
    cases h
    have hmu : s.head_mu_ = some i := ht.head.owner.mpr rfl
    obtain ⟨hidx, hvalue⟩ := read_ready hr hf
    rw [hidx]
    refine sound_head hs hf (.inr hmu) (.inr hmu) (hs.1.log.read hvalue) ?_ ?_ rfl ?_
    · rw [hmu, List.length_append, List.length_singleton]
      exact .inside rfl rfl
    · exact of_held hmu
    · rw [List.length_append, List.length_singleton]
      exact .take (hs.1.log.drop_read hvalue)
  | advance out =>
    cases h
    have hmu : s.head_mu_ = some i := ht.head.owner.mpr rfl
    -- The index is one behind the events read, and catches up.
    obtain ⟨k, hk, hidx⟩ := ht.head.index_eq 1 rfl
    refine sound_head hs hf (.inr hmu) (.inr hmu) hs.1.log ?_ ?_ rfl .stay
    · rw [hmu, hidx, nextIndex_eq hs.1 hcap, ← hk]
      exact .inside rfl rfl
    · exact of_held hmu
  | subDepth out =>
    cases h
    exact sound_quiet hs hf rfl rfl .stay
  | unlockHead out =>
    cases h
    have hmu : s.head_mu_ = some i := ht.head.owner.mpr rfl
    obtain ⟨k, hk, hidx⟩ := ht.head.index_eq 0 rfl
    rw [Nat.add_zero] at hk
    subst hk
    exact sound_head hs hf (.inr hmu) (.inl rfl) hs.1.log (.outside (by simp)) (fun _ => hidx) rfl
      .stay
  | release out =>
    cases h
    exact sound_quiet hs hf rfl rfl .release
  | returned out => cases h

/-- **`MpmcRingQueue` follows the permit protocol**, whoever calls what. -/
theorem refines (hcap : 0 < capacity) :
    Refines (mpmcRingQueue ι capacity) (some (semaphorePermits capacity)) (fun _ _ => True)
      (abstraction ι capacity) where
  init_store := rfl
  init_inv := by
    refine ⟨⟨rfl, .empty _ _, ?_, ?_⟩, fun _ => ⟨.outside ?_, .outside ?_⟩⟩
    · exact fun _ => (Nat.zero_mod _).symm
    · exact fun _ => (Nat.zero_mod _).symm
    all_goals rintro ⟨⟩
  pushEntry := fun _ _ => rfl
  popEntry := rfl
  enter := by
    intro i c s frame _ hs hf
    cases c <;> exact hs.replace hf fun ht => ⟨ht.tail, ht.head⟩
  push := push_sound hcap
  pop := pop_sound hcap
  close := by
    intro stop i s frame s' h hr hf
    cases h
    exact sound_quiet hr.inv hf rfl rfl .close
  leavePush := by
    intro i s frame ev policy pc ok h hs hf
    cases pc with
    | returned ok =>
      cases h
      refine ⟨hs.replace hf fun ht => ⟨ht.tail, ht.head⟩, ?_⟩
      cases ok
      · rfl
      · exact ⟨ev, rfl, rfl⟩
    | _ => cases h
  leavePop := by
    intro i s frame pc ok out h hs hf
    cases pc with
    | returned out =>
      cases h
      refine ⟨hs.replace hf fun ht => ⟨ht.tail, ht.head⟩, ?_⟩
      cases out with
      | none => rfl
      | some a => exact ⟨a, rfl, rfl⟩
    | _ => cases h
  leaveClose := by
    intro i s frame hs hf
    exact hs.replace hf fun ht => ⟨ht.tail, ht.head⟩
  content := fun _ => rfl
  foundEmpty := by
    intro pc
    cases pc with
    | returned out => cases out <;> exact ⟨by rintro ⟨⟩, by rintro ⟨⟩⟩
    | emptyClosed spins => exact ⟨fun _ => rfl, fun _ => rfl⟩
    | _ => exact ⟨by rintro ⟨⟩, by rintro ⟨⟩⟩
  hasStored := by
    intro ev policy pc
    cases pc with
    | returned ok => cases ok <;> rfl
    | _ => rfl
  hasTaken := by
    intro pc
    cases pc with
    | returned out => cases out <;> rfl
    | _ => rfl

/-! ### A bounded FIFO -/

/-- The permits of an operation in progress: a `push` holds one from `try_acquire` on the slots to
`release` on the items, or to the `release` that gives the slot back; a `pop` the other way
round. -/
def permits : Option (Frame (mpmcRingQueue ι capacity)) → ℕ
  | some (.push _ _ pc) =>
    match pc with
    | .admitClosed | .admitStop | .giveBack | .lockTail | .write | .advance | .addDepth
    | .unlockTail | .release => 1
    | _ => 0
  | some (.pop pc) =>
    match pc with
    | .lockHead | .read | .advance _ | .subDepth _ | .unlockHead _ | .release _ => 1
    | _ => 0
  | _ => 0

omit [Fintype ι] in
theorem permits_eq (f : Option (Frame (mpmcRingQueue ι capacity))) :
    permits f = ((abstraction ι capacity).phase f).hidden +
      ((abstraction ι capacity).phase f).places := by
  rcases f with _ | ⟨ev, policy, pc⟩ | pc | done
  · rfl
  · cases pc with
    | returned ok => cases ok <;> rfl
    | _ => rfl
  · cases pc with
    | returned out => cases out <;> rfl
    | _ => rfl
  · cases done <;> rfl

/-- The permits add up to those of the first semaphore in every state that keeps the accounts. -/
theorem sum_permits {s : QState (mpmcRingQueue ι capacity)}
    (hs : Invariant (some (semaphorePermits capacity)) (abstraction ι capacity) s) :
    s.shared.slots_available_ + s.shared.items_ + ∑ i, permits (s.frame i) =
      semaphorePermits capacity := by
  have havail := hs.accounts.avail
  obtain ⟨r, hr, hroom⟩ := Option.map_eq_some_iff.mp hs.accounts.room
  have hsplit : ∑ i, permits (s.frame i) =
      ∑ i, ((abstraction ι capacity).phases s.frame i).hidden +
        ∑ i, ((abstraction ι capacity).phases s.frame i).places := by
    rw [← Finset.sum_add_distrib]
    exact Finset.sum_congr rfl fun i _ => permits_eq _
  have hslots : s.shared.slots_available_ = r := Option.some.inj hr
  have hitems : ((abstraction ι capacity).store s.shared).avail = s.shared.items_ := rfl
  omega

/-- **`MpmcRingQueue` is a bounded FIFO** for any threads, whatever they call and whenever the
stop flag changes.  Events are read in the order they were written; no slot is written before the
event in it has been read, and no slot is read before it has been written again; and the permits
add up to the capacity, if the semaphore can count to it, so that none is lost when no operation is
in progress. -/
theorem bounded_fifo (hcap : 1 ≤ capacity) {s : QState (mpmcRingQueue ι capacity)}
    (h : QReachable (mpmcRingQueue ι capacity) (fun _ _ => True) s) :
    s.shared.read <+: s.shared.written ∧
    (∀ i ev policy, s.frame i = some (.push ev policy PushPC.write) →
      s.shared.filled s.shared.tail_ = false) ∧
    (∀ i, s.frame i = some (.pop PopPC.read) → s.shared.filled s.shared.head_ = true) ∧
    (capacity ≤ semaphoreMax →
      s.shared.slots_available_ + s.shared.items_ + ∑ i, permits (s.frame i) = capacity ∧
      ((∀ i, s.frame i = none) → s.shared.slots_available_ + s.shared.items_ = capacity)) := by
  have hs := (refines hcap).reachable h
  have hring : Ring capacity s.shared := hs.inv.1
  refine ⟨hring.log.taken_prefix, ?_, ?_, ?_⟩
  · intro i ev policy hf
    obtain ⟨hidx, hroom⟩ := write_ready hs.toReady hf
    rw [hidx]
    exact hring.log.free hroom
  · intro i hf
    obtain ⟨hidx, hvalue⟩ := read_ready hs.toReady hf
    rw [hidx]
    exact hring.log.holds hvalue
  · intro hmax
    have hsum := sum_permits hs
    rw [semaphorePermits_of_le hmax] at hsum
    refine ⟨hsum, fun hidle => ?_⟩
    rw [Finset.sum_eq_zero fun i _ => by rw [hidle i]; rfl] at hsum
    exact hsum

open QState.Turn in
/-- A thread that pushes into a ring of one slot and is about to release the item, when the queue
is closed. -/
def pushTurns : List (QState.Turn Bool) :=
  call true (.push {} .block) :: List.replicate 8 (step {} true) ++
    [call false .close, step {} false]

def pushState : QState (mpmcRingQueue Bool 1) :=
  ((QState.start _).run pushTurns).get (by decide)

theorem bounded_fifo_push :
    pushState.shared.read <+: pushState.shared.written ∧
    (∀ i ev policy, pushState.frame i = some (.push ev policy PushPC.write) →
      pushState.shared.filled pushState.shared.tail_ = false) ∧
    (∀ i, pushState.frame i = some (.pop PopPC.read) →
      pushState.shared.filled pushState.shared.head_ = true) ∧
    (1 ≤ semaphoreMax →
      pushState.shared.slots_available_ + pushState.shared.items_ +
        ∑ i, permits (pushState.frame i) = 1 ∧
      ((∀ i, pushState.frame i = none) →
        pushState.shared.slots_available_ + pushState.shared.items_ = 1)) :=
  bounded_fifo (by decide) (QState.steps_of_run (fun _ _ _ => trivial) (Option.some_get _).symm)

/-- A push into a ring that is empty and has more slots than an `int` can count. -/
def refusedTurns : List (QState.Turn Bool) :=
  [.call true (.push {} .drop), .step {} true, .step {} true, .leave true]

def refusedState : QState (mpmcRingQueue Bool (2 ^ 32)) :=
  ((QState.start _).run refusedTurns).get (by decide)

/-- **A ring without permits**: the `int` of the semaphore does not hold the capacity `2 ^ 32`, and
the push finds the empty ring full. -/
theorem permits_lost :
    QReachable (mpmcRingQueue Bool (2 ^ 32)) (fun _ _ => True) refusedState ∧
    refusedState.shared.stats_.push_fail = 1 ∧ refusedState.shared.written = [] ∧
    refusedState.shared.slots_available_ + refusedState.shared.items_ +
      ∑ i, permits (refusedState.frame i) = 0 :=
  ⟨QState.steps_of_run (fun _ _ _ => trivial) (Option.some_get _).symm, rfl, rfl, rfl⟩

end MpmcRingQueue

end Laboratory.QueueLatency
