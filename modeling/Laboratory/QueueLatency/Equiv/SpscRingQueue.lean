import Laboratory.Concurrency.RingLog
import Laboratory.QueueLatency.Equiv.Refinement
import Laboratory.QueueLatency.SpscRingQueue

/-!
# `SpscRingQueue` refines the permit protocol

With one producer and one consumer, the two indices count the stores of `tail_` and of `head_`
modulo the number of slots.  Each side knows how far it has come itself; what it has loaded from
the other side is out of date only in the direction that does no harm, and `Thread` keeps just
that.
-/

namespace Laboratory.QueueLatency

namespace SpscRingQueue

open Concurrency

variable {ι : Type} {capacity : ℕ} {p k i j : ι} {s s' : Shared}

/-- Only `p` pushes, and only `k` pops. -/
def Discipline (p k : ι) (i : ι) : Call → Prop
  | .push _ _ => i = p
  | .pop => i = k
  | .close => True

def pushPhase (ev : Event) (policy : BackpressurePolicy) : PushPC → Phase Event
  | .updateDepth _ _ | .returned true => .accepted ev
  | .returned false => .refused
  | _ => .pushing ev (policy = .drop)

def popPhase : PopPC → Phase Event
  | .loadHead _ | .loadTail _ _ | .copy _ => .searching
  | .storeHead _ out | .returned (some out) => .holding out
  | .emptyClosed _ => .sawEmpty
  | .emptyStop _ => .sawOpen
  | .returned none => .leaving

/-- The events that wait are those published and not yet copied out; the store of `tail_`
announces them. -/
def store (s : Shared) : Store Event where
  stored := s.published.drop s.copied.length
  avail := s.published.length - s.copied.length
  room := none
  closed := s.closed_

/-- The ring agrees with its history: the two sides are in step, at most one event ahead of what
they have stored in their index. -/
structure Ring (capacity : ℕ) (s : Shared) : Prop where
  capacity_eq : s.ring_capacity_ = capacity + 1
  log : RingLog (capacity + 1) s.buffer_ s.filled s.written s.copied
  tail : s.tail_ = s.published.length % (capacity + 1)
  head : s.head_ = s.popped.length % (capacity + 1)
  published_prefix : s.published <+: s.written
  popped_prefix : s.popped <+: s.copied
  copied_le : s.copied.length ≤ s.published.length
  published_le : s.published.length ≤ s.popped.length + capacity

/-- What the producer knows while it pushes `ev`. -/
def PushPC.Knows (capacity : ℕ) (s : Shared) (ev : Event) : PushPC → Prop
  | .loadHead _ tail => s.written = s.published ∧ tail = s.tail_
  | .write tail next _ => s.written = s.published ∧ tail = s.tail_ ∧
      next = (s.published.length + 1) % (capacity + 1) ∧
      s.published.length < s.popped.length + capacity
  | .storeTail next _ => s.written = s.published ++ [ev] ∧
      next = (s.published.length + 1) % (capacity + 1) ∧
      s.published.length < s.popped.length + capacity
  | _ => s.written = s.published

/-- What the consumer knows while it pops. -/
def PopPC.Knows (s : Shared) : PopPC → Prop
  | .loadTail _ head => s.copied = s.popped ∧ head = s.head_
  | .copy head => s.copied = s.popped ∧ head = s.head_ ∧ s.copied.length < s.published.length
  | .storeHead head out => s.copied = s.popped ++ [out] ∧ head = s.head_
  | _ => s.copied = s.popped

def Producer (capacity : ℕ) (s : Shared) : Option (Frame (spscRingQueue ι capacity)) → Prop
  | some (.push ev _ pc) => PushPC.Knows capacity s ev pc
  | _ => s.written = s.published

def Consumer (capacity : ℕ) (s : Shared) : Option (Frame (spscRingQueue ι capacity)) → Prop
  | some (.pop pc) => PopPC.Knows s pc
  | _ => s.copied = s.popped

/-- What a thread relies on, according to its role. -/
structure Thread (capacity : ℕ) (p k i : ι) (s : Shared)
    (f : Option (Frame (spscRingQueue ι capacity))) : Prop where
  role : match f with
    | some (.push _ _ _) => i = p
    | some (.pop _) => i = k
    | _ => True
  producer : i = p → Producer capacity s f
  consumer : i = k → Consumer capacity s f

def abstraction [DecidableEq ι] (capacity : ℕ) (p k : ι) :
    Abstraction (spscRingQueue ι capacity) where
  store := store
  pushPhase := pushPhase
  popPhase := popPhase
  inv := Local (Ring capacity) (Thread capacity p k)

variable {f f' : Frame (spscRingQueue ι capacity)} {stop : Bool}
  {frame : ι → Option (Frame (spscRingQueue ι capacity))}

/-- The next index counts one more event, as long as the number of slots is a `size_t`. -/
theorem nextIndex_eq (hs : Ring capacity s) (hcap : capacity + 1 < 2 ^ 64) (n : ℕ) :
    nextIndex s (n % (capacity + 1)) = (n + 1) % (capacity + 1) := by
  have hlt : n % (capacity + 1) < capacity + 1 := Nat.mod_lt n (Nat.succ_pos capacity)
  rw [nextIndex, hs.capacity_eq, Nat.mod_eq_of_lt (by omega)]
  exact next_mod n (Nat.succ_pos capacity)

/-- **The full test is exact**: a producer finds the next index equal to `head_` if and only if
the ring holds as many events as the capacity. -/
theorem full_iff (hs : Ring capacity s) (hcap : capacity + 1 < 2 ^ 64) :
    nextIndex s s.tail_ = s.head_ ↔ s.published.length = s.popped.length + capacity := by
  rw [hs.tail, hs.head, nextIndex_eq hs hcap]
  constructor
  · intro h
    have hle := hs.popped_prefix.length_le
    have hcopied := hs.copied_le
    have hpub := hs.published_le
    by_contra hne
    -- Two positions less than a round apart are in the same slot only if they are equal.
    have := eq_of_mod_eq h (by omega) (by omega)
    omega
  · intro h
    rw [h, Nat.add_assoc, Nat.add_mod_right]

/-- **The empty test is exact** for a consumer that is not in the middle of a pop. -/
theorem empty_iff (hs : Ring capacity s) (hc : s.copied = s.popped) :
    s.head_ = s.tail_ ↔ s.published.length = s.copied.length := by
  rw [hs.tail, hs.head, hc]
  constructor
  · intro h
    have hpub := hs.published_le
    have hcopied := hs.copied_le
    rw [hc] at hcopied
    exact (eq_of_mod_eq h (by omega) (by omega)).symm
  · intro h
    rw [h]

/-! ### What the other side may do -/

/-- The producer loses nothing when events are popped. -/
theorem PushPC.Knows.mono {ev : Event} {pc : PushPC} (h : PushPC.Knows capacity s ev pc)
    (hw : s'.written = s.written) (hp : s'.published = s.published) (ht : s'.tail_ = s.tail_)
    (hpop : s.popped.length ≤ s'.popped.length) : PushPC.Knows capacity s' ev pc := by
  cases pc with
  | loadHead spins tail => exact ⟨hw.trans (h.1.trans hp.symm), h.2.trans ht.symm⟩
  | write tail next head =>
    obtain ⟨h1, h2, h3, h4⟩ := h
    refine ⟨hw.trans (h1.trans hp.symm), h2.trans ht.symm, ?_, ?_⟩ <;> rw [hp]
    · exact h3
    · omega
  | storeTail next head =>
    obtain ⟨h1, h2, h3⟩ := h
    refine ⟨?_, ?_, ?_⟩ <;> rw [hp]
    · exact hw.trans h1
    · exact h2
    · omega
  | _ => exact hw.trans (h.trans hp.symm)

/-- The consumer loses nothing when events are published. -/
theorem PopPC.Knows.mono {pc : PopPC} (h : PopPC.Knows s pc)
    (hc : s'.copied = s.copied) (hp : s'.popped = s.popped) (hh : s'.head_ = s.head_)
    (hpub : s.published.length ≤ s'.published.length) : PopPC.Knows s' pc := by
  cases pc with
  | loadTail spins head => exact ⟨hc.trans (h.1.trans hp.symm), h.2.trans hh.symm⟩
  | copy head =>
    obtain ⟨h1, h2, h3⟩ := h
    refine ⟨hc.trans (h1.trans hp.symm), h2.trans hh.symm, ?_⟩
    rw [hc]
    omega
  | storeHead head out =>
    obtain ⟨h1, h2⟩ := h
    refine ⟨?_, h2.trans hh.symm⟩
    rw [hp]
    exact hc.trans h1
  | _ => exact hc.trans (h.trans hp.symm)

theorem Producer.mono {x : Option (Frame (spscRingQueue ι capacity))} (h : Producer capacity s x)
    (hw : s'.written = s.written) (hp : s'.published = s.published) (ht : s'.tail_ = s.tail_)
    (hpop : s.popped.length ≤ s'.popped.length) : Producer capacity s' x := by
  rcases x with _ | ⟨ev, policy, pc⟩ | pc | done
  · exact hw.trans (h.trans hp.symm)
  · exact PushPC.Knows.mono h hw hp ht hpop
  · exact hw.trans (h.trans hp.symm)
  · exact hw.trans (h.trans hp.symm)

theorem Consumer.mono {x : Option (Frame (spscRingQueue ι capacity))} (h : Consumer capacity s x)
    (hc : s'.copied = s.copied) (hp : s'.popped = s.popped) (hh : s'.head_ = s.head_)
    (hpub : s.published.length ≤ s'.published.length) : Consumer capacity s' x := by
  rcases x with _ | ⟨ev, policy, pc⟩ | pc | done
  · exact hc.trans (h.trans hp.symm)
  · exact hc.trans (h.trans hp.symm)
  · exact PopPC.Knows.mono h hc hp hh hpub
  · exact hc.trans (h.trans hp.symm)

variable [DecidableEq ι]

/-- A step of the producer is sound if it is a move and keeps the ring and what the producer
knows. -/
theorem sound_producer (hs : Local (Ring capacity) (Thread capacity p k) s frame) {ev : Event}
    {policy : BackpressurePolicy} {pc pc' : PushPC} (hf : frame i = some (.push ev policy pc))
    (hring : Ring capacity s') (hi : PushPC.Knows capacity s' ev pc')
    (hc : s'.copied = s.copied) (hp : s'.popped = s.popped) (hh : s'.head_ = s.head_)
    (hpub : s.published.length ≤ s'.published.length)
    (move : Move stop (store s) (pushPhase ev policy pc) (store s') (pushPhase ev policy pc')) :
    (abstraction capacity p k).Sound stop i s frame (.push ev policy pc) s'
      (.push ev policy pc') where
  move := move
  inv := by
    have ht := hf ▸ hs.2 i
    have hrole : i = p := ht.role
    refine hs.update hring ⟨hrole, fun _ => hi, ?_⟩ ?_
    · intro hik
      have h : s.copied = s.popped := ht.consumer hik
      exact hc.trans (h.trans hp.symm)
    · intro j hj x hx
      refine ⟨hx.role, fun hjp => absurd (hjp.trans hrole.symm) hj, fun hjk => ?_⟩
      exact (hx.consumer hjk).mono hc hp hh hpub

/-- A step of the consumer is sound if it is a move and keeps the ring and what the consumer
knows. -/
theorem sound_consumer (hs : Local (Ring capacity) (Thread capacity p k) s frame)
    {pc pc' : PopPC} (hf : frame i = some (.pop pc)) (hring : Ring capacity s')
    (hi : PopPC.Knows s' pc') (hw : s'.written = s.written)
    (hp : s'.published = s.published) (ht : s'.tail_ = s.tail_)
    (hpop : s.popped.length ≤ s'.popped.length)
    (move : Move stop (store s) (popPhase pc) (store s') (popPhase pc')) :
    (abstraction capacity p k).Sound stop i s frame (.pop pc) s' (.pop pc') where
  move := move
  inv := by
    have hthread := hf ▸ hs.2 i
    have hrole : i = k := hthread.role
    refine hs.update hring ⟨hrole, ?_, fun _ => hi⟩ ?_
    · intro hip
      have h : s.written = s.published := hthread.producer hip
      exact hw.trans (h.trans hp.symm)
    · intro j hj x hx
      refine ⟨hx.role, fun hjp => ?_, fun hjk => absurd (hjk.trans hrole.symm) hj⟩
      exact (hx.producer hjp).mono hw hp ht hpop

/-- The ring does not depend on the flag and the statistics. -/
theorem Ring.quiet (hs : Ring capacity s) (closed : Bool) (stats : QueueStats) :
    Ring capacity { s with closed_ := closed, stats_ := stats } :=
  ⟨hs.capacity_eq, hs.log, hs.tail, hs.head, hs.published_prefix, hs.popped_prefix, hs.copied_le,
    hs.published_le⟩

/-- Publishing an event adds it to the store. -/
theorem store_publish (hs : Ring capacity s) (ev : Event) (tail : ℕ) :
    store { s with tail_ := tail, published := s.published ++ [ev] } =
      { store s with
        stored := (store s).stored ++ [ev]
        avail := (store s).avail + 1
        room := (store s).room.map (· - 1) } := by
  have hle := hs.copied_le
  simp only [store, List.drop_append_of_le_length hle, List.length_append, List.length_singleton,
    Option.map_none]
  rw [show s.published.length + 1 - s.copied.length = s.published.length - s.copied.length + 1 by
    omega]

/-- The slot at `head_` holds the oldest event that waits. -/
theorem stored_eq (hs : Ring capacity s) (hhead : s.head_ = s.copied.length % (capacity + 1))
    (hvalue : s.copied.length < s.published.length) :
    (store s).stored = s.buffer_ s.head_ :: s.published.drop (s.copied.length + 1) := by
  have hwritten := hs.published_prefix.length_le
  rw [hhead, hs.log.content _ le_rfl (by omega), store, List.drop_eq_getElem_cons hvalue,
    hs.published_prefix.getElem hvalue]

theorem store_copy (out : Event) (filled : ℕ → Bool) :
    store { s with copied := s.copied ++ [out], filled := filled } =
      { store s with
        stored := s.published.drop (s.copied.length + 1)
        avail := s.published.length - (s.copied.length + 1)
        room := (store s).room.map (· + 1) } := by
  simp only [store, List.length_append, List.length_singleton, Option.map_none]

variable [Fintype ι]

/-- **Every step of `push` is a move** that keeps the ring right. -/
theorem push_sound (hcap : capacity + 1 < 2 ^ 64) {env : Env ι} {ev : Event}
    {policy : BackpressurePolicy} {pc pc' : PushPC} (h : push env i ev policy s pc = some (s', pc'))
    (hr : (abstraction capacity p k).Ready none s frame)
    (hf : frame i = some (.push ev policy pc)) :
    (abstraction capacity p k).Sound env.stop i s frame (.push ev policy pc) s'
      (.push ev policy pc') := by
  have hs : Local (Ring capacity) (Thread capacity p k) s frame := hr.inv
  have ht := hf ▸ hs.2 i
  have hi : PushPC.Knows capacity s ev pc := ht.producer ht.role
  have hring := hs.1
  have hquiet := hring.quiet
  cases pc with
  | entry =>
    cases h
    exact sound_producer hs hf (hquiet _ _) hi rfl rfl rfl le_rfl .stay
  | checkClosed spins =>
    simp only [push] at h
    split_ifs at h with hclosed <;> cases h
    · exact sound_producer hs hf (hquiet _ _) hi rfl rfl rfl le_rfl (.refuse (.inr (.inl hclosed)))
    · exact sound_producer hs hf hring hi rfl rfl rfl le_rfl .stay
  | checkStop spins =>
    simp only [push] at h
    split_ifs at h with hstop <;> cases h
    · exact sound_producer hs hf (hquiet _ _) hi rfl rfl rfl le_rfl (.refuse (.inr (.inr hstop)))
    · exact sound_producer hs hf hring hi rfl rfl rfl le_rfl .stay
  | loadTail spins =>
    cases h
    exact sound_producer hs hf hring ⟨hi, rfl⟩ rfl rfl rfl le_rfl .stay
  | loadHead spins tail =>
    obtain ⟨hw, rfl⟩ : s.written = s.published ∧ tail = s.tail_ := hi
    simp only [push] at h
    split_ifs at h with hroom hdrop <;> cases h
    · -- Until the producer writes, the room can only grow.
      refine sound_producer hs hf hring ⟨hw, rfl, ?_, ?_⟩ rfl rfl rfl le_rfl .stay
      · rw [hring.tail]
        exact nextIndex_eq hring hcap _
      · have hne := (full_iff hring hcap).not.mp hroom
        exact lt_of_le_of_ne hring.published_le hne
    · exact sound_producer hs hf (hquiet _ _) hw rfl rfl rfl le_rfl
        (.refuse (.inl (decide_eq_true hdrop)))
    · exact sound_producer hs hf (hquiet _ _) hw rfl rfl rfl le_rfl .stay
  | write tail next head =>
    simp only [push] at h
    split_ifs at h
    cases h
    -- The slot at `tail_` is empty: it is written, and stays invisible to the consumer.
    obtain ⟨hw, rfl, hnext, hroom⟩ := hi
    have hcopied := hring.popped_prefix.length_le
    have hlog := hring.log.write (by rw [hw]; omega) ev
    rw [hw, ← hring.tail] at hlog
    refine sound_producer hs hf ⟨hring.capacity_eq, ?_, hring.tail, hring.head, ?_,
      hring.popped_prefix, hring.copied_le, hring.published_le⟩ ⟨?_, hnext, hroom⟩ rfl rfl rfl
      le_rfl .stay
    · rw [hw]
      exact hlog
    · exact hring.published_prefix.trans (List.prefix_append ..)
    · rw [hw]
  | storeTail next head =>
    cases h
    -- This store publishes the event: it is the move of the protocol.
    obtain ⟨hw, rfl, hroom⟩ := hi
    have hlen : (s.published ++ [ev]).length = s.published.length + 1 := by
      rw [List.length_append, List.length_singleton]
    refine sound_producer hs hf ⟨hring.capacity_eq, hring.log, ?_, hring.head, ?_,
      hring.popped_prefix, ?_, ?_⟩ hw rfl rfl rfl ?_ ?_
    · rw [hlen]
    · rw [hw]
    · show s.copied.length ≤ (s.published ++ [ev]).length
      exact hring.copied_le.trans (by omega)
    · show (s.published ++ [ev]).length ≤ s.popped.length + capacity
      omega
    · rw [hlen]
      omega
    · rw [store_publish hring]
      exact .publishDirect fun h => by cases h
  | updateDepth next head =>
    cases h
    exact sound_producer hs hf (hquiet _ _) hi rfl rfl rfl le_rfl .stay
  | returned ok => cases h

/-- **Every step of `pop` is a move** that keeps the ring right. -/
theorem pop_sound (hcap : capacity + 1 < 2 ^ 64) {env : Env ι} {pc pc' : PopPC}
    (h : pop env i s pc = some (s', pc')) (hr : (abstraction capacity p k).Ready none s frame)
    (hf : frame i = some (.pop pc)) :
    (abstraction capacity p k).Sound env.stop i s frame (.pop pc) s' (.pop pc') := by
  have hs : Local (Ring capacity) (Thread capacity p k) s frame := hr.inv
  have ht := hf ▸ hs.2 i
  have hi : PopPC.Knows s pc := ht.consumer ht.role
  have hring := hs.1
  have hquiet := hring.quiet
  cases pc with
  | loadHead spins =>
    cases h
    exact sound_consumer hs hf hring ⟨hi, rfl⟩ rfl rfl rfl le_rfl .stay
  | loadTail spins head =>
    obtain ⟨hc, rfl⟩ : s.copied = s.popped ∧ head = s.head_ := hi
    simp only [pop] at h
    split_ifs at h with hvalue <;> cases h
    · -- What is published stays so until the consumer takes it.
      refine sound_consumer hs hf hring ⟨hc, rfl, ?_⟩ rfl rfl rfl le_rfl .stay
      have hne := (empty_iff hring hc).not.mp hvalue
      exact lt_of_le_of_ne hring.copied_le (Ne.symm hne)
    · have hlen := (empty_iff hring hc).mp (not_not.mp hvalue)
      refine sound_consumer hs hf (hquiet _ _) hc rfl rfl rfl le_rfl (.miss ?_)
      show s.published.length - s.copied.length = 0
      omega
  | copy head =>
    cases h
    -- The copy is the move of the protocol: the slot is not yet free for the producer.
    obtain ⟨hc, rfl, hvalue⟩ := hi
    have hwritten := hring.published_prefix.length_le
    have hhead : s.head_ = s.copied.length % (capacity + 1) := by
      rw [hring.head, hc]
    have hlog := hring.log.read (by omega)
    rw [← hhead] at hlog
    have hlen : (s.copied ++ [s.buffer_ s.head_]).length = s.copied.length + 1 := by
      rw [List.length_append, List.length_singleton]
    refine sound_consumer hs hf ⟨hring.capacity_eq, hlog, hring.tail, hring.head,
      hring.published_prefix, hring.popped_prefix.trans (List.prefix_append ..), ?_,
      hring.published_le⟩ ⟨by rw [hc], rfl⟩ rfl rfl rfl le_rfl ?_
    · rw [hlen]
      exact hvalue
    · rw [store_copy]
      exact .takeDirect (stored_eq hring hhead hvalue)
        (show s.published.length - s.copied.length = _ by omega)
  | storeHead head out =>
    cases h
    -- Now the slot is free.
    obtain ⟨hc, rfl⟩ := hi
    have hlen : (s.popped ++ [out]).length = s.popped.length + 1 := by
      rw [List.length_append, List.length_singleton]
    refine sound_consumer hs hf ⟨hring.capacity_eq, hring.log, hring.tail, ?_,
      hring.published_prefix, ?_, hring.copied_le, ?_⟩ hc rfl rfl rfl ?_ .stay
    · rw [hlen, hring.head]
      exact nextIndex_eq hring hcap _
    · rw [hc]
    · exact hring.published_le.trans (by rw [hlen]; omega)
    · rw [hlen]
      omega
  | emptyClosed spins =>
    simp only [pop] at h
    split_ifs at h with hclosed <;> cases h
    · exact sound_consumer hs hf hring hi rfl rfl rfl le_rfl (.seeClosed hclosed)
    · exact sound_consumer hs hf hring hi rfl rfl rfl le_rfl
        (.seeOpen (Bool.not_eq_true _ ▸ hclosed))
  | emptyStop spins =>
    simp only [pop] at h
    split_ifs at h with hstop <;> cases h
    · exact sound_consumer hs hf hring hi rfl rfl rfl le_rfl (.seeStop hstop)
    · exact sound_consumer hs hf (hquiet _ _) hi rfl rfl rfl le_rfl .retry
  | returned out => cases h

/-- **`SpscRingQueue` follows the permit protocol** for one producer and one consumer. -/
theorem refines (hcap : capacity + 1 < 2 ^ 64) (p k : ι) :
    Refines (spscRingQueue ι capacity) none (Discipline p k) (abstraction capacity p k) where
  init_store := rfl
  init_inv := by
    refine ⟨⟨Nat.mod_eq_of_lt hcap, .empty _ _, (Nat.zero_mod _).symm, (Nat.zero_mod _).symm,
      List.prefix_rfl, List.prefix_rfl, le_rfl, Nat.zero_le _⟩, fun i => ⟨trivial, ?_, ?_⟩⟩
    · exact fun _ => rfl
    · exact fun _ => rfl
  pushEntry := fun _ _ => rfl
  popEntry := rfl
  enter := by
    intro i c s frame hmay hs hf
    cases c <;> exact hs.replace hf fun ht => ⟨hmay, ht.producer, ht.consumer⟩
  push := push_sound hcap
  pop := pop_sound hcap
  close := by
    intro stop i s frame s' h hr hf
    cases h
    refine ⟨.close, ?_⟩
    have hs : Local (Ring capacity) (Thread capacity p k) s frame := hr.inv
    have ht := hf ▸ hs.2 i
    refine hs.update (hs.1.quiet _ _) ⟨trivial, ht.producer, ht.consumer⟩ ?_
    intro j _ x hx
    refine ⟨hx.role, fun hjp => ?_, fun hjk => ?_⟩
    · exact (hx.producer hjp).mono rfl rfl rfl le_rfl
    · exact (hx.consumer hjk).mono rfl rfl rfl le_rfl
  leavePush := by
    intro i s frame ev policy pc ok h hs hf
    cases pc with
    | returned ok =>
      cases h
      refine ⟨hs.replace hf fun ht => ⟨trivial, ht.producer, ht.consumer⟩, ?_⟩
      cases ok
      · rfl
      · exact ⟨ev, rfl, rfl⟩
    | _ => cases h
  leavePop := by
    intro i s frame pc ok out h hs hf
    cases pc with
    | returned out =>
      cases h
      refine ⟨hs.replace hf fun ht => ⟨trivial, ht.producer, ht.consumer⟩, ?_⟩
      cases out with
      | none => rfl
      | some a => exact ⟨a, rfl, rfl⟩
    | _ => cases h
  leaveClose := by
    intro i s frame hs hf
    exact hs.replace hf fun ht => ⟨trivial, ht.producer, ht.consumer⟩
  content := fun _ => rfl
  foundEmpty := by
    intro pc
    cases pc with
    | returned out => cases out <;> exact ⟨by rintro ⟨⟩, by rintro ⟨⟩⟩
    | emptyClosed spins => exact ⟨fun _ => rfl, fun _ => rfl⟩
    | _ => exact ⟨by rintro ⟨⟩, by rintro ⟨⟩⟩
  hasStored := by
    intro ev policy pc
    cases pc with
    | returned ok => cases ok <;> rfl
    | _ => rfl
  hasTaken := by
    intro pc
    cases pc with
    | returned out => cases out <;> rfl
    | _ => rfl

/-! ### A ring without slots -/

/-- Nothing happens to a ring without slots. -/
structure Slotless (s : Shared) : Prop where
  ring_capacity : s.ring_capacity_ = 0
  head : s.head_ = 0
  tail : s.tail_ = 0
  published : s.published = []
  copied : s.copied = []

/-- No push gets past its write, and no pop finds an event. -/
def Idles : Option (Frame (spscRingQueue ι capacity)) → Prop
  | some (.push _ _ (.storeTail _ _)) | some (.push _ _ (.updateDepth _ _))
  | some (.push _ _ (.returned true)) => False
  | some (.pop (.loadTail _ head)) => head = 0
  | some (.pop (.copy _)) | some (.pop (.storeHead _ _)) | some (.pop (.returned (some _))) => False
  | _ => True

def slotless (ι : Type) [DecidableEq ι] (capacity : ℕ) :
    Abstraction (spscRingQueue ι capacity) where
  store := store
  pushPhase := pushPhase
  popPhase := popPhase
  inv := Local Slotless fun _ _ => Idles

omit [Fintype ι] in
/-- A step of a ring without slots is sound if it is a move, and leaves the ring alone. -/
theorem sound_slotless (hs : Local Slotless (fun _ _ => Idles) s frame) (hs' : Slotless s')
    (hi : Idles (some f'))
    (move : Move stop (store s) ((slotless ι capacity).framePhase f) (store s')
      ((slotless ι capacity).framePhase f')) :
    (slotless ι capacity).Sound stop i s frame f s' f' :=
  ⟨move, hs.update hs' hi fun _ _ _ hj => hj⟩

omit [Fintype ι] in
theorem slotless_replace (hs : Local Slotless (fun _ _ => Idles) s frame)
    {x : Option (Frame (spscRingQueue ι capacity))} (hx : Idles x) :
    (slotless ι capacity).inv s (Function.update frame i x) :=
  hs.replace rfl fun _ => hx

omit [Fintype ι] in
theorem slotless_push {env : Env ι} {ev : Event} {policy : BackpressurePolicy} {pc pc' : PushPC}
    (h : push env i ev policy s pc = some (s', pc'))
    (hs : Local Slotless (fun _ _ => Idles) s frame) (hf : frame i = some (.push ev policy pc)) :
    (slotless ι capacity).Sound env.stop i s frame (.push ev policy pc) s'
      (.push ev policy pc') := by
  have hi : Idles (frame i) := hs.2 i
  rw [hf] at hi
  obtain ⟨hring, hhead, htail, hpub, hcop⟩ := hs.1
  cases pc with
  | entry =>
    cases h
    exact sound_slotless hs ⟨hring, hhead, htail, hpub, hcop⟩ trivial .stay
  | checkClosed spins =>
    simp only [push] at h
    split_ifs at h with hclosed <;> cases h
    · exact sound_slotless hs ⟨hring, hhead, htail, hpub, hcop⟩ trivial
        (.refuse (.inr (.inl hclosed)))
    · exact sound_slotless hs hs.1 trivial .stay
  | checkStop spins =>
    simp only [push] at h
    split_ifs at h with hstop <;> cases h
    · exact sound_slotless hs ⟨hring, hhead, htail, hpub, hcop⟩ trivial
        (.refuse (.inr (.inr hstop)))
    · exact sound_slotless hs hs.1 trivial .stay
  | loadTail spins =>
    cases h
    exact sound_slotless hs hs.1 trivial .stay
  | loadHead spins tail =>
    simp only [push] at h
    split_ifs at h with hroom hdrop <;> cases h
    · exact sound_slotless hs hs.1 trivial .stay
    · exact sound_slotless hs ⟨hring, hhead, htail, hpub, hcop⟩ trivial
        (.refuse (.inl (decide_eq_true hdrop)))
    · exact sound_slotless hs ⟨hring, hhead, htail, hpub, hcop⟩ trivial .stay
  -- No index is inside a buffer without slots.
  | write tail next head =>
    simp only [push] at h
    split_ifs at h with hin
    omega
  | returned ok => cases h
  | _ => exact hi.elim

omit [Fintype ι] in
theorem slotless_pop {env : Env ι} {pc pc' : PopPC} (h : pop env i s pc = some (s', pc'))
    (hs : Local Slotless (fun _ _ => Idles) s frame) (hf : frame i = some (.pop pc)) :
    (slotless ι capacity).Sound env.stop i s frame (.pop pc) s' (.pop pc') := by
  have hi : Idles (frame i) := hs.2 i
  rw [hf] at hi
  obtain ⟨hring, hhead, htail, hpub, hcop⟩ := hs.1
  cases pc with
  | loadHead spins =>
    cases h
    exact sound_slotless hs hs.1 hhead .stay
  | loadTail spins head =>
    obtain rfl : head = 0 := hi
    simp only [pop] at h
    split_ifs at h with hvalue <;> cases h
    · -- Both indices stay 0, so that the ring always looks empty.
      exact absurd htail.symm hvalue
    · refine sound_slotless hs ⟨hring, hhead, htail, hpub, hcop⟩ trivial (.miss ?_)
      show s.published.length - s.copied.length = 0
      rw [hpub, List.length_nil, Nat.zero_sub]
  | emptyClosed spins =>
    simp only [pop] at h
    split_ifs at h with hclosed <;> cases h
    · exact sound_slotless hs hs.1 trivial (.seeClosed hclosed)
    · exact sound_slotless hs hs.1 trivial (.seeOpen (Bool.not_eq_true _ ▸ hclosed))
  | emptyStop spins =>
    simp only [pop] at h
    split_ifs at h with hstop <;> cases h
    · exact sound_slotless hs hs.1 trivial (.seeStop hstop)
    · exact sound_slotless hs ⟨hring, hhead, htail, hpub, hcop⟩ trivial .retry
  | returned out => cases h
  | _ => exact hi.elim

/-- A ring without slots follows the permit protocol, since nothing is ever stored. -/
theorem slotless_refines (hcap : (capacity + 1) % 2 ^ 64 = 0) (p k : ι) :
    Refines (spscRingQueue ι capacity) none (Discipline p k) (slotless ι capacity) where
  init_store := rfl
  init_inv := ⟨⟨hcap, rfl, rfl, rfl, rfl⟩, fun _ => trivial⟩
  pushEntry := fun _ _ => rfl
  popEntry := rfl
  enter := by
    intro i c s frame _ hs _
    exact slotless_replace hs (by cases c <;> trivial)
  push := fun h hr hf => slotless_push h hr.inv hf
  pop := fun h hr hf => slotless_pop h hr.inv hf
  close := by
    intro stop i s frame s' h hr hf
    cases h
    obtain ⟨hring, hhead, htail, hpub, hcop⟩ := hr.inv.1
    exact sound_slotless hr.inv ⟨hring, hhead, htail, hpub, hcop⟩ trivial .close
  leavePush := by
    intro i s frame ev policy pc ok h hs hf
    have hi : Idles (frame i) := hs.2 i
    rw [hf] at hi
    cases pc with
    | returned ok =>
      cases h
      cases ok
      · exact ⟨slotless_replace hs trivial, rfl⟩
      · exact hi.elim
    | _ => cases h
  leavePop := by
    intro i s frame pc ok out h hs hf
    have hi : Idles (frame i) := hs.2 i
    rw [hf] at hi
    cases pc with
    | returned out =>
      cases h
      cases out
      · exact ⟨slotless_replace hs trivial, rfl⟩
      · exact hi.elim
    | _ => cases h
  leaveClose := fun hs _ => slotless_replace hs trivial
  content := fun _ => rfl
  foundEmpty := (refines (by decide : 0 + 1 < 2 ^ 64) p k).foundEmpty
  hasStored := (refines (by decide : 0 + 1 < 2 ^ 64) p k).hasStored
  hasTaken := (refines (by decide : 0 + 1 < 2 ^ 64) p k).hasTaken

/-- **`SpscRingQueue` follows the permit protocol** for one producer and one consumer, whatever its
capacity. -/
theorem exists_refines (capacity : ℕ) (p k : ι) :
    ∃ A, Refines (spscRingQueue ι capacity) none (Discipline p k) A := by
  by_cases hcap : (capacity + 1) % 2 ^ 64 = 0
  · exact ⟨_, slotless_refines hcap p k⟩
  · -- Only the number of slots depends on the capacity.
    obtain ⟨n, hn⟩ := Nat.exists_eq_succ_of_ne_zero hcap
    have hlt : n + 1 < 2 ^ 64 := by omega
    have hsame : spscRingQueue ι capacity = spscRingQueue ι n := by
      unfold spscRingQueue SpscRingQueue.init
      rw [hn, Nat.mod_eq_of_lt hlt]
    rw [hsame]
    exact ⟨_, refines hlt p k⟩

/-! ### A bounded FIFO -/

/-- **`SpscRingQueue` is a bounded FIFO** for one producer and one consumer, whatever the policy
and whenever the queue is closed or the stop flag changes.  Events are popped in the order they
were published; the producer writes only a slot whose event has been copied out, and the consumer
copies only a slot that is filled; the queue never holds more events than its capacity, and a
push takes the branch for a full ring only if it holds that many. -/
theorem indexed_fifo (hcap : capacity < 2 ^ 64 - 1) {p k : ι}
    {s : QState (spscRingQueue ι capacity)}
    (h : QReachable (spscRingQueue ι capacity) (Discipline p k) s) :
    s.shared.popped <+: s.shared.published ∧
    (∀ i ev policy tail next head, s.frame i = some (.push ev policy (.write tail next head)) →
      s.shared.filled tail = false) ∧
    (∀ i head, s.frame i = some (.pop (.copy head)) → s.shared.filled head = true) ∧
    s.shared.published.length ≤ s.shared.popped.length + capacity ∧
    (∀ i ev policy spins tail, s.frame i = some (.push ev policy (.loadHead spins tail)) →
      nextIndex s.shared tail = s.shared.head_ →
      s.shared.published.length = s.shared.popped.length + capacity) := by
  have hs : Local (Ring capacity) (Thread capacity p k) s.shared s.frame :=
    ((refines (by omega) p k).reachable h).inv
  have hring := hs.1
  refine ⟨?_, ?_, ?_, hring.published_le, ?_⟩
  · apply List.prefix_of_prefix_length_le
      (hring.popped_prefix.trans hring.log.taken_prefix) hring.published_prefix
    exact hring.popped_prefix.length_le.trans hring.copied_le
  · intro i ev policy tail next head hf
    have ht := hf ▸ hs.2 i
    obtain ⟨hw, rfl, -, hroom⟩ := ht.producer ht.role
    have hcopied := hring.popped_prefix.length_le
    rw [hring.tail, ← hw]
    exact hring.log.free (by rw [hw]; omega)
  · intro i head hf
    have ht := hf ▸ hs.2 i
    obtain ⟨hc, rfl, hvalue⟩ := ht.consumer ht.role
    have hwritten := hring.published_prefix.length_le
    rw [hring.head, ← hc]
    exact hring.log.holds (by omega)
  · intro i ev policy spins tail hf
    have ht := hf ▸ hs.2 i
    obtain ⟨-, rfl⟩ := ht.producer ht.role
    exact (full_iff hring (by omega)).mp

open QState.Turn in
/-- A push into a full ring of capacity `1`, at its load of `head_`. -/
def fullTurns : List (QState.Turn Bool) :=
  call true (.push { id := 7 } .drop) :: List.replicate 8 (step {} true) ++
    leave true :: call true (.push { id := 8 } .drop) :: List.replicate 4 (step {} true)

def fullState : QState (spscRingQueue Bool 1) :=
  ((QState.start _).run fullTurns).get (by decide)

theorem fullTurns_disciplined (i : Bool) (c : Call) (h : .call i c ∈ fullTurns) :
    Discipline true false i c := by
  simp only [fullTurns, List.cons_append, List.mem_cons, List.mem_append, List.mem_replicate,
    reduceCtorEq, and_false, false_or, or_false, QState.Turn.call.injEq] at h
  rcases h with ⟨rfl, rfl⟩ | ⟨rfl, rfl⟩ <;> rfl

theorem indexed_fifo_full :
    fullState.frame true = some (.push { id := 8 } .drop (PushPC.loadHead 0 1)) ∧
    fullState.shared.popped <+: fullState.shared.published ∧
    (∀ i ev policy tail next head,
      fullState.frame i = some (.push ev policy (PushPC.write tail next head)) →
      fullState.shared.filled tail = false) ∧
    (∀ i head, fullState.frame i = some (.pop (PopPC.copy head)) →
      fullState.shared.filled head = true) ∧
    fullState.shared.published.length ≤ fullState.shared.popped.length + 1 ∧
    (∀ i ev policy spins tail,
      fullState.frame i = some (.push ev policy (PushPC.loadHead spins tail)) →
      nextIndex fullState.shared tail = fullState.shared.head_ →
      fullState.shared.published.length = fullState.shared.popped.length + 1) :=
  ⟨rfl, indexed_fifo (p := true) (k := false) (by decide)
    (QState.steps_of_run fullTurns_disciplined (Option.some_get _).symm)⟩

end SpscRingQueue

end Laboratory.QueueLatency
