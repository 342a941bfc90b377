import Laboratory.Concurrency.ThreadSum
import Mathlib.Algebra.Order.BigOperators.Group.Finset
import Mathlib.Data.Multiset.Basic

/-!
# Queues with permits

The abstract protocol behind a bounded queue: a push takes a permit for a free place, stores its
value and announces it; a pop takes a permit for an announced value, takes the oldest one and
gives the place back.  Storing and announcing, finding the queue empty and asking whether it is
closed are separate moves, so that any interleaving of them is possible.

`Accounts` says where the permits are, `Flow` where the values are; `Accounts.move` and
`Flow.move` show that no move of any thread changes either.  `Move.quits` is what a shutdown rests
on: a pop that gives up has found nothing to take.
-/

namespace Laboratory.Concurrency

variable {ι α : Type*}

/-- An operation on the queue; `mayDrop` says that a push may give up on a full queue. -/
inductive Operation (α : Type*) where
  | push (a : α) (mayDrop : Bool)
  | pop
  | close

/-- Where an operation on the queue stands. -/
inductive Phase (α : Type*) where
  | idle
  /-- A push of `a` that holds no permit. -/
  | pushing (a : α) (mayDrop : Bool)
  | reserved (a : α)
  /-- A push that holds a permit and will give it back. -/
  | rejected
  /-- The value is stored and not announced yet. -/
  | unsignalled (a : α)
  | accepted (a : α)
  | refused
  /-- A pop that holds no permit. -/
  | searching
  /-- A pop that has found the queue empty, and one that has then found it open. -/
  | sawEmpty
  | sawOpen
  /-- A pop that holds a permit and has not taken its value yet. -/
  | claimed
  /-- The value is taken and its place not given back yet. -/
  | taken (a : α)
  | holding (a : α)
  | leaving
  | closing
  | closed

/-- The queue: the stored values, oldest first, how many of them are announced and unclaimed, and
the number of free places, which is `none` for a queue without a bound. -/
structure Store (α : Type*) where
  stored : List α
  avail : ℕ
  room : Option ℕ
  closed : Bool

/-- **The moves of an operation.** `stop` is the value of its stop flag. -/
inductive Move (stop : Bool) : Store α → Phase α → Store α → Phase α → Prop
  | stay {g p} : Move stop g p g p
  | reserve {g a d} (room : g.room ≠ some 0) :
      Move stop g (.pushing a d) { g with room := g.room.map (· - 1) } (.reserved a)
  | reject {g a} (why : g.closed = true ∨ stop = true) :
      Move stop g (.reserved a) g .rejected
  | giveBack {g} :
      Move stop g .rejected { g with room := g.room.map (· + 1) } .refused
  | publish {g a} :
      Move stop g (.reserved a) { g with stored := g.stored ++ [a] } (.unsignalled a)
  | signal {g a} :
      Move stop g (.unsignalled a) { g with avail := g.avail + 1 } (.accepted a)
  | publishDirect {g a d} (room : g.room ≠ some 0) :
      Move stop g (.pushing a d)
        { g with
          stored := g.stored ++ [a]
          avail := g.avail + 1
          room := g.room.map (· - 1) } (.accepted a)
  | refuse {g a d} (why : d = true ∨ g.closed = true ∨ stop = true) :
      Move stop g (.pushing a d) g .refused
  | claim {g n} (avail : g.avail = n + 1) :
      Move stop g .searching { g with avail := n } .claimed
  | take {g a rest} (stored : g.stored = a :: rest) :
      Move stop g .claimed { g with stored := rest } (.taken a)
  | release {g a} :
      Move stop g (.taken a) { g with room := g.room.map (· + 1) } (.holding a)
  | takeDirect {g a rest n} (stored : g.stored = a :: rest) (avail : g.avail = n + 1) :
      Move stop g .searching
        { g with
          stored := rest
          avail := n
          room := g.room.map (· + 1) } (.holding a)
  | miss {g} (avail : g.avail = 0) : Move stop g .searching g .sawEmpty
  | seeClosed {g} (closed : g.closed = true) : Move stop g .sawEmpty g .leaving
  | seeOpen {g} (closed : g.closed = false) : Move stop g .sawEmpty g .sawOpen
  | seeStop {g} (stop_eq : stop = true) : Move stop g .sawOpen g .leaving
  | retry {g} : Move stop g .sawOpen g .searching
  | leaveEmpty {g} (avail : g.avail = 0) (why : g.closed = true ∨ stop = true) :
      Move stop g .searching g .leaving
  | close {g} : Move stop g .closing { g with closed := true } .closed

namespace Phase

/-- The place that an operation keeps from others although nothing is stored in it. -/
def places : Phase α → ℕ
  | .reserved _ | .rejected | .taken _ => 1
  | _ => 0

/-- The stored value that is not announced, or claimed already. -/
def hidden : Phase α → ℕ
  | .unsignalled _ | .claimed => 1
  | _ => 0

/-- The value a push has stored and not reported yet. -/
def stowed : Phase α → Multiset α
  | .unsignalled a | .accepted a => {a}
  | _ => 0

/-- The value a pop has taken and not reported yet. -/
def carried : Phase α → Multiset α
  | .taken a | .holding a => {a}
  | _ => 0

/-- The operation is a push. -/
def isPush : Phase α → Bool
  | .pushing _ _ | .reserved _ | .rejected | .unsignalled _ | .accepted _ | .refused => true
  | _ => false

/-- The phases of an operation. -/
def of : Operation α → Phase α → Prop
  | .push a d, .pushing b e => b = a ∧ e = d
  | .push a _, .reserved b | .push a _, .unsignalled b | .push a _, .accepted b => b = a
  | .push _ _, .rejected | .push _ _, .refused => True
  | .pop, .searching | .pop, .sawEmpty | .pop, .sawOpen | .pop, .claimed | .pop, .taken _
  | .pop, .holding _ | .pop, .leaving => True
  | .close, .closing | .close, .closed => True
  | _, _ => False

/-- The operation is a push that stores nothing. -/
def isDeclined : Phase α → Bool
  | .rejected | .refused => true
  | _ => false

/-- The operation is a pop on its way out: it has found the queue empty, and will leave if it
finds it closed, or has left. -/
def isQuitting : Phase α → Bool
  | .sawEmpty | .leaving => true
  | _ => false

end Phase

/-! ### What one move does -/

namespace Move

variable {stop : Bool} {g g' : Store α} {p p' : Phase α}

/-- A queue without a bound reserves nothing. -/
theorem reserve_unbounded {a : α} {d : Bool} (h : g.room = none) :
    Move stop g (.pushing a d) g (.reserved a) := by
  obtain ⟨stored, avail, room, closed⟩ := g
  cases h
  exact .reserve fun h => by cases h

theorem hidden_eq (h : Move stop g p g' p') :
    g'.avail + p'.hidden + g.stored.length = g.avail + p.hidden + g'.stored.length := by
  cases h <;> simp only [Phase.hidden, List.length_append, List.length_singleton] <;>
    simp_all <;> omega

theorem places_eq (h : Move stop g p g' p') (n : ℕ) :
    g'.room.map (· + (n + p'.places) + g'.stored.length) =
      g.room.map (· + (n + p.places) + g.stored.length) := by
  obtain ⟨stored, avail, room, closed⟩ := g
  cases room with
  | none => cases h <;> rfl
  | some r =>
    cases h <;> simp only [Phase.places, Option.map_some, Option.some.injEq, List.length_append,
      List.length_singleton] <;> simp_all <;> omega

theorem values_eq (h : Move stop g p g' p') :
    p.stowed + p'.carried + (g'.stored : Multiset α) =
      p'.stowed + p.carried + (g.stored : Multiset α) := by
  cases h with
  | publish | publishDirect =>
    simp only [Phase.stowed, Phase.carried, ← Multiset.coe_add, Multiset.coe_singleton]
    abel
  | take stored | takeDirect stored =>
    simp only [Phase.stowed, Phase.carried, stored, ← Multiset.cons_coe,
      ← Multiset.singleton_add]
    abel
  | _ => rfl

/-- **What a move does to the stored values**: nothing; or a push appends its value; or a pop takes
the oldest one. -/
theorem effect (h : Move stop g p g' p') :
    (g'.stored = g.stored ∧ p'.stowed = p.stowed ∧ p'.carried = p.carried) ∨
    (∃ a, g'.stored = g.stored ++ [a] ∧ p.stowed = 0 ∧ p'.stowed = {a} ∧ p'.carried = p.carried) ∨
    ∃ a, g.stored = a :: g'.stored ∧ p.carried = 0 ∧ p'.carried = {a} ∧ p'.stowed = p.stowed := by
  cases h with
  | publish | publishDirect => exact .inr (.inl ⟨_, rfl, rfl, rfl, rfl⟩)
  | take stored | takeDirect stored => exact .inr (.inr ⟨_, stored, rfl, rfl, rfl⟩)
  | _ => exact .inl ⟨rfl, rfl, rfl⟩

/-- An operation stays in its own phases. -/
theorem of {k : Operation α} (h : Move stop g p g' p') (hp : p.of k) : p'.of k := by
  cases h <;> cases k <;> simp_all [Phase.of]

/-- **A push that has to wait for a place is declined by a closed queue**, or when it is told to
stop. -/
theorem declined {a : α} (h : Move stop g p g' p') (hp : p.of (.push a false))
    (hd : p'.isDeclined = true) : p.isDeclined = true ∨ g.closed = true ∨ stop = true := by
  cases h <;> simp_all [Phase.isDeclined, Phase.of]

/-- **A pop that is not told to stop leaves a closed queue only.** -/
theorem leaves (h : Move false g p g' .leaving) : p = .leaving ∨ g.closed = true := by
  cases h <;> simp_all

theorem closes (h : Move stop g p g' .closed) : p = .closed ∨ g'.closed = true := by
  cases h <;> simp_all

theorem closed_mono (h : Move stop g p g' p') (hc : g.closed = true) : g'.closed = true := by
  cases h <;> simp_all

theorem closed_of (h : Move stop g p g' p') (hc : g'.closed = true) :
    g.closed = true ∨ p = .closing := by
  cases h <;> simp_all

/-- Only a push adds to the queue: any other operation leaves the stored values or takes the
oldest, and does not announce any. -/
theorem shrinks (h : Move stop g p g' p') (hp : p.isPush = false) :
    g'.stored <:+ g.stored ∧ g'.avail ≤ g.avail := by
  cases h <;> simp_all [Phase.isPush, List.suffix_cons]

/-- Only a pop takes from the queue: any other operation leaves the stored values or appends one. -/
theorem grows {k : Operation α} (h : Move stop g p g' p') (hp : p.of k) (hk : k ≠ .pop) :
    g.stored <+: g'.stored := by
  cases h <;> cases k <;> simp_all [Phase.of]

/-- **A pop that is not told to stop gives up only on an empty queue**, or has done so before. -/
theorem quits (h : Move false g p g' p') (hp : p'.isQuitting = true) :
    p.isQuitting = true ∨ g'.avail = 0 := by
  cases h <;> simp_all [Phase.isQuitting]

end Move

/-! ### The accounts -/

variable [Fintype ι] [DecidableEq ι]

/-- **Where the permits are.** Every stored value is announced, or on its way to be announced, or
claimed; and the capacity is divided between the free places, the places that operations keep and
the stored values. -/
structure Accounts (capacity : Option ℕ) (g : Store α) (phase : ι → Phase α) : Prop where
  avail : g.avail + ∑ i, (phase i).hidden = g.stored.length
  room : g.room.map (· + ∑ i, (phase i).places + g.stored.length) = capacity

/-- **Where the values are.** What pushes have reported and stored is what pops have reported,
what they carry and what is stored. -/
def Flow (pushed popped : List α) (g : Store α) (phase : ι → Phase α) : Prop :=
  (pushed : Multiset α) + ∑ i, (phase i).stowed =
    (popped : Multiset α) + ∑ i, (phase i).carried + (g.stored : Multiset α)

variable {capacity : Option ℕ} {g g' : Store α} {phase : ι → Phase α} {i : ι} {p' : Phase α}
  {stop : Bool} {pushed popped : List α}

/-- **A move keeps the accounts.** -/
theorem Accounts.move (ha : Accounts capacity g phase) (h : Move stop g (phase i) g' p') :
    Accounts capacity g' (Function.update phase i p') := by
  have hh := sum_update (fun _ => Phase.hidden) phase i p'
  have hp := sum_update (fun _ => Phase.places) phase i p'
  constructor
  · have := h.hidden_eq
    have := ha.avail
    omega
  · have heq := h.places_eq (∑ j ∈ Finset.univ.erase i, (phase j).places)
    have hsplit := Finset.sum_erase_add (f := fun j => (phase j).places) _ (Finset.mem_univ i)
    rw [hsplit, ha.room] at heq
    have : ∑ j, (Function.update phase i p' j).places =
        ∑ j ∈ Finset.univ.erase i, (phase j).places + p'.places := by
      omega
    rw [this]
    exact heq

/-- **A move keeps the flow.** -/
theorem Flow.move (hf : Flow pushed popped g phase) (h : Move stop g (phase i) g' p') :
    Flow pushed popped g' (Function.update phase i p') := by
  unfold Flow at hf ⊢
  have hs := sum_update (fun _ => Phase.stowed) phase i p'
  have hc := sum_update (fun _ => Phase.carried) phase i p'
  have hv := h.values_eq
  -- Both sides lack the old weights of `i`; they are added before the laws are applied.
  apply add_right_cancel (b := (phase i).stowed + (phase i).carried + (g.stored : Multiset α))
  calc
    _ = (pushed : Multiset α) +
          (∑ j, (Function.update phase i p' j).stowed + (phase i).stowed) +
          (phase i).carried + (g.stored : Multiset α) := by abel
    _ = ((pushed : Multiset α) + ∑ j, (phase j).stowed) +
          (p'.stowed + (phase i).carried + (g.stored : Multiset α)) := by rw [hs]; abel
    _ = ((popped : Multiset α) + ∑ j, (phase j).carried + (g.stored : Multiset α)) +
          ((phase i).stowed + p'.carried + (g'.stored : Multiset α)) := by rw [hf, hv]
    _ = (popped : Multiset α) + (∑ j, (phase j).carried + p'.carried) + (g'.stored : Multiset α) +
          (phase i).stowed + (g.stored : Multiset α) := by abel
    _ = _ := by rw [← hc]; abel

/-- A phase that keeps the same permits may replace another. -/
theorem Accounts.replace (ha : Accounts capacity g phase) (hh : p'.hidden = (phase i).hidden)
    (hp : p'.places = (phase i).places) : Accounts capacity g (Function.update phase i p') := by
  constructor
  · rw [sum_update_eq (fun _ => Phase.hidden) _ _ _ hh]
    exact ha.avail
  · rw [sum_update_eq (fun _ => Phase.places) _ _ _ hp]
    exact ha.room

/-- A phase that keeps the same values may replace another. -/
theorem Flow.replace (hf : Flow pushed popped g phase) (hs : p'.stowed = (phase i).stowed)
    (hc : p'.carried = (phase i).carried) :
    Flow pushed popped g (Function.update phase i p') := by
  rw [Flow, sum_update_eq (fun _ => Phase.stowed) _ _ _ hs,
    sum_update_eq (fun _ => Phase.carried) _ _ _ hc]
  exact hf

/-- A push reports the value it has stored. -/
theorem Flow.report_push (hf : Flow pushed popped g phase) {a : α} (hi : phase i = .accepted a) :
    Flow (pushed ++ [a]) popped g (Function.update phase i .idle) := by
  have hs := sum_update (fun _ => Phase.stowed) phase i (.idle : Phase α)
  have hc : (Phase.idle : Phase α).carried = (phase i).carried := by
    rw [hi]
    rfl
  rw [show (phase i).stowed = {a} by rw [hi]; rfl, show (Phase.idle : Phase α).stowed = 0 from rfl,
    add_zero] at hs
  unfold Flow at hf ⊢
  rw [sum_update_eq (fun _ => Phase.carried) _ _ _ hc, ← hf, ← hs, ← Multiset.coe_add,
    Multiset.coe_singleton]
  abel

/-- A pop reports the value it carries. -/
theorem Flow.report_pop (hf : Flow pushed popped g phase) {a : α} (hi : phase i = .holding a) :
    Flow pushed (popped ++ [a]) g (Function.update phase i .idle) := by
  have hc := sum_update (fun _ => Phase.carried) phase i (.idle : Phase α)
  have hs : (Phase.idle : Phase α).stowed = (phase i).stowed := by
    rw [hi]
    rfl
  rw [show (phase i).carried = {a} by rw [hi]; rfl,
      show (Phase.idle : Phase α).carried = 0 from rfl,
    add_zero] at hc
  unfold Flow at hf ⊢
  rw [sum_update_eq (fun _ => Phase.stowed) _ _ _ hs, hf, ← hc, ← Multiset.coe_add,
    Multiset.coe_singleton]
  abel

omit [DecidableEq ι] in
theorem Accounts.start (h : ∀ i, phase i = .idle) :
    Accounts capacity ⟨[], 0, capacity, false⟩ phase := by
  constructor
  · rw [Finset.sum_eq_zero fun i _ => by rw [h]; rfl]
    rfl
  · rw [Finset.sum_eq_zero fun i _ => by rw [h]; rfl]
    exact Option.map_id'

omit [DecidableEq ι] in
theorem Flow.start (h : ∀ i, phase i = .idle) :
    Flow [] [] (⟨[], 0, capacity, false⟩ : Store α) phase := by
  rw [Flow, Finset.sum_eq_zero fun i _ => by rw [h]; rfl,
    Finset.sum_eq_zero fun i _ => by rw [h]; rfl]
  rfl

namespace Accounts

omit [DecidableEq ι]

theorem stored_ne_nil (ha : Accounts capacity g phase) (hi : phase i = .claimed) :
    g.stored ≠ [] := by
  have hle := Finset.single_le_sum (f := fun j => (phase j).hidden) (fun _ _ => Nat.zero_le _)
    (Finset.mem_univ i)
  have hone : (phase i).hidden = 1 := by rw [hi]; rfl
  have hlen := ha.avail
  intro hnil
  rw [hnil, List.length_nil] at hlen
  omega

/-- Two threads hide two values. -/
theorem two_le_stored {j : ι} (ha : Accounts capacity g phase) (hij : i ≠ j)
    (hi : (phase i).hidden = 1) (hj : (phase j).hidden = 1) : 2 ≤ g.stored.length := by
  classical
  have hle := Finset.sum_le_sum_of_subset (f := fun k => (phase k).hidden)
    (Finset.subset_univ {i, j})
  rw [Finset.sum_pair hij, hi, hj] at hle
  have hlen := ha.avail
  omega

/-- A push that holds a permit finds a place. -/
theorem stored_length_lt {c : ℕ} (ha : Accounts (some c) g phase) {a : α}
    (hi : phase i = .reserved a) : g.stored.length < c := by
  have hle := Finset.single_le_sum (f := fun j => (phase j).places) (fun _ _ => Nat.zero_le _)
    (Finset.mem_univ i)
  have hone : (phase i).places = 1 := by rw [hi]; rfl
  obtain ⟨r, -, hr⟩ := Option.map_eq_some_iff.mp ha.room
  omega

/-- Nothing hidden: all that is stored is announced. -/
theorem stored_eq_nil (ha : Accounts capacity g phase) (havail : g.avail = 0)
    (hall : ∀ i, (phase i).hidden = 0) : g.stored = [] := by
  have hlen := ha.avail
  rw [Finset.sum_eq_zero fun i _ => hall i, havail] at hlen
  exact List.eq_nil_of_length_eq_zero hlen.symm

end Accounts

end Laboratory.Concurrency
