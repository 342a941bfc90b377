import Laboratory.QueueLatency.Equiv.Refinement
import Laboratory.QueueLatency.SplitLockLinkedQueue

/-!
# `SplitLockLinkedQueue` refines the permit protocol

The list from `head_` on is a `Seg` whose values are the events linked and not yet taken.  For a
thread, `TailSide` and `HeadSide` say what it knows of the two ends under their mutexes, and
`OwnSide` what it knows of a node that it alone can reach: one it has not linked yet, or one it
has unlinked and not deleted yet.
-/

namespace Laboratory.QueueLatency

namespace SplitLockLinkedQueue

open Concurrency

variable {ι : Type} {capacity : ℕ} {cap : Option ℕ} {i j : ι} {s s' : Shared ι}
  {cells cells' : List (ℕ × Event)}

def pushPhase (ev : Event) (policy : BackpressurePolicy) : PushPC → Phase Event
  | .entry | .acquire _ | .fullClosed _ | .fullStop _ => .pushing ev (policy = .drop)
  | .alloc _ | .lockTail _ _ | .recheck _ _ | .link _ => .reserved ev
  | .discard _ _ | .giveBack _ => .rejected
  | .unlockFailed | .returned false => .refused
  | .setTail _ | .addDepth | .unlockTail | .release => .unsignalled ev
  | .returned true => .accepted ev

def popPhase : PopPC → Phase Event
  | .acquire _ => .searching
  | .emptyClosed _ => .sawEmpty
  | .emptyStop _ => .sawOpen
  | .lockHead | .readNext | .nullClosed | .nullStop | .unlockNull _ | .moveOut _ _
  | .setHead _ _ _ => .claimed
  | .subDepth _ out | .unlockHead _ out | .deleteOld _ out | .release out => .taken out
  | .returned (some out) => .holding out
  | .returned none | .returnedNull _ => .leaving

/-- The events that wait are those linked and not yet taken. -/
def store (s : Shared ι) : Store Event where
  stored := s.linked.drop s.taken.length
  avail := s.items_
  room := s.slots_
  closed := s.closed_

/-! ### What a thread knows -/

/-- Where a thread is with respect to the tail: outside the critical section, inside with `tail_`
at the last node, or inside with a node linked behind `tail_`. -/
inductive TailState where
  | outside
  | atLast
  | behind (n : ℕ)

/-- Where a thread is with respect to the head: how much it has read of the first two nodes. -/
inductive HeadState where
  | outside
  | inside
  | next (old_head new_head : ℕ)
  | value (old_head new_head : ℕ) (out : Event)

/-- The node that only this thread can reach: one with its event that will be linked, or another
that will be deleted. -/
inductive OwnState where
  | nothing
  | fresh (n : ℕ) (ev : Event)
  | old (n : ℕ)

def OwnState.node : OwnState → Option ℕ
  | .nothing => none
  | .fresh n _ => some n
  | .old n => some n

def TailSide (s : Shared ι) (cells : List (ℕ × Event)) (i : ι) : TailState → Prop
  | .outside => s.tail_mu_ ≠ some i
  | .atLast => s.tail_mu_ = some i ∧ s.tail_ = lastNode s.head_ cells
  | .behind n => s.tail_mu_ = some i ∧
      ∃ front a, cells = front ++ [(n, a)] ∧ s.tail_ = lastNode s.head_ front

def HeadSide (s : Shared ι) (cells : List (ℕ × Event)) (i : ι) : HeadState → Prop
  | .outside => s.head_mu_ ≠ some i
  | .inside => s.head_mu_ = some i
  | .next old_head new_head => s.head_mu_ = some i ∧ old_head = s.head_ ∧
      ∃ a rest, cells = (new_head, a) :: rest
  | .value old_head new_head out => s.head_mu_ = some i ∧ old_head = s.head_ ∧
      ∃ rest, cells = (new_head, out) :: rest

def OwnSide (s : Shared ι) (cells : List (ℕ × Event)) : OwnState → Prop
  | .nothing => True
  | .fresh n ev => s.nodes n = some ⟨some ev, none⟩ ∧ n ∉ segNodes s.head_ cells
  | .old n => s.nodes n ≠ none ∧ n ∉ segNodes s.head_ cells

/-- A node owned by another thread is not this one. -/
theorem OwnSide.not_mem {o : OwnState} (h : OwnSide s cells o) {n : ℕ} (hn : o.node = some n) :
    s.nodes n ≠ none ∧ n ∉ segNodes s.head_ cells := by
  cases o with
  | nothing => cases hn
  | fresh m ev =>
    cases hn
    exact ⟨by rw [h.1]; exact Option.some_ne_none _, h.2⟩
  | old m =>
    cases hn
    exact h

/-- What a thread owns stays its own while its nodes do not change and stay out of the list. -/
theorem OwnSide.mono {o : OwnState} (h : OwnSide s cells o)
    (heq : ∀ n, o.node = some n → s'.nodes n = s.nodes n)
    (hout : ∀ n, o.node = some n → n ∉ segNodes s'.head_ cells') : OwnSide s' cells' o := by
  cases o with
  | nothing => trivial
  | fresh n ev => exact ⟨(heq n rfl).trans h.1, hout n rfl⟩
  | old n => exact ⟨by rw [heq n rfl]; exact h.1, hout n rfl⟩

/-- Whoever is outside does not care for the tail. -/
theorem TailSide.other {t : TailState} (h : TailSide s cells j t) (hm : s.tail_mu_ ≠ some j)
    (hm' : s'.tail_mu_ ≠ some j) : TailSide s' cells' j t := by
  cases t with
  | outside => exact hm'
  | atLast => exact absurd h.1 hm
  | behind n => exact absurd h.1 hm

/-- Unlinking the head is no news at the tail, unless `tail_` is the head. -/
theorem TailSide.unlinked {t : TailState} {c : ℕ × Event} {taken : List Event}
    (h : TailSide s (c :: cells) j t) (hlen : ∀ n, t = .behind n → cells ≠ []) :
    TailSide { s with head_ := c.1, taken := taken } cells j t := by
  cases t with
  | outside => exact h
  | atLast => exact h
  | behind n =>
    obtain ⟨hmu, front, a, hcells, htail⟩ := h
    cases front with
    | nil =>
      cases hcells
      exact absurd rfl (hlen n rfl)
    | cons d front =>
      cases hcells
      exact ⟨hmu, front, a, rfl, htail⟩

theorem HeadSide.other {t : HeadState} (h : HeadSide s cells j t) (hm : s.head_mu_ ≠ some j)
    (hm' : s'.head_mu_ ≠ some j) : HeadSide s' cells' j t := by
  cases t with
  | outside => exact hm'
  | inside => exact absurd h hm
  | next old_head new_head => exact absurd h.1 hm
  | value old_head new_head out => exact absurd h.1 hm

/-- A list that has grown at its end is no news at the head. -/
theorem HeadSide.append {t : HeadState} (h : HeadSide s cells j t) (hm : s'.head_mu_ = s.head_mu_)
    (hh : s'.head_ = s.head_) (c : ℕ × Event) : HeadSide s' (cells ++ [c]) j t := by
  cases t with
  | outside => exact fun heq => h (hm ▸ heq)
  | inside => exact hm.trans h
  | next old_head new_head =>
    obtain ⟨h1, h2, a, rest, rfl⟩ := h
    exact ⟨hm.trans h1, h2.trans hh.symm, a, rest ++ [c], rfl⟩
  | value old_head new_head out =>
    obtain ⟨h1, h2, rest, rfl⟩ := h
    exact ⟨hm.trans h1, h2.trans hh.symm, rest ++ [c], rfl⟩

/-! ### What the place in the code says -/

variable [DecidableEq ι]

def tailOf : Option (Frame (splitLockLinkedQueue ι capacity)) → TailState
  | some (.push _ _ pc) =>
    match pc with
    | .recheck _ _ | .discard _ _ | .giveBack _ | .unlockFailed | .link _ | .addDepth
    | .unlockTail => .atLast
    | .setTail node => .behind node
    | _ => .outside
  | _ => .outside

def headOf : Option (Frame (splitLockLinkedQueue ι capacity)) → HeadState
  | some (.pop pc) =>
    match pc with
    | .readNext | .nullClosed | .nullStop | .unlockNull _ | .subDepth _ _ | .unlockHead _ _ =>
      .inside
    | .moveOut old_head new_head => .next old_head new_head
    | .setHead old_head new_head out => .value old_head new_head out
    | _ => .outside
  | _ => .outside

def ownOf : Option (Frame (splitLockLinkedQueue ι capacity)) → OwnState
  | some (.push ev _ pc) =>
    match pc with
    | .lockTail _ node | .recheck _ node | .link node => .fresh node ev
    | .discard _ node => .old node
    | _ => .nothing
  | some (.pop pc) =>
    match pc with
    | .subDepth old_head _ | .unlockHead old_head _ | .deleteOld old_head _ => .old old_head
    | _ => .nothing
  | _ => .nothing

/-- What the thread has found out about the presence of `slots_`, at first in the branch it has
taken and then in the variable `reserved_slot`. -/
def flagOf : Option (Frame (splitLockLinkedQueue ι capacity)) → Option Bool
  | some (.push _ _ pc) =>
    match pc with
    | .acquire _ | .fullClosed _ | .fullStop _ => some true
    | .alloc reserved_slot | .lockTail reserved_slot _ | .recheck reserved_slot _
    | .discard reserved_slot _ | .giveBack reserved_slot => some reserved_slot
    | _ => none
  | _ => none

/-- The thread has found `new_head == nullptr`. -/
def nullOf : Option (Frame (splitLockLinkedQueue ι capacity)) → Bool
  | some (.pop pc) =>
    match pc with
    | .nullClosed | .nullStop | .unlockNull _ | .returnedNull _ => true
    | _ => false
  | _ => false

structure Thread (i : ι) (s : Shared ι) (cells : List (ℕ × Event))
    (f : Option (Frame (splitLockLinkedQueue ι capacity))) : Prop where
  tail : TailSide s cells i (tailOf f)
  head : HeadSide s cells i (headOf f)
  own : OwnSide s cells (ownOf f)
  flag : ∀ b, flagOf f = some b → b = s.slots_.isSome
  not_null : nullOf f = false

/-- The list on the heap, with its history; `tail_` is the last node while `tail_mu_` is free. -/
structure Linked (s : Shared ι) (cells : List (ℕ × Event)) : Prop where
  seg : Seg s.nodes s.head_ cells
  nodup : (segNodes s.head_ cells).Nodup
  values : cells.map Prod.snd = s.linked.drop s.taken.length
  taken_prefix : s.taken <+: s.linked
  tail : s.tail_mu_ = none → s.tail_ = lastNode s.head_ cells

/-- No two threads own the same node. -/
def Apart (frame : ι → Option (Frame (splitLockLinkedQueue ι capacity))) : Prop :=
  ∀ i j, i ≠ j → ∀ n, (ownOf (frame i)).node = some n → (ownOf (frame j)).node ≠ some n

def Inv (capacity : ℕ) (s : Shared ι)
    (frame : ι → Option (Frame (splitLockLinkedQueue ι capacity))) : Prop :=
  ∃ cells, Linked s cells ∧ (∀ i, Thread i s cells (frame i)) ∧ Apart frame

def abstraction (ι : Type) [DecidableEq ι] (capacity : ℕ) :
    Abstraction (splitLockLinkedQueue ι capacity) where
  store := store
  pushPhase := pushPhase
  popPhase := popPhase
  inv := Inv capacity

/-! ### The parts of a step -/

variable {f f' : Frame (splitLockLinkedQueue ι capacity)} {stop : Bool}
  {frame : ι → Option (Frame (splitLockLinkedQueue ι capacity))}

theorem Apart.update (h : Apart frame) {x : Option (Frame (splitLockLinkedQueue ι capacity))}
    (hx : ∀ n, (ownOf x).node = some n → ∀ j, j ≠ i → (ownOf (frame j)).node ≠ some n) :
    Apart (Function.update frame i x) := by
  intro a b hab n ha
  by_cases hai : a = i
  · subst hai
    rw [Function.update_self] at ha
    rw [Function.update_of_ne (Ne.symm hab)]
    exact hx n ha b (Ne.symm hab)
  · rw [Function.update_of_ne hai] at ha
    by_cases hbi : b = i
    · subst hbi
      rw [Function.update_self]
      intro hb
      exact hx n hb a hai ha
    · rw [Function.update_of_ne hbi]
      exact h a b hab n ha

/-- A thread that owns no other node than before. -/
theorem Apart.keep (h : Apart frame) (hf : frame i = some f)
    {x : Option (Frame (splitLockLinkedQueue ι capacity))}
    (hx : (ownOf x).node = none ∨ (ownOf x).node = (ownOf (some f)).node) :
    Apart (Function.update frame i x) := by
  apply h.update
  intro n hn k hk
  rcases hx with hx | hx
  · rw [hx] at hn
    cases hn
  · rw [hx, ← hf] at hn
    exact h i k (Ne.symm hk) n hn

/-- A step of thread `i` is sound if it is a move and keeps the list, what the threads know, and
the nodes apart. -/
theorem sound_step (hl : Linked s' cells') (hi : Thread i s' cells' (some f'))
    (hothers : ∀ j, j ≠ i → Thread j s' cells' (frame j))
    (hapart : Apart (Function.update frame i (some f')))
    (move : Move stop (store s) ((abstraction ι capacity).framePhase f) (store s')
      ((abstraction ι capacity).framePhase f')) :
    (abstraction ι capacity).Sound stop i s frame f s' f' where
  move := move
  inv := ⟨cells', hl, (Function.forall_update_iff frame _).mpr ⟨hi, hothers⟩, hapart⟩

/-- A step that touches neither the list nor a mutex is sound if it is a move. -/
theorem sound_quiet (hs : Inv capacity s frame) (hf : frame i = some f) {items : ℕ}
    {slots : Option ℕ} {depth : ℤ} {closed : Bool} {stats : QueueStats}
    (hslots : slots.isSome = s.slots_.isSome) (htail : tailOf (some f') = tailOf (some f))
    (hhead : headOf (some f') = headOf (some f))
    (hown : ownOf (some f') = ownOf (some f) ∨
      ∃ n ev, ownOf (some f) = .fresh n ev ∧ ownOf (some f') = .old n)
    (hflag : ∀ b, flagOf (some f') = some b → b = s.slots_.isSome)
    (hnull : nullOf (some f') = false)
    (move : Move stop (store s) ((abstraction ι capacity).framePhase f)
      { store s with avail := items, room := slots, closed := closed }
      ((abstraction ι capacity).framePhase f')) :
    (abstraction ι capacity).Sound stop i s frame f
      { s with
        items_ := items
        slots_ := slots
        depth_ := depth
        closed_ := closed
        stats_ := stats } f' := by
  obtain ⟨cells, hl, ht, hapart⟩ := hs
  have hi := hf ▸ ht i
  have hside : OwnSide s cells (ownOf (some f')) ∧
      (ownOf (some f')).node = (ownOf (some f)).node := by
    rcases hown with hown | ⟨n, ev, hfresh, hold⟩
    · exact ⟨hown ▸ hi.own, by rw [hown]⟩
    · have := hi.own
      rw [hfresh] at this ⊢
      rw [hold]
      exact ⟨this.not_mem rfl, rfl⟩
  refine sound_step ⟨hl.seg, hl.nodup, hl.values, hl.taken_prefix, hl.tail⟩
    ⟨htail ▸ hi.tail, hhead ▸ hi.head, hside.1, ?_, hnull⟩ ?_ (hapart.keep hf (.inr hside.2)) move
  · exact fun b hb => (hflag b hb).trans hslots.symm
  · intro j _
    exact ⟨(ht j).tail, (ht j).head, (ht j).own, fun b hb => ((ht j).flag b hb).trans hslots.symm,
      (ht j).not_null⟩

/-- A step of thread `i` at the tail that links nothing. -/
theorem sound_tail (hl : Linked s cells) (ht : ∀ i, Thread i s cells (frame i))
    (hapart : Apart frame) (hf : frame i = some f) {mu : Option ι} {tail : ℕ}
    (hmu : s.tail_mu_ = none ∨ s.tail_mu_ = some i) (hmu' : mu = none ∨ mu = some i)
    (hside : TailSide { s with tail_mu_ := mu, tail_ := tail } cells i (tailOf (some f')))
    (hrest : mu = none → tail = lastNode s.head_ cells)
    (hhead : headOf (some f') = headOf (some f)) (hown : ownOf (some f') = ownOf (some f))
    (hflag : ∀ b, flagOf (some f') = some b → b = s.slots_.isSome)
    (hnull : nullOf (some f') = false)
    (move : Move stop (store s) ((abstraction ι capacity).framePhase f) (store s)
      ((abstraction ι capacity).framePhase f')) :
    (abstraction ι capacity).Sound stop i s frame f
      { s with tail_mu_ := mu, tail_ := tail } f' := by
  have hi := hf ▸ ht i
  refine sound_step ⟨hl.seg, hl.nodup, hl.values, hl.taken_prefix, hrest⟩
    ⟨hside, hhead ▸ hi.head, hown ▸ hi.own, hflag, hnull⟩ ?_
    (hapart.keep hf (.inr (by rw [hown]))) move
  intro j hj
  refine ⟨(ht j).tail.other ?_ ?_, (ht j).head, (ht j).own, (ht j).flag, (ht j).not_null⟩
  · rcases hmu with h | h <;> simp [h, hj.symm]
  · rcases hmu' with h | h <;> simp [h, hj.symm]

/-- A step of thread `i` at the head that unlinks nothing. -/
theorem sound_head (hl : Linked s cells) (ht : ∀ i, Thread i s cells (frame i))
    (hapart : Apart frame) (hf : frame i = some f) {mu : Option ι}
    (hmu : s.head_mu_ = none ∨ s.head_mu_ = some i) (hmu' : mu = none ∨ mu = some i)
    (hside : HeadSide { s with head_mu_ := mu } cells i (headOf (some f')))
    (htail : tailOf (some f') = tailOf (some f)) (hown : ownOf (some f') = ownOf (some f))
    (hflag : flagOf (some f') = none) (hnull : nullOf (some f') = false)
    (move : Move stop (store s) ((abstraction ι capacity).framePhase f) (store s)
      ((abstraction ι capacity).framePhase f')) :
    (abstraction ι capacity).Sound stop i s frame f { s with head_mu_ := mu } f' := by
  have hi := hf ▸ ht i
  refine sound_step ⟨hl.seg, hl.nodup, hl.values, hl.taken_prefix, hl.tail⟩
    ⟨htail ▸ hi.tail, hside, hown ▸ hi.own, ?_, hnull⟩ ?_
    (hapart.keep hf (.inr (by rw [hown]))) move
  · intro b hb
    rw [hflag] at hb
    cases hb
  · intro j hj
    refine ⟨(ht j).tail, (ht j).head.other ?_ ?_, (ht j).own, (ht j).flag, (ht j).not_null⟩
    · rcases hmu with h | h <;> simp [h, hj.symm]
    · rcases hmu' with h | h <;> simp [h, hj.symm]

/-- A thread deletes the node that it alone can reach. -/
theorem sound_delete (hl : Linked s cells) (ht : ∀ i, Thread i s cells (frame i))
    (hapart : Apart frame) (hf : frame i = some f) {n : ℕ} (hold : ownOf (some f) = .old n)
    (hnew : ownOf (some f') = .nothing) (htail : tailOf (some f') = tailOf (some f))
    (hhead : headOf (some f') = headOf (some f))
    (hflag : ∀ b, flagOf (some f') = some b → flagOf (some f) = some b)
    (hnull : nullOf (some f') = false)
    (move : Move stop (store s) ((abstraction ι capacity).framePhase f) (store s)
      ((abstraction ι capacity).framePhase f')) :
    (abstraction ι capacity).Sound stop i s frame f
      { s with nodes := Function.update s.nodes n none } f' := by
  have hi := hf ▸ ht i
  have hn : n ∉ segNodes s.head_ cells := (hold ▸ hi.own : OwnSide s cells (.old n)).2
  refine sound_step ⟨hl.seg.update hn none, hl.nodup, hl.values, hl.taken_prefix, hl.tail⟩
    ⟨htail ▸ hi.tail, hhead ▸ hi.head, hnew ▸ trivial, fun b hb => hi.flag b (hflag b hb), hnull⟩ ?_
    (hapart.keep hf (.inl (by rw [hnew]; rfl))) move
  intro j hj
  refine ⟨(ht j).tail, (ht j).head, (ht j).own.mono ?_ ?_, (ht j).flag, (ht j).not_null⟩
  · intro m hm
    apply Function.update_of_ne
    rintro rfl
    exact hapart i j (Ne.symm hj) m (by rw [hf, hold]; rfl) hm
  · exact fun m hm => ((ht j).own.not_mem hm).2

/-- A new node belongs to the thread that has allocated it. -/
theorem sound_alloc (hl : Linked s cells) (ht : ∀ i, Thread i s cells (frame i))
    (hapart : Apart frame) {ev : Event} {policy : BackpressurePolicy} {reserved_slot : Bool}
    {addr : ℕ} (hf : frame i = some (.push ev policy (PushPC.alloc reserved_slot)))
    (hfree : s.nodes addr = none) :
    (abstraction ι capacity).Sound stop i s frame (.push ev policy (PushPC.alloc reserved_slot))
      { s with nodes := Function.update s.nodes addr (some { value := some ev }) }
      (.push ev policy (PushPC.lockTail reserved_slot addr)) := by
  have hi := hf ▸ ht i
  have hout : addr ∉ segNodes s.head_ cells := fun hm => hl.seg.live hm hfree
  have hother : ∀ j n, (ownOf (frame j)).node = some n → n ≠ addr := by
    rintro j n hn rfl
    exact ((ht j).own.not_mem hn).1 hfree
  refine sound_step ⟨hl.seg.update hout _, hl.nodup, hl.values, hl.taken_prefix, hl.tail⟩
    ⟨hi.tail, hi.head, ⟨Function.update_self .., hout⟩, fun b hb => hi.flag b hb, rfl⟩ ?_ ?_ .stay
  · intro j hj
    refine ⟨(ht j).tail, (ht j).head, (ht j).own.mono ?_ ?_, (ht j).flag, (ht j).not_null⟩
    · exact fun m hm => Function.update_of_ne (hother j m hm) _ _
    · exact fun m hm => ((ht j).own.not_mem hm).2
  · apply hapart.update
    rintro n ⟨⟩ j hj hn
    exact hother j addr hn rfl

/-- **Linking** makes the new node the last one of the list; `tail_` is behind it for now. -/
theorem sound_link (hl : Linked s cells) (ht : ∀ i, Thread i s cells (frame i))
    (hapart : Apart frame) {ev : Event} {policy : BackpressurePolicy} {node : ℕ}
    {last : Node Event} (hf : frame i = some (.push ev policy (PushPC.link node)))
    (hlast : s.nodes s.tail_ = some last) :
    (abstraction ι capacity).Sound stop i s frame (.push ev policy (PushPC.link node))
      { s with
        nodes := Function.update s.nodes s.tail_ (some { last with next := some node })
        linked := s.linked ++ [ev] }
      (.push ev policy (PushPC.setTail node)) := by
  have hi := hf ▸ ht i
  obtain ⟨hmu, htail⟩ : s.tail_mu_ = some i ∧ s.tail_ = lastNode s.head_ cells := hi.tail
  obtain ⟨hnode, hout⟩ : s.nodes node = some ⟨some ev, none⟩ ∧ node ∉ segNodes s.head_ cells :=
    hi.own
  obtain ⟨v, hv⟩ := hl.seg.last
  have hlast_eq : last = ⟨v, none⟩ := by
    rw [htail, hv] at hlast
    exact (Option.some.inj hlast).symm
  have hnodes : segNodes s.head_ (cells ++ [(node, ev)]) = segNodes s.head_ cells ++ [node] := by
    rw [segNodes, List.map_append]
    rfl
  have hdrop : (s.linked ++ [ev]).drop s.taken.length = s.linked.drop s.taken.length ++ [ev] :=
    List.drop_append_of_le_length hl.taken_prefix.length_le
  subst hlast_eq
  have hlinked : Linked
      { s with
        nodes := Function.update s.nodes s.tail_ (some ⟨v, some node⟩)
        linked := s.linked ++ [ev] } (cells ++ [(node, ev)]) := by
    refine ⟨?_, ?_, ?_, hl.taken_prefix.trans (List.prefix_append ..), ?_⟩
    · rw [htail]
      exact hl.seg.append hl.nodup hv hout hnode
    · rw [hnodes]
      exact List.Nodup.append hl.nodup (List.nodup_singleton _)
        (List.disjoint_singleton.mpr hout)
    · rw [List.map_append, hl.values, hdrop]
      rfl
    · exact of_held hmu
  refine sound_step hlinked ⟨⟨hmu, cells, ev, rfl, htail⟩, hi.head, trivial, ?_, rfl⟩ ?_
    (hapart.keep hf (.inl rfl)) ?_
  · rintro b ⟨⟩
  · intro j hj
    have hmuj : s.tail_mu_ ≠ some j := by simp [hmu, hj.symm]
    -- The other threads own nodes outside the list, which linking does not touch.
    refine ⟨(ht j).tail.other hmuj hmuj, (ht j).head.append rfl rfl _, (ht j).own.mono ?_ ?_,
      (ht j).flag, (ht j).not_null⟩
    · intro m hm
      apply Function.update_of_ne
      rintro rfl
      exact ((ht j).own.not_mem hm).2 (htail ▸ lastNode_mem _ _)
    · intro m hm
      rw [hnodes, List.mem_append, List.mem_singleton]
      rintro (h | rfl)
      · exact ((ht j).own.not_mem hm).2 h
      · exact hapart i j (Ne.symm hj) m (by rw [hf]; rfl) hm
  · rw [show store { s with
        nodes := Function.update s.nodes s.tail_ (some ⟨v, some node⟩)
        linked := s.linked ++ [ev] } = { store s with stored := (store s).stored ++ [ev] } by
      simp only [store, hdrop]]
    exact .publish

variable [Fintype ι]

omit [Fintype ι] in
/-- A thread that has linked a node behind `tail_` has not announced its event. -/
theorem hidden_of_behind {x : Option (Frame (splitLockLinkedQueue ι capacity))} {n : ℕ}
    (h : tailOf x = .behind n) : ((abstraction ι capacity).phase x).hidden = 1 := by
  rcases x with _ | ⟨ev, policy, pc⟩ | pc | done
  · cases h
  · cases pc with
    | setTail node => rfl
    | _ => cases h
  · cases h
  · cases h

/-- **Unlinking** makes the next node the dummy.  Were `tail_` the old dummy, its thread would
have an event in the list that nobody may take yet, and there would be two of them. -/
theorem sound_setHead (hr : (abstraction ι capacity).Ready cap s frame) (hl : Linked s cells)
    (ht : ∀ i, Thread i s cells (frame i)) (hapart : Apart frame) {old_head new_head : ℕ}
    {out : Event} (hf : frame i = some (.pop (PopPC.setHead old_head new_head out))) :
    (abstraction ι capacity).Sound stop i s frame (.pop (PopPC.setHead old_head new_head out))
      { s with head_ := new_head, taken := s.taken ++ [out] }
      (.pop (PopPC.subDepth old_head out)) := by
  have hi := hf ▸ ht i
  obtain ⟨hmu, rfl, rest, rfl⟩ : s.head_mu_ = some i ∧ old_head = s.head_ ∧
    ∃ rest, cells = (new_head, out) :: rest := hi.head
  have hvalues : s.linked.drop s.taken.length = out :: rest.map Prod.snd := hl.values.symm
  have hdrop : s.linked.drop (s.taken ++ [out]).length = rest.map Prod.snd := by
    rw [List.length_append, List.length_singleton, ← List.drop_drop, hvalues]
    rfl
  obtain ⟨hhead, hnodup⟩ := List.nodup_cons.mp hl.nodup
  have hlinked : Linked { s with head_ := new_head, taken := s.taken ++ [out] } rest := by
    refine ⟨hl.seg.tail, hnodup, hdrop.symm, ?_, hl.tail⟩
    use rest.map Prod.snd
    rw [List.append_assoc, List.singleton_append, ← hvalues]
    exact (List.prefix_append_drop hl.taken_prefix).symm
  refine sound_step hlinked ⟨hi.tail, hmu, ⟨hl.seg.live (List.mem_cons_self ..), hhead⟩, ?_, rfl⟩ ?_
    ?_ ?_
  · rintro b ⟨⟩
  · intro j hj
    have hmuj : s.head_mu_ ≠ some j := by simp [hmu, hj.symm]
    refine ⟨?_, (ht j).head.other hmuj hmuj, (ht j).own.mono (fun _ _ => rfl) ?_, (ht j).flag,
      (ht j).not_null⟩
    · -- A thread whose `tail_` is the old dummy hides one event, and the pop that unlinks hides
      -- another, but only one is stored.
      apply (ht j).tail.unlinked
      rintro n hn rfl
      have hclaim : ((abstraction ι capacity).phases frame i).hidden = 1 := by
        rw [phases_eq _ hf]
        rfl
      have hlen : 2 ≤ (s.linked.drop s.taken.length).length :=
        hr.accounts.two_le_stored (Ne.symm hj) hclaim (hidden_of_behind hn)
      rw [hvalues] at hlen
      exact absurd hlen (Nat.not_succ_le_self 1)
    · exact fun m hm h => ((ht j).own.not_mem hm).2 (List.mem_cons_of_mem _ h)
  · apply hapart.update
    rintro n ⟨⟩ j hj hn
    exact ((ht j).own.not_mem hn).2 (List.mem_cons_self ..)
  · rw [show store { s with head_ := new_head, taken := s.taken ++ [out] } =
        { store s with stored := rest.map Prod.snd } by
      simp only [store, hdrop]]
    exact .take hvalues

/-- **Every step of `push` is a move** that keeps the list right. -/
theorem push_sound {env : Env ι} {ev : Event} {policy : BackpressurePolicy} {pc pc' : PushPC}
    (h : push env i ev policy s pc = some (s', pc'))
    (hr : (abstraction ι capacity).Ready cap s frame) (hf : frame i = some (.push ev policy pc)) :
    (abstraction ι capacity).Sound env.stop i s frame (.push ev policy pc) s'
      (.push ev policy pc') := by
  have hs : Inv capacity s frame := hr.inv
  obtain ⟨cells, hl, ht, hapart⟩ := hr.inv
  have hi := hf ▸ ht i
  cases pc with
  | entry =>
    simp only [push] at h
    split_ifs at h with hclosed hslots <;> cases h
    · exact sound_quiet hs hf rfl rfl rfl (.inl rfl) (by rintro b ⟨⟩) rfl
        (.refuse (.inr (.inl hclosed)))
    · exact sound_quiet hs hf rfl rfl rfl (.inl rfl) (by rintro b ⟨⟩; exact hslots.symm) rfl .stay
    · have hnone : s.slots_ = none := by simpa using hslots
      refine sound_quiet hs hf rfl rfl rfl (.inl rfl) ?_ rfl (.reserve_unbounded hnone)
      rintro b ⟨⟩
      rw [hnone]
      rfl
  | acquire spins =>
    simp only [push] at h
    split_ifs at h with hslot hblock <;> cases h
    · exact sound_quiet hs hf (Option.isSome_map ..) rfl rfl (.inl rfl) hi.flag rfl (.reserve hslot)
    · exact sound_quiet hs hf rfl rfl rfl (.inl rfl) hi.flag rfl .stay
    · have hdrop : policy = .drop := eq_drop_of_ne_block hblock
      exact sound_quiet hs hf rfl rfl rfl (.inl rfl) (by rintro b ⟨⟩) rfl
        (.refuse (.inl (decide_eq_true hdrop)))
  | fullClosed spins =>
    simp only [push] at h
    split_ifs at h with hclosed <;> cases h
    · exact sound_quiet hs hf rfl rfl rfl (.inl rfl) (by rintro b ⟨⟩) rfl
        (.refuse (.inr (.inl hclosed)))
    · exact sound_quiet hs hf rfl rfl rfl (.inl rfl) hi.flag rfl .stay
  | fullStop spins =>
    simp only [push] at h
    split_ifs at h with hstop <;> cases h
    · exact sound_quiet hs hf rfl rfl rfl (.inl rfl) (by rintro b ⟨⟩) rfl
        (.refuse (.inr (.inr hstop)))
    · exact sound_quiet hs hf rfl rfl rfl (.inl rfl) hi.flag rfl .stay
  -- From here on the event has a node of its own, outside the list.
  | alloc reserved_slot =>
    simp only [push] at h
    split_ifs at h with hfree
    cases h
    exact sound_alloc hl ht hapart hf (Option.isNone_iff_eq_none.mp hfree)
  | lockTail reserved_slot node =>
    simp only [push] at h
    split_ifs at h with hmu
    cases h
    exact sound_tail hl ht hapart hf (.inl hmu) (.inr rfl) ⟨rfl, hl.tail hmu⟩
      (fun h => by cases h) rfl rfl hi.flag rfl .stay
  | recheck reserved_slot node =>
    simp only [push] at h
    split_ifs at h with hclosed <;> cases h
    · exact sound_quiet hs hf rfl rfl rfl (.inr ⟨node, ev, rfl, rfl⟩) hi.flag rfl
        (.reject (.inl hclosed))
    · exact sound_quiet hs hf rfl rfl rfl (.inl rfl) (by rintro b ⟨⟩) rfl .stay
  | discard reserved_slot node =>
    cases h
    exact sound_delete hl ht hapart hf rfl rfl rfl rfl (fun b hb => hb) rfl .stay
  | giveBack reserved_slot =>
    -- The slot goes back only where one was taken, that is, where there are slots at all.
    have hflag : reserved_slot = s.slots_.isSome := hi.flag _ rfl
    have hroom : (if reserved_slot then s.slots_.map (· + 1) else s.slots_) =
        s.slots_.map (· + 1) := by
      rw [hflag]
      cases s.slots_ <;> rfl
    rw [push, hroom] at h
    cases h
    exact sound_quiet hs hf (Option.isSome_map ..) rfl rfl (.inl rfl) (by rintro b ⟨⟩) rfl
      .giveBack
  | unlockFailed =>
    cases h
    obtain ⟨hmu, htail⟩ : s.tail_mu_ = some i ∧ s.tail_ = lastNode s.head_ cells := hi.tail
    exact sound_tail hl ht hapart hf (.inr hmu) (.inl rfl) (by rintro ⟨⟩) (fun _ => htail) rfl rfl
      (by rintro b ⟨⟩) rfl .stay
  | link node =>
    obtain ⟨last, hlast, heq⟩ := Option.map_eq_some_iff.mp h
    cases heq
    exact sound_link hl ht hapart hf hlast
  | setTail node =>
    cases h
    -- `node` was linked last, so that `tail_` may now point to it.
    obtain ⟨hmu, front, a, rfl, -⟩ : s.tail_mu_ = some i ∧
      ∃ front a, cells = front ++ [(node, a)] ∧ s.tail_ = lastNode s.head_ front := hi.tail
    have hlast : node = lastNode s.head_ (front ++ [(node, a)]) :=
      (lastNode_append s.head_ front (node, a)).symm
    exact sound_tail hl ht hapart hf (.inr hmu) (.inr hmu) ⟨hmu, hlast⟩ (fun _ => hlast) rfl rfl
      (by rintro b ⟨⟩) rfl .stay
  | addDepth =>
    cases h
    exact sound_quiet hs hf rfl rfl rfl (.inl rfl) (by rintro b ⟨⟩) rfl .stay
  | unlockTail =>
    cases h
    obtain ⟨hmu, htail⟩ : s.tail_mu_ = some i ∧ s.tail_ = lastNode s.head_ cells := hi.tail
    exact sound_tail hl ht hapart hf (.inr hmu) (.inl rfl) (by rintro ⟨⟩) (fun _ => htail) rfl rfl
      (by rintro b ⟨⟩) rfl .stay
  | release =>
    cases h
    exact sound_quiet hs hf rfl rfl rfl (.inl rfl) (by rintro b ⟨⟩) rfl .signal
  | returned ok => cases h

/-- **Every step of `pop` is a move** that keeps the list right. -/
theorem pop_sound {env : Env ι} {pc pc' : PopPC} (h : pop env i s pc = some (s', pc'))
    (hr : (abstraction ι capacity).Ready cap s frame) (hf : frame i = some (.pop pc)) :
    (abstraction ι capacity).Sound env.stop i s frame (.pop pc) s' (.pop pc') := by
  have hs : Inv capacity s frame := hr.inv
  obtain ⟨cells, hl, ht, hapart⟩ := hr.inv
  have hi := hf ▸ ht i
  cases pc with
  | acquire spins =>
    simp only [pop] at h
    split_ifs at h with hitem <;> cases h
    · exact sound_quiet hs hf rfl rfl rfl (.inl rfl) (by rintro b ⟨⟩) rfl
        (.claim (Nat.succ_pred hitem).symm)
    · exact sound_quiet hs hf rfl rfl rfl (.inl rfl) (by rintro b ⟨⟩) rfl
        (.miss (not_not.mp hitem))
  | emptyClosed spins =>
    simp only [pop] at h
    split_ifs at h with hclosed <;> cases h
    · exact sound_quiet hs hf rfl rfl rfl (.inl rfl) (by rintro b ⟨⟩) rfl (.seeClosed hclosed)
    · exact sound_quiet hs hf rfl rfl rfl (.inl rfl) (by rintro b ⟨⟩) rfl
        (.seeOpen (Bool.not_eq_true _ ▸ hclosed))
  | emptyStop spins =>
    simp only [pop] at h
    split_ifs at h with hstop <;> cases h
    · exact sound_quiet hs hf rfl rfl rfl (.inl rfl) (by rintro b ⟨⟩) rfl (.seeStop hstop)
    · exact sound_quiet hs hf rfl rfl rfl (.inl rfl) (by rintro b ⟨⟩) rfl .retry
  | lockHead =>
    simp only [pop] at h
    split_ifs at h with hmu
    cases h
    exact sound_head hl ht hapart hf (.inl hmu) (.inr rfl) rfl rfl rfl rfl rfl .stay
  | readNext =>
    have hmu : s.head_mu_ = some i := hi.head
    obtain ⟨old, hold, heq⟩ := Option.map_eq_some_iff.mp h
    -- The claim is worth an event, so that the dummy has a successor.
    have hvalue : s.linked.drop s.taken.length ≠ [] := hr.value hf rfl
    rw [← hl.values] at hvalue
    cases cells with
    | nil => exact absurd rfl hvalue
    | cons c rest =>
      obtain ⟨⟨v, hv⟩, -, -⟩ := hl.seg
      rw [hv] at hold
      cases hold
      cases heq
      exact sound_head hl ht hapart hf (.inr hmu) (.inr hmu) ⟨hmu, rfl, c.2, rest, rfl⟩ rfl rfl rfl
        rfl .stay
  -- `new_head` is never null: the branch for it is unreachable.
  | nullClosed => cases hi.not_null
  | nullStop => cases hi.not_null
  | unlockNull ok => cases hi.not_null
  | moveOut old_head new_head =>
    obtain ⟨hmu, rfl, a, rest, rfl⟩ : s.head_mu_ = some i ∧ old_head = s.head_ ∧
      ∃ a rest, cells = (new_head, a) :: rest := hi.head
    obtain ⟨out, hout, heq⟩ := Option.map_eq_some_iff.mp h
    -- The first cell of the list is the node that `readNext` has found.
    obtain ⟨-, ⟨next, hnext⟩, -⟩ := hl.seg
    rw [hnext] at hout
    cases hout
    cases heq
    exact sound_head hl ht hapart hf (.inr hmu) (.inr hmu) ⟨hmu, rfl, rest, rfl⟩ rfl rfl rfl rfl
      .stay
  | setHead old_head new_head out =>
    cases h
    exact sound_setHead hr hl ht hapart hf
  | subDepth old_head out =>
    cases h
    exact sound_quiet hs hf rfl rfl rfl (.inl rfl) (by rintro b ⟨⟩) rfl .stay
  | unlockHead old_head out =>
    cases h
    have hmu : s.head_mu_ = some i := hi.head
    exact sound_head hl ht hapart hf (.inr hmu) (.inl rfl) (by rintro ⟨⟩) rfl rfl rfl rfl .stay
  | deleteOld old_head out =>
    cases h
    exact sound_delete hl ht hapart hf rfl rfl rfl rfl (fun b hb => hb) rfl .stay
  | release out =>
    cases h
    exact sound_quiet hs hf (Option.isSome_map ..) rfl rfl (.inl rfl) (by rintro b ⟨⟩) rfl .release
  | returned out => cases h
  | returnedNull ok => cases h

omit [Fintype ι] in
/-- A thread that knows nothing may enter or leave. -/
theorem Inv.replace (hs : Inv capacity s frame)
    {x y : Option (Frame (splitLockLinkedQueue ι capacity))} (hf : frame i = y)
    (htail : tailOf y = .outside) (hhead : headOf y = .outside) (htail' : tailOf x = .outside)
    (hhead' : headOf x = .outside) (hown' : ownOf x = .nothing) (hflag' : flagOf x = none)
    (hnull' : nullOf x = false) : Inv capacity s (Function.update frame i x) := by
  subst hf
  obtain ⟨cells, hl, ht, hapart⟩ := hs
  refine ⟨cells, hl, ?_, ?_⟩
  · refine (Function.forall_update_iff frame _).mpr ⟨?_, fun j _ => ht j⟩
    refine ⟨htail' ▸ htail ▸ (ht i).tail, hhead' ▸ hhead ▸ (ht i).head, hown' ▸ trivial, ?_,
      hnull'⟩
    rw [hflag']
    rintro b ⟨⟩
  · apply hapart.update
    rw [hown']
    rintro n ⟨⟩

/-- The capacity as a bound: `0` means none, and a semaphore counts the free places. -/
def bound (capacity : ℕ) : Option ℕ :=
  if capacity ≠ 0 then some (semaphorePermits capacity) else none

/-- **`SplitLockLinkedQueue` follows the permit protocol**, whoever calls what. -/
theorem refines (capacity : ℕ) :
    Refines (splitLockLinkedQueue ι capacity) (bound capacity) (fun _ _ => True)
      (abstraction ι capacity) where
  init_store := rfl
  init_inv := by
    refine ⟨[], ⟨⟨none, rfl⟩, List.nodup_singleton 0, rfl, List.prefix_rfl, fun _ => rfl⟩, ?_, ?_⟩
    · intro i
      exact ⟨by rintro ⟨⟩, by rintro ⟨⟩, trivial, by rintro b ⟨⟩, rfl⟩
    · rintro i j - n ⟨⟩
  pushEntry := fun _ _ => rfl
  popEntry := rfl
  enter := by
    intro i c s frame _ hs hf
    cases c <;> exact Inv.replace hs hf rfl rfl rfl rfl rfl rfl rfl
  push := push_sound
  pop := pop_sound
  close := by
    intro stop i s frame s' h hr hf
    cases h
    exact sound_quiet hr.inv hf rfl rfl rfl (.inl rfl) (by rintro b ⟨⟩) rfl .close
  leavePush := by
    intro i s frame ev policy pc ok h hs hf
    cases pc with
    | returned ok =>
      cases h
      refine ⟨Inv.replace hs hf rfl rfl rfl rfl rfl rfl rfl, ?_⟩
      cases ok
      · rfl
      · exact ⟨ev, rfl, rfl⟩
    | _ => cases h
  leavePop := by
    intro i s frame pc ok out h hs hf
    cases pc with
    | returned out =>
      cases h
      refine ⟨Inv.replace hs hf rfl rfl rfl rfl rfl rfl rfl, ?_⟩
      cases out with
      | none => rfl
      | some a => exact ⟨a, rfl, rfl⟩
    | returnedNull ok =>
      obtain ⟨cells, hl, ht, hapart⟩ := hs
      cases (hf ▸ ht i : Thread i s cells _).not_null
    | _ => cases h
  leaveClose := fun hs hf => Inv.replace hs hf rfl rfl rfl rfl rfl rfl rfl
  content := fun _ => rfl
  foundEmpty := by
    intro pc
    cases pc with
    | returned out => cases out <;> exact ⟨by rintro ⟨⟩, by rintro ⟨⟩⟩
    | emptyClosed spins => exact ⟨fun _ => rfl, fun _ => rfl⟩
    | _ => exact ⟨by rintro ⟨⟩, by rintro ⟨⟩⟩
  hasStored := by
    intro ev policy pc
    cases pc with
    | returned ok => cases ok <;> rfl
    | _ => rfl
  hasTaken := by
    intro pc
    cases pc with
    | returned out => cases out <;> rfl
    | _ => rfl

/-! ### A FIFO -/

/-- The slots an operation holds: a `push` until its event is linked or the slot is given back, a
`pop` from the event taken to the slot released. -/
def slotsHeld : Option (Frame (splitLockLinkedQueue ι capacity)) → ℕ
  | some (.push _ _ pc) =>
    match pc with
    | .alloc _ | .lockTail _ _ | .recheck _ _ | .discard _ _ | .giveBack _ | .link _ => 1
    | _ => 0
  | some (.pop pc) =>
    match pc with
    | .subDepth _ _ | .unlockHead _ _ | .deleteOld _ _ | .release _ => 1
    | _ => 0
  | _ => 0

/-- The thread stands in the branch of `pop` for `new_head == nullptr`. -/
def foundNull : Option (Frame (splitLockLinkedQueue ι capacity)) → Prop
  | some (.pop pc) => pc = .nullClosed ∨ pc = .nullStop ∨ ∃ ok, pc = .unlockNull ok ∨
      pc = .returnedNull ok
  | _ => False

omit [Fintype ι] in
theorem slotsHeld_eq (f : Option (Frame (splitLockLinkedQueue ι capacity))) :
    slotsHeld f = ((abstraction ι capacity).phase f).places := by
  rcases f with _ | ⟨ev, policy, pc⟩ | pc | done
  · rfl
  · cases pc with
    | returned ok => cases ok <;> rfl
    | _ => rfl
  · cases pc with
    | returned out => cases out <;> rfl
    | _ => rfl
  · cases done <;> rfl

omit [Fintype ι] in
/-- `tail_` is always a node of the list. -/
theorem tail_mem (hl : Linked s cells) (ht : ∀ i, Thread i s cells (frame i)) :
    s.tail_ ∈ segNodes s.head_ cells := by
  cases hmu : s.tail_mu_ with
  | none =>
    rw [hl.tail hmu]
    exact lastNode_mem _ _
  | some i =>
    have hside := (ht i).tail
    cases htail : tailOf (frame i) with
    | outside =>
      rw [htail] at hside
      exact absurd hmu hside
    | atLast =>
      rw [htail] at hside
      rw [hside.2]
      exact lastNode_mem _ _
    | behind n =>
      rw [htail] at hside
      obtain ⟨-, front, a, rfl, heq⟩ := hside
      rw [heq, segNodes, List.map_append]
      show lastNode s.head_ front ∈ segNodes s.head_ front ++ _
      exact List.mem_append_left _ (lastNode_mem _ _)

/-- **`SplitLockLinkedQueue` is a FIFO** for any threads, whatever they call and whenever the stop
flag changes.  Events are taken in the order they were linked; a `pop` that holds a permit never
finds a null pointer, so that it returns `true` only with an event; the node it deletes is not the
tail; and with a bound that the semaphore can count to, the free slots, the slots that operations
hold and the events that wait add up to the capacity. -/
theorem fifo {s : QState (splitLockLinkedQueue ι capacity)}
    (h : QReachable (splitLockLinkedQueue ι capacity) (fun _ _ => True) s) :
    s.shared.taken <+: s.shared.linked ∧
    (∀ i, ¬foundNull (s.frame i)) ∧
    (∀ i out, s.returned i = some (.popped true out) → out ≠ none) ∧
    (∀ i old_head out, s.frame i = some (.pop (PopPC.deleteOld old_head out)) →
      old_head ≠ s.shared.tail_) ∧
    (capacity ≠ 0 → capacity ≤ semaphoreMax → ∃ slots, s.shared.slots_ = some slots ∧
      slots + ∑ i, slotsHeld (s.frame i) +
        (s.shared.linked.drop s.shared.taken.length).length = capacity) := by
  have hs := (refines capacity).reachable h
  obtain ⟨cells, hl, ht, -⟩ := hs.inv
  refine ⟨hl.taken_prefix, ?_, ?_, ?_, ?_⟩
  · intro i hnull
    have hnot := (ht i).not_null
    rcases hf : s.frame i with _ | ⟨ev, policy, pc⟩ | pc | done
    all_goals rw [hf] at hnull hnot
    · exact hnull
    · exact hnull
    · rcases hnull with rfl | rfl | ⟨ok, rfl | rfl⟩ <;> cases hnot
    · exact hnull
  · intro i out hret hout
    obtain ⟨f, hf, hres⟩ := returned_eq_some hret
    obtain ⟨-, a, ha, -⟩ := (refines capacity).reports hs.inv hf hres
    rw [ha] at hout
    cases hout
  · intro i old_head out hf heq
    have hi := ht i
    rw [hf] at hi
    have hown : s.shared.nodes old_head ≠ none ∧ old_head ∉ segNodes s.shared.head_ cells := hi.own
    exact hown.2 (heq ▸ tail_mem hl ht)
  · intro hcap hmax
    have hroom := hs.accounts.room
    rw [bound, if_pos hcap, semaphorePermits_of_le hmax] at hroom
    obtain ⟨slots, hslots, hsum⟩ := Option.map_eq_some_iff.mp hroom
    refine ⟨slots, hslots, ?_⟩
    rw [Finset.sum_congr rfl fun i _ => slotsHeld_eq (s.frame i)]
    exact hsum

open QState.Turn in
/-- A push into a queue of capacity `1`, and a pop that is about to delete the old dummy. -/
def popTurns : List (QState.Turn Bool) :=
  call true (.push { id := 7 } .block) :: List.replicate 10 (step { addr := 1 } true) ++
    leave true :: call false .pop :: List.replicate 7 (step {} false)

def popState : QState (splitLockLinkedQueue Bool 1) :=
  ((QState.start _).run popTurns).get (by decide)

theorem fifo_pop :
    popState.frame false = some (.pop (PopPC.deleteOld 0 { id := 7 })) ∧
    popState.shared.taken <+: popState.shared.linked ∧
    (∀ i, ¬foundNull (popState.frame i)) ∧
    (∀ i out, popState.returned i = some (.popped true out) → out ≠ none) ∧
    (∀ i old_head out, popState.frame i = some (.pop (PopPC.deleteOld old_head out)) →
      old_head ≠ popState.shared.tail_) ∧
    (1 ≠ 0 → 1 ≤ semaphoreMax → ∃ slots, popState.shared.slots_ = some slots ∧
      slots + ∑ i, slotsHeld (popState.frame i) +
        (popState.shared.linked.drop popState.shared.taken.length).length = 1) :=
  ⟨rfl, fifo (QState.steps_of_run (fun _ _ _ => trivial) (Option.some_get _).symm)⟩

/-- A push into a queue that is empty and has more places than an `int` can count. -/
def refusedTurns : List (QState.Turn Bool) :=
  [.call true (.push {} .drop), .step {} true, .step {} true, .leave true]

def refusedState : QState (splitLockLinkedQueue Bool (2 ^ 32)) :=
  ((QState.start _).run refusedTurns).get (by decide)

/-- **A queue without slots**: the `int` of the semaphore does not hold the capacity `2 ^ 32`, and
the push finds the empty queue full. -/
theorem slots_lost :
    QReachable (splitLockLinkedQueue Bool (2 ^ 32)) (fun _ _ => True) refusedState ∧
    refusedState.shared.stats_.push_fail = 1 ∧ refusedState.shared.linked = [] ∧
    refusedState.shared.slots_ = some 0 ∧ ∑ i, slotsHeld (refusedState.frame i) = 0 :=
  ⟨QState.steps_of_run (fun _ _ _ => trivial) (Option.some_get _).symm, rfl, rfl, rfl, rfl⟩

end SplitLockLinkedQueue

end Laboratory.QueueLatency
