import Laboratory.QueueLatency.Equiv.Program
import Mathlib.Algebra.Order.Ring.Int

/-!
# Keeping count of events

A program counts events in its variables.  A `Ledger` says what a count should be worth: what the
variables say, plus what each thread has still to enter for the place where it stands, is the value
of all events that pushes and pops have returned.  `Ledger.Balanced.step` shows that this is so if
every action and every return is entered.
-/

namespace Laboratory.QueueLatency

open Concurrency

variable {κ τ : Type}

/-- The value of the program's variables, of what a thread has still to enter, and of an event
that is pushed to a queue or popped from it. -/
structure Ledger (P : Program κ τ) where
  book : P.Glob → ℤ
  pending : ∀ t, P.Loc t → ℤ
  pushed : κ → Event → ℤ
  popped : κ → Event → ℤ

namespace Ledger

variable {P : Program κ τ} (L : Ledger P)

/-- The value of what a call returns. -/
def entry (q : κ) : Call → Return → ℤ
  | .push ev _, .pushed true => L.pushed q ev
  | .pop, .popped true (some ev) => L.popped q ev
  | _, _ => 0

/-- The value of the events that have gone into the queue and come out of it. -/
def total (q : κ) (x : QState (P.queue q)) : ℤ :=
  (x.pushed.map (L.pushed q)).sum + (x.popped.map (L.popped q)).sum

variable {L} in
/-- If pops undo what pushes enter, a queue is worth what is left in it. -/
theorem total_eq_left {q : κ} {x : QState (P.queue q)} {left : List Event}
    (hpopped : ∀ ev, L.popped q ev = -L.pushed q ev)
    (hflow : (x.pushed : Multiset Event) = x.popped + left) :
    L.total q x = (left.map (L.pushed q)).sum := by
  have hsum := congrArg (fun events => (events.map (L.pushed q)).sum) hflow
  simp only [Multiset.map_add, Multiset.map_coe, Multiset.sum_add, Multiset.sum_coe] at hsum
  have hneg : (x.popped.map fun ev => -L.pushed q ev).sum = -(x.popped.map (L.pushed q)).sum := by
    rw [← Multiset.sum_coe, ← Multiset.sum_coe, ← Multiset.map_coe, ← Multiset.map_coe,
      Multiset.sum_map_neg]
  rw [total, funext hpopped, hneg]
  omega

variable [Fintype κ] [Fintype τ]

def Balanced (s : P.State) : Prop :=
  L.book s.glob + ∑ t, L.pending t (s.loc t) = ∑ q, L.total q (s.queue q)

variable {L} in
/-- A program that starts with nothing counted is in balance. -/
theorem balanced_initial (hbook : L.book P.init = 0) (hpending : ∀ t, L.pending t (P.start t) = 0) :
    L.Balanced (.initial P) := by
  rw [Balanced, show (Program.State.initial P).glob = P.init from rfl, hbook,
    show (Program.State.initial P).loc = P.start from rfl,
    Finset.sum_eq_zero fun t _ => hpending t]
  exact (Finset.sum_eq_zero fun q _ => rfl).symm

variable [DecidableEq κ] [DecidableEq τ] {H : Program.Protocol P} {s s' : P.State} {c : P.Choice}
  {L}

omit [Fintype κ] [Fintype τ] [DecidableEq κ] in
/-- A return is entered in the history of the queue. -/
theorem total_leave {q : κ} {x : QState (P.queue q)} {t : τ} {f : Frame (P.queue q)} {r : Return}
    (hf : x.frame t = some f) (hanswer : f.toCall.Answer r) :
    L.total q (x.leave t r) = L.total q x + L.entry q f.toCall r := by
  cases f with
  | push ev policy pc =>
    obtain ⟨ok, rfl⟩ := Call.Answer.push hanswer
    cases ok
    · simp [total, QState.leave, entry, Frame.toCall]
    · simp only [total, QState.leave, hf, Option.bind_some, Frame.event, Option.toList_some,
        List.map_append, List.map_cons, List.map_nil, List.sum_append, List.sum_singleton, entry,
        Frame.toCall]
      omega
  | pop pc =>
    rcases Call.Answer.pop hanswer with ⟨out, rfl⟩ | ⟨ev, rfl⟩
    · simp [total, QState.leave, entry, Frame.toCall]
    · simp only [total, QState.leave, Option.toList_some, List.map_append, List.map_cons,
        List.map_nil, List.sum_append, List.sum_singleton, entry, Frame.toCall]
      omega
  | close done =>
    obtain rfl := Call.Answer.close hanswer
    simp [total, QState.leave, entry, Frame.toCall]

/-- **One step of the program** keeps the balance, if the ledger enters every action and what
returns now. -/
theorem Balanced.step (hb : L.Balanced s) (hs : Program.Good H s)
    (hact : ∀ {g l}, P.act c.input c.thread s.glob s.loc = some (.own g l) →
      L.book g + L.pending c.thread l = L.book s.glob + L.pending c.thread (s.loc c.thread))
    (hreturn : ∀ {q f r}, (s.queue q).frame c.thread = some f →
      P.Issues c.thread (s.loc c.thread) q f.toCall → f.toCall.Answer r → (H.A q).Reports r f →
        L.pending c.thread (P.resume c.thread (s.loc c.thread) r) =
          L.pending c.thread (s.loc c.thread) + L.entry q f.toCall r)
    (h : P.step c s = some s') : L.Balanced s' := by
  unfold Balanced at hb ⊢
  rcases Program.step_cases h with ⟨g, l, -, hown, rfl⟩ | ⟨q, call, -, -, rfl⟩ |
    ⟨q, r, hcalling, hr, rfl⟩ | ⟨q, x, -, hx, rfl⟩
  · have hsum := sum_update L.pending s.loc c.thread l
    have := hact hown
    simp only
    omega
  · exact hb.trans (sum_update_eq L.total s.queue q ((s.queue q).call c.thread call) rfl).symm
  · obtain ⟨f, hf, hissued, hanswer, hreports⟩ := hs.returns hcalling hr
    have hsum := sum_update L.pending s.loc c.thread (P.resume c.thread (s.loc c.thread) r)
    have htotal := sum_update L.total s.queue q ((s.queue q).leave c.thread r)
    rw [total_leave hf hanswer] at htotal
    have := hreturn hf hissued hanswer hreports
    simp only [Program.State.return]
    omega
  · obtain ⟨f, y, -, -, rfl⟩ := step_eq_some hx
    refine hb.trans (sum_update_eq L.total s.queue q { s.queue q with
      shared := y.1
      frame := Function.update (s.queue q).frame c.thread (some y.2) } rfl).symm

end Ledger

end Laboratory.QueueLatency
