import Laboratory.QueueLatency.Equiv.Refinement
import Mathlib.Tactic.Abel

/-!
# Counters of a queue

A queue counts its operations at different places of the code, so that its counters agree only
between operations.  A `Tally` says how far they are off: what an operation in progress has counted
too early or not yet.  `Tally.Lawful` is a condition on single steps, and `Tally.Lawful.balanced`
shows from it what the counters are in every reachable state.
-/

namespace Laboratory.QueueLatency

open Concurrency

variable {ι : Type} {Q : IEventQueue ι} {M : Type} [AddCommGroup M]

/-- The value of the counters, what is to be added for a thread that stands in `push` or `pop`, and
what a reported `push` and a reported `pop` are worth. -/
structure Tally (Q : IEventQueue ι) (M : Type) where
  book : Q.Shared → M
  pushing : Q.PushPC → M
  popping : Q.PopPC → M
  pushed : M
  popped : M

namespace Tally

variable (T : Tally Q M)

/-- What is to be added for an operation in progress. -/
def pending : Frame Q → M
  | .push _ _ pc => T.pushing pc
  | .pop pc => T.popping pc
  | .close _ => 0

def pendingOf : Option (Frame Q) → M
  | none => 0
  | some f => T.pending f

/-- The counters, corrected for the operations in progress, are worth what has been reported. -/
def Balanced [Fintype ι] (s : QState Q) : Prop :=
  T.book s.shared + ∑ i, T.pendingOf (s.frame i) =
    s.pushed.length • T.pushed + s.popped.length • T.popped

/-- **Every step keeps the books**: a step inside an operation moves nothing but what is pending,
and what is pending at the end is what the operation reports. -/
structure Lawful : Prop where
  init : T.book Q.init = 0
  pushEntry : T.pushing Q.pushEntry = 0
  popEntry : T.popping Q.popEntry = 0
  push : ∀ {env i ev policy s pc s' pc'}, Q.push env i ev policy s pc = some (s', pc') →
    T.book s' + T.pushing pc' = T.book s + T.pushing pc
  pop : ∀ {env i s pc s' pc'}, Q.pop env i s pc = some (s', pc') →
    T.book s' + T.popping pc' = T.book s + T.popping pc
  close : ∀ {i s s'}, Q.close i s = some s' → T.book s' = T.book s
  pushReturned : ∀ {pc ok}, Q.pushReturned pc = some ok →
    T.pushing pc + (if ok then T.pushed else 0) = 0
  popReturned : ∀ {pc ok out}, Q.popReturned pc = some (ok, out) →
    T.popping pc + (if ok then out.toList.length • T.popped else 0) = 0

namespace Lawful

variable {T}

theorem pending_enter (hT : T.Lawful) (c : Call) : T.pending (Frame.enter Q c) = 0 := by
  cases c with
  | push => exact hT.pushEntry
  | pop => exact hT.popEntry
  | close => rfl

variable {env : Env ι} {i : ι}

theorem stepFrame (hT : T.Lawful) {x x' : Q.Shared} {f f' : Frame Q}
    (h : QState.stepFrame env i x f = some (x', f')) :
    T.book x' + T.pending f' = T.book x + T.pending f := by
  cases stepFrame_cases h with
  | push h => exact hT.push h
  | pop h => exact hT.pop h
  | close h => exact congrArg (· + 0) (hT.close h)

variable [DecidableEq ι] {s s' : QState Q}

/-- What an operation reports is what is pending when it is through. -/
theorem leave (hT : T.Lawful) {f : Frame Q} {r : Return} (hf : s.frame i = some f)
    (hr : f.result = some r) :
    (s.leave i r).pushed.length • T.pushed + (s.leave i r).popped.length • T.popped + T.pending f =
      s.pushed.length • T.pushed + s.popped.length • T.popped := by
  cases f with
  | push ev policy pc =>
    obtain ⟨ok, hok, rfl⟩ := Option.map_eq_some_iff.mp hr
    have hreport : T.pending (.push ev policy pc) + (if ok then T.pushed else 0) = 0 :=
      hT.pushReturned hok
    rw [eq_neg_of_add_eq_zero_left hreport]
    cases ok
    · simp [QState.leave]
    · simp only [QState.leave, hf, Option.bind_some, Frame.event, Option.toList_some,
        List.length_append, List.length_singleton, add_nsmul, one_nsmul, if_true]
      abel
  | pop pc =>
    obtain ⟨⟨ok, out⟩, hok, rfl⟩ := Option.map_eq_some_iff.mp hr
    have hreport : T.pending (.pop pc) + (if ok then out.toList.length • T.popped else 0) = 0 :=
      hT.popReturned hok
    rw [eq_neg_of_add_eq_zero_left hreport]
    cases ok
    · simp [QState.leave]
    · simp only [QState.leave, List.length_append, add_nsmul, if_true]
      abel
  | close done =>
    cases done <;> cases hr
    simp [QState.leave, pending]

variable [Fintype ι]

/-- One step of any thread keeps the balance. -/
theorem qstep (hT : T.Lawful) {Allowed : ι → Call → Prop} (hs : T.Balanced s)
    (h : QStep Q Allowed s s') : T.Balanced s' := by
  unfold Balanced at hs ⊢
  cases h with
  | @call i c free may =>
    rw [show (s.call i c).frame = Function.update s.frame i (some (Frame.enter Q c)) from rfl,
      sum_update_eq (fun _ => T.pendingOf) _ _ _ (by
        rw [free]
        exact hT.pending_enter c)]
    exact hs
  | @step _ env i h =>
    obtain ⟨f, r, hf, hr, rfl⟩ := step_eq_some h
    have hsum := sum_update (fun _ => T.pendingOf) s.frame i (some r.2)
    have hbook : T.book r.1 + T.pendingOf (some r.2) = T.book s.shared + T.pendingOf (some f) :=
      hT.stepFrame hr
    rw [hf] at hsum
    -- The weight that thread `i` had is added on both sides.
    apply add_right_cancel (b := T.pendingOf (some f))
    calc
      _ = T.book r.1 + (∑ j, T.pendingOf (Function.update s.frame i (some r.2) j) +
            T.pendingOf (some f)) := by abel
      _ = (T.book r.1 + T.pendingOf (some r.2)) + ∑ j, T.pendingOf (s.frame j) := by
        rw [hsum]
        abel
      _ = (T.book s.shared + ∑ j, T.pendingOf (s.frame j)) + T.pendingOf (some f) := by
        rw [hbook]
        abel
      _ = _ := by rw [hs]
  | @leave i r h =>
    obtain ⟨f, hf, hr⟩ := returned_eq_some h
    have hsum := sum_update (fun _ => T.pendingOf) s.frame i none
    rw [hf] at hsum
    apply add_right_cancel (b := T.pendingOf (some f))
    calc
      _ = T.book s.shared + (∑ j, T.pendingOf (Function.update s.frame i none j) +
            T.pendingOf (some f)) := add_assoc ..
      _ = T.book s.shared + ∑ j, T.pendingOf (s.frame j) := by
        rw [hsum]
        exact congrArg _ (add_zero _)
      _ = _ := hs.trans (hT.leave hf hr).symm

/-- **The counters in every reachable state**, by induction on the run. -/
theorem balanced (hT : T.Lawful) {Allowed : ι → Call → Prop} (h : QReachable Q Allowed s) :
    T.Balanced s := by
  induction h with
  | refl =>
    have hsum : ∑ i : ι, T.pendingOf ((QState.start Q).frame i) = 0 :=
      Finset.sum_eq_zero fun i _ => rfl
    rw [Balanced, hsum, add_zero]
    exact hT.init.trans (by simp [QState.start])
  | tail _ hstep ih => exact hT.qstep ih hstep

end Lawful

end Tally

end Laboratory.QueueLatency
