import Laboratory.QueueLatency.Equiv.Refinement
import Laboratory.QueueLatency.GlobalLockQueue

/-!
# `GlobalLockQueue` refines the permit protocol

Everything happens under the mutex: an event is stored and announced in one step, and taken and
paid for in one step, so that a `pop` gives up only with the queue empty under its eyes.
-/

namespace Laboratory.QueueLatency

namespace GlobalLockQueue

open Concurrency

variable {ι : Type} {i : ι} {s s' : Shared ι}

def pushPhase (ev : Event) (policy : BackpressurePolicy) : PushPC → Phase Event
  | .returned true => .accepted ev
  | .returned false => .refused
  | _ => .pushing ev (policy = .drop)

def popPhase : PopPC → Phase Event
  | .returned (some out) => .holding out
  | .returned none => .leaving
  | _ => .searching

/-- Every stored event is announced. -/
def store (s : Shared ι) : Store Event where
  stored := s.queue_
  avail := s.queue_.length
  room := none
  closed := s.closed_

/-- Appending an event stores and announces it. -/
theorem append_move {stop d : Bool} {ev : Event} (hq : s'.queue_ = s.queue_ ++ [ev])
    (hc : s'.closed_ = s.closed_) :
    Move stop (store s) (.pushing ev d) (store s') (.accepted ev) := by
  rw [show store s' = { store s with
      stored := (store s).stored ++ [ev]
      avail := (store s).avail + 1
      room := (store s).room.map (· - 1) } by
    simp only [store, hq, hc, List.length_append, List.length_singleton, Option.map_none]]
  exact .publishDirect fun h => by cases h

/-- Taking the front takes the oldest event. -/
theorem front_move {stop : Bool} {out : Event} (hq : s.queue_ = out :: s'.queue_)
    (hc : s'.closed_ = s.closed_) : Move stop (store s) .searching (store s') (.holding out) := by
  rw [show store s' = { store s with
      stored := s'.queue_
      avail := s'.queue_.length
      room := (store s).room.map (· + 1) } by simp only [store, hc, Option.map_none]]
  exact .takeDirect hq (by rw [store, hq]; rfl)

variable [DecidableEq ι]

def abstraction (ι : Type) [DecidableEq ι] (capacity : ℕ) (options : QueueOptions) :
    Abstraction (globalLockQueue ι capacity options) where
  store := store
  pushPhase := pushPhase
  popPhase := popPhase
  inv := fun _ _ => True

/-- **Every step of `push` is a move.** -/
theorem push_move {env : Env ι} {ev : Event} {policy : BackpressurePolicy} {pc pc' : PushPC}
    (h : push env i ev policy s pc = some (s', pc')) :
    Move env.stop (store s) (pushPhase ev policy pc) (store s') (pushPhase ev policy pc') := by
  cases pc with
  | lock =>
    simp only [push] at h
    split_ifs at h
    cases h
    exact .stay
  | checkClosed =>
    simp only [push] at h
    split_ifs at h with hclosed hcap hblock hwait hfull <;> cases h
    · exact .refuse (.inr (.inl hclosed))
    · exact .stay
    · exact .stay
    · exact .stay
    · -- The queue is full and the policy does not block.
      have hdrop : policy = .drop := eq_drop_of_ne_block hblock
      exact .refuse (.inl (decide_eq_true hdrop))
    · exact .stay
  | waitTest =>
    simp only [push] at h
    split_ifs at h <;> cases h <;> exact .stay
  | sleeping =>
    simp only [push] at h
    split_ifs at h <;> cases h <;> exact .stay
  | recheck =>
    simp only [push, Bool.or_eq_true] at h
    split_ifs at h with hflag <;> cases h
    · exact .refuse (.inr hflag)
    · exact .stay
  | spinTest spins =>
    simp only [push, Bool.or_eq_true] at h
    split_ifs at h with hfull hflag <;> cases h
    · exact .refuse (.inr hflag)
    all_goals exact .stay
  | relock spins =>
    simp only [push] at h
    split_ifs at h
    cases h
    exact .stay
  | append =>
    obtain ⟨waiters, -, heq⟩ := Option.map_eq_some_iff.mp h
    cases heq
    exact append_move rfl rfl
  | returned ok => cases h

/-- The end of `pop` takes the oldest event, or finds that there is none and leaves because of a
flag. -/
theorem finishPop_move {env : Env ι} {pc' : PopPC} (h : finishPop env s = some (s', pc'))
    (hflag : s.queue_ = [] → s.closed_ = true ∨ env.stop = true) :
    Move env.stop (store s) .searching (store s') (popPhase pc') := by
  unfold finishPop at h
  split at h
  · rename_i hq
    cases h
    exact .leaveEmpty (by rw [store, hq]; rfl) (hflag hq)
  · rename_i out rest hq
    obtain ⟨waiters, -, heq⟩ := Option.map_eq_some_iff.mp h
    cases heq
    exact front_move hq rfl

/-- **Every step of `pop` is a move.** -/
theorem pop_move {env : Env ι} {pc pc' : PopPC} (h : pop env i s pc = some (s', pc')) :
    Move env.stop (store s) (popPhase pc) (store s') (popPhase pc') := by
  cases pc with
  | lock =>
    simp only [pop] at h
    split_ifs at h <;> cases h <;> exact .stay
  | waitTest =>
    simp only [pop, Bool.or_eq_true, Bool.not_eq_true', List.isEmpty_eq_false_iff] at h
    split_ifs at h with hpred
    · apply finishPop_move h
      intro hq
      rcases hpred with hflag | hne
      · exact hflag
      · exact absurd hq hne
    · cases h
      exact .stay
  | sleeping =>
    simp only [pop] at h
    split_ifs at h <;> cases h <;> exact .stay
  | spinTest spins =>
    simp only [pop, Bool.or_eq_true, List.isEmpty_iff] at h
    split_ifs at h with hq hflag
    · cases h
      exact .leaveEmpty (by rw [store, hq]; rfl) hflag
    · cases h
      exact .stay
    · exact finishPop_move h fun heq => absurd heq hq
  | relock spins =>
    simp only [pop] at h
    split_ifs at h
    cases h
    exact .stay
  | returned out => cases h

variable [Fintype ι]

/-- **`GlobalLockQueue` follows the permit protocol**, whoever calls what. -/
theorem refines (capacity : ℕ) (options : QueueOptions) :
    Refines (globalLockQueue ι capacity options) none (fun _ _ => True)
      (abstraction ι capacity options) where
  init_store := rfl
  init_inv := trivial
  pushEntry := fun _ _ => rfl
  popEntry := rfl
  enter := fun _ _ _ => trivial
  push := fun h _ _ => ⟨push_move h, trivial⟩
  pop := fun h _ _ => ⟨pop_move h, trivial⟩
  close := by
    intro stop i s frame s' h hr hf
    refine ⟨?_, trivial⟩
    have h : close s = some s' := h
    unfold close at h
    split_ifs at h
    cases h
    exact .close
  leavePush := by
    intro i s frame ev policy pc ok h hs hf
    cases pc with
    | returned ok =>
      cases h
      refine ⟨trivial, ?_⟩
      cases ok
      · rfl
      · exact ⟨ev, rfl, rfl⟩
    | _ => cases h
  leavePop := by
    intro i s frame pc ok out h hs hf
    cases pc with
    | returned out =>
      cases h
      refine ⟨trivial, ?_⟩
      cases out with
      | none => rfl
      | some a => exact ⟨a, rfl, rfl⟩
    | _ => cases h
  leaveClose := fun _ _ => trivial
  content := fun _ => rfl
  foundEmpty := by
    intro pc
    cases pc with
    | returned out => cases out <;> exact ⟨by rintro ⟨⟩, by rintro ⟨⟩⟩
    | _ => exact ⟨by rintro ⟨⟩, by rintro ⟨⟩⟩
  hasStored := by
    intro ev policy pc
    cases pc with
    | returned ok => cases ok <;> rfl
    | _ => rfl
  hasTaken := by
    intro pc
    cases pc with
    | returned out => cases out <;> rfl
    | _ => rfl

end GlobalLockQueue

end Laboratory.QueueLatency
