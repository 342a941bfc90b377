import Laboratory.Concurrency.AtomicMax
import Laboratory.QueueLatency.UpdateMaxDepth
import Mathlib.Algebra.Order.Ring.Int
import Mathlib.Data.Nat.Cast.Order.Ring

/-!
# `updateMaxDepth` is a shared maximum

`cell` forgets where in the loop a call stands: it has had its effect as soon as the value it holds
in `current` is not below its depth, or it has stored its depth.  With this, every step of a thread
is a move of the abstract protocol or none (`cell_step`), and `concurrent_maximum` carries over what
is known of the protocol.

`updateMaxDepth_eq`: what a call without rivals does is the function of the same name, which is how
the queues use it.
-/

namespace Laboratory.QueueLatency.UpdateMaxDepth

open Concurrency Relation

scoped instance linearOrderUInt64 : LinearOrder UInt64 where
  le_refl := UInt64.le_refl
  le_trans _ _ _ := UInt64.le_trans
  le_antisymm _ _ := UInt64.le_antisymm
  le_total := UInt64.le_total
  lt_iff_le_not_ge _ _ := Std.LawfulOrderLT.lt_iff ..
  toDecidableLE := inferInstance
  toDecidableEq := inferInstance
  toDecidableLT := inferInstance
  min_def := UInt64.min_def
  max_def := UInt64.max_def

variable {ι : Type}

/-! ### What a call amounts to -/

/-- The abstract update of a call. -/
def Frame.update : Frame → Update UInt64
  | ⟨depth, .load⟩ => .pending depth
  | ⟨depth, .test current⟩ => if depth > current then .pending depth else .done
  | ⟨depth, .compareExchange _⟩ => .pending depth
  | ⟨_, .returned⟩ => .done

/-- The abstract cell of a state. -/
def State.cell (s : State ι) : MaxCell ι UInt64 where
  value := s.max_depth
  update i := (s.frame i).map Frame.update
  passed := s.passed

/-- A call that is about to exchange the counter has seen a smaller value. -/
def Frame.Expecting (f : Frame) : Prop :=
  ∀ current, f.pc = .compareExchange current → f.depth > current

def State.Expecting (s : State ι) : Prop :=
  ∀ i f, s.frame i = some f → f.Expecting

variable [DecidableEq ι]

/-- **What a step can do.** -/
theorem Step.cases {s s' : State ι} (h : Step s s') :
    (∃ i depth, s.frame i = none ∧ s' = s.call i depth) ∨
      (∃ i f spurious max_depth pc, s.frame i = some f ∧
        step spurious f.depth s.max_depth f.pc = some (max_depth, pc) ∧
        s' = s.move i max_depth (some { f with pc := pc })) ∨
      ∃ i f, s.frame i = some f ∧ f.pc = .returned ∧ s' = s.move i s.max_depth none := by
  obtain ⟨t, ht⟩ := h
  cases t with
  | call i depth =>
    obtain ⟨hfree, h⟩ := Option.ite_none_right_eq_some.mp ht
    cases h
    exact .inl ⟨i, depth, hfree, rfl⟩
  | step spurious i =>
    obtain ⟨f, hf, h⟩ := Option.bind_eq_some_iff.mp ht
    obtain ⟨⟨max_depth, pc⟩, hstep, rfl⟩ := Option.map_eq_some_iff.mp h
    exact .inr (.inl ⟨i, f, spurious, max_depth, pc, hf, hstep, rfl⟩)
  | leave i =>
    obtain ⟨f, hf, h⟩ := Option.bind_eq_some_iff.mp ht
    obtain ⟨hreturned, h⟩ := Option.ite_none_right_eq_some.mp h
    cases h
    exact .inr (.inr ⟨i, f, hf, hreturned, rfl⟩)

/-! ### The steps of a call -/

section

variable {f : Frame} {spurious : Bool} {max_depth max_depth' : UInt64} {pc : PC}

theorem update_test (depth current : UInt64) :
    (Frame.mk depth (.test current)).update = if depth > current then .pending depth else .done :=
  rfl

/-- A thread that has just read the counter: it goes on, or it has found a value above its own. -/
theorem update_read (depth max_depth : UInt64) :
    (Frame.mk depth (.test max_depth)).update = .pending depth ∨
      (Frame.mk depth (.test max_depth)).update = .done ∧ max_depth = max max_depth depth := by
  rw [update_test]
  split_ifs with hlt
  · exact .inl rfl
  · exact .inr ⟨rfl, (max_eq_left (not_lt.mp hlt)).symm⟩

/-- **One step of the loop** has no effect, or the effect of the whole call. -/
theorem update_of_step (hf : f.Expecting)
    (h : step spurious f.depth max_depth f.pc = some (max_depth', pc)) :
    max_depth' = max_depth ∧ Frame.update { f with pc := pc } = f.update ∨
      f.update = .pending f.depth ∧ Frame.update { f with pc := pc } = .done ∧
        max_depth' = max max_depth f.depth := by
  obtain ⟨depth, pc₀⟩ := f
  cases pc₀ with
  | load =>
    -- The value read settles whether the call will still write.
    cases h
    exact (update_read depth max_depth).imp (⟨rfl, ·⟩) (⟨rfl, ·⟩)
  | test current =>
    left
    simp only [step] at h
    split_ifs at h with hlt
    · cases h
      exact ⟨rfl, (if_pos hlt).symm⟩
    · cases h
      exact ⟨rfl, (if_neg hlt).symm⟩
  | compareExchange current =>
    simp only [step] at h
    split_ifs at h with hsame
    · -- The exchange succeeds, over a value below `depth`.
      right
      have hlt : depth > max_depth := by
        rw [hsame.1]
        exact hf current rfl
      cases h
      exact ⟨rfl, rfl, (max_eq_right hlt.le).symm⟩
    · cases h
      exact (update_read depth max_depth).imp (⟨rfl, ·⟩) (⟨rfl, ·⟩)
  | returned => cases h

/-- A step that leads to the compare-exchange has tested the depth. -/
theorem expecting_of_step (h : step spurious f.depth max_depth f.pc = some (max_depth', pc)) :
    Frame.Expecting { f with pc := pc } := by
  rintro current rfl
  obtain ⟨depth, pc₀⟩ := f
  cases pc₀ with
  | load => cases h
  | test seen =>
    simp only [step] at h
    split_ifs at h with hlt
    · cases h
      exact hlt
    · cases h
  | compareExchange seen =>
    simp only [step] at h
    split_ifs at h <;> cases h
  | returned => cases h

end

/-! ### The steps of all threads -/

variable {s s' : State ι}

omit [DecidableEq ι] in
@[simp] theorem cell_update (s : State ι) (i : ι) :
    s.cell.update i = (s.frame i).map Frame.update :=
  rfl

theorem cell_call (s : State ι) (i : ι) (depth : UInt64) :
    (s.call i depth).cell = s.cell.call i depth := by
  refine MaxCell.ext rfl ?_ rfl
  funext j
  exact Function.apply_update (fun _ => Option.map Frame.update) s.frame i _ j

theorem cell_move (s : State ι) (i : ι) (max_depth : UInt64) (f : Option Frame) :
    (s.move i max_depth f).cell =
      { s.cell with
        value := max_depth
        update := Function.update s.cell.update i (f.map Frame.update) } := by
  refine MaxCell.ext rfl ?_ rfl
  funext j
  exact Function.apply_update (fun _ => Option.map Frame.update) s.frame i f j

/-- The other calls expect what they have expected. -/
theorem expecting_update {i : ι} {f : Option Frame}
    (hframe : s'.frame = Function.update s.frame i f)
    (hf : ∀ g, f = some g → g.Expecting) (h : s.Expecting) : s'.Expecting := by
  intro j g hj
  rw [hframe] at hj
  by_cases hji : j = i
  · subst hji
    rw [Function.update_self] at hj
    exact hf g hj
  · rw [Function.update_of_ne hji] at hj
    exact h j g hj

theorem Step.expecting (hstep : Step s s') (h : s.Expecting) : s'.Expecting := by
  obtain ⟨i, depth, -, rfl⟩ | ⟨i, f, spurious, max_depth, pc, -, hpc, rfl⟩ | ⟨i, f, -, -, rfl⟩ :=
    hstep.cases
  · refine expecting_update rfl ?_ h
    rintro g ⟨⟩
    nofun
  · refine expecting_update rfl ?_ h
    rintro g ⟨⟩
    exact expecting_of_step hpc
  · exact expecting_update rfl nofun h

/-- **The loop refines the abstract protocol.** -/
theorem cell_step (hstep : Step s s') (h : s.Expecting) : ReflGen MaxCell.Step s.cell s'.cell := by
  obtain ⟨i, depth, hfree, rfl⟩ | ⟨i, f, spurious, max_depth, pc, hf, hpc, rfl⟩ |
    ⟨i, f, hf, hreturned, rfl⟩ := hstep.cases
  · rw [cell_call]
    refine .single (.call depth ?_)
    rw [cell_update, hfree]
    rfl
  · have hupdate : s.cell.update i = some f.update := by
      rw [cell_update, hf]
      rfl
    rw [cell_move]
    obtain ⟨rfl, hsame⟩ | ⟨hpending, hdone, rfl⟩ := update_of_step (h i f hf) hpc
    · rw [Option.map_some, hsame, ← hupdate, Function.update_eq_self]
      exact .refl
    · rw [Option.map_some, hdone]
      exact .single (.join (hupdate.trans (congrArg some hpending)))
  · rw [cell_move]
    refine .single (.leave ?_)
    obtain ⟨depth, pc⟩ := f
    cases hreturned
    rw [cell_update, hf]
    rfl

theorem expecting_of_steps (hsteps : ReflTransGen Step s s') (h : s.Expecting) : s'.Expecting := by
  induction hsteps with
  | refl => exact h
  | tail _ hstep ih => exact hstep.expecting ih

/-- A run of the threads is a run of the abstract protocol. -/
theorem cell_steps (hsteps : ReflTransGen Step s s') (h : s.Expecting) :
    ReflTransGen MaxCell.Step s.cell s'.cell := by
  induction hsteps with
  | refl => exact .refl
  | tail hsteps hstep ih =>
    have hmove := cell_step hstep (expecting_of_steps hsteps h)
    exact ih.trans hmove.to_reflTransGen

theorem Reachable.expecting (h : Reachable s) : s.Expecting :=
  expecting_of_steps h nofun

theorem Reachable.sound (h : Reachable s) : s.cell.Sound 0 :=
  MaxCell.sound_of_steps (cell_steps h nofun)

/-! ### The maximum -/

/-- **The counter never decreases.** -/
theorem max_depth_le (h : Reachable s) (hsteps : ReflTransGen Step s s') :
    s.max_depth ≤ s'.max_depth :=
  MaxCell.value_le_of_steps (cell_steps hsteps h.expecting)

omit [DecidableEq ι] in
/-- In a quiet state, every call has had its effect. -/
theorem State.Quiet.update_ne_pending (quiet : s.Quiet) (i : ι) (depth : UInt64) :
    s.cell.update i ≠ some (.pending depth) := by
  intro hpending
  obtain ⟨⟨depth', pc⟩, hf, hupdate⟩ := Option.map_eq_some_iff.mp hpending
  obtain rfl : pc = .returned := quiet i _ hf
  cases hupdate

omit [DecidableEq ι] in
theorem State.quiet_of_free (h : ∀ i, s.frame i = none) : s.Quiet := by
  intro i f hf
  rw [h i] at hf
  cases hf

theorem State.Quiet.max?_eq (quiet : s.Quiet) (h : Reachable s) :
    (0 :: s.passed).max? = some s.max_depth :=
  h.sound.max?_eq quiet.update_ne_pending

/-- **`updateMaxDepth` is a concurrent maximum**: whatever the order of the steps, the counter never
decreases, it is zero or one of the depths passed in, and it is the maximum of these whenever no
call is in progress. -/
theorem concurrent_maximum (h : Reachable s) :
    (∀ s', ReflTransGen Step s s' → s.max_depth ≤ s'.max_depth) ∧
      (s.max_depth = 0 ∨ s.max_depth ∈ s.passed) ∧
      (s.Quiet → (0 :: s.passed).max? = some s.max_depth) :=
  ⟨fun _ => max_depth_le h, List.mem_cons.mp h.sound.value_mem, fun quiet => quiet.max?_eq h⟩

/-- Two threads read the counter before either has written it.  The first one stores its depth, and
the second one fails because of that, fails once more for no reason, and succeeds. -/
def rivalTurns : List (Turn Bool) :=
  [.call true 3, .call false 5, .step false true, .step false false, .step false true,
    .step false false, .step false true, .step false false, .step false false, .step true false,
    .step false false, .step false false, .leave true, .leave false]

def rivalState : State Bool := (State.run {} rivalTurns).get (by decide)

theorem concurrent_maximum_rivals :
    rivalState.max_depth = 5 ∧ rivalState.passed = [3, 5] ∧
      (∀ s', ReflTransGen Step rivalState s' → 5 ≤ s'.max_depth) ∧
      (0 :: rivalState.passed).max? = some rivalState.max_depth := by
  obtain ⟨hle, -, hmax⟩ := concurrent_maximum (State.steps_of_run (Option.some_get _).symm :
    Reachable rivalState)
  exact ⟨rfl, rfl, hle, hmax (State.quiet_of_free (by decide))⟩

/-! ### A call without rivals -/

/-- **A single call** between two quiet states, however often its compare-exchange fails. -/
theorem max_depth_of_single {depth : UInt64} (h : Reachable s) (quiet : s.Quiet)
    (hsteps : ReflTransGen Step s s') (quiet' : s'.Quiet)
    (hpassed : s'.passed = s.passed ++ [depth]) :
    s'.max_depth = max s.max_depth depth := by
  have hmax := quiet.max?_eq h
  have hmax' := quiet'.max?_eq (h.trans hsteps)
  rw [List.max?_cons', Option.some_inj] at hmax
  rw [hpassed, List.max?_cons', List.foldl_concat, hmax] at hmax'
  exact (Option.some_inj.mp hmax').symm

/-- What the queues take for one step: a call that no other call overlaps. -/
theorem updateMaxDepth_eq {stats : QueueStats} {depth : UInt64} (h : Reachable s) (quiet : s.Quiet)
    (hsteps : ReflTransGen Step s s') (quiet' : s'.Quiet)
    (hpassed : s'.passed = s.passed ++ [depth])
    (hstats : stats.max_observed_depth = s.max_depth.toNat) :
    (updateMaxDepth stats depth.toNat).max_observed_depth = s'.max_depth.toNat := by
  have hmono : Monotone UInt64.toNat := fun _ _ => UInt64.le_iff_toNat_le.mp
  rw [max_depth_of_single h quiet hsteps quiet' hpassed, hmono.map_max, Nat.cast_max, ← hstats]
  rfl

end Laboratory.QueueLatency.UpdateMaxDepth
