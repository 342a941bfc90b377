import Laboratory.Concurrency.ThreadSum
import Mathlib.Logic.Relation
import Mathlib.Order.Lattice

/-!
# A shared maximum

The abstract protocol behind a value that many threads raise: an update passes a value, joins it
with the shared one in a single move, and returns.  Any number of updates may be in progress, one
for each thread; `passed` is the history of the values.

No move lowers the value (`Step.value_le`, `value_le_of_steps`).  `Sound` holds in every state that
can be reached (`sound_of_steps`), and makes the value the maximum once no update is pending
(`Sound.max?_eq`).
-/

namespace Laboratory.Concurrency

/-- Where an update stands. -/
inductive Update (α : Type*) where
  /-- An update by `a` that has had no effect yet. -/
  | pending (a : α)
  | done

/-- The shared value, the update each thread is in, and the values passed so far. -/
@[ext]
structure MaxCell (ι α : Type*) where
  value : α
  update : ι → Option (Update α)
  passed : List α

namespace MaxCell

variable {ι α : Type*}

/-- A cell that nobody updates. -/
def start (ι : Type*) (init : α) : MaxCell ι α where
  value := init
  update := fun _ => none
  passed := []

variable [DecidableEq ι] [LinearOrder α]

/-- Thread `i` starts an update by `a`. -/
def call (c : MaxCell ι α) (i : ι) (a : α) : MaxCell ι α where
  value := c.value
  update := Function.update c.update i (some (.pending a))
  passed := c.passed ++ [a]

/-- The update by `a` of thread `i` takes effect. -/
def join (c : MaxCell ι α) (i : ι) (a : α) : MaxCell ι α where
  value := max c.value a
  update := Function.update c.update i (some .done)
  passed := c.passed

/-- Thread `i` returns from an update. -/
def leave (c : MaxCell ι α) (i : ι) : MaxCell ι α :=
  { c with update := Function.update c.update i none }

/-- One move of a thread. -/
inductive Step : MaxCell ι α → MaxCell ι α → Prop
  | call {c : MaxCell ι α} {i : ι} (a : α) (free : c.update i = none) : Step c (c.call i a)
  | join {c : MaxCell ι α} {i : ι} {a : α} (pending : c.update i = some (.pending a)) :
      Step c (c.join i a)
  | leave {c : MaxCell ι α} {i : ι} (done : c.update i = some .done) : Step c (c.leave i)

variable {init : α} {c c' : MaxCell ι α}

/-! ### Monotonicity -/

theorem Step.value_le (h : Step c c') : c.value ≤ c'.value := by
  cases h with
  | call => exact le_rfl
  | join => exact le_max_left ..
  | leave => exact le_rfl

/-- **The value never decreases.** -/
theorem value_le_of_steps (h : Relation.ReflTransGen Step c c') : c.value ≤ c'.value := by
  induction h with
  | refl => exact le_rfl
  | tail _ hstep ih => exact ih.trans hstep.value_le

/-! ### The maximum -/

/-- The value is one of those it may be, and only an update in progress can raise it. -/
structure Sound (init : α) (c : MaxCell ι α) : Prop where
  value_mem : c.value ∈ init :: c.passed
  init_le : init ≤ c.value
  pending_mem : ∀ i a, c.update i = some (.pending a) → a ∈ c.passed
  passed_le : ∀ a ∈ c.passed, a ≤ c.value ∨ ∃ i, c.update i = some (.pending a)

omit [DecidableEq ι] in
theorem sound_start (init : α) : Sound init (start ι init) where
  value_mem := .head _
  init_le := le_rfl
  pending_mem := nofun
  passed_le := nofun

/-- A new update puts its value among those that may be taken. -/
theorem Sound.call {i : ι} (a : α) (free : c.update i = none) (h : Sound init c) :
    Sound init (c.call i a) where
  value_mem := List.mem_append_left [a] h.value_mem
  init_le := h.init_le
  pending_mem := by
    intro j b hj
    by_cases hba : b = a
    · exact List.mem_append_right _ (List.mem_singleton.mpr hba)
    · refine List.mem_append_left _ (h.pending_mem j b (eq_of_update_eq hj ?_))
      rintro ⟨⟩
      exact hba rfl
  passed_le := by
    intro b hb
    rcases List.mem_append.mp hb with hb | hb
    · refine (h.passed_le b hb).imp_right ?_
      rintro ⟨j, hj⟩
      exact ⟨j, update_eq_of_eq _ (by rw [free]; nofun) hj⟩
    · obtain rfl := List.mem_singleton.mp hb
      exact .inr ⟨i, Function.update_self ..⟩

/-- An update that takes effect raises the value to its own, or finds it above. -/
theorem Sound.join {i : ι} {a : α} (pending : c.update i = some (.pending a)) (h : Sound init c) :
    Sound init (c.join i a) where
  value_mem := by
    show max c.value a ∈ init :: c.passed
    rcases max_choice c.value a with hmax | hmax
    · rw [hmax]
      exact h.value_mem
    · rw [hmax]
      exact .tail _ (h.pending_mem i a pending)
  init_le := h.init_le.trans (le_max_left ..)
  pending_mem := fun j b hj => h.pending_mem j b (eq_of_update_eq hj nofun)
  passed_le := by
    intro b hb
    rcases h.passed_le b hb with hle | ⟨j, hj⟩
    · exact .inl (hle.trans (le_max_left ..))
    · by_cases hba : b = a
      · exact .inl (hba.le.trans (le_max_right ..))
      · refine .inr ⟨j, update_eq_of_eq _ ?_ hj⟩
        rw [pending]
        rintro ⟨⟩
        exact hba rfl

/-- An update that has had its effect may be forgotten. -/
theorem Sound.leave {i : ι} (done : c.update i = some .done) (h : Sound init c) :
    Sound init (c.leave i) where
  value_mem := h.value_mem
  init_le := h.init_le
  pending_mem := fun j b hj => h.pending_mem j b (eq_of_update_eq hj nofun)
  passed_le := by
    intro b hb
    refine (h.passed_le b hb).imp_right ?_
    rintro ⟨j, hj⟩
    exact ⟨j, update_eq_of_eq _ (by rw [done]; nofun) hj⟩

theorem Step.sound (hstep : Step c c') (h : Sound init c) : Sound init c' := by
  cases hstep with
  | call a free => exact h.call a free
  | join pending => exact h.join pending
  | leave done => exact h.leave done

theorem sound_of_steps (h : Relation.ReflTransGen Step (start ι init) c) : Sound init c := by
  induction h with
  | refl => exact sound_start init
  | tail _ hstep ih => exact hstep.sound ih

omit [DecidableEq ι] in
/-- **Nothing is lost**: once every update has had its effect, the value is the maximum of all
values passed and of the one the cell started with. -/
theorem Sound.max?_eq (h : Sound init c) (quiet : ∀ i a, c.update i ≠ some (.pending a)) :
    (init :: c.passed).max? = some c.value := by
  refine List.max?_eq_some_iff.mpr ⟨h.value_mem, fun a ha => ?_⟩
  rcases List.mem_cons.mp ha with rfl | ha
  · exact h.init_le
  · refine (h.passed_le a ha).resolve_right ?_
    rintro ⟨i, hi⟩
    exact quiet i a hi

end MaxCell

end Laboratory.Concurrency
