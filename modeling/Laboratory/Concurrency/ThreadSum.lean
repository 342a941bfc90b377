import Mathlib.Algebra.BigOperators.Group.Finset.Basic
import Mathlib.Tactic.Abel

/-!
# Sums over threads

An invariant that counts something over all threads changes with the one thread that takes a
step. `sum_update` is the law for it; it holds for a dependent state, so that threads of different
kinds may have different states, and in any commutative monoid, so that events can be summed as
well as numbers.
-/

namespace Laboratory.Concurrency

variable {ι M : Type*} [Fintype ι] [DecidableEq ι] [AddCommMonoid M] {β : ι → Type*}

/-- **One thread moves.** The sum of the weights loses the weight the thread had and gains the
weight it has now. -/
theorem sum_update (w : ∀ i, β i → M) (s : ∀ i, β i) (i : ι) (x : β i) :
    ∑ j, w j (Function.update s i x j) + w i (s i) = ∑ j, w j (s j) + w i x := by
  rw [← Finset.add_sum_erase _ _ (Finset.mem_univ i),
    ← Finset.add_sum_erase (f := fun j => w j (s j)) _ (Finset.mem_univ i), Function.update_self]
  have hrest : ∑ j ∈ Finset.univ.erase i, w j (Function.update s i x j) =
      ∑ j ∈ Finset.univ.erase i, w j (s j) := by
    apply Finset.sum_congr rfl
    intro j hj
    rw [Function.update_of_ne (Finset.ne_of_mem_erase hj)]
  rw [hrest]
  abel

omit [Fintype ι] [AddCommMonoid M] in
/-- Only the thread that moves can have entered the state `y`. -/
theorem eq_of_update_eq {s : ι → M} {i j : ι} {x y : M} (h : Function.update s i x j = y)
    (hx : x ≠ y) : s j = y := by
  by_cases hj : j = i
  · subst hj
    rw [Function.update_self] at h
    exact absurd h hx
  · rwa [Function.update_of_ne hj] at h

omit [Fintype ι] [AddCommMonoid M] in
/-- A thread in the state `y` stays there when a thread moves that is not. -/
theorem update_eq_of_eq {s : ι → M} {i j : ι} {y : M} (x : M) (hi : s i ≠ y) (hj : s j = y) :
    Function.update s i x j = y := by
  rwa [Function.update_of_ne]
  rintro rfl
  exact hi hj

/-- A thread that moves without a change of its weight leaves the sum as it is. -/
theorem sum_update_eq (w : ∀ i, β i → M) (s : ∀ i, β i) (i : ι) (x : β i) (h : w i x = w i (s i)) :
    ∑ j, w j (Function.update s i x j) = ∑ j, w j (s j) := by
  apply Finset.sum_congr rfl
  intro j _
  by_cases hj : j = i
  · subst hj
    rw [Function.update_self, h]
  · rw [Function.update_of_ne hj]

end Laboratory.Concurrency
