import Mathlib.Data.Int.CardIntervalMod

/-!
# Counting in a round robin

Numbers that follow each other are dealt to `m` places by their remainder, starting anywhere.
`countP_turn`: a place gets every `m`-th number, so among the first `n` numbers it gets `n / m` of
them, rounded down or up.
-/

namespace Laboratory.Algorithm

/-- Counting in a range is counting below its end. -/
theorem countP_range (p : ℕ → Prop) [DecidablePred p] (n : ℕ) :
    (List.range n).countP p = Nat.count p n := by
  induction n with
  | zero => rfl
  | succ n ih =>
    rw [List.range_succ, List.countP_append, ih, Nat.count_succ, List.countP_singleton]
    simp only [decide_eq_true_eq]

variable {m : ℕ}

/-- The turn of the place `w` when the first number is `start`. -/
theorem mod_eq_iff_turn {w : ℕ} (hw : w < m) (start i : ℕ) :
    (start + i) % m = w ↔ i ≡ w + (m - start % m) [MOD m] := by
  have hm : start % m < m := Nat.mod_lt _ (by omega)
  have hstart : start + (w + (m - start % m)) ≡ w [MOD m] := by
    have hsum : start + (w + (m - start % m)) = w + m * (start / m + 1) := by
      have := Nat.div_add_mod start m
      rw [Nat.mul_add, Nat.mul_one]
      omega
    rw [hsum]
    exact Nat.add_mul_mod_self_left ..
  have hmod : (start + i) % m = w ↔ start + i ≡ w [MOD m] := by
    rw [Nat.ModEq, Nat.mod_eq_of_lt hw]
  rw [hmod]
  constructor
  · intro h
    exact Nat.ModEq.add_left_cancel' start (h.trans hstart.symm)
  · intro h
    exact (h.add_left start).trans hstart

/-- **Every place gets its share.** -/
theorem countP_turn {w : ℕ} (hw : w < m) (start n : ℕ) :
    n / m ≤ (List.range n).countP (fun i => (start + i) % m = w) ∧
      (List.range n).countP (fun i => (start + i) % m = w) ≤ n / m + 1 := by
  have hcount : (List.range n).countP (fun i => (start + i) % m = w) =
      (List.range n).countP (fun i => i ≡ w + (m - start % m) [MOD m]) := by
    apply List.countP_congr
    intro i _
    simp only [decide_eq_true_eq]
    exact mod_eq_iff_turn hw start i
  rw [hcount, countP_range, Nat.count_modEq_card _ (by omega)]
  split_ifs <;> omega

/-- The shares of two places differ by at most one. -/
theorem countP_turn_le {w w' : ℕ} (hw : w < m) (hw' : w' < m) (start n : ℕ) :
    (List.range n).countP (fun i => (start + i) % m = w) ≤
      (List.range n).countP (fun i => (start + i) % m = w') + 1 := by
  have := (countP_turn hw start n).2
  have := (countP_turn hw' start n).1
  omega

end Laboratory.Algorithm
