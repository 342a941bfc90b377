import Mathlib.Data.List.Infix
import Mathlib.Data.Nat.ModEq
import Mathlib.Logic.Function.Basic

/-!
# Ring buffers and their history

A ring of `cap` slots in which the `k`-th value ever written goes to slot `k % cap`.  `RingLog`
relates the slots to the values written and read so far.  As long as fewer than `cap` values are
waiting, a write meets a free slot (`RingLog.write`); as long as one is waiting, a read finds the
oldest of them (`RingLog.read`).
-/

namespace Laboratory.Concurrency

variable {α : Type*} {cap : ℕ} {buffer : ℕ → α} {filled : ℕ → Bool} {written taken : List α}

/-- Two positions of one lap have different slots. -/
theorem eq_of_mod_eq {k l : ℕ} (h : k % cap = l % cap) (hkl : k < l + cap) (hlk : l < k + cap) :
    k = l := by
  have key : ∀ {a b : ℕ}, a % cap = b % cap → a ≤ b → b < a + cap → a = b := by
    intro a b hab hle hlt
    have hdvd := (Nat.modEq_iff_dvd' hle).mp hab
    have := Nat.eq_zero_of_dvd_of_lt hdvd (by omega)
    omega
  rcases Nat.le_total k l with hle | hle
  · exact key h hle hlk
  · exact (key h.symm hle hkl).symm

/-- An index that starts again at `0` when it reaches the end counts modulo the capacity. -/
theorem next_mod (k : ℕ) (hcap : 0 < cap) :
    (if k % cap + 1 = cap then 0 else k % cap + 1) = (k + 1) % cap := by
  have hlt := Nat.mod_lt k hcap
  rw [Nat.add_mod k 1 cap]
  split_ifs with h
  · rcases Nat.eq_or_lt_of_le (show 1 ≤ cap by omega) with h1 | h1
    · rw [← h1, Nat.mod_one]
    · rw [Nat.mod_eq_of_lt h1, h, Nat.mod_self]
  · rw [Nat.mod_eq_of_lt (show 1 < cap by omega),
      Nat.mod_eq_of_lt (show k % cap + 1 < cap by omega)]

/-- **The slots and the history.** The values read are the first of the values written, at most
`cap` values are waiting, each waiting value lies in its slot, and exactly these slots are
filled. -/
structure RingLog (cap : ℕ) (buffer : ℕ → α) (filled : ℕ → Bool) (written taken : List α) :
    Prop where
  taken_prefix : taken <+: written
  length_le : written.length ≤ taken.length + cap
  content : ∀ k, taken.length ≤ k → ∀ h : k < written.length, buffer (k % cap) = written[k]
  filled_iff : ∀ j, filled j = true ↔ ∃ k, taken.length ≤ k ∧ k < written.length ∧ k % cap = j

namespace RingLog

theorem empty (cap : ℕ) (buffer : ℕ → α) : RingLog cap buffer (fun _ => false) [] [] := by
  refine ⟨List.prefix_rfl, Nat.zero_le _, ?_, ?_⟩
  · intro k _ h
    cases h
  · intro j
    constructor
    · intro h
      cases h
    · rintro ⟨k, -, h, -⟩
      cases h

/-- The slot of the next write is free. -/
theorem free (hr : RingLog cap buffer filled written taken)
    (hroom : written.length < taken.length + cap) : filled (written.length % cap) = false := by
  by_contra h
  obtain ⟨k, hk, hkw, hmod⟩ := (hr.filled_iff _).mp (by simpa using h)
  have := eq_of_mod_eq hmod (by omega) (by omega)
  omega

/-- **A write** keeps the history right. -/
theorem write (hr : RingLog cap buffer filled written taken)
    (hroom : written.length < taken.length + cap) (a : α) :
    RingLog cap (Function.update buffer (written.length % cap) a)
      (Function.update filled (written.length % cap) true) (written ++ [a]) taken := by
  have hle := hr.taken_prefix.length_le
  refine ⟨hr.taken_prefix.trans (List.prefix_append _ _), ?_, ?_, ?_⟩
  · rw [List.length_append, List.length_singleton]
    omega
  · intro k hk h
    rw [List.length_append, List.length_singleton] at h
    by_cases hlast : k = written.length
    · subst hlast
      rw [Function.update_self, List.getElem_concat_length rfl]
    · rw [Function.update_of_ne, List.getElem_append_left (show k < written.length by omega)]
      · exact hr.content k hk (by omega)
      · -- An older value in the same slot would be a whole round behind.
        intro hmod
        exact hlast (eq_of_mod_eq hmod (by omega) (by omega))
  · intro j
    rw [List.length_append, List.length_singleton]
    by_cases hj : j = written.length % cap
    · subst hj
      rw [Function.update_self]
      exact ⟨fun _ => ⟨written.length, hle, Nat.lt_succ_self _, rfl⟩, fun _ => rfl⟩
    · rw [Function.update_of_ne hj, hr.filled_iff]
      constructor
      · rintro ⟨k, hk, hkw, hmod⟩
        exact ⟨k, hk, by omega, hmod⟩
      · rintro ⟨k, hk, hkw, hmod⟩
        refine ⟨k, hk, ?_, hmod⟩
        rcases Nat.lt_succ_iff_lt_or_eq.mp hkw with h | h
        · exact h
        · exact absurd (h ▸ hmod.symm) hj

/-- The slot of the next read is filled. -/
theorem holds (hr : RingLog cap buffer filled written taken)
    (hvalue : taken.length < written.length) : filled (taken.length % cap) = true :=
  (hr.filled_iff _).mpr ⟨_, le_rfl, hvalue, rfl⟩

/-- What waits is what has been written and not been read; the next read takes its head. -/
theorem drop_read (hr : RingLog cap buffer filled written taken)
    (hvalue : taken.length < written.length) :
    written.drop taken.length = buffer (taken.length % cap) :: written.drop (taken.length + 1) := by
  rw [List.drop_eq_getElem_cons hvalue, hr.content _ le_rfl hvalue]

theorem drop_write (hr : RingLog cap buffer filled written taken) (a : α) :
    (written ++ [a]).drop taken.length = written.drop taken.length ++ [a] :=
  List.drop_append_of_le_length hr.taken_prefix.length_le

/-- **A read** keeps the history right. -/
theorem read (hr : RingLog cap buffer filled written taken)
    (hvalue : taken.length < written.length) :
    RingLog cap buffer (Function.update filled (taken.length % cap) false) written
      (taken ++ [buffer (taken.length % cap)]) := by
  have hle := hr.length_le
  refine ⟨?_, ?_, ?_, ?_⟩
  · use written.drop (taken.length + 1)
    rw [List.append_assoc, List.singleton_append, ← hr.drop_read hvalue,
      ← List.prefix_append_drop hr.taken_prefix]
  · rw [List.length_append, List.length_singleton]
    omega
  · intro k hk h
    rw [List.length_append, List.length_singleton] at hk
    exact hr.content k (by omega) h
  · intro j
    rw [List.length_append, List.length_singleton]
    by_cases hj : j = taken.length % cap
    · subst hj
      rw [Function.update_self]
      constructor
      · intro h
        cases h
      · rintro ⟨k, hk, hkw, hmod⟩
        -- A later value in the slot that was read would be a whole round ahead.
        have := eq_of_mod_eq hmod (by omega) (by omega)
        omega
    · rw [Function.update_of_ne hj, hr.filled_iff]
      constructor
      · rintro ⟨k, hk, hkw, hmod⟩
        refine ⟨k, ?_, hkw, hmod⟩
        rcases Nat.eq_or_lt_of_le hk with h | h
        · exact absurd (h ▸ hmod.symm) hj
        · exact h
      · rintro ⟨k, hk, hkw, hmod⟩
        exact ⟨k, by omega, hkw, hmod⟩

end RingLog

/-! ### An index under a mutex -/

/-- **An index that counts modulo the capacity under a mutex.** The thread `i` holds the mutex
exactly while it is in its critical section, `lag` then says how far the index is behind the
count. -/
structure Guarded {ι : Type*} (cap : ℕ) (mutex : Option ι) (index count : ℕ) (i : ι)
    (lag : Option ℕ) : Prop where
  owner : mutex = some i ↔ lag.isSome = true
  index_eq : ∀ n, lag = some n → ∃ k, count = k + n ∧ index = k % cap

namespace Guarded

variable {ι : Type*} {mutex mutex' : Option ι} {index index' count count' : ℕ} {i j : ι}
  {lag : Option ℕ}

/-- Whoever is in the critical section keeps others out of theirs. -/
theorem excluded (hg : Guarded cap mutex index count i lag) (hm : mutex ≠ some i) : lag = none := by
  rw [← Option.not_isSome_iff_eq_none, ← hg.owner]
  exact hm

theorem outside (hm : mutex ≠ some i) : Guarded cap mutex index count i none := by
  refine ⟨⟨fun h => absurd h hm, fun h => by cases h⟩, ?_⟩
  intro n h
  cases h

/-- What another thread does under the mutex does not matter to a thread outside. -/
theorem other (hg : Guarded cap mutex index count j lag) (hm : mutex ≠ some j)
    (hm' : mutex' ≠ some j) : Guarded cap mutex' index' count' j lag := by
  rw [hg.excluded hm]
  exact outside hm'

theorem inside {k n : ℕ} (hcount : count = k + n) (hindex : index = k % cap) :
    Guarded cap (some i) index count i (some n) := by
  refine ⟨⟨fun _ => rfl, fun _ => rfl⟩, ?_⟩
  intro n' h
  cases h
  exact ⟨k, hcount, hindex⟩

end Guarded

end Laboratory.Concurrency
