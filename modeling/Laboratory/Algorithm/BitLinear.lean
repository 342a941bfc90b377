import Mathlib.Data.BitVec
import Mathlib.Data.Nat.Bitwise
import Mathlib.Data.Nat.Prime.Basic
import Mathlib.Dynamics.PeriodicPts.Lemmas
import Mathlib.Tactic.Ring

/-!
# Linear maps on bit vectors and their period

A map `T` on the bit vectors of width `w` that is linear for `^^^` has the powers that it has as a
matrix over the field of two elements.  A step that adds a shifted copy of a vector to it is linear
and injective, since shifts are nilpotent (`injective_xor_self`).

A polynomial in `T` is a natural number here, bit `i` being the coefficient of `T ^ i`; `comb`
applies it to a vector.

When `T ^ D` acts on a vector as a polynomial of smaller degree, its higher powers do too, and
`power` computes them by repeated squaring (`comb_power`).  `minimalPeriod_eq` finds the period of a
vector from a few powers, and `exists_iterate_eq` says that a vector of the longest possible period
comes by every vector other than zero.
-/

namespace Laboratory.Algorithm

open Function

variable {w : ℕ} {T N : BitVec w → BitVec w}

/-- `T` is linear over the field of two elements. -/
def BitLinear (T : BitVec w → BitVec w) : Prop :=
  ∀ a b, T (a ^^^ b) = T a ^^^ T b

theorem BitLinear.map_zero (hT : BitLinear T) : T 0#w = 0#w := by
  have h := hT 0#w 0#w
  rwa [BitVec.xor_self, BitVec.xor_self] at h

theorem BitLinear.comp {U : BitVec w → BitVec w} (hT : BitLinear T) (hU : BitLinear U) :
    BitLinear (T ∘ U) := by
  intro a b
  rw [comp_apply, hU, hT]
  rfl

/-- Two vectors and their images, added in two orders. -/
theorem xor_xor_xor (a b c d : BitVec w) : a ^^^ b ^^^ (c ^^^ d) = a ^^^ c ^^^ (b ^^^ d) := by
  rw [BitVec.xor_assoc, BitVec.xor_assoc, ← BitVec.xor_assoc b, ← BitVec.xor_assoc c,
    BitVec.xor_comm b]

/-- A vector and its image, added. -/
theorem BitLinear.xor_self (hN : BitLinear N) : BitLinear fun v => v ^^^ N v := by
  intro a b
  show a ^^^ b ^^^ N (a ^^^ b) = a ^^^ N a ^^^ (b ^^^ N b)
  rw [hN]
  exact xor_xor_xor ..

theorem bitLinear_shiftLeft (n : ℕ) : BitLinear fun v : BitVec w => v <<< n :=
  fun _ _ => BitVec.shiftLeft_xor_distrib ..

theorem bitLinear_shiftRight (n : ℕ) : BitLinear fun v : BitVec w => v >>> n :=
  fun _ _ => BitVec.ushiftRight_xor_distrib ..

theorem bitLinear_xorShiftLeft (n : ℕ) : BitLinear fun v : BitVec w => v ^^^ v <<< n :=
  (bitLinear_shiftLeft n).xor_self

theorem bitLinear_xorShiftRight (n : ℕ) : BitLinear fun v : BitVec w => v ^^^ v >>> n :=
  (bitLinear_shiftRight n).xor_self

/-! ### Injectivity -/

/-- A linear map is injective if it maps nothing but zero to zero. -/
theorem BitLinear.injective (hT : BitLinear T) (h : ∀ v, T v = 0#w → v = 0#w) : Injective T := by
  intro a b hab
  apply BitVec.xor_eq_zero_iff.mp
  apply h
  rw [hT, hab, BitVec.xor_self]

/-- **Nothing is lost** when the image under a nilpotent map is added. -/
theorem BitLinear.injective_xor_self (hN : BitLinear N) {k : ℕ} (hk : ∀ v, N^[k] v = 0#w) :
    Injective fun v => v ^^^ N v := by
  refine hN.xor_self.injective fun v hv => ?_
  -- What is mapped to zero is a fixed point of the nilpotent map.
  have hfixed : N v = v := (BitVec.xor_eq_zero_iff.mp hv).symm
  rw [← hk v, iterate_fixed hfixed]

theorem iterate_shiftLeft (n k : ℕ) (v : BitVec w) :
    (fun v : BitVec w => v <<< n)^[k] v = v <<< (n * k) := by
  induction k with
  | zero => exact (BitVec.shiftLeft_zero v).symm
  | succ k ih => rw [iterate_succ_apply', ih, Nat.mul_succ, BitVec.shiftLeft_add]

theorem iterate_shiftRight (n k : ℕ) (v : BitVec w) :
    (fun v : BitVec w => v >>> n)^[k] v = v >>> (n * k) := by
  induction k with
  | zero => exact (BitVec.ushiftRight_zero v).symm
  | succ k ih => rw [iterate_succ_apply', ih, Nat.mul_succ, BitVec.shiftRight_add]

theorem injective_xorShiftLeft {n : ℕ} (hn : 0 < n) :
    Injective fun v : BitVec w => v ^^^ v <<< n := by
  refine (bitLinear_shiftLeft n).injective_xor_self (k := w) fun v => ?_
  rw [iterate_shiftLeft]
  exact BitVec.shiftLeft_eq_zero (Nat.le_mul_of_pos_left w hn)

theorem injective_xorShiftRight {n : ℕ} (hn : 0 < n) :
    Injective fun v : BitVec w => v ^^^ v >>> n := by
  refine (bitLinear_shiftRight n).injective_xor_self (k := w) fun v => ?_
  rw [iterate_shiftRight]
  exact BitVec.ushiftRight_eq_zero (Nat.le_mul_of_pos_left w hn)

/-! ### Polynomials -/

/-- The lowest `n` coefficients of `q`, with `T` for the unknown, applied to `v`. -/
def comb (T : BitVec w → BitVec w) : ℕ → ℕ → BitVec w → BitVec w
  | 0, _, _ => 0#w
  | n + 1, q, v => bif q.testBit 0 then v ^^^ T (comb T n (q >>> 1) v) else T (comb T n (q >>> 1) v)

theorem comb_zero (hT : BitLinear T) (n : ℕ) (v : BitVec w) : comb T n 0 v = 0#w := by
  induction n with
  | zero => rfl
  | succ n ih =>
    rw [comb, Nat.zero_shiftRight, ih, hT.map_zero]
    rfl

theorem comb_one (hT : BitLinear T) (n : ℕ) (v : BitVec w) : comb T (n + 1) 1 v = v := by
  have hzero : 1 >>> 1 = 0 := rfl
  rw [comb, hzero, comb_zero hT, hT.map_zero, BitVec.xor_zero]
  rfl

/-- Addition of polynomials. -/
theorem comb_xor (hT : BitLinear T) (n : ℕ) (a b : ℕ) (v : BitVec w) :
    comb T n (a ^^^ b) v = comb T n a v ^^^ comb T n b v := by
  induction n generalizing a b with
  | zero => exact (BitVec.xor_self).symm
  | succ n ih =>
    rw [comb, comb, comb, Nat.shiftRight_xor_distrib, ih, hT, Nat.testBit_xor]
    cases a.testBit 0 <;> cases b.testBit 0 <;>
      simp only [Bool.xor_false, Bool.xor_true, Bool.not_true, Bool.not_false, cond_true,
        cond_false]
    · rw [← BitVec.xor_assoc, ← BitVec.xor_assoc, BitVec.xor_comm v]
    · rw [BitVec.xor_assoc]
    · rw [BitVec.xor_assoc, BitVec.xor_comm _ (v ^^^ _), BitVec.xor_assoc, ← BitVec.xor_assoc v v,
        BitVec.xor_self, BitVec.zero_xor, BitVec.xor_comm]

theorem comb_cond (hT : BitLinear T) (n : ℕ) (b : Bool) (a : ℕ) (v : BitVec w) :
    comb T n (bif b then a else 0) v = bif b then comb T n a v else 0#w := by
  cases b with
  | true => rfl
  | false => exact comb_zero hT n v

/-- `T` commutes with its polynomials. -/
theorem comb_map (hT : BitLinear T) (n q : ℕ) (v : BitVec w) :
    comb T n q (T v) = T (comb T n q v) := by
  induction n generalizing q with
  | zero => exact hT.map_zero.symm
  | succ n ih =>
    rw [comb, comb, ih]
    cases q.testBit 0 with
    | true => exact (hT _ _).symm
    | false => rfl

theorem comb_iterate (hT : BitLinear T) (n q m : ℕ) (v : BitVec w) :
    comb T n q (T^[m] v) = T^[m] (comb T n q v) := by
  induction m with
  | zero => rfl
  | succ m ih => rw [iterate_succ_apply', iterate_succ_apply', comb_map hT, ih]

/-- The highest coefficient taken apart. -/
theorem comb_succ (hT : BitLinear T) (n q : ℕ) (v : BitVec w) :
    comb T (n + 1) q v = comb T n q v ^^^ bif q.testBit n then T^[n] v else 0#w := by
  induction n generalizing q with
  | zero =>
    change (bif q.testBit 0 then v ^^^ T 0#w else T 0#w) = 0#w ^^^ bif q.testBit 0 then v else 0#w
    rw [hT.map_zero, BitVec.xor_zero, BitVec.zero_xor]
  | succ n ih =>
    have hbit : (q >>> 1).testBit n = q.testBit (n + 1) := by
      rw [Nat.testBit_shiftRight, Nat.add_comm]
    have hpow : (bif q.testBit (n + 1) then T^[n + 1] v else 0#w) =
        T (bif q.testBit (n + 1) then T^[n] v else 0#w) := by
      cases q.testBit (n + 1) with
      | true => exact iterate_succ_apply' ..
      | false => exact hT.map_zero.symm
    rw [comb, ih, hT, hbit, comb, hpow]
    cases q.testBit 0 with
    | true => exact (BitVec.xor_assoc ..).symm
    | false => rfl

/-- The unknown times a polynomial. -/
theorem comb_shiftLeft (n q : ℕ) (v : BitVec w) :
    comb T (n + 1) (q <<< 1) v = T (comb T n q v) := by
  have hbit : (q <<< 1).testBit 0 = false := by
    rw [Nat.testBit_shiftLeft]
    rfl
  have hshift : q <<< 1 >>> 1 = q := by
    rw [Nat.shiftLeft_shiftRight]
  rw [comb, hbit, hshift]
  rfl

/-- Coefficients that are not looked at. -/
theorem comb_mod (n q : ℕ) (v : BitVec w) : comb T n (q % 2 ^ n) v = comb T n q v := by
  induction n generalizing q with
  | zero => rfl
  | succ n ih =>
    have hbit : (q % 2 ^ (n + 1)).testBit 0 = q.testBit 0 := by
      rw [Nat.testBit_mod_two_pow]
      simp
    have hshift : (q % 2 ^ (n + 1)) >>> 1 = (q >>> 1) % 2 ^ n := by
      rw [Nat.shiftRight_one, Nat.shiftRight_one, Nat.pow_succ', Nat.mod_mul_right_div_self]
    rw [comb, comb, hbit, hshift, ih]

/-! ### Polynomials modulo a polynomial -/

section Reduced

/-- The unknown times `q`, where its power `d + 1` is the polynomial `low`. -/
def mulX (d low q : ℕ) : ℕ :=
  (q <<< 1 ^^^ bif q.testBit d then low else 0) % 2 ^ (d + 1)

/-- The product of the lowest `n` coefficients of `a` and of `b`. -/
def mulGo (d low : ℕ) : ℕ → ℕ → ℕ → ℕ
  | 0, _, _ => 0
  | n + 1, a, b => mulX d low (mulGo d low n (a >>> 1) b) ^^^ bif a.testBit 0 then b else 0

def mul (d low a b : ℕ) : ℕ := mulGo d low (d + 1) a b

/-- The power of the unknown to the lowest `n` bits of `e`, by squaring. -/
def power (d low : ℕ) : ℕ → ℕ → ℕ
  | 0, _ => 1
  | n + 1, e =>
    let root := power d low n (e >>> 1)
    let square := mul d low root root
    bif e.testBit 0 then mulX d low square else square

variable {d low : ℕ} {v : BitVec w}

theorem comb_mulX (hT : BitLinear T) (hlow : T^[d + 1] v = comb T (d + 1) low v) (q : ℕ) :
    comb T (d + 1) (mulX d low q) v = T (comb T (d + 1) q v) := by
  rw [mulX, comb_mod, comb_xor hT, comb_shiftLeft, comb_cond hT, ← hlow, comb_succ hT d q, hT]
  cases q.testBit d with
  | true => rw [cond_true, cond_true, iterate_succ_apply']
  | false => rw [cond_false, cond_false, hT.map_zero]

theorem comb_mulGo (hT : BitLinear T) (hlow : T^[d + 1] v = comb T (d + 1) low v) (n a b : ℕ) :
    comb T (d + 1) (mulGo d low n a b) v = comb T n a (comb T (d + 1) b v) := by
  induction n generalizing a with
  | zero => exact comb_zero hT _ v
  | succ n ih =>
    rw [mulGo, comb_xor hT, comb_mulX hT hlow, ih, comb_cond hT]
    change _ = bif a.testBit 0 then _ ^^^ T (comb T n (a >>> 1) _) else T (comb T n (a >>> 1) _)
    cases a.testBit 0 with
    | true => exact BitVec.xor_comm ..
    | false => exact BitVec.xor_zero

/-- Multiplication of polynomials. -/
theorem comb_mul (hT : BitLinear T) (hlow : T^[d + 1] v = comb T (d + 1) low v) (a b : ℕ) :
    comb T (d + 1) (mul d low a b) v = comb T (d + 1) a (comb T (d + 1) b v) :=
  comb_mulGo hT hlow (d + 1) a b

/-- **Powers by squaring.** -/
theorem comb_power (hT : BitLinear T) (hlow : T^[d + 1] v = comb T (d + 1) low v) (n e : ℕ) :
    comb T (d + 1) (power d low n e) v = T^[e % 2 ^ n] v := by
  induction n generalizing e with
  | zero =>
    rw [power, comb_one hT, Nat.pow_zero, Nat.mod_one]
    rfl
  | succ n ih =>
    have hsquare :
        comb T (d + 1) (mul d low (power d low n (e >>> 1)) (power d low n (e >>> 1))) v =
        T^[2 * (e / 2 % 2 ^ n)] v := by
      rw [comb_mul hT hlow, ih, comb_iterate hT, ih, ← iterate_add_apply, Nat.shiftRight_one,
        Nat.two_mul]
    have hexp : e % 2 ^ (n + 1) = 2 * (e / 2 % 2 ^ n) + e % 2 := by
      rw [Nat.pow_succ', Nat.mod_mul, Nat.add_comm]
    have hbit : e.testBit 0 = decide (e % 2 = 1) := Nat.testBit_zero e
    rw [power, hexp, hbit]
    rcases Nat.mod_two_eq_zero_or_one e with he | he
    · rw [he]
      exact hsquare
    · rw [he, decide_eq_true rfl, cond_true, comb_mulX hT hlow, hsquare, Nat.add_comm,
        iterate_add_apply]
      rfl

end Reduced

/-! ### The period -/

section Period

variable {α : Type*} {f : α → α} {x : α}

/-- A point that comes back after `N` steps, and not after `N / p` for a prime factor `p`. -/
theorem minimalPeriod_eq {N : ℕ} (hback : f^[N] x = x)
    (hnot : ∀ p, p.Prime → p ∣ N → f^[N / p] x ≠ x) : minimalPeriod f x = N := by
  obtain ⟨m, hm⟩ := IsPeriodicPt.minimalPeriod_dvd hback
  by_cases hone : m = 1
  · rw [hm, hone, Nat.mul_one]
  · obtain ⟨p, hp, k, rfl⟩ := Nat.exists_prime_and_dvd hone
    have hdiv : N / p = minimalPeriod f x * k := by
      have hassoc : N = p * (minimalPeriod f x * k) := by
        rw [hm]
        ring
      rw [hassoc, Nat.mul_div_cancel_left _ hp.pos]
    refine absurd ?_ (hnot p hp ⟨minimalPeriod f x * k, by rw [hm]; ring⟩)
    rw [hdiv]
    exact (isPeriodicPt_minimalPeriod f x).mul_const k

/-- **An injective map on a finite type returns**: every iterate of a point lies on a cycle with the
point on it. -/
theorem exists_returns [Finite α] (hf : Injective f) (x : α) (n : ℕ) :
    ∃ p > 0, f^[p] (f^[n] x) = f^[n] x ∧ ∃ m < p, f^[m] (f^[n] x) = x := by
  obtain ⟨p, hp, hperiod⟩ := hf.mem_periodicPts x
  refine ⟨p, hp, hperiod.apply_iterate n, (p - n % p) % p, Nat.mod_lt _ hp, ?_⟩
  rw [← iterate_add_apply, ← hperiod.iterate_mod_apply]
  have hlt : n % p < p := Nat.mod_lt n hp
  have hzero : ((p - n % p) % p + n) % p = 0 := by
    rw [Nat.mod_add_mod, ← Nat.add_mod_mod, Nat.sub_add_cancel hlt.le, Nat.mod_self]
  rw [hzero]
  rfl

end Period

/-- **The longest period.** A vector with `2 ^ w - 1` iterates comes by every vector other than
zero, from wherever it starts. -/
theorem exists_iterate_eq (hT : BitLinear T) {v : BitVec w} (hv : v ≠ 0#w)
    (hperiod : minimalPeriod T v = 2 ^ w - 1) {a b : BitVec w} (ha : a ≠ 0#w) (hb : b ≠ 0#w) :
    ∃ n, T^[n] a = b := by
  have hpos : 0 < 2 ^ w - 1 := by
    rcases Nat.eq_zero_or_pos w with rfl | hw
    · exact absurd (BitVec.eq_nil v) hv
    · have := Nat.one_lt_two_pow hw.ne'
      omega
  have hback (k : ℕ) : T^[(2 ^ w - 1) * k] v = v := by
    rw [← hperiod]
    exact (isPeriodicPt_minimalPeriod T v).mul_const k
  -- An iterate that is zero stays zero, and does not come back.
  have hne (n : ℕ) : T^[n] v ≠ 0#w := by
    intro hzero
    have hle : n ≤ (2 ^ w - 1) * n := Nat.le_mul_of_pos_left n hpos
    apply hv
    calc
      v = T^[(2 ^ w - 1) * n - n] (T^[n] v) := by
        rw [← iterate_add_apply, Nat.sub_add_cancel hle, hback]
      _ = 0#w := by rw [hzero, iterate_fixed hT.map_zero]
  -- Zero and the iterates are as many as there are vectors, so they are all vectors.
  have hinjective : Injective fun i : Fin (2 ^ w) =>
      (if (i : ℕ) = 0 then 0#w else T^[i - 1] v).toFin := by
    intro i j hij
    have hij := BitVec.toFin_inj.mp hij
    apply Fin.ext
    split_ifs at hij with hi hj hj
    · rw [hi, hj]
    · exact absurd hij.symm (hne _)
    · exact absurd hij (hne _)
    · have := (iterate_eq_iterate_iff_of_lt_minimalPeriod (by omega) (by omega)).mp hij
      omega
  have hreach {u : BitVec w} (hu : u ≠ 0#w) : ∃ n, T^[n] v = u := by
    obtain ⟨i, hi⟩ := Finite.injective_iff_surjective.mp hinjective u.toFin
    have hi := BitVec.toFin_inj.mp hi
    split_ifs at hi with hzero
    · exact absurd hi.symm hu
    · exact ⟨_, hi⟩
  obtain ⟨m, rfl⟩ := hreach ha
  obtain ⟨n, rfl⟩ := hreach hb
  refine ⟨n + ((2 ^ w - 1) * m - m), ?_⟩
  have hle : m ≤ (2 ^ w - 1) * m := Nat.le_mul_of_pos_left m hpos
  rw [← iterate_add_apply, Nat.add_assoc, Nat.sub_add_cancel hle, iterate_add_apply, hback]

end Laboratory.Algorithm
