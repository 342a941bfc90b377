import Mathlib.Data.Rat.Floor
import Mathlib.Data.Nat.Log
import Mathlib.Tactic.Linarith
import Mathlib.Tactic.FieldSimp
import Mathlib.Tactic.Ring
import Mathlib.Algebra.Order.Field.Power

/-!
# Numbers in floating point

`roundHalfEven` is the nearest integer to a rational, and `FloatFormat.round` the nearest number
with so many significant bits; of two that are equally near, the even one counts.  Rounding keeps
the order (`round_mono`), leaves the numbers of the format where they are (`round_eq_self`) and
moves no number by more than half of its last place (`abs_round_sub_le`).  A fraction with a small
denominator can be told from the number that it is rounded to (`round_nearest_div`).

A format has a least exponent and no greatest: what an overflow leads to is not a matter of
rounding.
-/

namespace Laboratory.Algorithm

/-! ### Integers -/

/-- The nearest integer, and the even one of two. -/
def roundHalfEven (q : ℚ) : ℤ :=
  if q - ⌊q⌋ < 1 / 2 ∨ q - ⌊q⌋ = 1 / 2 ∧ ⌊q⌋ % 2 = 0 then ⌊q⌋ else ⌊q⌋ + 1

theorem roundHalfEven_bounds (q : ℚ) : ⌊q⌋ ≤ roundHalfEven q ∧ roundHalfEven q ≤ ⌊q⌋ + 1 := by
  rw [roundHalfEven]
  split_ifs <;> omega

theorem abs_roundHalfEven_sub_le (q : ℚ) : |roundHalfEven q - q| ≤ 1 / 2 := by
  have hlow := Int.floor_le q
  have hhigh := Int.lt_floor_add_one q
  rw [roundHalfEven, abs_le]
  split_ifs with h
  · rcases h with h | ⟨h, -⟩ <;> constructor <;> linarith
  · have hge : 1 / 2 ≤ q - ⌊q⌋ := not_lt.mp fun hlt => h (.inl hlt)
    push_cast
    constructor <;> linarith

theorem roundHalfEven_intCast (n : ℤ) : roundHalfEven n = n := by
  rw [roundHalfEven, Int.floor_intCast, sub_self, if_pos (.inl (by norm_num))]

/-- An integer that is nearer than one half is the nearest. -/
theorem roundHalfEven_eq {q : ℚ} {n : ℤ} (h : |n - q| < 1 / 2) : roundHalfEven q = n := by
  have hround := abs_roundHalfEven_sub_le q
  rw [abs_lt] at h
  rw [abs_le] at hround
  have hlow : (roundHalfEven q : ℚ) < n + 1 := by linarith
  have hhigh : (n : ℚ) < roundHalfEven q + 1 := by linarith
  have : roundHalfEven q < n + 1 := by exact_mod_cast hlow
  have : n < roundHalfEven q + 1 := by exact_mod_cast hhigh
  omega

/-- No integer is nearer. -/
theorem abs_roundHalfEven_sub_le_abs (q : ℚ) (n : ℤ) : |roundHalfEven q - q| ≤ |n - q| := by
  by_cases h : |n - q| < 1 / 2
  · rw [roundHalfEven_eq h]
  · exact (abs_roundHalfEven_sub_le q).trans (not_lt.mp h)

theorem roundHalfEven_mono {q r : ℚ} (h : q ≤ r) : roundHalfEven q ≤ roundHalfEven r := by
  have hq := roundHalfEven_bounds q
  have hr := roundHalfEven_bounds r
  rcases (Int.floor_le_floor h).eq_or_lt with hfloor | hfloor
  · rw [roundHalfEven, roundHalfEven, hfloor]
    split_ifs with hup hdown hdown
    · exact le_rfl
    · omega
    · -- The greater one is below the middle, or in it.
      refine absurd ?_ hup
      rcases hdown with hlt | ⟨heq, heven⟩
      · exact .inl (by linarith)
      · exact (h.lt_or_eq).imp (fun hlt => by linarith) fun hqr => ⟨by rw [hqr, heq], heven⟩
    · exact le_rfl
  · omega

theorem roundHalfEven_neg (q : ℚ) : roundHalfEven (-q) = -roundHalfEven q := by
  by_cases hint : q = ⌊q⌋
  · rw [hint, roundHalfEven_intCast, ← Int.cast_neg, roundHalfEven_intCast]
  · have hlow := (Int.floor_le q).lt_of_ne fun h => hint h.symm
    have hhigh := Int.lt_floor_add_one q
    have hfloor : ⌊-q⌋ = -⌊q⌋ - 1 := by
      rw [Int.floor_eq_iff]
      push_cast
      constructor <;> linarith
    rw [roundHalfEven, roundHalfEven, hfloor]
    push_cast
    split_ifs with hneg hpos hpos
    · rcases hneg with hneg | ⟨hneg, heven⟩ <;> rcases hpos with hpos | ⟨hpos, heven'⟩
      · linarith
      · linarith
      · linarith
      · omega
    · omega
    · omega
    · exfalso
      rcases lt_trichotomy (q - ⌊q⌋) (1 / 2) with hlt | heq | hgt
      · exact hpos (.inl hlt)
      · rcases Int.emod_two_eq_zero_or_one ⌊q⌋ with heven | hodd
        · exact hpos (.inr ⟨heq, heven⟩)
        · exact hneg (.inr ⟨by linarith, by omega⟩)
      · exact hneg (.inl (by linarith))

/-! ### The binary logarithm -/

/-- The greatest `e` with `2 ^ e ≤ |q|`. -/
def log2 (q : ℚ) : ℤ :=
  let e : ℤ := Nat.log2 q.num.natAbs - Nat.log2 q.den
  if 2 ^ e ≤ |q| then e else e - 1

theorem log2_spec {q : ℚ} (hq : q ≠ 0) : 2 ^ log2 q ≤ |q| ∧ |q| < 2 ^ (log2 q + 1) := by
  have hnum : q.num.natAbs ≠ 0 := Int.natAbs_ne_zero.mpr (Rat.num_ne_zero.mpr hq)
  have habs : |q| * q.den = q.num.natAbs := by
    rw [Nat.cast_natAbs, Int.cast_abs, ← Rat.mul_den_eq_num q, abs_mul, Nat.abs_cast]
  have hden : (0 : ℚ) < q.den := by exact_mod_cast q.den_pos
  have hnum_le : (2 : ℚ) ^ Nat.log2 q.num.natAbs ≤ q.num.natAbs := by
    exact_mod_cast Nat.log2_self_le hnum
  have hnum_lt : (q.num.natAbs : ℚ) < 2 ^ (Nat.log2 q.num.natAbs + 1) := by
    exact_mod_cast Nat.lt_log2_self
  have hden_le : (2 : ℚ) ^ Nat.log2 q.den ≤ q.den := by
    exact_mod_cast Nat.log2_self_le q.den_ne_zero
  have hden_lt : (q.den : ℚ) < 2 ^ (Nat.log2 q.den + 1) := by
    exact_mod_cast Nat.lt_log2_self
  have hsplit : (2 : ℚ) ^ ((Nat.log2 q.num.natAbs : ℤ) - Nat.log2 q.den) * 2 ^ Nat.log2 q.den =
      2 ^ Nat.log2 q.num.natAbs := by
    rw [zpow_sub₀ two_ne_zero, zpow_natCast, zpow_natCast, div_mul_cancel₀ _ (by positivity)]
  set e : ℤ := (Nat.log2 q.num.natAbs : ℤ) - Nat.log2 q.den with he
  have hupper : |q| < 2 ^ (e + 1) := by
    rw [zpow_add_one₀ two_ne_zero]
    rw [pow_succ] at hnum_lt
    nlinarith [zpow_pos (two_pos : (0 : ℚ) < 2) e]
  have hlower : 2 ^ (e - 1) ≤ |q| := by
    rw [zpow_sub_one₀ two_ne_zero]
    rw [pow_succ] at hden_lt
    nlinarith [zpow_pos (two_pos : (0 : ℚ) < 2) e]
  rw [log2, ← he]
  split_ifs with h
  · exact ⟨h, hupper⟩
  · rw [sub_add_cancel]
    exact ⟨hlower, not_le.mp h⟩

theorem le_log2 {q : ℚ} {e : ℤ} (h : 2 ^ e ≤ |q|) : e ≤ log2 q := by
  have hq : q ≠ 0 := by
    rintro rfl
    rw [abs_zero] at h
    exact absurd h (not_le.mpr (by positivity))
  have hlt := (zpow_lt_zpow_iff_right₀ one_lt_two).mp (h.trans_lt (log2_spec hq).2)
  omega

theorem log2_lt {q : ℚ} (hq : q ≠ 0) {e : ℤ} (h : |q| < 2 ^ e) : log2 q < e :=
  (zpow_lt_zpow_iff_right₀ one_lt_two).mp ((log2_spec hq).1.trans_lt h)

theorem log2_mono {q r : ℚ} (hq : q ≠ 0) (h : |q| ≤ |r|) : log2 q ≤ log2 r :=
  le_log2 ((log2_spec hq).1.trans h)

theorem log2_neg (q : ℚ) : log2 (-q) = log2 q := by
  rw [log2, log2, Rat.neg_num, Int.natAbs_neg, Rat.neg_den, abs_neg]

/-! ### Floating point -/

/-- Numbers with `fraction + 1` significant bits, of which the last is worth at least
`2 ^ least`. -/
structure FloatFormat where
  fraction : ℕ
  least : ℤ

/-- The numbers of double precision. -/
def binary64 : FloatFormat := ⟨52, -1074⟩

namespace FloatFormat

variable (F : FloatFormat)

/-- The exponent of the last bit of a number of the size of `q`. -/
def lastPlace (q : ℚ) : ℤ := max (log2 q - F.fraction) F.least

/-- The nearest number, and the one with an even last place of two. -/
def round (q : ℚ) : ℚ := roundHalfEven (q / 2 ^ F.lastPlace q) * 2 ^ F.lastPlace q

/-- A number of the format. -/
def IsFloat (q : ℚ) : Prop :=
  ∃ (m e : ℤ), |m| < 2 ^ (F.fraction + 1) ∧ F.least ≤ e ∧ q = m * 2 ^ e

variable {F} {q r : ℚ}

theorem lastPlace_pos (q : ℚ) : (0 : ℚ) < 2 ^ F.lastPlace q := by positivity

theorem lastPlace_mono (hq : q ≠ 0) (h : |q| ≤ |r|) : F.lastPlace q ≤ F.lastPlace r :=
  max_le_max (sub_le_sub_right (log2_mono hq h) _) le_rfl

/-- A number has no more than `fraction + 1` bits before and in its last place. -/
theorem abs_lt_lastPlace (q : ℚ) : |q| < 2 ^ (F.lastPlace q + (F.fraction + 1 : ℕ)) := by
  by_cases hq : q = 0
  · rw [hq, abs_zero]
    positivity
  · refine (log2_spec hq).2.trans_le (zpow_le_zpow_right₀ one_le_two ?_)
    have := le_max_left (log2 q - F.fraction) F.least
    rw [lastPlace]
    push_cast
    omega

theorem round_neg (q : ℚ) : F.round (-q) = -F.round q := by
  have hplace : F.lastPlace (-q) = F.lastPlace q := by rw [lastPlace, lastPlace, log2_neg]
  rw [round, round, hplace, neg_div, roundHalfEven_neg, Int.cast_neg, neg_mul]

/-- **Rounding moves a number by half of its last place at most.** -/
theorem abs_round_sub_le (q : ℚ) : |F.round q - q| ≤ 2 ^ F.lastPlace q / 2 := by
  have hpos := lastPlace_pos (F := F) q
  have hround := abs_roundHalfEven_sub_le (q / 2 ^ F.lastPlace q)
  have hq : F.round q - q =
      (roundHalfEven (q / 2 ^ F.lastPlace q) - q / 2 ^ F.lastPlace q) * 2 ^ F.lastPlace q := by
    rw [round, sub_mul, div_mul_cancel₀ _ hpos.ne']
  rw [hq, abs_mul, abs_of_pos hpos]
  linarith [mul_le_mul_of_nonneg_right hround hpos.le]

/-- A multiple of the last place that is nearer than half of it is the rounded number. -/
theorem round_eq_of_lt {m : ℤ} (h : |m * 2 ^ F.lastPlace q - q| < 2 ^ F.lastPlace q / 2) :
    F.round q = m * 2 ^ F.lastPlace q := by
  have hpos := lastPlace_pos (F := F) q
  rw [round, roundHalfEven_eq (n := m)]
  have hm : (m : ℚ) - q / 2 ^ F.lastPlace q = (m * 2 ^ F.lastPlace q - q) / 2 ^ F.lastPlace q := by
    field_simp
  rw [hm, abs_div, abs_of_pos hpos, div_lt_iff₀ hpos]
  linarith

theorem round_of_eq {m : ℤ} (h : q = m * 2 ^ F.lastPlace q) : F.round q = q := by
  rw [round_eq_of_lt (m := m), ← h]
  rw [← h, sub_self, abs_zero]
  exact half_pos (lastPlace_pos q)

/-- A multiple of a place is one of every place to the right. -/
theorem exists_mul_two_zpow (m : ℤ) {e e' : ℤ} (h : e' ≤ e) :
    ∃ n : ℤ, (m : ℚ) * 2 ^ e = n * 2 ^ e' := by
  obtain ⟨k, hk⟩ := Int.eq_ofNat_of_zero_le (sub_nonneg.mpr h)
  refine ⟨m * 2 ^ k, ?_⟩
  push_cast
  rw [mul_assoc, ← zpow_natCast, ← hk, ← zpow_add₀ two_ne_zero, sub_add_cancel]

/-- **A number of the format is not moved.** -/
theorem round_eq_self (h : F.IsFloat q) : F.round q = q := by
  obtain ⟨m, e, hm, he, rfl⟩ := h
  by_cases hzero : (m : ℚ) * 2 ^ e = 0
  · exact round_of_eq (m := 0) (by rw [hzero, Int.cast_zero, zero_mul])
  · have hplace : F.lastPlace (m * 2 ^ e) ≤ e := by
      refine max_le (Int.sub_right_le_of_le_add (Int.lt_add_one_iff.mp (log2_lt hzero ?_))) he
      rw [abs_mul, abs_of_pos (by positivity : (0 : ℚ) < 2 ^ e), add_assoc,
        zpow_add₀ two_ne_zero]
      refine mul_lt_mul_of_pos_left ?_ (by positivity) |>.trans_eq' (mul_comm _ _)
      exact_mod_cast hm
    -- The last place of the number is no further to the left than that of `m`.
    obtain ⟨n, hn⟩ := exists_mul_two_zpow m hplace
    exact round_of_eq hn

theorem isFloat_two_zpow {e : ℤ} (h : F.least ≤ e) : F.IsFloat (2 ^ e) :=
  ⟨1, e, by rw [abs_one]; exact one_lt_pow₀ one_lt_two (Nat.succ_ne_zero _), h, by
    rw [Int.cast_one, one_mul]⟩

theorem round_zero : F.round 0 = 0 := round_of_eq (m := 0) (by rw [Int.cast_zero, zero_mul])

theorem round_nonneg (h : 0 ≤ q) : 0 ≤ F.round q := by
  have hround := roundHalfEven_mono (div_nonneg h (lastPlace_pos (F := F) q).le)
  rw [← Int.cast_zero, roundHalfEven_intCast] at hround
  exact mul_nonneg (by exact_mod_cast hround) (lastPlace_pos q).le

theorem round_abs (q : ℚ) : F.round |q| = |F.round q| := by
  rcases le_total 0 q with hq | hq
  · rw [abs_of_nonneg hq, abs_of_nonneg (round_nonneg hq)]
  · have hnonneg := round_nonneg (F := F) (neg_nonneg.mpr hq)
    rw [abs_of_nonpos hq, ← abs_neg, ← round_neg, abs_of_nonneg hnonneg]

/-- Rounding moves a number by half of its `fraction`-th part at most, or of the least place. -/
theorem abs_round_sub_le_div (q : ℚ) :
    |F.round q - q| ≤ |q| / 2 ^ (F.fraction + 1) + 2 ^ F.least / 2 := by
  by_cases hq : q = 0
  · rw [hq, round_zero, sub_self, abs_zero, zero_div, zero_add]
    positivity
  refine (abs_round_sub_le q).trans ?_
  rcases max_choice (log2 q - F.fraction) F.least with hmax | hmax
  · have hplace : (2 : ℚ) ^ F.lastPlace q = 2 ^ log2 q / 2 ^ F.fraction := by
      rw [lastPlace, hmax, zpow_sub₀ two_ne_zero, zpow_natCast]
    have hle : (2 : ℚ) ^ log2 q / 2 ^ F.fraction / 2 ≤ |q| / 2 ^ F.fraction / 2 := by
      have := (log2_spec hq).1
      gcongr
    rw [hplace, pow_succ, ← div_div]
    linarith [(by positivity : (0 : ℚ) < 2 ^ F.least / 2)]
  · rw [lastPlace, hmax]
    linarith [(by positivity : 0 ≤ |q| / 2 ^ (F.fraction + 1))]

/-- The bits of a rounded number. -/
theorem abs_roundHalfEven_le (q : ℚ) :
    |roundHalfEven (q / 2 ^ F.lastPlace q)| ≤ 2 ^ (F.fraction + 1) := by
  have hbits : |q / 2 ^ F.lastPlace q| < ((2 ^ (F.fraction + 1) : ℤ) : ℚ) := by
    have hpos := lastPlace_pos (F := F) q
    rw [abs_div, abs_of_pos hpos, div_lt_iff₀ hpos]
    refine (abs_lt_lastPlace (F := F) q).trans_eq ?_
    rw [add_comm, zpow_add₀ two_ne_zero, zpow_natCast]
    push_cast
    rfl
  rw [abs_lt] at hbits
  have hlow := roundHalfEven_mono hbits.1.le
  have hhigh := roundHalfEven_mono hbits.2.le
  rw [← Int.cast_neg, roundHalfEven_intCast] at hlow
  rw [roundHalfEven_intCast] at hhigh
  exact abs_le.mpr ⟨hlow, hhigh⟩

/-- **The rounded number is one of the format.** -/
theorem isFloat_round (q : ℚ) : F.IsFloat (F.round q) := by
  have hleast : F.least ≤ F.lastPlace q := le_max_right ..
  rcases (abs_roundHalfEven_le (F := F) q).lt_or_eq with hlt | heq
  · exact ⟨_, _, hlt, hleast, rfl⟩
  · -- The bits have been carried.
    have hpow : |(2 : ℤ) ^ F.fraction| < 2 ^ (F.fraction + 1) := by
      rw [abs_of_pos (by positivity)]
      exact pow_lt_pow_right₀ one_lt_two (Nat.lt_succ_self _)
    have hcarry : (2 : ℚ) ^ (F.fraction + 1) * 2 ^ F.lastPlace q =
        2 ^ F.fraction * 2 ^ (F.lastPlace q + 1) := by
      rw [zpow_add_one₀ two_ne_zero, pow_succ]
      ring
    rcases eq_or_eq_neg_of_abs_eq heq with h | h
    · refine ⟨2 ^ F.fraction, F.lastPlace q + 1, hpow, by omega, ?_⟩
      rw [round, h]
      push_cast
      exact hcarry
    · refine ⟨-2 ^ F.fraction, F.lastPlace q + 1, by rwa [abs_neg], by omega, ?_⟩
      rw [round, h]
      push_cast
      rw [neg_mul, neg_mul, hcarry]

theorem round_round (q : ℚ) : F.round (F.round q) = F.round q := round_eq_self (isFloat_round q)

/-- A number of the format that has all its bits to the left of a place, or in it, is a multiple of
that place. -/
theorem IsFloat.exists_int (h : F.IsFloat q) {e : ℤ} (he : 2 ^ (e + F.fraction) ≤ |q|) :
    ∃ m : ℤ, q = m * 2 ^ e := by
  obtain ⟨m, e', hm, -, rfl⟩ := h
  have hlt : (2 : ℚ) ^ (e + F.fraction) < 2 ^ (((F.fraction + 1 : ℕ) : ℤ) + e') := by
    refine he.trans_lt ?_
    rw [abs_mul, abs_of_pos (by positivity : (0 : ℚ) < 2 ^ e'), zpow_add₀ two_ne_zero, zpow_natCast]
    exact mul_lt_mul_of_pos_right (by exact_mod_cast hm) (by positivity)
  have hplace := (zpow_lt_zpow_iff_right₀ one_lt_two).mp hlt
  push_cast at hplace
  exact exists_mul_two_zpow m (by omega)

/-- No multiple of the last place is nearer than the rounded number. -/
theorem abs_round_sub_le_of_eq {p : ℚ} {m : ℤ} (h : p = m * 2 ^ F.lastPlace q) :
    |F.round q - q| ≤ |p - q| := by
  have hpos := lastPlace_pos (F := F) q
  have hscale (n : ℤ) : |n * 2 ^ F.lastPlace q - q| =
      |n - q / 2 ^ F.lastPlace q| * 2 ^ F.lastPlace q := by
    rw [← abs_of_pos hpos, ← abs_mul, abs_of_pos hpos, sub_mul, div_mul_cancel₀ _ hpos.ne']
  rw [h, round, hscale, hscale]
  exact mul_le_mul_of_nonneg_right (abs_roundHalfEven_sub_le_abs _ m) hpos.le

/-- **No number of the format is nearer** than the rounded number. -/
theorem abs_round_sub_le_abs {p : ℚ} (hp : F.IsFloat p) (q : ℚ) : |F.round q - q| ≤ |p - q| := by
  rcases le_or_gt (F.lastPlace q) F.least with hleast | hleast
  · obtain ⟨m, e, -, he, rfl⟩ := hp
    obtain ⟨n, hn⟩ := exists_mul_two_zpow m (hleast.trans he)
    exact abs_round_sub_le_of_eq hn
  have hplace : F.lastPlace q + F.fraction = log2 q := by
    have hmax : F.lastPlace q = max (log2 q - F.fraction) F.least := rfl
    omega
  by_cases hlog : 2 ^ log2 q ≤ |p|
  · obtain ⟨m, hm⟩ := hp.exists_int (hplace ▸ hlog)
    exact abs_round_sub_le_of_eq hm
  -- The power of two between them is nearer than `p`, and a multiple of the last place.
  by_cases hq : q = 0
  · rw [hq, round_zero, sub_self, abs_zero]
    exact abs_nonneg _
  have hlow := (log2_spec hq).1
  have hpow : (2 : ℚ) ^ log2 q = ((2 ^ F.fraction : ℤ) : ℚ) * 2 ^ F.lastPlace q := by
    push_cast
    rw [← hplace, add_comm, zpow_add₀ two_ne_zero, zpow_natCast]
  have hbelow := not_le.mp hlog
  rcases lt_or_gt_of_ne hq with hneg | hpos
  · rw [abs_of_neg hneg] at hlow
    refine (abs_round_sub_le_of_eq (p := -2 ^ log2 q) (m := -2 ^ F.fraction) ?_).trans ?_
    · rw [hpow]
      push_cast
      ring
    · rw [abs_of_nonneg (by linarith), abs_of_nonneg (by linarith [neg_abs_le p])]
      linarith [neg_abs_le p]
  · rw [abs_of_pos hpos] at hlow
    refine (abs_round_sub_le_of_eq hpow).trans ?_
    rw [abs_sub_comm, abs_of_nonneg (by linarith), abs_sub_comm,
      abs_of_nonneg (by linarith [le_abs_self p])]
    linarith [le_abs_self p]

theorem round_mono_of_nonneg (hq : 0 ≤ q) (h : q ≤ r) : F.round q ≤ F.round r := by
  rcases hq.eq_or_lt with rfl | hq
  · rw [round_zero]
    exact round_nonneg h
  have hr := hq.trans_le h
  have hplace : F.lastPlace q ≤ F.lastPlace r :=
    lastPlace_mono hq.ne' (by rwa [abs_of_pos hq, abs_of_pos hr])
  have hpos := lastPlace_pos (F := F) r
  rcases hplace.eq_or_lt with heq | hlt
  · have hround := roundHalfEven_mono (div_le_div_of_nonneg_right h hpos.le)
    rw [round, round, heq]
    exact mul_le_mul_of_nonneg_right (by exact_mod_cast hround) hpos.le
  · -- The greatest number with the bits of `q` is between the two.
    have hlast : F.lastPlace r + F.fraction = log2 r := by
      have hleast : F.least ≤ F.lastPlace q := le_max_right ..
      have hmax : F.lastPlace r = max (log2 r - F.fraction) F.least := rfl
      omega
    have hbits := roundHalfEven_mono (q := ((2 ^ F.fraction : ℤ) : ℚ)) (r := r / 2 ^ F.lastPlace r)
      (by
        rw [le_div_iff₀ hpos]
        push_cast
        rw [← zpow_natCast, ← zpow_add₀ two_ne_zero, add_comm, hlast]
        exact (log2_spec hr.ne').1.trans_eq (abs_of_pos hr))
    rw [roundHalfEven_intCast] at hbits
    calc
      F.round q ≤ 2 ^ (F.fraction + 1) * 2 ^ F.lastPlace q := by
        refine mul_le_mul_of_nonneg_right ?_ (lastPlace_pos q).le
        exact_mod_cast (le_abs_self _).trans (abs_roundHalfEven_le (F := F) q)
      _ = 2 ^ F.fraction * 2 ^ (F.lastPlace q + 1) := by
        rw [zpow_add_one₀ two_ne_zero, pow_succ]
        ring
      _ ≤ 2 ^ F.fraction * 2 ^ F.lastPlace r :=
        mul_le_mul_of_nonneg_left (zpow_le_zpow_right₀ one_le_two hlt) (by positivity)
      _ ≤ F.round r := mul_le_mul_of_nonneg_right (by exact_mod_cast hbits) hpos.le

/-- **Rounding keeps the order.** -/
theorem round_mono (h : q ≤ r) : F.round q ≤ F.round r := by
  rcases le_total 0 q with hq | hq
  · exact round_mono_of_nonneg hq h
  · rcases le_total 0 r with hr | hr
    · have hneg := round_nonneg (F := F) (neg_nonneg.mpr hq)
      rw [round_neg] at hneg
      exact (neg_nonneg.mp hneg).trans (round_nonneg hr)
    · have hneg := round_mono_of_nonneg (F := F) (neg_nonneg.mpr hr) (neg_le_neg h)
      rw [round_neg, round_neg] at hneg
      exact neg_le_neg_iff.mp hneg

/-- What is bounded by a number of the format is so when it has been rounded. -/
theorem round_le_of_isFloat (hr : F.IsFloat r) (h : q ≤ r) : F.round q ≤ r :=
  (round_mono h).trans_eq (round_eq_self hr)

theorem le_round_of_isFloat (hq : F.IsFloat q) (h : q ≤ r) : q ≤ F.round r :=
  (round_eq_self hq).symm.trans_le (round_mono h)

/-! ### Fractions -/

section

variable {d k : ℕ} (hlow : 2 ^ k < d) (hhigh : d < 2 ^ (k + 1)) (hfraction : k ≤ F.fraction)
  (hleast : F.least < -k)

include hlow hhigh hfraction hleast

/-- A fraction that rounding moves by half of a `d`-th is great: it has all its bits before the
`k`-th place after the point, or in it. -/
theorem two_pow_le_of_le_abs_sub {n : ℕ} (h : 1 / 2 ≤ |n - F.round (n / d) * d|) :
    ((2 ^ (F.fraction - k) : ℕ) : ℚ) ≤ n / d := by
  have hd : (0 : ℚ) < d := by exact_mod_cast (Nat.zero_le _).trans_lt hlow
  have hplace : -(k : ℤ) ≤ F.lastPlace (n / d) := by
    have hround := abs_round_sub_le (F := F) (n / d)
    have hdist : |(n : ℚ) - F.round (n / d) * d| = |F.round (n / d) - n / d| * d := by
      rw [← abs_of_pos hd, ← abs_mul, abs_of_pos hd, sub_mul, div_mul_cancel₀ _ hd.ne',
        abs_sub_comm]
    have hpow : (2 : ℚ) ^ (-((k : ℤ) + 1)) < 2 ^ F.lastPlace (n / d) := by
      rw [zpow_neg, inv_lt_iff_one_lt_mul₀ (by positivity)]
      have hhigh' : (d : ℚ) < 2 ^ ((k : ℤ) + 1) := by exact_mod_cast hhigh
      nlinarith [lastPlace_pos (F := F) (n / d : ℚ)]
    have hlt := (zpow_lt_zpow_iff_right₀ one_lt_two).mp hpow
    omega
  have hne : (n : ℚ) / d ≠ 0 := by
    intro hzero
    have hn : (n : ℚ) = 0 := (div_eq_zero_iff.mp hzero).resolve_right hd.ne'
    rw [hzero, round_zero, zero_mul, sub_zero, hn, abs_zero] at h
    linarith
  have hmax : F.lastPlace (n / d) = max (log2 (n / d) - F.fraction) F.least := rfl
  rw [Nat.cast_pow, Nat.cast_ofNat, ← zpow_natCast]
  refine (zpow_le_zpow_right₀ one_le_two ?_).trans
    ((log2_spec hne).1.trans_eq (abs_of_nonneg (by positivity)))
  omega

/-- **A fraction with a small denominator** is found again from the number that it has been rounded
to: the nearest such fraction is rounded to the same number. -/
theorem round_nearest_div (n : ℕ) :
    F.round (roundHalfEven (F.round (n / d) * d) / d) = F.round (n / d) := by
  have hd : (0 : ℚ) < d := by exact_mod_cast (Nat.zero_le _).trans_lt hlow
  have hq := isFloat_round (F := F) (n / d)
  by_cases hnear : |((n : ℤ) : ℚ) - F.round (n / d) * d| < 1 / 2
  · rw [roundHalfEven_eq hnear, Int.cast_natCast]
  have hge := two_pow_le_of_le_abs_sub hlow hhigh hfraction hleast (not_lt.mp hnear)
  -- The two rounded numbers are multiples of a place that is worth more than their distance.
  have hpow : ((2 ^ (F.fraction - k) : ℕ) : ℚ) = 2 ^ (-(k : ℤ) + F.fraction) := by
    rw [Nat.cast_pow, Nat.cast_ofNat, ← zpow_natCast, Nat.cast_sub hfraction, neg_add_eq_sub]
  have hfloat : F.IsFloat ((2 ^ (F.fraction - k) : ℕ) : ℚ) := by
    rw [hpow]
    exact isFloat_two_zpow (by omega)
  have hmultiple {p : ℚ} (hp : F.IsFloat p) (hle : ((2 ^ (F.fraction - k) : ℕ) : ℚ) ≤ p) :
      ∃ m : ℤ, p = m * 2 ^ (-(k : ℤ)) :=
    hp.exists_int ((hle.trans (le_abs_self p)).trans_eq' hpow)
  have hqge := le_round_of_isFloat hfloat hge
  generalize F.round (n / d) = q at hq hqge ⊢
  have hx_ge : ((2 ^ (F.fraction - k) : ℕ) : ℚ) ≤ roundHalfEven (q * d) / d := by
    have hmul := roundHalfEven_mono (mul_le_mul_of_nonneg_right hqge hd.le)
    rw [← Nat.cast_mul, ← Int.cast_natCast, roundHalfEven_intCast] at hmul
    rw [le_div_iff₀ hd]
    exact_mod_cast hmul
  have hdist : |roundHalfEven (q * d) / d - q| ≤ 1 / 2 / d := by
    rw [div_sub' hd.ne', abs_div, abs_of_pos hd, mul_comm (d : ℚ)]
    exact div_le_div_of_nonneg_right (abs_roundHalfEven_sub_le _) hd.le
  generalize (roundHalfEven (q * d) : ℚ) / d = x at hx_ge hdist ⊢
  obtain ⟨a, ha⟩ := hmultiple (isFloat_round x) (le_round_of_isFloat hfloat hx_ge)
  obtain ⟨b, hb⟩ := hmultiple hq hqge
  have hnearest := abs_round_sub_le_abs hq x
  have hclose : |F.round x - q| < 2 ^ (-(k : ℤ)) := by
    have hsum := abs_sub_le (F.round x) x q
    rw [abs_sub_comm q x] at hnearest
    have hlow' : (1 : ℚ) / d < 2 ^ (-(k : ℤ)) := by
      rw [zpow_neg, zpow_natCast, div_lt_iff₀ hd, inv_mul_eq_div, lt_div_iff₀ (by positivity),
        one_mul]
      exact_mod_cast hlow
    have htwo : (1 : ℚ) / d = 1 / 2 / d + 1 / 2 / d := by ring
    linarith
  rw [ha, hb, ← sub_mul, abs_mul, abs_of_pos (by positivity : (0 : ℚ) < 2 ^ (-(k : ℤ)))] at hclose
  have hlt : |(a : ℚ) - b| < 1 := by
    by_contra hge
    nlinarith [not_lt.mp hge, (by positivity : (0 : ℚ) < 2 ^ (-(k : ℤ)))]
  have hab : |a - b| < 1 := by exact_mod_cast hlt
  rw [ha, hb, sub_eq_zero.mp (Int.abs_lt_one_iff.mp hab)]

end

end FloatFormat

end Laboratory.Algorithm
