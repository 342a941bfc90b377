import Laboratory.IndexFile.InputParser
import Mathlib.Data.List.TakeWhile
import Mathlib.Tactic.Common

/-!
# What the input lines can say

`stoi_decimal`: every `int` is read back from its decimal text.  With it `parseEntry_decimal` says
that every entry can be written as a line.  `parseRange_eq_ok_iff` says which ranges can: the
separator of a range is also the minus sign, and the line is cut at the first one, so that a range
whose first key is negative is not read (`parseRange_negative`).
-/

namespace Laboratory.IndexFile

/-- The decimal text of an integer. -/
def decimal (v : ℤ) : List Char := (toString v).toList

theorem decimal_natCast (n : ℕ) : decimal n = Nat.toDigits 10 n :=
  Nat.toList_repr

theorem decimal_negSucc (n : ℕ) : decimal (Int.negSucc n) = '-' :: Nat.toDigits 10 (n + 1) := by
  rw [decimal, Int.toString_eq_repr, Int.repr_eq_if,
    if_neg (Int.not_le.mpr (Int.negSucc_lt_zero n)),
    String.toList_append, Nat.toList_repr]
  rfl

/-! ### `stoi` -/

/-- A digit is no blank. -/
theorem isspace_of_isDigit {c : Char} (h : c.isDigit = true) : isspace c = false := by
  have hdigit : 48 ≤ c.toNat := by
    simp only [Char.isDigit, Bool.and_eq_true, decide_eq_true_eq] at h
    exact h.1
  have hblank : c ≠ ' ' := by
    rintro rfl
    cases h
  simp only [isspace, hblank, false_or, decide_eq_false_iff_not]
  omega

theorem isDigit_of_mem {c : Char} {n : ℕ} (h : c ∈ Nat.toDigits 10 n) : c.isDigit = true :=
  Nat.isDigit_of_mem_toDigits (by decide) (by decide) h

theorem convert_toDigits (negative : Bool) (n : ℕ) {v : ℤ}
    (hv : v = if negative then -(n : ℤ) else n) (h : IsInt v) :
    convert negative (Nat.toDigits 10 n) = .ok v := by
  have hdigits : (Nat.toDigits 10 n).takeWhile Char.isDigit = Nat.toDigits 10 n :=
    List.takeWhile_eq_self_iff.mpr fun c hc =>
      isDigit_of_mem hc
  unfold convert
  simp only [hdigits, Nat.ofDigitChars_ten_toDigits, if_neg Nat.toDigits_ne_nil, ← hv, if_pos h]

/-- A number without a sign. -/
theorem stoi_of_isDigit {c : Char} {rest : List Char} (h : c.isDigit = true) :
    stoi (c :: rest) = convert false (c :: rest) := by
  have hdrop : (c :: rest).dropWhile isspace = c :: rest := by
    rw [List.dropWhile_cons, isspace_of_isDigit h]
    rfl
  rw [stoi, hdrop]
  split
  · rename_i heq
    cases heq
    cases h
  · rename_i heq
    cases heq
    cases h
  · rfl

/-- **Every `int` is read back from its decimal text.** -/
theorem stoi_decimal {v : ℤ} (h : IsInt v) : stoi (decimal v) = .ok v := by
  cases v with
  | ofNat n =>
    obtain ⟨c, rest, hcons⟩ := List.exists_cons_of_ne_nil (Nat.toDigits_ne_nil (n := n) (b := 10))
    have hdigit : c.isDigit = true := isDigit_of_mem (n := n) (hcons ▸ List.mem_cons_self)
    rw [Int.ofNat_eq_natCast, decimal_natCast, hcons, stoi_of_isDigit hdigit, ← hcons]
    exact convert_toDigits false n rfl h
  | negSucc n =>
    rw [decimal_negSucc]
    exact convert_toDigits true (n + 1) rfl h

theorem stoi_nil : stoi [] = .error (.invalid_argument "stoi") := rfl

/-! ### Where a line is cut -/

/-- A line is cut at the first delimiter. -/
theorem cut_append {delimiter : Char} {text : List Char} (h : delimiter ∉ text)
    (rest : List Char) : cut delimiter (text ++ delimiter :: rest) = some (text, rest) := by
  have hfind : (text ++ delimiter :: rest).findIdx? (· = delimiter) = some text.length := by
    rw [List.findIdx?_append, List.findIdx?_eq_none_iff.mpr, List.findIdx?_cons]
    · simp
    · intro c hc
      simp only [decide_eq_false_iff_not]
      rintro rfl
      exact h hc
  simp [cut, hfind]

/-- A sign is the only character of a number that is no digit. -/
theorem mem_decimal {v : ℤ} {c : Char} (h : c ∈ decimal v) :
    c.isDigit = true ∨ c = '-' ∧ v < 0 := by
  cases v with
  | ofNat n =>
    rw [Int.ofNat_eq_natCast, decimal_natCast] at h
    exact .inl (isDigit_of_mem h)
  | negSucc n =>
    rw [decimal_negSucc, List.mem_cons] at h
    rcases h with rfl | h
    · exact .inr ⟨rfl, Int.negSucc_lt_zero n⟩
    · exact .inl (isDigit_of_mem h)

/-! ### The lines -/

/-- **Every entry can be written as a line.** -/
theorem parseEntry_decimal {key value : ℤ} (hkey : IsInt key) (hvalue : IsInt value) :
    parseEntry (decimal key ++ '|' :: decimal value) = .ok ⟨key, value⟩ := by
  have hbar : '|' ∉ decimal key := by
    intro h
    rcases mem_decimal h with h | ⟨h, -⟩ <;> cases h
  simp only [parseEntry, cut_append hbar, stoi_decimal hkey, stoi_decimal hvalue]
  rfl

/-- A range whose first key is negative is cut before its sign. -/
theorem parseRange_of_neg {first : ℤ} (h : first < 0) (rest : List Char) :
    parseRange (decimal first ++ rest) = .error (.invalid_argument "stoi") := by
  obtain ⟨n, rfl⟩ := Int.eq_negSucc_of_lt_zero h
  have hcut := cut_append (List.not_mem_nil (a := '-')) (Nat.toDigits 10 (n + 1) ++ rest)
  rw [decimal_negSucc, List.cons_append]
  rw [List.nil_append] at hcut
  simp only [parseRange, hcut, stoi_nil]
  rfl

/-- **A range is read from its line** exactly when its first key is not negative. -/
theorem parseRange_eq_ok_iff {first last : ℤ} (hfirst : IsInt first) (hlast : IsInt last) :
    parseRange (decimal first ++ '-' :: decimal last) = .ok (first, last) ↔ 0 ≤ first := by
  constructor
  · intro h
    by_contra hneg
    rw [parseRange_of_neg (by omega)] at h
    cases h
  · intro h
    have hminus : '-' ∉ decimal first := by
      intro hmem
      rcases mem_decimal hmem with hdigit | ⟨-, hneg⟩
      · cases hdigit
      · omega
    simp only [parseRange, cut_append hminus, stoi_decimal hfirst, stoi_decimal hlast]
    rfl

/-- The range from `12` to `-5` is read. -/
theorem parseRange_twelve :
    parseRange (decimal 12 ++ '-' :: decimal (-5)) = .ok (12, -5) :=
  (parseRange_eq_ok_iff (by decide) (by decide)).mpr (by decide)

/-- **The range from `-5` to `12` is not read**, although an entry with either key is. -/
theorem parseRange_negative :
    parseRange (decimal (-5) ++ '-' :: decimal 12) = .error (.invalid_argument "stoi") ∧
      parseEntry (decimal (-5) ++ '|' :: decimal 12) = .ok ⟨-5, 12⟩ :=
  ⟨rfl, rfl⟩

end Laboratory.IndexFile
