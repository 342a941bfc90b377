import Laboratory.IndexFile.BinFile
import Mathlib.Algebra.Group.Int.Defs
import Mathlib.Algebra.Group.Nat.Defs

/-!
# The codec of a real file

`reinterpret_cast<char *>(&value)` on a little-endian machine: the four bytes of an `int` in two's
complement, the lowest first.  The integers that fit are those of the type `int`.
-/

namespace Laboratory.IndexFile

/-- The bit pattern of `v`, as a number. -/
def pattern (v : ℤ) : ℕ := (v % 2 ^ 32).toNat

/-- The number that four bytes make, the lowest first. -/
def fromBytes (bytes : Fin 4 → UInt8) : ℕ :=
  (bytes 0).toNat + 256 * (bytes 1).toNat + 65536 * (bytes 2).toNat + 16777216 * (bytes 3).toNat

/-- The `int` with a bit pattern. -/
def signed (n : ℕ) : ℤ := if n < 2 ^ 31 then n else n - 2 ^ 32

theorem pattern_lt (v : ℤ) : pattern v < 2 ^ 32 := by
  unfold pattern
  omega

theorem fromBytes_lt (bytes : Fin 4 → UInt8) : fromBytes bytes < 2 ^ 32 := by
  have h0 := (bytes 0).toNat_lt
  have h1 := (bytes 1).toNat_lt
  have h2 := (bytes 2).toNat_lt
  have h3 := (bytes 3).toNat_lt
  unfold fromBytes
  omega

/-- The bytes of a number make that number. -/
theorem fromBytes_digits {n : ℕ} (h : n < 2 ^ 32) :
    fromBytes (fun i => UInt8.ofNat (n / 256 ^ i.val)) = n := by
  have hbyte (m : ℕ) : (UInt8.ofNat m).toNat = m % 256 := UInt8.toNat_ofNat'
  unfold fromBytes
  rw [hbyte, hbyte, hbyte, hbyte]
  change n / 1 % 256 + 256 * (n / 256 % 256) + 65536 * (n / 65536 % 256) +
    16777216 * (n / 16777216 % 256) = n
  omega

theorem signed_pattern {v : ℤ} (h : -2 ^ 31 ≤ v ∧ v < 2 ^ 31) : signed (pattern v) = v := by
  unfold signed pattern
  split_ifs <;> omega

theorem signed_bounds {n : ℕ} (h : n < 2 ^ 32) : -2 ^ 31 ≤ signed n ∧ signed n < 2 ^ 31 := by
  unfold signed
  split_ifs <;> omega

instance : IntCodec UInt8 where
  InRange v := -2 ^ 31 ≤ v ∧ v < 2 ^ 31
  encode v i := UInt8.ofNat (pattern v / 256 ^ i.val)
  decode bytes := signed (fromBytes bytes)
  decode_encode h := by rw [fromBytes_digits (pattern_lt _), signed_pattern h]
  inRange_decode bytes := signed_bounds (fromBytes_lt bytes)
  inRange_zero := by decide
  inRange_of_le hv hle hw := by omega

instance : DecidablePred (IntCodec.InRange UInt8) := fun v =>
  inferInstanceAs (Decidable (-2 ^ 31 ≤ v ∧ v < 2 ^ 31))

end Laboratory.IndexFile
