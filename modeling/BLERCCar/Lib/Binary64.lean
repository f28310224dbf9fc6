import Mathlib.Data.Nat.Digits.Defs
import Mathlib.Data.Nat.Log
import Mathlib.Algebra.Field.Rat
import Mathlib.Tactic.NormNum
import Mathlib.Tactic.Ring

/-!
# Doubles as bytes

The interchange format of a `double`: a sign, eleven bits of exponent and 52
bits of significand, packed into a number below `2 ^ 64`, and the little-endian
bytes of such a number.  Infinities and NaN are left out.

## Main results

* `ofBytes_toBytes`: a number that fits into the bytes is read back.
* `value_ofNat`: a natural number of at most 53 bits is held exactly.
-/

namespace BLERCCar.Lib.Binary64

/-! ## Bytes -/

/-- The little-endian bytes of a number. -/
def toBytes : ℕ → ℕ → List UInt8
  | 0, _ => []
  | width + 1, n => UInt8.ofNat n :: toBytes width (n / 256)

/-- The number behind little-endian bytes. -/
def ofBytes (bytes : List UInt8) : ℕ := Nat.ofDigits 256 (bytes.map UInt8.toNat)

@[simp] theorem length_toBytes (width n : ℕ) : (toBytes width n).length = width := by
  induction width generalizing n with
  | zero => rfl
  | succ width ih => rw [toBytes, List.length_cons, ih]

theorem ofBytes_toBytes {width n : ℕ} (h : n < 256 ^ width) :
    ofBytes (toBytes width n) = n := by
  induction width generalizing n with
  | zero =>
      obtain rfl : n = 0 := by simpa using h
      rfl
  | succ width ih =>
      have hdiv : n / 256 < 256 ^ width := by
        rw [pow_succ] at h
        omega
      have hbyte : (UInt8.ofNat n).toNat = n % 256 := UInt8.toNat_ofNat'
      have htail : Nat.ofDigits 256 ((toBytes width (n / 256)).map UInt8.toNat) =
          n / 256 := ih hdiv
      rw [toBytes, ofBytes, List.map_cons, Nat.ofDigits_cons, hbyte, htail]
      exact Nat.mod_add_div n 256

/-! ## Fields -/

/-- The exponent field of a bit pattern. -/
def exponent (bits : ℕ) : ℕ := bits / 2 ^ 52 % 2 ^ 11

/-- The significand field of a bit pattern. -/
def fraction (bits : ℕ) : ℕ := bits % 2 ^ 52

/-- The sign bit of a bit pattern. -/
def negative (bits : ℕ) : Bool := decide (bits / 2 ^ 63 % 2 = 1)

/-- The magnitude of a finite `double`. -/
def magnitude (bits : ℕ) : ℚ :=
  if exponent bits = 0 then fraction bits * 2 ^ (-1074 : ℤ)
  else (2 ^ 52 + fraction bits) * 2 ^ ((exponent bits : ℤ) - 1075)

/-- The number that a finite `double` stands for. -/
def value (bits : ℕ) : ℚ :=
  if negative bits then -magnitude bits else magnitude bits

/-- The bit pattern of a natural number of at most 53 bits. -/
def ofNat (n : ℕ) : ℕ :=
  if n = 0 then 0
  else (1023 + Nat.log 2 n) * 2 ^ 52 + (n * 2 ^ (52 - Nat.log 2 n) - 2 ^ 52)

/-- Shifted to 53 bits, a number has its leading bit in front of the
significand. -/
theorem shifted_bounds {n : ℕ} (h0 : n ≠ 0) (h : n < 2 ^ 53) :
    Nat.log 2 n ≤ 52 ∧ 2 ^ 52 ≤ n * 2 ^ (52 - Nat.log 2 n) ∧
      n * 2 ^ (52 - Nat.log 2 n) < 2 ^ 53 := by
  have hlog : Nat.log 2 n < 53 := Nat.log_lt_of_lt_pow h0 h
  have hlow : 2 ^ Nat.log 2 n ≤ n := Nat.pow_log_le_self 2 h0
  have hhigh : n < 2 ^ (Nat.log 2 n + 1) := Nat.lt_pow_succ_log_self (by norm_num) n
  have hsplit : 2 ^ Nat.log 2 n * 2 ^ (52 - Nat.log 2 n) = 2 ^ 52 := by
    rw [← pow_add]
    congr 1
    omega
  refine ⟨by omega, ?_, ?_⟩
  · calc 2 ^ 52 = 2 ^ Nat.log 2 n * 2 ^ (52 - Nat.log 2 n) := hsplit.symm
      _ ≤ n * 2 ^ (52 - Nat.log 2 n) := Nat.mul_le_mul_right _ hlow
  · calc n * 2 ^ (52 - Nat.log 2 n)
        < 2 ^ (Nat.log 2 n + 1) * 2 ^ (52 - Nat.log 2 n) :=
          Nat.mul_lt_mul_of_pos_right hhigh (by positivity)
      _ = 2 * (2 ^ Nat.log 2 n * 2 ^ (52 - Nat.log 2 n)) := by ring
      _ = 2 ^ 53 := by rw [hsplit]; norm_num

/-- The fields of the bit pattern of a number. -/
theorem fields_ofNat {n : ℕ} (h0 : n ≠ 0) (h : n < 2 ^ 53) :
    exponent (ofNat n) = 1023 + Nat.log 2 n ∧
      fraction (ofNat n) = n * 2 ^ (52 - Nat.log 2 n) - 2 ^ 52 ∧
        negative (ofNat n) = false ∧ ofNat n < 2 ^ 64 := by
  obtain ⟨hlog, hlow, hhigh⟩ := shifted_bounds h0 h
  have hbits : ofNat n = (1023 + Nat.log 2 n) * 2 ^ 52 +
      (n * 2 ^ (52 - Nat.log 2 n) - 2 ^ 52) := if_neg h0
  simp only [exponent, fraction, negative, hbits, decide_eq_false_iff_not]
  generalize n * 2 ^ (52 - Nat.log 2 n) = m at *
  generalize Nat.log 2 n = k at *
  omega

theorem ofNat_lt {n : ℕ} (h : n < 2 ^ 53) : ofNat n < 2 ^ 64 := by
  by_cases h0 : n = 0
  · subst h0
    decide
  · exact (fields_ofNat h0 h).2.2.2

/-- A natural number of at most 53 bits is held exactly. -/
theorem value_ofNat {n : ℕ} (h : n < 2 ^ 53) : value (ofNat n) = n := by
  by_cases h0 : n = 0
  · subst h0
    simp [value, ofNat, negative, magnitude, exponent, fraction]
  · obtain ⟨hexp, hfrac, hneg, -⟩ := fields_ofNat h0 h
    obtain ⟨hlog, hlow, -⟩ := shifted_bounds h0 h
    have hne : 1023 + Nat.log 2 n ≠ 0 := by omega
    have hshift : (n : ℚ) * 2 ^ (52 - Nat.log 2 n) *
        2 ^ (((1023 + Nat.log 2 n : ℕ) : ℤ) - 1075) = n := by
      have hsum : ((52 - Nat.log 2 n : ℕ) : ℤ) +
          (((1023 + Nat.log 2 n : ℕ) : ℤ) - 1075) = 0 := by omega
      rw [mul_assoc, ← zpow_natCast, ← zpow_add₀ (by norm_num), hsum, zpow_zero,
        mul_one]
    have hsignificand : (2 : ℚ) ^ 52 +
        ((n * 2 ^ (52 - Nat.log 2 n) - 2 ^ 52 : ℕ) : ℚ) =
          n * 2 ^ (52 - Nat.log 2 n) := by
      rw [Nat.cast_sub hlow]
      push_cast
      ring
    rw [value, hneg, if_neg (by simp), magnitude, hexp, hfrac, if_neg hne,
      hsignificand]
    exact hshift

end BLERCCar.Lib.Binary64
