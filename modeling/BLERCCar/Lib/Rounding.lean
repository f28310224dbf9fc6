import Mathlib.Algebra.Order.Floor.Ring
import Mathlib.Data.Int.Log
import Mathlib.Data.Rat.Floor
import Mathlib.Tactic.Linarith

/-!
# Binary rounding to nearest

Arithmetic in a binary floating-point format is exact arithmetic followed by
rounding to the nearest representable number, a tie going to the even one.
`toPrecision p` rounds a rational number to a significand of `p` bits.
Exponents are unbounded here: a program that uses this has to stay away from
overflow and underflow.

What a proof about such a program needs to know is that rounding never jumps
over a representable number.

## Main results

* `le_toPrecision`, `toPrecision_le`: representable bounds of a number bound what
  it is rounded to.
* `toPrecision_eq`: representable numbers are not rounded.
-/

namespace BLERCCar.Lib.Rounding

/-! ## To integers -/

/-- The nearest integer, and the even one of two. -/
def nearestEven (y : ℚ) : ℤ :=
  if y - ⌊y⌋ < 1 / 2 then ⌊y⌋
  else if 1 / 2 < y - ⌊y⌋ then ⌊y⌋ + 1
  else if ⌊y⌋ % 2 = 0 then ⌊y⌋
  else ⌊y⌋ + 1

theorem nearestEven_floor_or (y : ℚ) :
    nearestEven y = ⌊y⌋ ∨ nearestEven y = ⌊y⌋ + 1 := by
  unfold nearestEven
  split
  · exact .inl rfl
  · split
    · exact .inr rfl
    · split
      · exact .inl rfl
      · exact .inr rfl

theorem le_nearestEven {z : ℤ} {y : ℚ} (h : (z : ℚ) ≤ y) : z ≤ nearestEven y := by
  have hfloor : z ≤ ⌊y⌋ := Int.le_floor.mpr h
  rcases nearestEven_floor_or y with hy | hy <;> omega

@[simp] theorem nearestEven_intCast (z : ℤ) : nearestEven z = z := by
  simp [nearestEven]

theorem nearestEven_le {z : ℤ} {y : ℚ} (h : y ≤ z) : nearestEven y ≤ z := by
  rcases h.lt_or_eq with hlt | rfl
  · have hfloor : ⌊y⌋ < z := Int.floor_lt.mpr hlt
    rcases nearestEven_floor_or y with hy | hy <;> omega
  · rw [nearestEven_intCast]

/-! ## To a precision -/

/-- The exponent of the last of `p` bits of a number. -/
def lastPlace (p : ℕ) (x : ℚ) : ℤ := Int.log 2 |x| + 1 - p

/-- The nearest number with a significand of `p` bits. -/
def toPrecision (p : ℕ) (x : ℚ) : ℚ :=
  nearestEven (x / 2 ^ lastPlace p x) * 2 ^ lastPlace p x

/-- A number with a significand of `p` bits. -/
def Representable (p : ℕ) (a : ℚ) : Prop :=
  ∃ m e : ℤ, |m| ≤ 2 ^ p ∧ a = m * 2 ^ e

theorem representable_natCast {p n : ℕ} (h : n ≤ 2 ^ p) : Representable p n :=
  ⟨n, 0, by simpa using (by exact_mod_cast h : (n : ℤ) ≤ 2 ^ p), by simp⟩

/-- Halving only changes the exponent. -/
theorem Representable.half {p : ℕ} {a : ℚ} (h : Representable p a) :
    Representable p (a / 2) := by
  obtain ⟨m, e, hm, rfl⟩ := h
  refine ⟨m, e - 1, hm, ?_⟩
  rw [zpow_sub_one₀ (by norm_num), ← mul_assoc]
  rfl

section Bounds

variable {p : ℕ} {a x : ℚ}

/-- Powers of two from the last place on are integral multiples of it. -/
theorem exists_int_mul {k e : ℤ} (h : e ≤ k) (m : ℤ) :
    ∃ z : ℤ, (m : ℚ) * 2 ^ k = z * 2 ^ e := by
  obtain ⟨n, rfl⟩ := Int.exists_add_of_le h
  refine ⟨m * 2 ^ n, ?_⟩
  rw [zpow_add₀ (by norm_num), zpow_natCast]
  push_cast
  ring

/-- A number has its bits from the last place on: it is at least the smallest
number that has `p` bits there. -/
theorem pow_lastPlace_le (hp : 0 < p) (hx : 0 < x) :
    (2 : ℚ) ^ (p - 1) * 2 ^ lastPlace p x ≤ x := by
  have hlog := Int.zpow_log_le_self (b := 2) (by norm_num) (abs_pos.mpr hx.ne')
  rw [abs_of_pos hx] at hlog
  have hsum : ((p - 1 : ℕ) : ℤ) + lastPlace p x = Int.log 2 x := by
    rw [lastPlace, abs_of_pos hx]
    omega
  rw [← zpow_natCast, ← zpow_add₀ (by norm_num), hsum]
  exact_mod_cast hlog

/-- A representable number is a multiple of the last place of `x`, or lies below
all numbers that have their last place there. -/
theorem Representable.cases_lastPlace (h : Representable p a) (hp : 0 < p) (x : ℚ) :
    (∃ z : ℤ, a = z * 2 ^ lastPlace p x) ∨
      a ≤ 2 ^ (p - 1) * 2 ^ lastPlace p x := by
  obtain ⟨m, e, hm, rfl⟩ := h
  by_cases he : lastPlace p x ≤ e
  · exact .inl (exists_int_mul he m)
  · right
    have hbound : (m : ℚ) ≤ 2 ^ p := by
      exact_mod_cast (le_abs_self m).trans hm
    have hexp : (2 : ℚ) ^ e ≤ 2 ^ (lastPlace p x - 1) :=
      zpow_le_zpow_right₀ (by norm_num) (by omega)
    calc (m : ℚ) * 2 ^ e
        ≤ 2 ^ p * 2 ^ (lastPlace p x - 1) :=
          mul_le_mul hbound hexp (zpow_nonneg (by norm_num) _) (by positivity)
      _ = 2 ^ (p - 1) * 2 ^ lastPlace p x := by
          rw [zpow_sub_one₀ (by norm_num)]
          obtain ⟨q, rfl⟩ := Nat.exists_eq_succ_of_ne_zero hp.ne'
          rw [Nat.succ_eq_add_one, Nat.add_sub_cancel, pow_succ]
          ring

@[simp] theorem toPrecision_zero : toPrecision p 0 = 0 := by
  simp [toPrecision, nearestEven]

/-- Rounding does not jump over a multiple of the last place. -/
theorem le_toPrecision_of_int {z : ℤ} (h : z * 2 ^ lastPlace p x ≤ x) :
    z * 2 ^ lastPlace p x ≤ toPrecision p x := by
  have hpos : (0 : ℚ) < 2 ^ lastPlace p x := zpow_pos (by norm_num) _
  have hz : (z : ℚ) ≤ x / 2 ^ lastPlace p x := (le_div_iff₀ hpos).mpr h
  have hle : (z : ℚ) ≤ nearestEven (x / 2 ^ lastPlace p x) := by
    exact_mod_cast le_nearestEven hz
  exact mul_le_mul_of_nonneg_right hle hpos.le

theorem toPrecision_le_of_int {z : ℤ} (h : x ≤ z * 2 ^ lastPlace p x) :
    toPrecision p x ≤ z * 2 ^ lastPlace p x := by
  have hpos : (0 : ℚ) < 2 ^ lastPlace p x := zpow_pos (by norm_num) _
  have hz : x / 2 ^ lastPlace p x ≤ (z : ℚ) := (div_le_iff₀ hpos).mpr h
  have hle : (nearestEven (x / 2 ^ lastPlace p x) : ℚ) ≤ z := by
    exact_mod_cast nearestEven_le hz
  exact mul_le_mul_of_nonneg_right hle hpos.le

/-- A representable lower bound stays one. -/
theorem le_toPrecision (hp : 0 < p) (ha : Representable p a) (hx : 0 ≤ x)
    (h : a ≤ x) : a ≤ toPrecision p x := by
  rcases hx.eq_or_lt with rfl | hpos
  · simpa using h
  · rcases ha.cases_lastPlace hp x with ⟨z, rfl⟩ | hsmall
    · exact le_toPrecision_of_int h
    · have hlow := pow_lastPlace_le hp hpos
      have hint : ((2 ^ (p - 1) : ℤ) : ℚ) * 2 ^ lastPlace p x ≤ x := by
        exact_mod_cast hlow
      refine hsmall.trans ?_
      exact_mod_cast le_toPrecision_of_int hint

/-- And so does a representable upper bound. -/
theorem toPrecision_le (hp : 0 < p) (ha : Representable p a) (hx : 0 ≤ x)
    (h : x ≤ a) : toPrecision p x ≤ a := by
  rcases hx.eq_or_lt with rfl | hpos
  · simpa using h
  · rcases ha.cases_lastPlace hp x with ⟨z, rfl⟩ | hsmall
    · exact toPrecision_le_of_int h
    · have hlow := pow_lastPlace_le hp hpos
      have hint : x ≤ ((2 ^ (p - 1) : ℤ) : ℚ) * 2 ^ lastPlace p x := by
        exact_mod_cast h.trans hsmall
      refine (toPrecision_le_of_int hint).trans ?_
      exact_mod_cast hlow.trans h

/-- Representable numbers are not rounded. -/
theorem toPrecision_eq (hp : 0 < p) (hx : Representable p x) (h : 0 ≤ x) :
    toPrecision p x = x :=
  le_antisymm (toPrecision_le hp hx h le_rfl) (le_toPrecision hp hx h le_rfl)

end Bounds

end BLERCCar.Lib.Rounding
