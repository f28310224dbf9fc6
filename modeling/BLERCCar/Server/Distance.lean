import BLERCCar.Lib.Rounding
import Mathlib.Algebra.Order.Floor.Semifield
import Mathlib.Tactic.NormNum

/-!
# Distances

`DistanceSensor::GetCurrentDistanceInCm` turns the duration of an echo in
microseconds into centimetres: it multiplies a `long` by a `double`, truncates
into an `unsigned long`, halves that as a `float`, and truncates again.  A
`long` has 32 bits here.  The trigger pulse before it is in `Tasks`.

Three roundings and two truncations are a lot for a division: `0.034` is rounded
when it is compiled, each product is rounded, and `float` cannot hold every
`unsigned long`.  They do no harm as long as the raw distance fits into the 24
bits of a `float`; `pulseIn` gives up after a second, far below that.

## Main results

* `rawDistance_eq`: the raw distance is the exact one truncated, for every
  duration that fits into a `long`.
* `currentDistanceInCm_eq_iff`: so the result is the exact distance truncated as
  long as the raw distance fits into a `float`, and what becomes of it beyond.
-/

namespace BLERCCar.Server

open BLERCCar.Lib.Rounding

/-! ## The sensor -/

/-- `SOUND_SPEED`, the literal `0.034` as a `double`. -/
def soundSpeed : ℚ := toPrecision 53 (34 / 1000)

namespace DistanceSensor

/-- `m_RawDistance = duration * SOUND_SPEED`. -/
def rawDistance (duration : ℕ) : ℕ :=
  ⌊toPrecision 53 (duration * soundSpeed)⌋₊

/-- `m_RawDistance / 2.0f`, returned as an `unsigned long`. -/
def half (rawDistance : ℕ) : ℕ :=
  ⌊toPrecision 24 (toPrecision 24 rawDistance / 2)⌋₊

/-- `GetCurrentDistanceInCm`, for the duration that `pulseIn` returns. -/
def currentDistanceInCm (duration : ℕ) : ℕ := half (rawDistance duration)

end DistanceSensor

/-! ## The constant -/

theorem lastPlace_soundSpeed : lastPlace 53 (34 / 1000) = -57 := by
  have hlog : Int.log 2 (34 / 1000 : ℚ) = -5 := by
    apply le_antisymm
    · have hlt : (34 / 1000 : ℚ) < (2 : ℕ) ^ (-4 : ℤ) := by norm_num
      have := (Int.lt_zpow_iff_log_lt (by norm_num) (by norm_num)).mp hlt
      omega
    · exact (Int.zpow_le_iff_le_log (by norm_num) (by norm_num)).mp (by norm_num)
  rw [lastPlace, abs_of_pos (by norm_num), hlog]
  norm_num

/-- The compiled constant is a little more than was written. -/
theorem soundSpeed_eq : soundSpeed = 4899916394579100 / 2 ^ 57 := by
  have hfloor : ⌊(34 / 1000 / 2 ^ (-57 : ℤ) : ℚ)⌋ = 4899916394579099 := by
    rw [Int.floor_eq_iff]
    norm_num
  rw [soundSpeed, toPrecision, lastPlace_soundSpeed, nearestEven, hfloor]
  norm_num

namespace DistanceSensor

/-! ## The raw distance -/

/-- A product is never less than the truncated distance, and less than the next
integer by more than a thousandth. -/
theorem rawDistance_bounds {duration : ℕ} (h : duration < 2147483648) :
    ((17 * duration / 500 : ℕ) : ℚ) ≤ duration * soundSpeed ∧
      duration * soundSpeed ≤
        ((1024 * (17 * duration / 500) + 1023 : ℕ) : ℚ) / 1024 := by
  have hdiv : 500 * (17 * duration / 500) + 17 * duration % 500 = 17 * duration :=
    Nat.div_add_mod _ _
  have hmod : 17 * duration % 500 < 500 := Nat.mod_lt _ (by norm_num)
  generalize 17 * duration / 500 = n at *
  generalize 17 * duration % 500 = r at *
  have hdiv' : 500 * (n : ℚ) + r = 17 * duration := by exact_mod_cast hdiv
  have hmod' : (r : ℚ) ≤ 499 := by exact_mod_cast Nat.le_of_lt_succ hmod
  have hdur : (duration : ℚ) ≤ 2147483648 := by exact_mod_cast h.le
  have hr : (0 : ℚ) ≤ r := Nat.cast_nonneg r
  have hd : (0 : ℚ) ≤ duration := Nat.cast_nonneg duration
  rw [soundSpeed_eq]
  push_cast
  constructor
  · linarith
  · rw [le_div_iff₀ (by norm_num)]
    linarith

/-- The raw distance is the exact one truncated. -/
theorem rawDistance_eq {duration : ℕ} (h : duration < 2147483648) :
    rawDistance duration = 17 * duration / 500 := by
  obtain ⟨hlow, hhigh⟩ := rawDistance_bounds h
  have hsmall : 17 * duration / 500 < 2 ^ 30 := by omega
  generalize 17 * duration / 500 = n at *
  have hnonneg : (0 : ℚ) ≤ duration * soundSpeed :=
    (Nat.cast_nonneg n).trans hlow
  -- both bounds are doubles, so the product is rounded in between
  have hrepLow : Representable 53 (n : ℚ) := representable_natCast (by omega)
  have hrepHigh : Representable 53 (((1024 * n + 1023 : ℕ) : ℚ) / 1024) := by
    refine ⟨(1024 * n + 1023 : ℕ), -10, ?_, ?_⟩
    · rw [abs_of_nonneg (by positivity)]
      exact_mod_cast (by omega : 1024 * n + 1023 ≤ 2 ^ 53)
    · rw [div_eq_mul_inv]
      norm_num
  have hle := le_toPrecision (by norm_num) hrepLow hnonneg hlow
  have hge := toPrecision_le (by norm_num) hrepHigh hnonneg hhigh
  rw [rawDistance, Nat.floor_eq_iff ((Nat.cast_nonneg n).trans hle)]
  refine ⟨hle, hge.trans_lt ?_⟩
  rw [div_lt_iff₀ (by norm_num)]
  push_cast
  linarith

/-! ## Halving -/

/-- What a `float` holds is halved exactly. -/
theorem floor_half {n : ℕ} (h : n ≤ 2 ^ 24) :
    ⌊toPrecision 24 ((n : ℚ) / 2)⌋₊ = n / 2 := by
  have hrep : Representable 24 ((n : ℚ) / 2) := (representable_natCast h).half
  rw [toPrecision_eq (by norm_num) hrep (by positivity)]
  exact_mod_cast Nat.floor_div_eq_div (K := ℚ) n 2

theorem half_eq_of_le {raw : ℕ} (h : raw ≤ 2 ^ 24) : half raw = raw / 2 := by
  rw [half, toPrecision_eq (by norm_num) (representable_natCast h) (by positivity)]
  exact floor_half h

/-- Half a number goes to the even neighbour. -/
theorem nearestEven_half (n : ℕ) :
    nearestEven ((n : ℚ) / 2) = ((n / 2 + if n % 4 = 3 then 1 else 0 : ℕ) : ℤ) := by
  have hfloor : ⌊(n : ℚ) / 2⌋ = ((n / 2 : ℕ) : ℤ) := by
    have hdiv := Int.floor_div_natCast (n : ℚ) 2
    rw [Int.floor_natCast] at hdiv
    exact_mod_cast hdiv
  have hsplit : (n : ℚ) = 2 * (n / 2 : ℕ) + (n % 2 : ℕ) := by
    exact_mod_cast (Nat.div_add_mod n 2).symm
  have hfrac : (n : ℚ) / 2 - ((n / 2 : ℕ) : ℤ) = (n % 2 : ℕ) / 2 := by
    rw [Int.cast_natCast]
    linarith
  rw [nearestEven, hfloor, hfrac]
  rcases Nat.mod_two_eq_zero_or_one n with heven | hodd
  · have hne : n % 4 ≠ 3 := by omega
    simp [heven, hne]
  · rw [hodd]
    norm_num
    by_cases hquarter : n % 4 = 3
    · rw [if_neg (by omega), if_pos hquarter]
    · rw [if_pos (by omega), if_neg hquarter, add_zero]

/-- In the first binade that a `float` holds every other number of. -/
theorem half_of_ge {raw : ℕ} (h : 2 ^ 24 ≤ raw) (h' : raw < 2 ^ 25) :
    half raw = raw / 2 + if raw % 4 = 3 then 1 else 0 := by
  have hlog : Int.log 2 (raw : ℚ) = 24 := by
    rw [Int.log_natCast]
    exact_mod_cast (Nat.log_eq_iff (.inl (by norm_num))).mpr ⟨h, h'⟩
  have hplace : lastPlace 24 (raw : ℚ) = 1 := by
    rw [lastPlace, abs_of_nonneg (Nat.cast_nonneg raw), hlog]
    norm_num
  have hraw : toPrecision 24 (raw : ℚ) / 2 =
      ((raw / 2 + if raw % 4 = 3 then 1 else 0 : ℕ) : ℚ) := by
    rw [toPrecision, hplace, zpow_one, nearestEven_half,
      mul_div_cancel_right₀ _ (by norm_num)]
    norm_cast
  have hrep : (raw / 2 + if raw % 4 = 3 then 1 else 0 : ℕ) ≤ 2 ^ 24 := by
    split <;> omega
  rw [half, hraw, toPrecision_eq (by norm_num) (representable_natCast hrep)
    (Nat.cast_nonneg _), Nat.floor_natCast]

/-- So the distance is exact for every duration that `pulseIn` can return. -/
theorem currentDistanceInCm_of_pulseIn {duration : ℕ} (h : duration ≤ 1000000) :
    currentDistanceInCm duration = 17 * duration / 1000 := by
  rw [currentDistanceInCm, rawDistance_eq (by omega), half_eq_of_le (by omega)]
  exact Nat.div_div_eq_div_mul _ 500 2

/--
The distance is ⌊17 · duration / 1000⌋, as the constants say, except that a raw
distance from `2 ^ 24` on, which a `float` cannot hold, is halved upwards if it
lies halfway between two that it can hold and the upper one is the even one.
-/
theorem currentDistanceInCm_eq_iff {duration : ℕ}
    (h : 17 * duration < 500 * 2 ^ 25) :
    currentDistanceInCm duration = 17 * duration / 1000 ↔
      17 * duration / 500 < 2 ^ 24 ∨ 17 * duration / 500 % 4 ≠ 3 := by
  have hraw : 17 * duration / 500 < 2 ^ 25 := by omega
  have hhalf : 17 * duration / 1000 = 17 * duration / 500 / 2 :=
    (Nat.div_div_eq_div_mul _ 500 2).symm
  rw [currentDistanceInCm, rawDistance_eq (by omega), hhalf]
  generalize 17 * duration / 500 = raw at *
  rcases Nat.lt_or_ge raw (2 ^ 24) with hlt | hge
  · rw [half_eq_of_le hlt.le]
    exact iff_of_true rfl (.inl hlt)
  · rw [half_of_ge hge hraw]
    split <;> omega

/-- 83886 metres are the first distance that is a centimetre off. -/
theorem currentDistanceInCm_eq_iff_far :
    currentDistanceInCm 493447617 = 8388609 ∧ currentDistanceInCm 493447618 ≠ 8388609 := by
  constructor
  · exact (currentDistanceInCm_eq_iff (by norm_num)).mpr (.inr (by norm_num))
  · intro h
    have hexact := (currentDistanceInCm_eq_iff (by norm_num)).mp h
    norm_num at hexact

end DistanceSensor

end BLERCCar.Server
