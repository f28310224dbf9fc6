import Mathlib.Logic.Function.Basic

/-!
# The board and its motors

The part of the ESP32 that the car drives (GPIO output levels and the PWM
registers behind `ledcWrite`) and `class Motor` of `Motor.hpp`.  `char` is an
unsigned byte on this target, and Arduino's `map` interpolates in integers
without clamping.

## Main results

* `speedPercentageToDutyCycle_le_iff`: the duty cycle stays within `MAX_PWM`
  exactly for percentages up to 100, which is what `SetSpeed` documents.
* `minPwm_le_speedPercentageToDutyCycle`: it is never below `MIN_PWM`.
-/

namespace BLERCCar.Server

/-! ## The board -/

/-- The level of a GPIO pin. -/
inductive Level where
  | low
  | high
  deriving DecidableEq

/-- GPIO output levels by pin and PWM registers by channel. -/
structure Board where
  gpio : Int → Level
  ledc : Int → Int

/-- `digitalWrite`. -/
def Board.digitalWrite (b : Board) (pin : Int) (level : Level) : Board :=
  { b with gpio := Function.update b.gpio pin level }

/-- `ledcWrite`. -/
def Board.ledcWrite (b : Board) (channel duty : Int) : Board :=
  { b with ledc := Function.update b.ledc channel duty }

/-- Arduino's `map`. -/
def arduinoMap (x inMin inMax outMin outMax : Int) : Int :=
  ((x - inMin) * (outMax - outMin)).tdiv (inMax - inMin) + outMin

/-! ## Motors -/

/-- `MIN_PWM`. -/
def minPwm : Int := 150

/-- `MAX_PWM`. -/
def maxPwm : Int := 255

/-- `class Motor`.  Only the duty changes after construction. -/
structure Motor where
  pin1 : Int
  pin2 : Int
  enable1Pin : Int
  pwmChannel : Int
  freq : Int := 30000
  resolution : Int := 8
  pwmduty : Int := minPwm

/-- `Motor::speedPercentageToDutyCycle`. -/
def speedPercentageToDutyCycle (speed : UInt8) : Int :=
  arduinoMap speed.toNat 0 100 minPwm maxPwm

/-- `Motor::CurrentSpeedPercentage`. -/
def Motor.currentSpeedPercentage (m : Motor) : Int :=
  arduinoMap m.pwmduty minPwm maxPwm 0 100

/-- The two direction inputs of a motor. -/
inductive PinName where
  | pin1
  | pin2
  deriving DecidableEq

/-- The GPIO number behind a direction input. -/
def Motor.pin (m : Motor) : PinName → Int
  | .pin1 => m.pin1
  | .pin2 => m.pin2

/-- The duty cycle in closed form. -/
theorem speedPercentageToDutyCycle_eq (speed : UInt8) :
    speedPercentageToDutyCycle speed =
      ((speed.toNat * 105 / 100 : Nat) : Int) + 150 := by
  have h : ((speed.toNat : Int) - 0) * (maxPwm - minPwm) =
      ((speed.toNat * 105 : Nat) : Int) := by
    simp [maxPwm, minPwm]
  rw [speedPercentageToDutyCycle, arduinoMap, h,
    Int.tdiv_eq_ediv_of_nonneg (Int.natCast_nonneg _)]
  simp [minPwm]

theorem minPwm_le_speedPercentageToDutyCycle (speed : UInt8) :
    minPwm ≤ speedPercentageToDutyCycle speed := by
  rw [speedPercentageToDutyCycle_eq, minPwm]
  omega

/-- The documented range `[0, 100]` is exactly the range of percentages whose
duty fits below `MAX_PWM`. -/
theorem speedPercentageToDutyCycle_le_iff (speed : UInt8) :
    speedPercentageToDutyCycle speed ≤ maxPwm ↔ speed.toNat ≤ 100 := by
  rw [speedPercentageToDutyCycle_eq, maxPwm]
  omega

/-- Rounding down twice loses one percent, except of the multiples of 20. -/
theorem currentSpeedPercentage_eq {m : Motor} {speed : UInt8}
    (h : m.pwmduty = speedPercentageToDutyCycle speed) :
    m.currentSpeedPercentage =
      if speed.toNat % 20 = 0 then (speed.toNat : Int) else speed.toNat - 1 := by
  have hduty : speed.toNat * 105 / 100 = 21 * (speed.toNat / 20) + speed.toNat % 20 := by
    omega
  have hscaled : (m.pwmduty - minPwm) * (100 - 0) =
      (((21 * (speed.toNat / 20) + speed.toNat % 20) * 100 : Nat) : Int) := by
    rw [h, speedPercentageToDutyCycle_eq, hduty, minPwm]
    omega
  rw [Motor.currentSpeedPercentage, arduinoMap, hscaled,
    Int.tdiv_eq_ediv_of_nonneg (Int.natCast_nonneg _)]
  simp only [maxPwm, minPwm]
  split <;> omega

end BLERCCar.Server
