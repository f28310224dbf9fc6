import Mathlib.Tactic.SplitIfs

/-!
# Drive modes

`enum DriveMode` of `common.hpp`, shared by the car and its remote control.
The enumeration is unscoped and has no fixed underlying type, and the packet
code casts arbitrary bytes to it, so values outside the eight enumerators do
occur.  They are kept as `outside v`, where the subtype `OutsideValue` makes
sure that no enumerator has a second spelling.

## Main results

* `toUInt32_ofUInt32`, `ofUInt32_toUInt32`: casting to and from the underlying
  integer are inverse.
-/

namespace BLERCCar

/-- An integer that is none of the enumerators `1, …, 8`. -/
def OutsideValue : Type := { v : UInt32 // v.toNat = 0 ∨ 8 < v.toNat }

instance : DecidableEq OutsideValue :=
  inferInstanceAs (DecidableEq { v : UInt32 // v.toNat = 0 ∨ 8 < v.toNat })

/-- `enum DriveMode`, with the values a cast can produce beyond it. -/
inductive DriveMode where
  | forward
  | forwardCollision
  | backward
  | backwardCollision
  | stop
  | disconnectionStop
  | unsupported
  | initialConenction
  | outside (value : OutsideValue)
  deriving DecidableEq

namespace DriveMode

/-- The underlying integer. -/
def toUInt32 : DriveMode → UInt32
  | forward => 1
  | forwardCollision => 2
  | backward => 3
  | backwardCollision => 4
  | stop => 5
  | disconnectionStop => 6
  | unsupported => 7
  | initialConenction => 8
  | outside value => value.1

/-- `(DriveMode)v`. -/
def ofUInt32 (v : UInt32) : DriveMode :=
  if h : v.toNat = 0 ∨ 8 < v.toNat then outside ⟨v, h⟩
  else if v = 1 then forward
  else if v = 2 then forwardCollision
  else if v = 3 then backward
  else if v = 4 then backwardCollision
  else if v = 5 then stop
  else if v = 6 then disconnectionStop
  else if v = 7 then unsupported
  else initialConenction

theorem ofUInt32_toUInt32 (m : DriveMode) : ofUInt32 m.toUInt32 = m := by
  cases m with
  | outside value => exact dif_pos value.2
  | _ => rfl

theorem toUInt32_ofUInt32 (v : UInt32) : (ofUInt32 v).toUInt32 = v := by
  unfold ofUInt32
  by_cases h : v.toNat = 0 ∨ 8 < v.toNat
  · rw [dif_pos h]
    rfl
  · rw [dif_neg h]
    -- what is left of the range is exactly the eight enumerators
    have h8 : v ≠ 1 → v ≠ 2 → v ≠ 3 → v ≠ 4 → v ≠ 5 → v ≠ 6 → v ≠ 7 → v = 8 := by
      intro h1 h2 h3 h4 h5 h6 h7
      simp only [ne_eq, ← UInt32.toNat_inj, UInt32.reduceToNat] at *
      omega
    split_ifs with h1 h2 h3 h4 h5 h6 h7
    · exact h1.symm
    · exact h2.symm
    · exact h3.symm
    · exact h4.symm
    · exact h5.symm
    · exact h6.symm
    · exact h7.symm
    · exact (h8 h1 h2 h3 h4 h5 h6 h7).symm

/-- `(const char)mode`. -/
def toByte (m : DriveMode) : UInt8 := m.toUInt32.toUInt8

/-- `(DriveMode)m_Command`. -/
def ofByte (b : UInt8) : DriveMode := ofUInt32 b.toUInt32

/-- The enumerators survive the trip through one byte. -/
theorem ofByte_toByte {m : DriveMode} (hm : ∀ v, m ≠ outside v) :
    ofByte m.toByte = m := by
  cases m with
  | outside value => exact absurd rfl (hm value)
  | _ => rfl

end DriveMode

end BLERCCar
