import BLERCCar.Common.DriveMode
import BLERCCar.Lib.CString

/-!
# Control packets

`BLERCCar_packets.hpp` and the characteristic UUIDs of `common.hpp`.  A packet
is a command byte and an amount byte, kept side by side in the member `raw`.
`GetPayload` hands out a bare pointer to `raw`; what a caller builds from it is
the C string at that pointer, which runs on into the memory behind the packet
unless the amount is zero.

## Main results

* `byteAt_payload_zero`, `byteAt_payload_one`: whatever lies behind the packet
  and behind the received value, a receiver indexing the stored payload
  recovers the command byte and, if that is not NUL, the amount byte.
* `getDriveMode_of_stored_payload`: the drive mode that a receiver decodes.
-/

namespace BLERCCar

open BLERCCar.Lib.CString

/-! ## Characteristics -/

/-- `CHARACTERISTIC_UUID_SET_DRIVE_MODES`. -/
def characteristicUuidSetDriveModes : String :=
  "2c670756-a1b0-11ed-a8fc-0242ac120002"

/-- `CHARACTERISTIC_UUID_STEERING`. -/
def characteristicUuidSteering : String :=
  "2c6708d2-a1b0-11ed-a8fc-0242ac120002"

/-- `CHARACTERISTIC_UUID_FRONT_RIGHT_DISTANCE_CM`. -/
def characteristicUuidFrontRightDistanceCm : String :=
  "2c670a12-a1b0-11ed-a8fc-0242ac120002"

/-- `CHARACTERISTIC_UUID_FRONT_LEFT_DISTANCE_CM`. -/
def characteristicUuidFrontLeftDistanceCm : String :=
  "2c670594-a1b0-11ed-a8fc-0242ac120002"

/-- `CHARACTERISTIC_UUID_CURRENT_DRIVE`. -/
def characteristicUuidCurrentDrive : String :=
  "2c670b48-a1b0-11ed-a8fc-0242ac120002"

@[simp] theorem steering_ne_setDriveModes :
    characteristicUuidSteering ≠ characteristicUuidSetDriveModes := by
  decide

/-! ## Packets -/

/-- `class BLERCCarPacket`. -/
structure BLERCCarPacket where
  command : UInt8
  amount : UInt8
  deriving DecidableEq

namespace BLERCCarPacket

/-- The member `raw`. -/
def raw (p : BLERCCarPacket) : List UInt8 := [p.command, p.amount]

/-- `GetPayload`: memory from the pointer to `raw` on, where `beyond` is what
lies behind the packet object. -/
def getPayload (p : BLERCCarPacket) (beyond : List UInt8) : List UInt8 :=
  p.raw ++ beyond

/-- The C string at `GetPayload`, which is what both sides hand to the BLE
library. -/
def payload (p : BLERCCarPacket) (beyond : List UInt8) : List UInt8 :=
  cstr (p.getPayload beyond)

/-- The constructors from a payload pointer. -/
def ofPayload (mem : List UInt8) : BLERCCarPacket :=
  ⟨byteAt mem 0, byteAt mem 1⟩

/-- `BLESteerLeftPacket(amount)`; the command is the character `L`. -/
def steerLeft (amount : UInt8) : BLERCCarPacket := ⟨0x4C, amount⟩

/-- `BLESteerRightPacket(amount)`; the command is the character `R`. -/
def steerRight (amount : UInt8) : BLERCCarPacket := ⟨0x52, amount⟩

/-- `BLEDrivePacket(mode, gas_percentage)`. -/
def drive (mode : DriveMode) (gasPercentage : UInt8) : BLERCCarPacket :=
  ⟨mode.toByte, gasPercentage⟩

/-- `BLEDrivePacket::GetDriveMode`. -/
def getDriveMode (p : BLERCCarPacket) : DriveMode :=
  match DriveMode.ofByte p.command with
  | .forward => .forward
  | .forwardCollision => .forwardCollision
  | .backward => .backward
  | .backwardCollision => .backwardCollision
  | .stop => .stop
  | _ => .unsupported

/-! ## Decoding a delivered payload -/

/-- The stored payload starts with the command byte. -/
@[simp] theorem byteAt_payload_zero (p : BLERCCarPacket)
    (beyond after : List UInt8) :
    byteAt (stored (p.payload beyond) after) 0 = p.command := by
  rw [payload, byteAt_stored_cstr _ _ 0 (by simp)]
  rfl

/-- Behind a command that is not NUL the stored payload reads as the amount
byte.  An amount of zero was cut off as the terminator and is read back from
the terminator of the stored value. -/
theorem byteAt_payload_one {p : BLERCCarPacket} (hp : p.command ≠ 0)
    (beyond after : List UInt8) :
    byteAt (stored (p.payload beyond) after) 1 = p.amount := by
  rw [payload, byteAt_stored_cstr _ _ 1 ?_]
  · rfl
  · intro j hj
    obtain rfl : j = 0 := Nat.lt_one_iff.mp hj
    exact hp

/-- A receiver recovers the whole packet when the command is not NUL. -/
theorem ofPayload_stored_payload {p : BLERCCarPacket} (hp : p.command ≠ 0)
    (beyond after : List UInt8) :
    ofPayload (stored (p.payload beyond) after) = p := by
  rw [ofPayload, byteAt_payload_zero, byteAt_payload_one hp]

/-- The decoded drive mode only depends on the command byte. -/
theorem getDriveMode_of_stored_payload (p : BLERCCarPacket)
    (beyond after : List UInt8) :
    (ofPayload (stored (p.payload beyond) after)).getDriveMode =
      p.getDriveMode := by
  simp [getDriveMode, ofPayload]

/-! ## Modes that survive the trip -/

/-- The modes `GetDriveMode` lists, which are those a client call may name. -/
def Commandable (m : DriveMode) : Prop :=
  m = .forward ∨ m = .forwardCollision ∨ m = .backward ∨
    m = .backwardCollision ∨ m = .stop

theorem drive_command_ne_zero {m : DriveMode} (hm : Commandable m)
    (amount : UInt8) : (drive m amount).command ≠ 0 := by
  have hbyte : m.toByte ≠ 0 := by
    rcases hm with rfl | rfl | rfl | rfl | rfl <;> decide
  exact hbyte

theorem getDriveMode_drive {m : DriveMode} (hm : Commandable m)
    (amount : UInt8) : (drive m amount).getDriveMode = m := by
  rcases hm with rfl | rfl | rfl | rfl | rfl <;> rfl

end BLERCCarPacket

end BLERCCar
