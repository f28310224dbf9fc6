import BLERCCar.Lib.Reading
import BLERCCar.Server.Callbacks

/-!
# What receivers read

Every handler of a received value is given a bare pointer to it, without its
length, and reads at fixed indexes behind that pointer.  The value is stored
with one NUL behind it.  Here the handlers are written once more with their
reads recorded.

## Main results

* `value_onWriteDrive`, `value_onWriteSteering`, `value_onNewDriveMode`: apart
  from the record, these are the handlers of the other modules.
* `readsReceived_iff`: how long a value has to be for a handler to stay within
  it.
-/

namespace BLERCCar.Remote

open BLERCCar.Lib BLERCCar.Lib.CString BLERCCar.Server

/-! ## Handlers -/

/-- The constructors from a payload pointer. -/
def readPacket (payload : List UInt8) : Reading BLERCCarPacket := do
  let command ← Reading.byte payload 0
  let amount ← Reading.byte payload 1
  pure ⟨command, amount⟩

/-- `onWrite` on the drive characteristic, behind the test for a null
pointer. -/
def onWriteDrive (raw : List UInt8) : Reading (List Op) := do
  let packet ← readPacket raw
  if packet.getDriveMode = .unsupported then
    -- printed with the warning
    let _ ← Reading.byte raw 0
    pure [.setDriveMode .unsupported]
  else
    let _ ← Reading.byte raw 0
    let _ ← Reading.cstring raw
    pure [.setDriveMode packet.getDriveMode, .setSpeed packet.amount]

/-- One of the two branches of `onWrite` on the steering characteristic. -/
def steerOn (command : UInt8) (turn : UInt8 → Op) (raw : List UInt8) :
    Reading (List Op) := do
  let first ← Reading.byte raw 0
  if first = command then
    let packet ← readPacket raw
    pure [turn packet.amount]
  else pure []

/-- `onWrite` on the steering characteristic, behind the test for a null
pointer. -/
def onWriteSteering (raw : List UInt8) : Reading (List Op) := do
  let left ← steerOn 0x4C .turnLeft raw
  let right ← steerOn 0x52 .turnRight raw
  let _ ← Reading.cstring raw
  pure (left ++ right)

/-- The handler installed by `attachNewDriveModeCallback`. -/
def onNewDriveMode (driveMode : List UInt8) : Reading DriveMode := do
  let p ← readPacket driveMode
  pure p.getDriveMode

/-- The handlers installed by `attachDistanceMeasurementsCallback`; a `double`
has eight bytes. -/
def onDistance (sensorReadings : List UInt8) : Reading (List UInt8) :=
  Reading.memcpy sensorReadings 8

/-- Apart from its reads, this is the handler of `Callbacks`. -/
theorem value_onWriteDrive (raw : List UInt8) :
    (onWriteDrive raw).value =
      controllerCalls characteristicUuidSetDriveModes (some raw) := by
  show (ite ((BLERCCarPacket.ofPayload raw).getDriveMode = .unsupported) _ _ :
    Reading (List Op)).value = _
  simp only [controllerCalls, if_true]
  by_cases hmode :
      (BLERCCarPacket.ofPayload raw).getDriveMode = .unsupported
  · rw [if_pos hmode, if_pos hmode]
    rfl
  · rw [if_neg hmode, if_neg hmode]
    rfl

theorem value_steerOn (command : UInt8) (turn : UInt8 → Op) (raw : List UInt8) :
    (steerOn command turn raw).value =
      if byteAt raw 0 = command then [turn (BLERCCarPacket.ofPayload raw).amount]
      else [] := by
  show (ite (byteAt raw 0 = command) _ _ : Reading (List Op)).value = _
  by_cases hfirst : byteAt raw 0 = command
  · rw [if_pos hfirst, if_pos hfirst]
    rfl
  · rw [if_neg hfirst, if_neg hfirst]
    rfl

theorem value_onWriteSteering (raw : List UInt8) :
    (onWriteSteering raw).value =
      controllerCalls characteristicUuidSteering (some raw) := by
  simp [onWriteSteering, controllerCalls, value_steerOn]

/-- The client stores the mode that the value decodes to. -/
theorem value_onNewDriveMode (driveMode : List UInt8) :
    (onNewDriveMode driveMode).value =
      (BLERCCarPacket.ofPayload driveMode).getDriveMode := rfl

/-! ## Reads -/

section Reads

variable {value after : List UInt8}

/-- Two bytes are there, counting the NUL, unless the value is empty. -/
theorem within_readPacket_iff :
    (readPacket (stored value after)).Within value.length ↔ value ≠ [] := by
  have hlength : 1 ≤ value.length ↔ value ≠ [] := List.length_pos_iff
  simp [readPacket, hlength]

theorem within_onWriteDrive_iff :
    (onWriteDrive (stored value after)).Within value.length ↔ value ≠ [] := by
  have hprint := Reading.within_cstring_stored value after
  rw [onWriteDrive, Reading.within_bind_iff, within_readPacket_iff]
  apply and_iff_left
  split
  · simp
  · simp [hprint]

/-- A branch that reads two bytes has seen that the first is not NUL. -/
theorem within_steerOn {command : UInt8} (hcommand : command ≠ 0)
    (turn : UInt8 → Op) :
    (steerOn command turn (stored value after)).Within value.length := by
  rw [steerOn, Reading.within_bind_iff]
  refine ⟨by simp, ?_⟩
  split
  · next hfirst =>
      have hvalue : value ≠ [] := by
        rintro rfl
        exact hcommand hfirst.symm
      rw [Reading.within_bind_iff, within_readPacket_iff]
      exact ⟨hvalue, Reading.within_pure _⟩
  · exact Reading.within_pure _

theorem within_onWriteSteering :
    (onWriteSteering (stored value after)).Within value.length := by
  have hleft : (steerOn 0x4C .turnLeft (stored value after)).Within value.length :=
    within_steerOn (by decide) _
  have hright :
      (steerOn 0x52 .turnRight (stored value after)).Within value.length :=
    within_steerOn (by decide) _
  have hprint := Reading.within_cstring_stored value after
  simp only [onWriteSteering, Reading.within_bind_iff]
  exact ⟨hleft, hright, hprint, Reading.within_pure _⟩

end Reads

/-! ## All receivers -/

/-- The handlers that are given a received value. -/
inductive Receiver where
  | onWriteDrive
  | onWriteSteering
  | newDriveMode
  | frontLeftDistance
  | frontRightDistance
  deriving DecidableEq

namespace Receiver

/-- The indexes that a handler reads behind its pointer. -/
def reads (mem : List UInt8) : Receiver → List Nat
  | onWriteDrive => (Remote.onWriteDrive mem).reads
  | onWriteSteering => (Remote.onWriteSteering mem).reads
  | newDriveMode => (onNewDriveMode mem).reads
  | frontLeftDistance => (onDistance mem).reads
  | frontRightDistance => (onDistance mem).reads

/-- A handler reads nothing behind the NUL of the value it is given. -/
def ReadsReceived (receiver : Receiver) (value after : List UInt8) : Prop :=
  ∀ i ∈ receiver.reads (stored value after), i ≤ value.length

instance (receiver : Receiver) (value after : List UInt8) :
    Decidable (receiver.ReadsReceived value after) :=
  inferInstanceAs (Decidable (∀ i ∈ receiver.reads (stored value after), _))

/-- A value is as long as the handler takes for granted, counting the NUL. -/
def Expects (value : List UInt8) : Receiver → Prop
  | onWriteDrive => value ≠ []
  | onWriteSteering => True
  | newDriveMode => value ≠ []
  | frontLeftDistance => 7 ≤ value.length
  | frontRightDistance => 7 ≤ value.length

/--
A handler reads only what was received exactly if the value is as long as it
expects: not empty for drive modes, seven bytes for distances, anything for
steering.
-/
theorem readsReceived_iff (receiver : Receiver) (value after : List UInt8) :
    receiver.ReadsReceived value after ↔ receiver.Expects value := by
  cases receiver with
  | onWriteDrive => exact within_onWriteDrive_iff
  | onWriteSteering => exact iff_of_true within_onWriteSteering trivial
  | newDriveMode =>
      have hpure : ∀ p : BLERCCarPacket,
          (pure p.getDriveMode : Reading DriveMode).Within value.length :=
        fun p => Reading.within_pure _
      show (onNewDriveMode (stored value after)).Within value.length ↔ _
      rw [onNewDriveMode, Reading.within_bind_iff, within_readPacket_iff]
      exact and_iff_left (hpure _)
  | frontLeftDistance => exact Reading.within_memcpy_iff
  | frontRightDistance => exact Reading.within_memcpy_iff

/-- An empty drive payload is read past its end. -/
theorem not_readsReceived_empty : ¬ onWriteDrive.ReadsReceived [] [1, 80] := by
  decide

end Receiver

end BLERCCar.Remote
