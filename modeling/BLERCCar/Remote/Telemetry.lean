import BLERCCar.Lib.Binary64
import BLERCCar.Lib.LastWrite
import BLERCCar.Remote.Receivers
import BLERCCar.Server.Distance

/-!
# What the client shows

The server notifies on three characteristics: the two distances and the drive
mode.  A distance travels as the eight bytes of a `double`, a drive mode as the
C string of a packet; the client's handlers copy the former and decode the
latter.

Notifications may be lost, and those of different characteristics have nothing
to do with each other, so this module is about any sequence of notifications
that reach the client.

## Main results

* `frontLeft_shownAfter`, `frontRight_shownAfter`, `driveMode_shownAfter`: what a
  client has been told last on one characteristic decides what it shows there.
* `shows_shownAfter`: in centimetres and drive modes, whatever memory lies
  behind the packets and behind the received values.
-/

namespace BLERCCar.Remote

open BLERCCar.Lib BLERCCar.Lib.CString BLERCCar.Server

/-! ## The server -/

/-- The duration that `pulseIn` returns: it gives up after a second. -/
structure Echo where
  duration : ℕ
  timely : duration ≤ 1000000

/-- What `GetCurrentDistanceInCm` makes of it. -/
def Echo.centimetres (echo : Echo) : ℕ := 17 * echo.duration / 1000

theorem Echo.currentDistanceInCm_eq (echo : Echo) :
    DistanceSensor.currentDistanceInCm echo.duration = echo.centimetres :=
  DistanceSensor.currentDistanceInCm_of_pulseIn echo.timely

/-- `DistanceMeasurements`: the bit patterns of its two doubles. -/
structure DistanceMeasurements where
  frontLeft : ℕ := 0
  frontRight : ℕ := 0
  deriving DecidableEq

/-- What a `double` holds that has been assigned the result of
`GetCurrentDistanceInCm`. -/
def measured (echo : Echo) : ℕ :=
  Binary64.ofNat (DistanceSensor.currentDistanceInCm echo.duration)

/-- `Car::GetDistanceMeasurements`. -/
def getDistanceMeasurements (left right : Echo) : DistanceMeasurements where
  frontLeft := measured left
  frontRight := measured right

/-- A value notified on a characteristic. -/
structure Notified where
  uuid : String
  value : List UInt8
  deriving DecidableEq

/-- `NotifyNewDistanceRead`; `setValue` of a `double` takes its bytes. -/
def notifyNewDistanceRead (m : DistanceMeasurements) : List Notified :=
  [⟨characteristicUuidFrontLeftDistanceCm, Binary64.toBytes 8 m.frontLeft⟩,
    ⟨characteristicUuidFrontRightDistanceCm, Binary64.toBytes 8 m.frontRight⟩]

/-- `NotifyNewDriveMode`; `beyond` is the memory behind the packet. -/
def notifyNewDriveMode (packet : BLERCCarPacket) (beyond : List UInt8) :
    Notified :=
  ⟨characteristicUuidCurrentDrive, packet.payload beyond⟩

/-- What one notification tells. -/
inductive Report where
  | frontLeft (echo : Echo)
  | frontRight (echo : Echo)
  | driveMode (mode : DriveMode) (beyond : List UInt8)

/-- The notification itself. -/
def Report.notified : Report → Notified
  | frontLeft echo =>
      ⟨characteristicUuidFrontLeftDistanceCm, Binary64.toBytes 8 (measured echo)⟩
  | frontRight echo =>
      ⟨characteristicUuidFrontRightDistanceCm, Binary64.toBytes 8 (measured echo)⟩
  | driveMode mode beyond => notifyNewDriveMode (.drive mode 0) beyond

/-- One turn of the polling loop reports both distances. -/
theorem notifyNewDistanceRead_eq (left right : Echo) :
    notifyNewDistanceRead (getDistanceMeasurements left right) =
      [Report.frontLeft left, Report.frontRight right].map Report.notified := rfl

/-! ## The client -/

/-- The members of the client that notifications are stored in. -/
structure View where
  distanceMeasurements : DistanceMeasurements := {}
  driveMode : DriveMode := .unsupported
  deriving DecidableEq

/-- The handlers that the client has attached to its characteristics, given the
memory behind the received value. -/
def View.onValueChanged (uuid : String) (readings : List UInt8) (v : View) :
    View :=
  if uuid = characteristicUuidFrontLeftDistanceCm then
    { v with
      distanceMeasurements := { v.distanceMeasurements with
        frontLeft := Binary64.ofBytes (onDistance readings).value } }
  else if uuid = characteristicUuidFrontRightDistanceCm then
    { v with
      distanceMeasurements := { v.distanceMeasurements with
        frontRight := Binary64.ofBytes (onDistance readings).value } }
  else if uuid = characteristicUuidCurrentDrive then
    { v with driveMode := (onNewDriveMode readings).value }
  else v

/-- A report that has reached the client, and what lies behind it in memory
there. -/
structure Received where
  report : Report
  after : List UInt8

/-- The client stores what it is told. -/
def Received.store (v : View) (r : Received) : View :=
  v.onValueChanged r.report.notified.uuid (stored r.report.notified.value r.after)

/-- What the client shows after a sequence of notifications. -/
def shownAfter (reports : List Received) (v : View) : View :=
  reports.foldl Received.store v

/-! ## One notification -/

/-- Eight bytes are copied as they are, NULs included. -/
theorem value_onDistance {value : List UInt8} (h : value.length = 8)
    (after : List UInt8) : (onDistance (stored value after)).value = value := by
  apply List.ext_getElem
  · simp [onDistance, Reading.memcpy, h]
  · intro i hi hvalue
    simp only [onDistance, Reading.memcpy, List.getElem_map, List.getElem_range]
    simp [byteAt, stored, List.getElem?_append_left, hvalue]

theorem measured_eq (echo : Echo) :
    measured echo = Binary64.ofNat echo.centimetres := by
  rw [measured, echo.currentDistanceInCm_eq]

theorem Echo.centimetres_lt (echo : Echo) : echo.centimetres < 2 ^ 53 := by
  have htimely := echo.timely
  rw [centimetres]
  omega

/-- A measured distance survives the trip. -/
theorem ofBytes_onDistance (echo : Echo) (after : List UInt8) :
    Binary64.ofBytes
        (onDistance (stored (Binary64.toBytes 8 (measured echo)) after)).value =
      measured echo := by
  have hlt : measured echo < 256 ^ 8 := by
    rw [measured_eq]
    exact (Binary64.ofNat_lt echo.centimetres_lt).trans_eq (by norm_num)
  rw [value_onDistance (Binary64.length_toBytes 8 _), Binary64.ofBytes_toBytes hlt]

/-- The echo that the left distance was computed from, if it is reported. -/
def Received.leftEcho (r : Received) : Option Echo :=
  match r.report with
  | .frontLeft echo => some echo
  | _ => none

/-- The echo that the right distance was computed from, if it is reported. -/
def Received.rightEcho (r : Received) : Option Echo :=
  match r.report with
  | .frontRight echo => some echo
  | _ => none

/-- The drive mode, if it is reported. -/
def Received.mode (r : Received) : Option DriveMode :=
  match r.report with
  | .driveMode mode _ => some mode
  | _ => none

/-- What the client makes of a reported drive mode. -/
def decoded (mode : DriveMode) : DriveMode :=
  (BLERCCarPacket.drive mode 0).getDriveMode

/-- A notification is stored where it belongs, and nothing else is. -/
theorem store_eq (v : View) (r : Received) :
    r.store v =
      { distanceMeasurements :=
          { frontLeft :=
              (r.leftEcho.map measured).getD v.distanceMeasurements.frontLeft
            frontRight :=
              (r.rightEcho.map measured).getD v.distanceMeasurements.frontRight }
        driveMode := (r.mode.map decoded).getD v.driveMode } := by
  have hne : characteristicUuidFrontRightDistanceCm ≠
      characteristicUuidFrontLeftDistanceCm := by decide
  obtain ⟨report, after⟩ := r
  -- rewriting instead of `rfl`, which would compute with bit patterns
  cases report with
  | frontLeft echo =>
      have hleft : Received.leftEcho ⟨.frontLeft echo, after⟩ = some echo := rfl
      have hright : Received.rightEcho ⟨.frontLeft echo, after⟩ = none := rfl
      have hmode : Received.mode ⟨.frontLeft echo, after⟩ = none := rfl
      rw [hleft, hright, hmode, Option.map_some, Option.map_none, Option.map_none,
        Option.getD_some, Option.getD_none, Option.getD_none, Received.store,
        Report.notified, View.onValueChanged, if_pos rfl, ofBytes_onDistance]
  | frontRight echo =>
      have hleft : Received.leftEcho ⟨.frontRight echo, after⟩ = none := rfl
      have hright : Received.rightEcho ⟨.frontRight echo, after⟩ = some echo := rfl
      have hmode : Received.mode ⟨.frontRight echo, after⟩ = none := rfl
      rw [hleft, hright, hmode, Option.map_some, Option.map_none, Option.map_none,
        Option.getD_some, Option.getD_none, Option.getD_none, Received.store,
        Report.notified, View.onValueChanged, if_neg hne, if_pos rfl,
        ofBytes_onDistance]
  | driveMode mode beyond =>
      simp only [Received.store, Report.notified, notifyNewDriveMode,
        View.onValueChanged]
      rw [if_neg (by decide), if_neg (by decide), if_pos trivial,
        value_onNewDriveMode, BLERCCarPacket.getDriveMode_of_stored_payload]
      rfl

/-! ## Any sequence of notifications -/

theorem frontLeft_shownAfter (reports : List Received) (v : View) :
    (shownAfter reports v).distanceMeasurements.frontLeft =
      ((lastWrite Received.leftEcho reports).map measured).getD
        v.distanceMeasurements.frontLeft := by
  have hwritten : Written (fun v : View => v.distanceMeasurements.frontLeft)
      Received.store fun r => r.leftEcho.map measured := fun v r => by
    rw [store_eq]
  rw [← lastWrite_map]
  exact hwritten.foldl v reports

theorem frontRight_shownAfter (reports : List Received) (v : View) :
    (shownAfter reports v).distanceMeasurements.frontRight =
      ((lastWrite Received.rightEcho reports).map measured).getD
        v.distanceMeasurements.frontRight := by
  have hwritten : Written (fun v : View => v.distanceMeasurements.frontRight)
      Received.store fun r => r.rightEcho.map measured := fun v r => by
    rw [store_eq]
  rw [← lastWrite_map]
  exact hwritten.foldl v reports

theorem driveMode_shownAfter (reports : List Received) (v : View) :
    (shownAfter reports v).driveMode =
      ((lastWrite Received.mode reports).map decoded).getD v.driveMode := by
  have hwritten : Written View.driveMode Received.store
      fun r => r.mode.map decoded := fun v r => by
    rw [store_eq]
  rw [← lastWrite_map]
  exact hwritten.foldl v reports

/-- The distance in centimetres that an echo stands for, and zero without
one. -/
def shownDistance (echo : Option Echo) : ℚ :=
  (echo.map fun echo => (echo.centimetres : ℚ)).getD 0

theorem value_measured (echo : Option Echo) :
    Binary64.value ((echo.map measured).getD 0) = shownDistance echo := by
  cases echo with
  | none =>
      rw [Option.map_none, Option.getD_none, shownDistance, Option.map_none,
        Option.getD_none]
      exact_mod_cast Binary64.value_ofNat (n := 0) (by norm_num)
  | some echo =>
      rw [Option.map_some, Option.getD_some, measured_eq, shownDistance,
        Option.map_some, Option.getD_some]
      exact Binary64.value_ofNat echo.centimetres_lt

/-- What a client shows that has received `reports` since it was constructed. -/
structure Shows (reports : List Received) (v : View) : Prop where
  frontLeft : Binary64.value v.distanceMeasurements.frontLeft =
    shownDistance (lastWrite Received.leftEcho reports)
  frontRight : Binary64.value v.distanceMeasurements.frontRight =
    shownDistance (lastWrite Received.rightEcho reports)
  driveMode : v.driveMode =
    ((lastWrite Received.mode reports).map decoded).getD .unsupported

/-- Whatever notifications reach the client in whatever order, it shows of each
kind the last one, in whole centimetres and as `GetDriveMode` decodes it. -/
theorem shows_shownAfter (reports : List Received) :
    Shows reports (shownAfter reports {}) where
  frontLeft := by rw [frontLeft_shownAfter, value_measured]
  frontRight := by rw [frontRight_shownAfter, value_measured]
  driveMode := driveMode_shownAfter reports {}

end BLERCCar.Remote
