import BLERCCar.Server.Callbacks

/-!
# Remote control

The control functions of `BLERCCar_client.cpp`.  Each of them builds a packet on
the stack and writes the C string at its payload to one characteristic, so what
is sent includes whatever happens to lie behind the packet.

## Main results

* `handle_write`: the server makes of one write what the call means locally.
* `deliverAll_eq_execAll`: a sequence of remote calls is the sequence of local
  calls they stand for.
-/

namespace BLERCCar

open BLERCCar.Lib.CString BLERCCar.Server

/-! ## The client -/

namespace Client

/-- A `write_command`: the characteristic and the byte string written to it. -/
structure Write where
  uuid : String
  value : List UInt8
  deriving DecidableEq

/-- `BLERCCar_client::TurnLeft`; `beyond` is the memory behind the packet. -/
def turnLeft (percentage : UInt8) (beyond : List UInt8) : Write where
  uuid := characteristicUuidSteering
  value := (BLERCCarPacket.steerLeft percentage).payload beyond

/-- `BLERCCar_client::TurnRight`. -/
def turnRight (percentage : UInt8) (beyond : List UInt8) : Write where
  uuid := characteristicUuidSteering
  value := (BLERCCarPacket.steerRight percentage).payload beyond

/-- `BLERCCar_client::SetDriveMode`. -/
def setDriveMode (mode : DriveMode) (beyond : List UInt8) : Write where
  uuid := characteristicUuidSetDriveModes
  value := (BLERCCarPacket.drive mode 0).payload beyond

/-- `BLERCCar_client::SetSpeed`. -/
def setSpeed (mode : DriveMode) (speed : UInt8) (beyond : List UInt8) : Write where
  uuid := characteristicUuidSetDriveModes
  value := (BLERCCarPacket.drive mode speed).payload beyond

/-- The control calls of a client. -/
inductive Call where
  | turnLeft (percentage : UInt8)
  | turnRight (percentage : UInt8)
  | setDriveMode (mode : DriveMode)
  | setSpeed (mode : DriveMode) (speed : UInt8)
  deriving DecidableEq

namespace Call

/-- What a call writes. -/
def write (beyond : List UInt8) : Call → Write
  | turnLeft percentage => Client.turnLeft percentage beyond
  | turnRight percentage => Client.turnRight percentage beyond
  | setDriveMode mode => Client.setDriveMode mode beyond
  | setSpeed mode speed => Client.setSpeed mode speed beyond

/-- The mode a call names, if any, is one that `GetDriveMode` lists. -/
def Allowed : Call → Prop
  | turnLeft _ => True
  | turnRight _ => True
  | setDriveMode mode => BLERCCarPacket.Commandable mode
  | setSpeed mode _ => BLERCCarPacket.Commandable mode

/-- What a call stands for on the car itself. -/
def locally : Call → List Op
  | turnLeft percentage => [.turnLeft percentage]
  | turnRight percentage => [.turnRight percentage]
  | setDriveMode mode => [.setDriveMode mode, .setSpeed 0]
  | setSpeed mode speed => [.setDriveMode mode, .setSpeed speed]

end Call

end Client

/-! ## Delivery -/

namespace Remote

/-- A control call with the two pieces of memory that nobody controls: behind
the packet at the client, and behind the received value at the server. -/
structure Sent where
  call : Client.Call
  beyond : List UInt8
  after : List UInt8

/-- `onWrite` handles what the call has written. -/
def Sent.deliver (x : Sent) (w : World) : World :=
  execAll (controllerCalls (x.call.write x.beyond).uuid
    (some (stored (x.call.write x.beyond).value x.after))) w

/-- One call after the other. -/
def deliverAll (session : List Sent) (w : World) : World :=
  session.foldl (fun w x => x.deliver w) w

/-- Whatever memory lies behind the packet and behind the received value, the
handler calls the controller as the client was asked to. -/
theorem handle_write {call : Client.Call} (h : call.Allowed)
    (beyond after : List UInt8) :
    controllerCalls (call.write beyond).uuid
      (some (stored (call.write beyond).value after)) = call.locally := by
  cases call with
  | turnLeft percentage =>
      have hne : (BLERCCarPacket.steerLeft percentage).command ≠ 0 := by
        simp [BLERCCarPacket.steerLeft]
      exact onWrite_steer_left
        (BLERCCarPacket.ofPayload_stored_payload hne beyond after)
  | turnRight percentage =>
      have hne : (BLERCCarPacket.steerRight percentage).command ≠ 0 := by
        simp [BLERCCarPacket.steerRight]
      exact onWrite_steer_right
        (BLERCCarPacket.ofPayload_stored_payload hne beyond after)
  | setDriveMode mode =>
      have hne := BLERCCarPacket.drive_command_ne_zero h 0
      exact onWrite_drive h
        (BLERCCarPacket.ofPayload_stored_payload hne beyond after)
  | setSpeed mode speed =>
      have hne := BLERCCarPacket.drive_command_ne_zero h speed
      exact onWrite_drive h
        (BLERCCarPacket.ofPayload_stored_payload hne beyond after)

/--
A sequence of remote calls leaves the car, its pins and its PWM registers in
the state in which the sequence of local calls leaves them.
-/
theorem deliverAll_eq_execAll (w : World) (session : List Sent)
    (h : ∀ x ∈ session, x.call.Allowed) :
    deliverAll session w =
      execAll (session.flatMap fun x => x.call.locally) w := by
  induction session generalizing w with
  | nil => rfl
  | cons x session ih =>
      have hx : x.deliver w = execAll x.call.locally w := by
        rw [Sent.deliver, handle_write (h x List.mem_cons_self)]
      have hsession := ih (x.deliver w) fun y hy => h y (List.mem_cons_of_mem x hy)
      rw [List.flatMap_cons, execAll_append, ← hx]
      exact hsession

/-- Straighten the wheels, drive off, stop: with a zero amount and foreign
bytes behind the packets. -/
theorem deliverAll_eq_execAll_drive :
    deliverAll
        [⟨.turnLeft 0, [7, 9], []⟩, ⟨.setSpeed .forward 80, [3], [1, 2]⟩,
          ⟨.setDriveMode .stop, [], [5]⟩] World.powerUp =
      execAll [.turnLeft 0, .setDriveMode .forward, .setSpeed 80,
        .setDriveMode .stop, .setSpeed 0] World.powerUp :=
  deliverAll_eq_execAll World.powerUp _ (by
    simp [Client.Call.Allowed, BLERCCarPacket.Commandable])

end Remote

end BLERCCar
