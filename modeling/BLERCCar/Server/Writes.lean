import BLERCCar.Lib.Interleaving
import BLERCCar.Server.CarRuns
import BLERCCar.Server.Tasks

/-!
# What a car makes of the values written to it

`MyCharCallbacks::onWrite` hands any bytes whatsoever to one `Car`.  A
`Delivery` is one such write: the characteristic, the value, and the memory that
happens to follow the value behind its terminating NUL.

Every statement of the car belongs to one of its two halves: the drive shaft
with the drive mode, or the steering motor.  Statements of different halves
commute, and this carries over to whole calls and to whole writes.

## Main results

* `run_write`: the callback task handles a write as `Delivery.handle` says.
* `independent_handleAll`: however two streams of drive and steering writes are
  merged, the car ends up in the same state, with its drive half decided by the
  first stream and its steering half by the second.
* `obeyed_handleAll`: whatever bytes are written, the car obeys the last drive
  payload or stands still.
-/

namespace BLERCCar.Server

open BLERCCar.Lib BLERCCar.Lib.CString

/-! ## The two halves of a car -/

/-- The half of the car a statement reads and writes.  The drive mode belongs to
the drive shaft. -/
def Instr.half : Instr → MotorName
  | .assignMode _ => .driveShaft
  | .digitalWrite motor _ _ => motor
  | .assignDuty motor _ => motor
  | .ledcWrite motor => motor
  | .returnIfStopped => .driveShaft

/-- Different motors have different direction pins. -/
theorem drivePin_ne_steeringPin (c : Car) (pin pin' : PinName) :
    c.driveShaft.pin pin ≠ c.steering.pin pin' := by
  cases pin <;> cases pin' <;> simp [Motor.pin]

/-- Statements of different halves commute. -/
theorem exec_comm {i j : Instr} (hi : i.half = .driveShaft)
    (hj : j.half = .steering) (w : World) :
    j.exec (i.exec w) = i.exec (j.exec w) := by
  cases j with
  | assignMode => cases hj
  | returnIfStopped => cases hj
  | digitalWrite motor pin level =>
      obtain rfl : motor = .steering := hj
      cases i with
      | digitalWrite motor' pin' level' =>
          obtain rfl : motor' = .driveShaft := hi
          have hne : w.car.driveShaft.pin pin' ≠ w.car.steering.pin pin :=
            drivePin_ne_steeringPin w.car pin' pin
          simp [Instr.exec, Car.motor, Board.digitalWrite,
            Function.update_comm hne]
      | assignDuty motor' speed =>
          obtain rfl : motor' = .driveShaft := hi
          rfl
      | _ => rfl
  | assignDuty motor speed =>
      obtain rfl : motor = .steering := hj
      cases i with
      | digitalWrite motor' | assignDuty motor' | ledcWrite motor' =>
          obtain rfl : motor' = .driveShaft := hi
          rfl
      | _ => rfl
  | ledcWrite motor =>
      obtain rfl : motor = .steering := hj
      cases i with
      | assignDuty motor' speed =>
          obtain rfl : motor' = .driveShaft := hi
          rfl
      | ledcWrite motor' =>
          obtain rfl : motor' = .driveShaft := hi
          have hne : (0 : Int) ≠ 1 := by decide
          simp [Instr.exec, Car.motor, Board.ledcWrite, Function.update_comm hne]
      | _ => rfl

/-- The steering half does not touch the drive mode. -/
theorem mode_exec_steering {j : Instr} (hj : j.half = .steering) (w : World) :
    (j.exec w).car.mode = w.car.mode := by
  cases j with
  | assignMode => cases hj
  | assignDuty motor speed => cases motor <;> rfl
  | _ => rfl

/-- A statement of the steering half may come before or after a whole call that
stays in the drive half. -/
theorem exec_run_comm {j : Instr} (hj : j.half = .steering) {call : List Instr}
    (hcall : ∀ i ∈ call, i.half = .driveShaft) (w : World) :
    j.exec (run call w) = run call (j.exec w) := by
  induction call generalizing w with
  | nil => rfl
  | cons i rest ih =>
      have hi : i.half = .driveShaft := hcall i List.mem_cons_self
      have hrest : ∀ k ∈ rest, k.half = .driveShaft := fun k hk =>
        hcall k (List.mem_cons_of_mem i hk)
      cases i with
      | returnIfStopped =>
          -- an early return depends on the drive mode only
          simp only [run, mode_exec_steering hj]
          by_cases hstop : w.car.mode = .stop
          · rw [if_pos hstop, if_pos hstop]
          · rw [if_neg hstop, if_neg hstop]
            exact ih hrest w
      | _ =>
          simp only [run]
          rw [ih hrest, exec_comm hi hj]

/-- Calls of different halves commute. -/
theorem run_comm {call call' : List Instr}
    (hcall : ∀ i ∈ call, i.half = .driveShaft)
    (hcall' : ∀ j ∈ call', j.half = .steering) (w : World) :
    run call' (run call w) = run call (run call' w) := by
  induction call' generalizing w with
  | nil => rfl
  | cons j rest ih =>
      have hj : j.half = .steering := hcall' j List.mem_cons_self
      have hrest : ∀ k ∈ rest, k.half = .steering := fun k hk =>
        hcall' k (List.mem_cons_of_mem j hk)
      cases j with
      | returnIfStopped => cases hj
      | _ =>
          simp only [run]
          rw [exec_run_comm hj hcall]
          exact ih hrest _

/-- The operation stays in one half of the car.  A stop that straightens the
wheels stays in neither. -/
def Op.StaysIn (half : MotorName) (op : Op) : Prop :=
  ∀ i ∈ op.body, i.half = half

instance (half : MotorName) : DecidablePred (Op.StaysIn half) := fun op =>
  inferInstanceAs (Decidable (∀ i ∈ op.body, i.half = half))

theorem staysIn_turnLeft (p : UInt8) : (Op.turnLeft p).StaysIn .steering := by
  intro i hi
  rcases Op.mem_body_turn (.inl hi) with rfl | rfl | ⟨pin, level, rfl⟩ <;> rfl

theorem staysIn_turnRight (p : UInt8) : (Op.turnRight p).StaysIn .steering := by
  intro i hi
  rcases Op.mem_body_turn (.inr hi) with rfl | rfl | ⟨pin, level, rfl⟩ <;> rfl

theorem staysIn_setSpeed (s : UInt8) : (Op.setSpeed s).StaysIn .driveShaft := by
  intro i hi
  rcases Op.mem_body_setSpeed hi with rfl | rfl | rfl <;> rfl

/-- The modes a driver can ask for by name leave the steering motor alone. -/
theorem staysIn_setDriveMode {m : DriveMode}
    (hm : m = .forward ∨ m = .backward ∨ m = .stop) :
    (Op.setDriveMode m).StaysIn .driveShaft := by
  rcases hm with rfl | rfl | rfl <;> decide

/-- Operations of different halves commute. -/
theorem exec_op_comm {op op' : Op} (h : op.StaysIn .driveShaft)
    (h' : op'.StaysIn .steering) : Commutes (fun w (op : Op) => op.exec w) op op' :=
  fun w => run_comm h h' w

/-- And so do sequences of them. -/
theorem execAll_comm {ops ops' : List Op}
    (h : ∀ op ∈ ops, op.StaysIn .driveShaft)
    (h' : ∀ op ∈ ops', op.StaysIn .steering) (w : World) :
    execAll ops' (execAll ops w) = execAll ops (execAll ops' w) :=
  (foldl_comm (fun op hop op' hop' => exec_op_comm (h op hop) (h' op' hop')) w).symm

/-! ## Deliveries -/

/-- A write as it reaches the handler: the characteristic, the value, and the
memory behind the NUL that follows the value. -/
structure Delivery where
  uuid : String
  value : List UInt8
  after : List UInt8

namespace Delivery

/-- The memory behind `getData()`. -/
def raw (d : Delivery) : List UInt8 := stored d.value d.after

/-- The first byte, read as a drive mode. -/
def mode (d : Delivery) : DriveMode := DriveMode.ofByte (byteAt d.raw 0)

/-- The duty that the second byte asks for. -/
def duty (d : Delivery) : Int := speedPercentageToDutyCycle (byteAt d.raw 1)

/-- `onWrite` handles the write without being interrupted. -/
def handle (d : Delivery) (w : World) : World :=
  execAll (controllerCalls d.uuid (some d.raw)) w

end Delivery

/-- One write after the other. -/
def handleAll (ds : List Delivery) (w : World) : World :=
  ds.foldl (fun w d => d.handle w) w

theorem handleAll_append (ds ds' : List Delivery) (w : World) :
    handleAll (ds ++ ds') w = handleAll ds' (handleAll ds w) := by
  simp [handleAll, List.foldl_append]

/-- The callback task works through the calls of a handler one at a time. -/
theorem run_callbackCalls (now : UInt32) (ops : List Op) (s : State)
    (hcallback : s.callback = ⟨[], ops.map .call⟩) :
    (machine atomicCalls).run s (List.replicate ops.length (.callback now)) =
      some
        { s with
          world := execAll ops s.world
          callback := Thread.done } := by
  obtain ⟨⟨world, ctx⟩, ble, handler, callback, pc, task⟩ := s
  obtain rfl : callback = ⟨[], ops.map .call⟩ := hcallback
  induction ops generalizing world with
  | nil => rfl
  | cons op ops ih =>
      have hnext : (machine atomicCalls).next
          ⟨⟨world, ctx⟩, ble, handler, ⟨[], (op :: ops).map .call⟩, pc, task⟩
          (.callback now) =
            some ⟨⟨op.exec world, ctx⟩, ble, handler, ⟨[], ops.map .call⟩, pc,
              task⟩ := rfl
      rw [List.length_cons, List.replicate_succ, Machine.run_cons_of_next _ hnext]
      exact ih (op.exec world)

/-- An idle callback task that is given a write does what `handle` says, and is
idle again. -/
theorem run_write (d : Delivery) (now : UInt32) (s : State)
    (hlink : 0 < s.ble.links) (hidle : s.handler = none) :
    ∃ k, (machine atomicCalls).run s
        (Event.write d.uuid (some d.raw) ::
          (List.replicate k (Event.callback now) ++ [Event.callback now])) =
      some
        { s with
          world := d.handle s.world
          callback := Thread.done } := by
  have hwrite : (machine atomicCalls).next s (.write d.uuid (some d.raw)) =
      some
        { s with
          handler := some .onWrite
          callback := ⟨[], onWrite d.uuid (some d.raw)⟩ } :=
    if_pos ⟨hlink, hidle⟩
  refine ⟨(controllerCalls d.uuid (some d.raw)).length, ?_⟩
  rw [Machine.run_cons_of_next _ hwrite, Machine.run_append,
    run_callbackCalls now _ _ rfl, Option.bind_some]
  -- the handler returns, which leaves the task as idle as it was
  show some _ = _
  rw [← hidle]
  rfl

namespace Delivery

variable {d : Delivery}

/-- What a write does to a readout, with the shape of the handler and of the two
refusals forgotten. -/
def effect (d : Delivery) (r : Readout) : Readout :=
  if d.uuid = characteristicUuidSetDriveModes then
    match d.mode with
    | .forward =>
        { r with mode := .forward, drivePins := (.low, .high), driveDuty := d.duty }
    | .backward =>
        { r with mode := .backward, drivePins := (.high, .low), driveDuty := d.duty }
    | .stop => { r with mode := .stop, drivePins := (.low, .low) }
    | _ =>
        { r with
          mode := .stop
          drivePins := (.low, .low)
          steeringPins := (.low, .low) }
  else if d.uuid = characteristicUuidSteering then
    if byteAt d.raw 0 = 0x4C then
      { r with steeringDuty := d.duty, steeringPins := (.high, .low) }
    else if byteAt d.raw 0 = 0x52 then
      { r with steeringDuty := d.duty, steeringPins := (.low, .high) }
    else r
  else r

/-- A drive write refines its effect. -/
theorem readout_handle_drive (h : d.uuid = characteristicUuidSetDriveModes)
    (w : World) : (d.handle w).readout = d.effect w.readout := by
  obtain ⟨m, hm⟩ : ∃ m, d.mode = m := ⟨_, rfl⟩
  have hbyte : DriveMode.ofByte (byteAt d.raw 0) = m := hm
  rw [handle, readout_execAll, effect, if_pos h, controllerCalls, if_pos h, hm]
  simp only [BLERCCarPacket.getDriveMode, BLERCCarPacket.ofPayload, hbyte]
  -- the speed of a refused mode is refused in its turn, by the stop
  cases m <;> simp [Op.effect, duty]

/-- A steering write refines its effect. -/
theorem readout_handle_steering (h : d.uuid = characteristicUuidSteering)
    (w : World) : (d.handle w).readout = d.effect w.readout := by
  have hne : d.uuid ≠ characteristicUuidSetDriveModes := by
    rw [h]
    exact steering_ne_setDriveModes
  rw [handle, readout_execAll, effect, if_neg hne, if_pos h, controllerCalls,
    if_neg hne, if_pos h]
  simp only [BLERCCarPacket.ofPayload]
  by_cases hleft : byteAt d.raw 0 = 0x4C
  · simp [hleft, Op.effect, duty]
  · by_cases hright : byteAt d.raw 0 = 0x52 <;>
      simp [hleft, hright, Op.effect, duty]

/-- What the handler does to a car is the effect of the write on its readout. -/
theorem readout_handle (d : Delivery) (w : World) :
    (d.handle w).readout = d.effect w.readout := by
  by_cases hdrive : d.uuid = characteristicUuidSetDriveModes
  · exact readout_handle_drive hdrive w
  · by_cases hsteer : d.uuid = characteristicUuidSteering
    · exact readout_handle_steering hsteer w
    · simp [handle, effect, controllerCalls, execAll, hdrive, hsteer]

end Delivery

theorem readout_handleAll (ds : List Delivery) (w : World) :
    (handleAll ds w).readout = ds.foldl (fun r d => d.effect r) w.readout := by
  induction ds generalizing w with
  | nil => rfl
  | cons d ds ih =>
      rw [List.foldl_cons, ← Delivery.readout_handle]
      exact ih (d.handle w)

/-! ## Two streams -/

namespace Delivery

/-- A drive write that names one of the modes a driver can ask for. -/
structure Drives (d : Delivery) : Prop where
  uuid : d.uuid = characteristicUuidSetDriveModes
  mode : d.mode = .forward ∨ d.mode = .backward ∨ d.mode = .stop

/-- A steering write, whatever its bytes are. -/
structure Steers (d : Delivery) : Prop where
  uuid : d.uuid = characteristicUuidSteering

variable {d d' : Delivery}

theorem Steers.ne_setDriveModes (h : d.Steers) :
    d.uuid ≠ characteristicUuidSetDriveModes := by
  rw [h.uuid]
  exact steering_ne_setDriveModes

theorem Drives.controllerCalls_eq (h : d.Drives) :
    controllerCalls d.uuid (some d.raw) =
      [.setDriveMode d.mode, .setSpeed (byteAt d.raw 1)] := by
  have hbyte : DriveMode.ofByte (byteAt d.raw 0) = d.mode := rfl
  simp only [controllerCalls, if_pos h.uuid, BLERCCarPacket.getDriveMode,
    BLERCCarPacket.ofPayload, hbyte]
  rcases h.mode with hm | hm | hm <;> simp [hm]

theorem Drives.staysIn (h : d.Drives) :
    ∀ op ∈ controllerCalls d.uuid (some d.raw), op.StaysIn .driveShaft := by
  intro op hop
  simp only [h.controllerCalls_eq, List.mem_cons, List.not_mem_nil,
    or_false] at hop
  rcases hop with rfl | rfl
  · exact staysIn_setDriveMode h.mode
  · exact staysIn_setSpeed _

theorem Steers.staysIn (h : d.Steers) :
    ∀ op ∈ controllerCalls d.uuid (some d.raw), op.StaysIn .steering := by
  intro op hop
  simp only [controllerCalls, if_neg h.ne_setDriveModes, if_pos h.uuid,
    List.mem_append] at hop
  rcases hop with hleft | hright
  · split at hleft
    · rw [List.mem_singleton.mp hleft]
      exact staysIn_turnLeft _
    · cases hleft
  · split at hright
    · rw [List.mem_singleton.mp hright]
      exact staysIn_turnRight _
    · cases hright

/-- A drive write and a steering write commute. -/
theorem Drives.commutes (h : d.Drives) (h' : d'.Steers) :
    Commutes (fun w (d : Delivery) => d.handle w) d d' :=
  fun w => execAll_comm h.staysIn h'.staysIn w

/-- The steering half of a readout is not touched by a drive write. -/
theorem Drives.steering_effect (h : d.Drives) (r : Readout) :
    (d.effect r).steeringPins = r.steeringPins ∧
      (d.effect r).steeringDuty = r.steeringDuty := by
  rw [effect, if_pos h.uuid]
  rcases h.mode with hm | hm | hm <;> simp [hm]

/-- The drive half of a readout is not touched by a steering write. -/
theorem Steers.drive_effect (h : d.Steers) (r : Readout) :
    (d.effect r).mode = r.mode ∧ (d.effect r).drivePins = r.drivePins ∧
      (d.effect r).driveDuty = r.driveDuty := by
  rw [effect, if_neg h.ne_setDriveModes, if_pos h.uuid]
  split
  · exact ⟨rfl, rfl, rfl⟩
  · split <;> exact ⟨rfl, rfl, rfl⟩

end Delivery

/-- What no write of a sequence touches, the sequence does not touch. -/
theorem view_handleAll {β : Type} (view : Readout → β) {ds : List Delivery}
    (h : ∀ d ∈ ds, ∀ r, view (d.effect r) = view r) (w : World) :
    view (handleAll ds w).readout = view w.readout := by
  induction ds generalizing w with
  | nil => rfl
  | cons d ds ih =>
      have htail : view (handleAll ds (d.handle w)).readout =
          view (d.handle w).readout := by
        apply ih
        intro d' hd'
        exact h d' (List.mem_cons_of_mem d hd')
      have hhead : view (d.handle w).readout = view w.readout := by
        rw [d.readout_handle w]
        exact h d List.mem_cons_self w.readout
      exact htail.trans hhead

/-- What a merge of drive writes `drives` and steering writes `steers` should
leave behind: one state for all merges, whose drive half is that of `drives`
alone and whose steering half is that of `steers` alone. -/
structure Independent (w : World) (drives steers merged : List Delivery) :
    Prop where
  same : handleAll merged w = handleAll (drives ++ steers) w
  mode : (handleAll merged w).readout.mode = (handleAll drives w).readout.mode
  drivePins : (handleAll merged w).readout.drivePins =
    (handleAll drives w).readout.drivePins
  driveDuty : (handleAll merged w).readout.driveDuty =
    (handleAll drives w).readout.driveDuty
  steeringPins : (handleAll merged w).readout.steeringPins =
    (handleAll steers w).readout.steeringPins
  steeringDuty : (handleAll merged w).readout.steeringDuty =
    (handleAll steers w).readout.steeringDuty

/--
However a stream of drive writes and a stream of steering writes are merged,
the car and its board end up in the state in which one stream after the other
leaves them, and each stream decides its own half of the car.
-/
theorem independent_handleAll (w : World) {drives steers merged : List Delivery}
    (hdrives : ∀ d ∈ drives, d.Drives) (hsteers : ∀ d ∈ steers, d.Steers)
    (hmerged : Interleaved drives steers merged) :
    Independent w drives steers merged := by
  have hcomm : ∀ d ∈ drives, ∀ d' ∈ steers,
      Commutes (fun w (d : Delivery) => d.handle w) d d' :=
    fun d hd d' hd' => (hdrives d hd).commutes (hsteers d' hd')
  have hsteerLast : handleAll merged w =
      handleAll steers (handleAll drives w) :=
    foldl_interleaved hmerged hcomm w
  have hdriveLast : handleAll merged w =
      handleAll drives (handleAll steers w) :=
    hsteerLast.trans (foldl_comm hcomm w).symm
  have hdrive : ∀ d ∈ steers, ∀ r : Readout,
      (d.effect r).mode = r.mode ∧ (d.effect r).drivePins = r.drivePins ∧
        (d.effect r).driveDuty = r.driveDuty :=
    fun d hd r => (hsteers d hd).drive_effect r
  have hsteering : ∀ d ∈ drives, ∀ r : Readout,
      (d.effect r).steeringPins = r.steeringPins ∧
        (d.effect r).steeringDuty = r.steeringDuty :=
    fun d hd r => (hdrives d hd).steering_effect r
  refine
    { same := hsteerLast.trans (handleAll_append drives steers w).symm
      mode := ?_
      drivePins := ?_
      driveDuty := ?_
      steeringPins := ?_
      steeringDuty := ?_ }
  · rw [hsteerLast]
    exact view_handleAll Readout.mode (fun d hd r => (hdrive d hd r).1) _
  · rw [hsteerLast]
    exact view_handleAll Readout.drivePins (fun d hd r => (hdrive d hd r).2.1) _
  · rw [hsteerLast]
    exact view_handleAll Readout.driveDuty (fun d hd r => (hdrive d hd r).2.2) _
  · rw [hdriveLast]
    exact view_handleAll Readout.steeringPins
      (fun d hd r => (hsteering d hd r).1) _
  · rw [hdriveLast]
    exact view_handleAll Readout.steeringDuty
      (fun d hd r => (hsteering d hd r).2) _

/-- Forward at 80 and stop, merged with left by 50, nonsense, and right by 0. -/
theorem independent_handleAll_weaving :
    Independent World.powerUp
      [⟨characteristicUuidSetDriveModes, [1, 80], []⟩,
        ⟨characteristicUuidSetDriveModes, [5], [7]⟩]
      [⟨characteristicUuidSteering, [0x4C, 50], []⟩,
        ⟨characteristicUuidSteering, [], [0x52]⟩,
        ⟨characteristicUuidSteering, [0x52], [9]⟩]
      [⟨characteristicUuidSteering, [0x4C, 50], []⟩,
        ⟨characteristicUuidSetDriveModes, [1, 80], []⟩,
        ⟨characteristicUuidSteering, [], [0x52]⟩,
        ⟨characteristicUuidSteering, [0x52], [9]⟩,
        ⟨characteristicUuidSetDriveModes, [5], [7]⟩] := by
  refine independent_handleAll World.powerUp (fun d hd => ?_) (fun d hd => ?_)
    (.right _ (.left _ (.right _ (.right _ (.left _ .nil)))))
  · simp only [List.mem_cons, List.not_mem_nil, or_false] at hd
    rcases hd with rfl | rfl
    · exact ⟨rfl, .inl rfl⟩
    · exact ⟨rfl, .inr (.inr rfl)⟩
  · simp only [List.mem_cons, List.not_mem_nil, or_false] at hd
    rcases hd with rfl | rfl | rfl <;> exact ⟨rfl⟩

/-! ## Any bytes -/

namespace Delivery

/-- What a drive write makes of mode and drive pins, if it is one.  Every first
byte that names neither direction stops the car. -/
def motion (d : Delivery) : Option (DriveMode × (Level × Level)) :=
  if d.uuid = characteristicUuidSetDriveModes then
    some
      (match d.mode with
        | .forward => (.forward, (.low, .high))
        | .backward => (.backward, (.high, .low))
        | _ => (.stop, (.low, .low)))
  else none

/-- What a drive write makes of the drive duty, if its first byte names a
direction. -/
def throttle (d : Delivery) : Option Int :=
  if d.uuid = characteristicUuidSetDriveModes ∧
      (d.mode = .forward ∨ d.mode = .backward) then some d.duty
  else none

/-- A drive write that names no mode a driver can ask for. -/
structure Refused (d : Delivery) : Prop where
  uuid : d.uuid = characteristicUuidSetDriveModes
  mode : d.mode ≠ .forward ∧ d.mode ≠ .backward ∧ d.mode ≠ .stop

/-- A steering write that starts with neither `L` nor `R`. -/
structure Unreadable (d : Delivery) : Prop where
  uuid : d.uuid = characteristicUuidSteering
  command : byteAt d.raw 0 ≠ 0x4C ∧ byteAt d.raw 0 ≠ 0x52

theorem written_motion :
    Written (fun r : Readout => (r.mode, r.drivePins))
      (fun r (d : Delivery) => d.effect r) motion := by
  intro r d
  by_cases hdrive : d.uuid = characteristicUuidSetDriveModes
  · simp only [effect, motion, if_pos hdrive, Option.getD_some]
    cases d.mode <;> rfl
  · simp only [effect, motion, if_neg hdrive, Option.getD_none]
    split
    · split
      · rfl
      · split <;> rfl
    · rfl

theorem written_throttle :
    Written Readout.driveDuty (fun r (d : Delivery) => d.effect r) throttle := by
  intro r d
  by_cases hdrive : d.uuid = characteristicUuidSetDriveModes
  · simp only [effect, throttle, hdrive, true_and]
    cases d.mode <;> simp
  · simp only [effect, throttle, hdrive, false_and, if_false, Option.getD_none]
    split
    · split
      · rfl
      · split <;> rfl
    · rfl

theorem Refused.steeringPins_handle {d : Delivery} (h : d.Refused) (w : World) :
    (d.handle w).readout.steeringPins = (.low, .low) := by
  obtain ⟨hforward, hbackward, hstop⟩ := h.mode
  rw [readout_handle, effect, if_pos h.uuid]
  cases hm : d.mode <;> simp_all

theorem Unreadable.handle_eq {d : Delivery} (h : d.Unreadable) (w : World) :
    d.handle w = w := by
  simp [handle, controllerCalls, execAll, h.uuid, h.command]

end Delivery

/-- What a sequence of writes should do to a car, whatever their bytes are. -/
structure Obeyed (w : World) (ds : List Delivery) : Prop where
  /-- mode and drive pins are decided by the last drive write -/
  motion : ((handleAll ds w).readout.mode, (handleAll ds w).readout.drivePins) =
    (lastWrite Delivery.motion ds).getD (w.readout.mode, w.readout.drivePins)
  /-- the drive duty is decided by the last drive write that names a
  direction -/
  throttle : (handleAll ds w).readout.driveDuty =
    (lastWrite Delivery.throttle ds).getD w.readout.driveDuty
  /-- a refused drive write straightens the wheels when it is handled -/
  refused : ∀ before d after, ds = before ++ d :: after → d.Refused →
    (d.handle (handleAll before w)).readout.steeringPins = (.low, .low)
  /-- an unreadable steering write changes nothing -/
  unreadable : ∀ before d after, ds = before ++ d :: after → d.Unreadable →
    d.handle (handleAll before w) = handleAll before w

/--
Whatever is written to the two characteristics, the car obeys the last drive
write or stands still, and what it cannot read it refuses safely.
-/
theorem obeyed_handleAll (w : World) (ds : List Delivery) : Obeyed w ds :=
  { motion := by
      rw [readout_handleAll]
      exact Delivery.written_motion.foldl w.readout ds
    throttle := by
      rw [readout_handleAll]
      exact Delivery.written_throttle.foldl w.readout ds
    refused := fun before _ _ _ h => h.steeringPins_handle (handleAll before w)
    unreadable := fun before _ _ _ h => h.handle_eq (handleAll before w) }

/-- An empty value stops the car, even if a drive packet lies behind it. -/
example : (Delivery.mk characteristicUuidSetDriveModes [] [1, 80]).motion =
    some (.stop, (.low, .low)) := by
  decide

end BLERCCar.Server
