import BLERCCar.Common.DriveMode
import BLERCCar.Server.Motor

/-!
# The car

`class Car` of `Car.hpp` on its board.  Two tasks of the server call into the
same `Car` without a lock, so what matters about an operation is not only its
result but the order of its single writes.  An operation is therefore kept as
the list of its statements (`Instr`), and its sequential meaning is obtained
by running that list.  Printing is left out.

A statement reads the pin and channel numbers out of the `Car` when it is
executed, as the source does.  `Car` carries the proof that they are those of
`initMotors`, so that no write to one pin can hit another.

## Main results

* `run_eq_stepCall`: running an operation is running it one statement at a
  time.
* `readout_run`: the statements act on the seven observable values of a car
  (`Readout`) independently of everything else on the board.
* `readout_exec`: every operation refines its effect on a `Readout`.
-/

namespace BLERCCar.Server

/-! ## Car and world -/

/-- The wiring set up by `initMotors`. -/
structure Wired (driveShaft steering : Motor) : Prop where
  drivePin1 : driveShaft.pin1 = 0
  drivePin2 : driveShaft.pin2 = 2
  driveChannel : driveShaft.pwmChannel = 0
  steeringPin1 : steering.pin1 = 16
  steeringPin2 : steering.pin2 = 4
  steeringChannel : steering.pwmChannel = 1

/-- `class Car` once its constructor has run. -/
structure Car where
  mode : DriveMode
  driveShaft : Motor
  steering : Motor
  wired : Wired driveShaft steering

/-- The two motors of the car. -/
inductive MotorName where
  | driveShaft
  | steering
  deriving DecidableEq

/-- `Car::Car` and `initMotors`. -/
def Car.construct : Car where
  mode := .stop
  driveShaft := { pin1 := 0, pin2 := 2, enable1Pin := 15, pwmChannel := 0 }
  steering := { pin1 := 16, pin2 := 4, enable1Pin := 17, pwmChannel := 1 }
  wired := ⟨rfl, rfl, rfl, rfl, rfl, rfl⟩

def Car.motor (c : Car) : MotorName → Motor
  | .driveShaft => c.driveShaft
  | .steering => c.steering

/-- Assign `m_Pwmduty` of one motor. -/
def Car.assignDuty (c : Car) (name : MotorName) (duty : Int) : Car :=
  match name with
  | .driveShaft =>
      { c with
        driveShaft := { c.driveShaft with pwmduty := duty }
        wired := { c.wired with } }
  | .steering =>
      { c with
        steering := { c.steering with pwmduty := duty }
        wired := { c.wired with } }

/-- The `Car` object together with the board it drives. -/
structure World where
  car : Car
  board : Board

/-- The world once `setup` has constructed the car: output pins are low at
power-up, and the two `Motor` constructors set their PWM registers. -/
def World.powerUp : World where
  car := Car.construct
  board :=
    ((Board.mk (fun _ => .low) (fun _ => 0)).ledcWrite
      Car.construct.driveShaft.pwmChannel Car.construct.driveShaft.pwmduty).ledcWrite
      Car.construct.steering.pwmChannel Car.construct.steering.pwmduty

/-- `Icontroller::CurrentDriveMode`. -/
def World.currentDriveMode (w : World) : DriveMode := w.car.mode

/-- The level of one direction input of one motor. -/
def World.pin (w : World) (name : MotorName) (pin : PinName) : Level :=
  w.board.gpio ((w.car.motor name).pin pin)

/-! ## Statements -/

/-- The statements that the operations of `Car` are made of. -/
inductive Instr where
  /-- `m_Mode = mode` -/
  | assignMode (mode : DriveMode)
  /-- `digitalWrite(motor.Pin, level)` -/
  | digitalWrite (motor : MotorName) (pin : PinName) (level : Level)
  /-- `m_Pwmduty = speedPercentageToDutyCycle(speed)` -/
  | assignDuty (motor : MotorName) (speed : UInt8)
  /-- `ledcWrite(m_PwmChannel, m_Pwmduty)` -/
  | ledcWrite (motor : MotorName)
  /-- `if (m_Mode == Stop) return` -/
  | returnIfStopped
  deriving DecidableEq

/-- Execute one statement.  The early return changes nothing by itself. -/
def Instr.exec : Instr → World → World
  | .assignMode mode, w => { w with car := { w.car with mode := mode } }
  | .digitalWrite motor pin level, w =>
      { w with
        board := w.board.digitalWrite ((w.car.motor motor).pin pin) level }
  | .assignDuty motor speed, w =>
      { w with
        car := w.car.assignDuty motor (speedPercentageToDutyCycle speed) }
  | .ledcWrite motor, w =>
      { w with
        board := w.board.ledcWrite (w.car.motor motor).pwmChannel
          (w.car.motor motor).pwmduty }
  | .returnIfStopped, w => w

/-- The statements of the call that remain after its first one. -/
def Instr.after : Instr → List Instr → World → List Instr
  | .returnIfStopped, rest, w => if w.car.mode = .stop then [] else rest
  | _, rest, _ => rest

/-- An early return only ever shortens a call. -/
theorem Instr.after_sublist (i : Instr) (rest : List Instr) (w : World) :
    (i.after rest w).Sublist rest := by
  cases i with
  | returnIfStopped =>
      simp only [Instr.after]
      split
      · exact List.nil_sublist rest
      · exact List.Sublist.refl rest
  | _ => exact List.Sublist.refl rest

/-- Run a whole call. -/
def run : List Instr → World → World
  | [], w => w
  | .returnIfStopped :: rest, w => if w.car.mode = .stop then w else run rest w
  | i :: rest, w => run rest (i.exec w)

@[simp] theorem run_nil (w : World) : run [] w = w := rfl

/-- Running a call is executing its first statement and running what is left
of the call then. -/
theorem run_eq_stepCall (i : Instr) (rest : List Instr) (w : World) :
    run (i :: rest) w = run (i.after rest w) (i.exec w) := by
  cases i with
  | returnIfStopped =>
      by_cases h : w.car.mode = .stop <;> simp [run, Instr.exec, Instr.after, h]
  | _ => rfl

/-- A property of the world that all statements of a call keep is kept by the
call. -/
theorem run_keeps {p : Instr → Prop} {J : World → Prop}
    (hexec : ∀ i w, p i → J w → J (i.exec w)) {call : List Instr} {w : World}
    (hcall : ∀ i ∈ call, p i) (h : J w) : J (run call w) := by
  induction call generalizing w with
  | nil => exact h
  | cons i rest ih =>
      have hrest : ∀ j ∈ rest, p j := fun j hj =>
        hcall j (List.mem_cons_of_mem i hj)
      have hi : J (i.exec w) := hexec i w (hcall i List.mem_cons_self) h
      cases i with
      | returnIfStopped =>
          simp only [run]
          split
          · exact h
          · exact ih hrest h
      | _ => exact ih hrest hi

/-! ## Operations -/

/-- `Motor::SetSpeed`. -/
def Motor.setSpeed (motor : MotorName) (speed : UInt8) : List Instr :=
  [.assignDuty motor speed, .ledcWrite motor]

namespace Car

/-- `Car::SetSpeed`. -/
def setSpeed (speed : UInt8) : List Instr :=
  .returnIfStopped :: Motor.setSpeed .driveShaft speed

/-- `Car::zeroSteer`. -/
def zeroSteer : List Instr :=
  [.digitalWrite .steering .pin1 .low, .digitalWrite .steering .pin2 .low]

/-- `Car::stop`. -/
def stop (zeroSteering : Bool) : List Instr :=
  [.digitalWrite .driveShaft .pin1 .low, .digitalWrite .driveShaft .pin2 .low] ++
    if zeroSteering then zeroSteer else []

/-- `Car::moveForward`. -/
def moveForward : List Instr :=
  [.digitalWrite .driveShaft .pin1 .low, .digitalWrite .driveShaft .pin2 .high]

/-- `Car::moveBackward`. -/
def moveBackward : List Instr :=
  [.digitalWrite .driveShaft .pin1 .high, .digitalWrite .driveShaft .pin2 .low]

/-- `Car::TurnLeft`. -/
def turnLeft (percentage : UInt8) : List Instr :=
  (if percentage = 0 then zeroSteer else []) ++
    Motor.setSpeed .steering percentage ++
    [.digitalWrite .steering .pin1 .high, .digitalWrite .steering .pin2 .low]

/-- `Car::TurnRight`. -/
def turnRight (percentage : UInt8) : List Instr :=
  (if percentage = 0 then zeroSteer else []) ++
    Motor.setSpeed .steering percentage ++
    [.digitalWrite .steering .pin1 .low, .digitalWrite .steering .pin2 .high]

/-- `Car::SetDriveMode`. -/
def setDriveMode (mode : DriveMode) : List Instr :=
  match mode with
  | .forward => .assignMode mode :: moveForward
  | .backward => .assignMode mode :: moveBackward
  | .stop => .assignMode mode :: stop false
  | .disconnectionStop => .assignMode mode :: stop true
  | _ => .assignMode .stop :: stop true

end Car

/-- The calls that the server makes through `Icontroller`. -/
inductive Op where
  | turnLeft (percentage : UInt8)
  | turnRight (percentage : UInt8)
  | setSpeed (speed : UInt8)
  | setDriveMode (mode : DriveMode)
  deriving DecidableEq

namespace Op

/-- The statements behind a call. -/
def body : Op → List Instr
  | turnLeft percentage => Car.turnLeft percentage
  | turnRight percentage => Car.turnRight percentage
  | setSpeed speed => Car.setSpeed speed
  | setDriveMode mode => Car.setDriveMode mode

/-- The modes that `SetDriveMode` assigns. -/
def Settled (mode : DriveMode) : Prop :=
  mode = .forward ∨ mode = .backward ∨ mode = .stop ∨ mode = .disconnectionStop

/-- None of them is the sentinel that the connectivity task starts from. -/
theorem Settled.ne_initial {mode : DriveMode} (h : Settled mode) :
    mode ≠ .initialConenction := by
  rcases h with rfl | rfl | rfl | rfl <;> decide

/-- The statements of a turn: it is given its amount, and writes steering
pins. -/
theorem mem_body_turn {i : Instr} {p : UInt8}
    (h : i ∈ body (turnLeft p) ∨ i ∈ body (turnRight p)) :
    i = .assignDuty .steering p ∨ i = .ledcWrite .steering ∨
      ∃ pin level, i = .digitalWrite .steering pin level := by
  rcases h with h | h <;> by_cases hp : p = 0 <;>
    simp only [body, Car.turnLeft, Car.turnRight, Car.zeroSteer, Motor.setSpeed,
      if_pos, if_neg, hp, not_false_eq_true, List.cons_append, List.nil_append,
      List.mem_cons, List.not_mem_nil, or_false] at h ⊢ <;>
    grind

/-- The statements of `SetSpeed`. -/
theorem mem_body_setSpeed {i : Instr} {s : UInt8} (h : i ∈ body (setSpeed s)) :
    i = .returnIfStopped ∨ i = .assignDuty .driveShaft s ∨
      i = .ledcWrite .driveShaft := by
  simpa [body, Car.setSpeed, Motor.setSpeed] using h

/-- The statements of `SetDriveMode`: it assigns a settled mode, and writes
pins. -/
theorem mem_body_setDriveMode {i : Instr} {m : DriveMode}
    (h : i ∈ body (setDriveMode m)) :
    (∃ mode, Settled mode ∧ i = .assignMode mode) ∨
      ∃ motor pin level, i = .digitalWrite motor pin level := by
  cases m <;>
    simp only [body, Car.setDriveMode, Car.moveForward, Car.moveBackward, Car.stop,
      Car.zeroSteer, if_true, if_false, Bool.false_eq_true, List.cons_append,
      List.nil_append, List.mem_cons, List.not_mem_nil, or_false] at h <;>
    grind [Settled]

theorem settled_of_mem_body (op : Op) {mode : DriveMode}
    (h : .assignMode mode ∈ op.body) : Settled mode := by
  cases op with
  | turnLeft p => simpa using mem_body_turn (.inl h)
  | turnRight p => simpa using mem_body_turn (.inr h)
  | setSpeed s => simpa using mem_body_setSpeed h
  | setDriveMode m => simpa using mem_body_setDriveMode h

/-- A call that nothing interrupts. -/
def exec (op : Op) (w : World) : World := run op.body w

end Op

/-- Calls one after the other. -/
def execAll (ops : List Op) (w : World) : World :=
  ops.foldl (fun w op => op.exec w) w

theorem execAll_append (ops ops' : List Op) (w : World) :
    execAll (ops ++ ops') w = execAll ops' (execAll ops w) := by
  simp [execAll, List.foldl_append]

/-! ## What can be observed of a car -/

/-- Drive mode, direction inputs and PWM duties. -/
structure Readout where
  mode : DriveMode
  drivePins : Level × Level
  steeringPins : Level × Level
  driveDuty : Int
  steeringDuty : Int
  deriving DecidableEq

def World.readout (w : World) : Readout where
  mode := w.car.mode
  drivePins := (w.pin .driveShaft .pin1, w.pin .driveShaft .pin2)
  steeringPins := (w.pin .steering .pin1, w.pin .steering .pin2)
  driveDuty := w.car.driveShaft.pwmduty
  steeringDuty := w.car.steering.pwmduty

namespace Readout

/-- Overwrite one direction input. -/
def setPin (r : Readout) : MotorName → PinName → Level → Readout
  | .driveShaft, .pin1, level => { r with drivePins := (level, r.drivePins.2) }
  | .driveShaft, .pin2, level => { r with drivePins := (r.drivePins.1, level) }
  | .steering, .pin1, level =>
      { r with steeringPins := (level, r.steeringPins.2) }
  | .steering, .pin2, level =>
      { r with steeringPins := (r.steeringPins.1, level) }

/-- Overwrite one duty. -/
def setDuty (r : Readout) : MotorName → Int → Readout
  | .driveShaft, duty => { r with driveDuty := duty }
  | .steering, duty => { r with steeringDuty := duty }

end Readout

/-- The effect of one statement on a readout. -/
def Instr.effect : Instr → Readout → Readout
  | .assignMode mode, r => { r with mode := mode }
  | .digitalWrite motor pin level, r => r.setPin motor pin level
  | .assignDuty motor speed, r =>
      r.setDuty motor (speedPercentageToDutyCycle speed)
  | .ledcWrite _, r => r
  | .returnIfStopped, r => r

/-- The effect of a whole call on a readout, with the shape of the source
forgotten: what `Car` is for. -/
def Op.effect : Op → Readout → Readout
  | .turnLeft percentage, r =>
      { r with
        steeringDuty := speedPercentageToDutyCycle percentage
        steeringPins := (.high, .low) }
  | .turnRight percentage, r =>
      { r with
        steeringDuty := speedPercentageToDutyCycle percentage
        steeringPins := (.low, .high) }
  | .setSpeed speed, r =>
      if r.mode = .stop then r
      else { r with driveDuty := speedPercentageToDutyCycle speed }
  | .setDriveMode .forward, r =>
      { r with mode := .forward, drivePins := (.low, .high) }
  | .setDriveMode .backward, r =>
      { r with mode := .backward, drivePins := (.high, .low) }
  | .setDriveMode .stop, r =>
      { r with mode := .stop, drivePins := (.low, .low) }
  | .setDriveMode .disconnectionStop, r =>
      { r with
        mode := .disconnectionStop
        drivePins := (.low, .low)
        steeringPins := (.low, .low) }
  | .setDriveMode _, r =>
      { r with
        mode := .stop
        drivePins := (.low, .low)
        steeringPins := (.low, .low) }

/-! ## Refinement -/

section Wiring

variable (c : Car)

@[simp] theorem drivePin1_eq : c.driveShaft.pin1 = 0 := c.wired.drivePin1
@[simp] theorem drivePin2_eq : c.driveShaft.pin2 = 2 := c.wired.drivePin2
@[simp] theorem driveChannel_eq : c.driveShaft.pwmChannel = 0 :=
  c.wired.driveChannel
@[simp] theorem steeringPin1_eq : c.steering.pin1 = 16 := c.wired.steeringPin1
@[simp] theorem steeringPin2_eq : c.steering.pin2 = 4 := c.wired.steeringPin2
@[simp] theorem steeringChannel_eq : c.steering.pwmChannel = 1 :=
  c.wired.steeringChannel

end Wiring

/-- The wiring makes a write to any pin that is not a direction input
invisible in the readout. -/
theorem readout_digitalWrite_of_ne (w : World) (pin : Int) (level : Level)
    (h0 : pin ≠ 0) (h2 : pin ≠ 2) (h16 : pin ≠ 16) (h4 : pin ≠ 4) :
    World.readout { w with board := w.board.digitalWrite pin level } =
      w.readout := by
  simp [World.readout, World.pin, Car.motor, Motor.pin, Board.digitalWrite,
    Function.update_of_ne, h0.symm, h2.symm, h16.symm, h4.symm]

/-- One statement refines its effect. -/
theorem readout_instr_exec (i : Instr) (w : World) :
    (i.exec w).readout = i.effect w.readout := by
  cases i with
  | assignMode mode => rfl
  | digitalWrite motor pin level =>
      cases motor <;> cases pin <;>
        simp [Instr.exec, Instr.effect, World.readout, World.pin, Car.motor,
          Motor.pin, Board.digitalWrite, Readout.setPin]
  | assignDuty motor speed => cases motor <;> rfl
  | ledcWrite motor => rfl
  | returnIfStopped => rfl

/-- Run a whole call on a readout. -/
def Readout.run : List Instr → Readout → Readout
  | [], r => r
  | .returnIfStopped :: rest, r =>
      if r.mode = .stop then r else Readout.run rest r
  | i :: rest, r => Readout.run rest (i.effect r)

/-- The observable values evolve on their own. -/
theorem readout_run (call : List Instr) (w : World) :
    (run call w).readout = Readout.run call w.readout := by
  induction call generalizing w with
  | nil => rfl
  | cons i rest ih =>
      cases i with
      | returnIfStopped =>
          by_cases h : w.car.mode = .stop
          · simp [Server.run, Readout.run, World.readout, h]
          · simp only [Server.run, Readout.run, if_neg h]
            rw [if_neg (show w.readout.mode ≠ .stop from h)]
            exact ih w
      | _ => exact (ih _).trans (by rw [readout_instr_exec]; rfl)

/-- Every operation of the source refines its effect on a readout. -/
theorem readout_exec (op : Op) (w : World) :
    (op.exec w).readout = op.effect w.readout := by
  rw [Op.exec, readout_run]
  cases op with
  | turnLeft p =>
      by_cases hp : p = 0 <;>
        simp [Op.body, Car.turnLeft, Car.zeroSteer, Motor.setSpeed, hp,
          Readout.run, Instr.effect, Readout.setPin, Readout.setDuty, Op.effect]
  | turnRight p =>
      by_cases hp : p = 0 <;>
        simp [Op.body, Car.turnRight, Car.zeroSteer, Motor.setSpeed, hp,
          Readout.run, Instr.effect, Readout.setPin, Readout.setDuty, Op.effect]
  | setSpeed s => rfl
  | setDriveMode m => cases m <;> rfl

/-- A sequence of operations refines the sequence of their effects. -/
theorem readout_execAll (ops : List Op) (w : World) :
    (execAll ops w).readout = ops.foldl (fun r op => op.effect r) w.readout := by
  induction ops generalizing w with
  | nil => rfl
  | cons op ops ih =>
      rw [List.foldl_cons, ← readout_exec]
      exact ih (op.exec w)

end BLERCCar.Server
