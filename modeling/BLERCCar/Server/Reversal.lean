import BLERCCar.Lib.Machine
import BLERCCar.Server.Car

/-!
# Direction inputs in the middle of an operation

A motor driver must not see both direction inputs of a motor high.  Every
operation of `Car` ends with at most one of them high, but it gets there in two
separate writes, and in between the second input still has the level that the
operation before left on it.

`executed` lists the statements that an operation executes, each with the world
it leaves behind, so that the moments inside an operation can be spoken about.

## Main results

* `getLast_executed`: the last of these worlds is the one the operation ends
  in.
* `neverBoth_iff_noReversal`: no moment of a sequence of operations has both
  inputs of a motor high exactly if the car is never told to reverse a motor
  whose `Pin2` is high by an operation that raises `Pin1` first.
-/

namespace BLERCCar.Server

open BLERCCar.Lib

/-! ## The moments of a call -/

/-- The statements of a call that are executed, each with the world it leaves
behind. -/
def executed : List Instr → World → List (Instr × World)
  | [], _ => []
  | .returnIfStopped :: rest, w =>
      (.returnIfStopped, w) ::
        if w.car.mode = .stop then [] else executed rest w
  | i :: rest, w => (i, i.exec w) :: executed rest (i.exec w)

/-- The last statement executed leaves the world in which the call ends. -/
theorem getLast_executed (call : List Instr) (w : World) :
    ((executed call w).map Prod.snd).getLastD w = run call w := by
  induction call generalizing w with
  | nil => rfl
  | cons i rest ih =>
      cases i with
      | returnIfStopped =>
          by_cases hstop : w.car.mode = .stop
          · simp [executed, run, hstop]
          · simp only [executed, run, if_neg hstop, List.map_cons,
              List.getLastD_cons]
            exact ih w
      | _ =>
          simp only [executed, run, List.map_cons, List.getLastD_cons]
          exact ih _

/-- A `digitalWrite`. -/
def Instr.WritesPin : Instr → Prop
  | .digitalWrite _ _ _ => True
  | _ => False

instance : DecidablePred Instr.WritesPin
  | .digitalWrite _ _ _ => .isTrue trivial
  | .assignMode _ | .assignDuty _ _ | .ledcWrite _ | .returnIfStopped =>
      .isFalse id

/-! ## One operation -/

/-- No motor has both direction inputs high. -/
structure Readout.Clear (r : Readout) : Prop where
  drive : r.drivePins ≠ (.high, .high)
  steering : r.steeringPins ≠ (.high, .high)

theorem Readout.clear_iff (r : Readout) :
    r.Clear ↔ r.drivePins ≠ (.high, .high) ∧ r.steeringPins ≠ (.high, .high) :=
  ⟨fun h => ⟨h.drive, h.steering⟩, fun h => ⟨h.1, h.2⟩⟩

instance (r : Readout) : Decidable r.Clear :=
  decidable_of_iff _ r.clear_iff.symm

/-- After every single `digitalWrite` of the operation, no motor has both
direction inputs high. -/
def NeverBoth (w : World) (op : Op) : Prop :=
  ∀ moment ∈ executed op.body w, moment.1.WritesPin → moment.2.readout.Clear

instance (w : World) (op : Op) : Decidable (NeverBoth w op) :=
  inferInstanceAs (Decidable (∀ moment ∈ executed op.body w,
    moment.1.WritesPin → moment.2.readout.Clear))

/-- The operation does not raise `Pin1` of a motor whose `Pin2` is still
high. -/
def NoReversal (w : World) : Op → Prop
  | .setDriveMode .backward => w.pin .driveShaft .pin2 = .low
  | .turnLeft percentage => percentage = 0 ∨ w.pin .steering .pin2 = .low
  | _ => True

theorem level_ne_high_iff (level : Level) : level ≠ .high ↔ level = .low := by
  cases level <;> simp

/-- Every operation ends with at most one input of each motor high. -/
theorem Readout.Clear.exec {w : World} (h : w.readout.Clear) (op : Op) :
    (op.exec w).readout.Clear := by
  rw [readout_exec]
  cases op with
  | setSpeed s =>
      simp only [Op.effect]
      split
      · exact h
      · exact { h with }
  | setDriveMode m =>
      cases m with
      | forward => exact { h with drive := by simp [Op.effect] }
      | backward => exact { h with drive := by simp [Op.effect] }
      | stop => exact { h with drive := by simp [Op.effect] }
      | _ => constructor <;> simp [Op.effect]
  | _ => exact { h with steering := by simp [Op.effect] }

/-- A statement that raises no pin cannot get in the way. -/
theorem Readout.Clear.effect {r : Readout} (h : r.Clear) {i : Instr}
    (hi : ∀ motor pin, i ≠ .digitalWrite motor pin .high) :
    (i.effect r).Clear := by
  cases i with
  | digitalWrite motor pin level =>
      cases level with
      | high => exact absurd rfl (hi motor pin)
      | low =>
          cases motor <;> cases pin
          · exact { h with drive := by simp [Instr.effect, Readout.setPin] }
          · exact { h with drive := by simp [Instr.effect, Readout.setPin] }
          · exact { h with steering := by simp [Instr.effect, Readout.setPin] }
          · exact { h with steering := by simp [Instr.effect, Readout.setPin] }
  | assignDuty motor speed => cases motor <;> exact { h with }
  | _ => exact { h with }

/-- Nor can a call that raises none, at any of its moments. -/
theorem clear_of_mem_executed {call : List Instr} {w : World}
    (h : w.readout.Clear)
    (hcall : ∀ i ∈ call, ∀ motor pin, i ≠ .digitalWrite motor pin .high) :
    ∀ moment ∈ executed call w, moment.2.readout.Clear := by
  induction call generalizing w with
  | nil => exact fun _ hmem => absurd hmem List.not_mem_nil
  | cons i rest ih =>
      obtain ⟨hfirst, hrest⟩ := List.forall_mem_cons.mp hcall
      have hi : (i.exec w).readout.Clear := by
        rw [readout_instr_exec]
        exact h.effect hfirst
      cases i with
      | returnIfStopped =>
          refine List.forall_mem_cons.mpr ⟨h, fun moment hmem => ?_⟩
          split at hmem
          · cases hmem
          · exact ih h hrest moment hmem
      | _ => exact List.forall_mem_cons.mpr ⟨hi, ih hi hrest⟩

theorem neverBoth_of_raises_none {w : World} {op : Op} (h : w.readout.Clear)
    (hbody : ∀ i ∈ op.body, ∀ motor pin, i ≠ .digitalWrite motor pin .high) :
    NeverBoth w op := fun moment hmem _ =>
  clear_of_mem_executed h hbody moment hmem

/-- Turning left raises `Pin1` first, unless the wheels are straightened
before. -/
theorem neverBoth_turnLeft_iff {w : World} (h : w.readout.Clear)
    (p : UInt8) : NeverBoth w (.turnLeft p) ↔ NoReversal w (.turnLeft p) := by
  have hpin : w.readout.steeringPins.2 = w.pin .steering .pin2 := rfl
  by_cases hp : p = 0
  · simp [NeverBoth, NoReversal, hp, Op.body, Car.turnLeft, Car.zeroSteer,
      Motor.setSpeed, executed, Readout.clear_iff, readout_instr_exec,
      Instr.effect, Readout.setPin, Readout.setDuty, Instr.WritesPin, h.drive]
  · simp [NeverBoth, NoReversal, hp, Op.body, Car.turnLeft, Motor.setSpeed,
      executed, Readout.clear_iff, readout_instr_exec, Instr.effect,
      Readout.setPin, Readout.setDuty, Instr.WritesPin, h.drive, hpin,
      ← level_ne_high_iff]

/-- Turning right lowers `Pin1` first. -/
theorem neverBoth_turnRight {w : World} (h : w.readout.Clear) (p : UInt8) :
    NeverBoth w (.turnRight p) := by
  by_cases hp : p = 0 <;>
    simp [NeverBoth, hp, Op.body, Car.turnRight, Car.zeroSteer, Motor.setSpeed,
      executed, Readout.clear_iff, readout_instr_exec, Instr.effect,
      Readout.setPin, Readout.setDuty, Instr.WritesPin, h.drive]

/-- Setting the speed writes no pin. -/
theorem neverBoth_setSpeed (w : World) (s : UInt8) :
    NeverBoth w (.setSpeed s) := by
  by_cases hstop : w.car.mode = .stop <;>
    simp [NeverBoth, Op.body, Car.setSpeed, Motor.setSpeed, executed, hstop,
      Instr.WritesPin]

/-- Of the drive modes, only `Backward` raises `Pin1` first. -/
theorem neverBoth_setDriveMode_iff {w : World} (h : w.readout.Clear)
    (m : DriveMode) :
    NeverBoth w (.setDriveMode m) ↔ NoReversal w (.setDriveMode m) := by
  have hpin : w.readout.drivePins.2 = w.pin .driveShaft .pin2 := rfl
  cases m with
  | forward =>
      simp [NeverBoth, NoReversal, Op.body, Car.setDriveMode, Car.moveForward,
        executed, Readout.clear_iff, readout_instr_exec, Instr.effect,
        Readout.setPin, Instr.WritesPin, h.steering]
  | backward =>
      simp [NeverBoth, NoReversal, Op.body, Car.setDriveMode, Car.moveBackward,
        executed, Readout.clear_iff, readout_instr_exec, Instr.effect,
        Readout.setPin, Instr.WritesPin, h.steering, hpin, ← level_ne_high_iff]
  | _ =>
      -- every other mode stops the car
      refine iff_of_true (neverBoth_of_raises_none h ?_) trivial
      simp [Op.body, Car.setDriveMode, Car.stop, Car.zeroSteer]

/-- An operation passes through a moment with both inputs high exactly if it
reverses a motor. -/
theorem neverBoth_iff {w : World} (h : w.readout.Clear) (op : Op) :
    NeverBoth w op ↔ NoReversal w op := by
  cases op with
  | turnLeft p => exact neverBoth_turnLeft_iff h p
  | turnRight p => exact iff_of_true (neverBoth_turnRight h p) trivial
  | setSpeed s => exact iff_of_true (neverBoth_setSpeed w s) trivial
  | setDriveMode m => exact neverBoth_setDriveMode_iff h m

/-! ## Sequences of operations -/

/-- The car as a machine whose events are whole operations. -/
def operations : Machine World Op where
  init := World.powerUp
  next w op := some (op.exec w)

theorem run_operations (w : World) (ops : List Op) :
    operations.run w ops = some (execAll ops w) := by
  induction ops generalizing w with
  | nil => rfl
  | cons op ops ih => exact ih (op.exec w)

/--
From a car with all motor pins low, no `digitalWrite` of a sequence of
operations leaves both inputs of a motor high exactly if no operation of the
sequence reverses a motor by raising `Pin1` first.
-/
theorem neverBoth_iff_noReversal (w : World)
    (hlow : ∀ motor pin, w.pin motor pin = .low) (ops : List Op) :
    operations.EveryStep NeverBoth w ops ↔
      operations.EveryStep NoReversal w ops := by
  apply Machine.everyStep_congr (I := fun w => w.readout.Clear)
  · intro w op w' hclear hnext
    cases hnext
    exact hclear.exec op
  · intro w op hclear
    exact neverBoth_iff hclear op
  · constructor <;> simp [World.readout, hlow]

theorem neverBoth_iff_noReversal_powerUp :
    operations.EveryStep NeverBoth World.powerUp
        [.setDriveMode .backward, .turnLeft 50] ↔
      operations.EveryStep NoReversal World.powerUp
        [.setDriveMode .backward, .turnLeft 50] :=
  neverBoth_iff_noReversal World.powerUp (fun motor pin => by rfl) _

/-- Going backward straight from going forward has both inputs of the drive
shaft high for a moment. -/
theorem not_neverBoth_forward_backward :
    ¬ operations.EveryStep NeverBoth World.powerUp
      [.setDriveMode .forward, .setDriveMode .backward] := by
  decide

end BLERCCar.Server
