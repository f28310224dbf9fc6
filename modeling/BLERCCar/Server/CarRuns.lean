import BLERCCar.Lib.LastWrite
import BLERCCar.Server.Car

/-!
# Sequences of operations on one car

What holds of a car after any sequence of uninterrupted operations.  All of it
is proved about effects on a `Readout` and carried to the statements of the
source by `readout_execAll`.

## Main results

* `agree_execAll`: drive mode and direction inputs always agree.
* `steeringFollows_iff`: the steering inputs follow the last steering event,
  except that straightening the wheels through `TurnLeft(0)` or `TurnRight(0)`
  leaves them turned.
-/

namespace BLERCCar.Server

open BLERCCar.Lib

/-! ## Mode and direction inputs -/

/-- The drive mode is one that `SetDriveMode` can leave behind, the drive
shaft's inputs are the ones of that mode, and the steering motor is not driven
both ways at once. -/
structure Readout.Agree (r : Readout) : Prop where
  settled : r.mode = .forward ∨ r.mode = .backward ∨ r.mode = .stop ∨
    r.mode = .disconnectionStop
  forward : r.drivePins = (.low, .high) ↔ r.mode = .forward
  backward : r.drivePins = (.high, .low) ↔ r.mode = .backward
  otherwise : r.mode ≠ .forward → r.mode ≠ .backward →
    r.drivePins = (.low, .low)
  steering : r.steeringPins ≠ (.high, .high)

/-- Turning only touches the steering motor. -/
private theorem agree_steer {r : Readout} (h : r.Agree) (duty : Int)
    {pins : Level × Level} (hpins : pins ≠ (.high, .high)) :
    Readout.Agree { r with steeringDuty := duty, steeringPins := pins } :=
  { settled := h.settled
    forward := h.forward
    backward := h.backward
    otherwise := h.otherwise
    steering := hpins }

/-- A stopped readout agrees whatever stopped mode it reports. -/
private theorem agree_stopped {r : Readout}
    (hmode : r.mode = .stop ∨ r.mode = .disconnectionStop)
    (hdrive : r.drivePins = (.low, .low))
    (hsteer : r.steeringPins ≠ (.high, .high)) : r.Agree := by
  refine
    { settled := .inr (.inr hmode)
      forward := ?_
      backward := ?_
      otherwise := fun _ _ => hdrive
      steering := hsteer }
  · rcases hmode with hmode | hmode <;> simp [hdrive, hmode]
  · rcases hmode with hmode | hmode <;> simp [hdrive, hmode]

/-- Every operation keeps mode and inputs in agreement. -/
theorem Readout.Agree.effect {r : Readout} (h : r.Agree) (op : Op) :
    (op.effect r).Agree := by
  have hstraight : (Level.low, Level.low) ≠ (Level.high, Level.high) := by decide
  cases op with
  | turnLeft p => exact agree_steer h _ (by decide)
  | turnRight p => exact agree_steer h _ (by decide)
  | setSpeed s =>
      simp only [Op.effect]
      split
      · exact h
      · exact { h with }
  | setDriveMode m =>
      cases m with
      | forward =>
          exact
            { settled := .inl rfl
              forward := by simp [Op.effect]
              backward := by simp [Op.effect]
              otherwise := fun hne => absurd rfl hne
              steering := h.steering }
      | backward =>
          exact
            { settled := .inr (.inl rfl)
              forward := by simp [Op.effect]
              backward := by simp [Op.effect]
              otherwise := fun _ hne => absurd rfl hne
              steering := h.steering }
      | stop => exact agree_stopped (.inl rfl) rfl h.steering
      | disconnectionStop => exact agree_stopped (.inr rfl) rfl hstraight
      | _ => exact agree_stopped (.inl rfl) rfl hstraight

theorem Readout.Agree.foldl {r : Readout} (h : r.Agree) (ops : List Op) :
    (ops.foldl (fun r op => op.effect r) r).Agree := by
  induction ops generalizing r with
  | nil => exact h
  | cons op ops ih => exact ih (h.effect op)

/--
After every sequence of operations on a constructed car with all motor pins
low, the mode is settled, the drive inputs are those of the mode, and the
steering inputs are not both high.
-/
theorem agree_execAll (w : World) (hcar : w.car = Car.construct)
    (hlow : ∀ motor pin, w.pin motor pin = .low) (ops : List Op) :
    (execAll ops w).readout.Agree := by
  rw [readout_execAll]
  refine Readout.Agree.foldl (agree_stopped (.inl ?_) ?_ ?_) ops
  · simp [World.readout, hcar, Car.construct]
  · simp [World.readout, hlow]
  · simp [World.readout, hlow]

theorem agree_execAll_powerUp :
    (execAll [.turnLeft 100, .setDriveMode .forward, .setSpeed 80]
      World.powerUp).readout.Agree :=
  agree_execAll World.powerUp rfl (fun motor pin => by rfl) _

/-! ## Steering -/

/-- Where a steering event should leave the steering inputs: turned when there
is an amount to turn by, straight when there is none or when the car is stopped
for good.  Other operations are not steering events. -/
def steeringEvent : Op → Option (Level × Level)
  | .turnLeft p => some (if p = 0 then (.low, .low) else (.high, .low))
  | .turnRight p => some (if p = 0 then (.low, .low) else (.low, .high))
  | .setSpeed _ => none
  | .setDriveMode .forward => none
  | .setDriveMode .backward => none
  | .setDriveMode .stop => none
  | .setDriveMode _ => some (.low, .low)

/-- Where the source leaves the steering inputs.  `zeroSteer` inside the
turning functions is overwritten by the writes that follow it. -/
def steeringWrite : Op → Option (Level × Level)
  | .turnLeft _ => some (.high, .low)
  | .turnRight _ => some (.low, .high)
  | op => steeringEvent op

theorem written_steeringPins :
    Written Readout.steeringPins (fun r op => op.effect r) steeringWrite := by
  intro r op
  cases op with
  | setSpeed s =>
      show (Op.effect (.setSpeed s) r).steeringPins = r.steeringPins
      simp only [Op.effect]
      split <;> rfl
  | setDriveMode m => cases m <;> rfl
  | _ => rfl

theorem steeringPins_execAll (w : World) (ops : List Op) :
    (execAll ops w).readout.steeringPins =
      (lastWrite steeringWrite ops).getD w.readout.steeringPins := by
  rw [readout_execAll]
  exact written_steeringPins.foldl w.readout ops

/-- The steering inputs at the end are decided by the last steering event, and
are what they were if there is none. -/
def SteeringFollows (w : World) (ops : List Op) : Prop :=
  (execAll ops w).readout.steeringPins =
    (lastWrite steeringEvent ops).getD w.readout.steeringPins

instance (w : World) (ops : List Op) : Decidable (SteeringFollows w ops) :=
  inferInstanceAs (Decidable (_ = _))

theorem lastWriter_steeringWrite (ops : List Op) :
    lastWriter steeringWrite ops = lastWriter steeringEvent ops :=
  lastWriter_congr (fun op => by cases op <;> rfl) ops

/-- What the source writes is what the event asks for, unless the event turns
by zero. -/
theorem steeringWrite_eq_iff (op : Op) :
    steeringWrite op = steeringEvent op ↔
      op ≠ .turnLeft 0 ∧ op ≠ .turnRight 0 := by
  cases op with
  | turnLeft p => by_cases hp : p = 0 <;> simp [steeringWrite, steeringEvent, hp]
  | turnRight p => by_cases hp : p = 0 <;> simp [steeringWrite, steeringEvent, hp]
  | _ => simp [steeringWrite]

/--
The steering inputs follow the last steering event exactly when that event is
not a turn by zero.
-/
theorem steeringFollows_iff (w : World) (ops : List Op) :
    SteeringFollows w ops ↔
      lastWriter steeringEvent ops ≠ some (.turnLeft 0) ∧
        lastWriter steeringEvent ops ≠ some (.turnRight 0) := by
  rw [SteeringFollows, steeringPins_execAll, lastWrite, lastWrite,
    lastWriter_steeringWrite]
  cases h : lastWriter steeringEvent ops with
  | none => simp
  | some op =>
      have hevent := isSome_of_lastWriter h
      have hwrite : (steeringWrite op).isSome = true := by
        rw [← hevent]
        cases op <;> rfl
      simp only [Option.bind_some, ne_eq, Option.some.injEq,
        ← steeringWrite_eq_iff]
      obtain ⟨a, ha⟩ := Option.isSome_iff_exists.mp hevent
      obtain ⟨b, hb⟩ := Option.isSome_iff_exists.mp hwrite
      simp [ha, hb]

/-- The client's key for driving straight ahead leaves the wheels turned
left. -/
theorem not_steeringFollows_straightAhead :
    ¬ SteeringFollows World.powerUp
      [.turnLeft 0, .setDriveMode .forward, .setSpeed 80] := by
  decide

end BLERCCar.Server
