import BLERCCar.Server.CarRuns

/-!
# The throttle of a stopped car

`Car::SetSpeed` refuses to act on a stopped car, and says so on the serial
line.  What it tests for is `Stop`; the other stopped mode, `DisconnectionStop`,
it does not know.  A duty set there has no effect until the next `Forward` or
`Backward`.

`timeline` pairs every operation of a sequence with the mode it is executed in:
`drivenSpeed` picks the operations that should decide the drive duty, and
`admittedSpeed` those that do.

## Main results

* `driveDuty_concat`: an operation changes the drive duty if it is a `SetSpeed`
  that the guard lets through.
* `throttleLocked_iff`: the throttle is locked exactly if every `SetSpeed` made
  in `DisconnectionStop` asks for the duty of the last one made while driving.
-/

namespace BLERCCar.Server

open BLERCCar.Lib

/-! ## Operations in their modes -/

/-- The operations of a sequence, each with the mode it is executed in. -/
def timeline (w : World) : List Op → List (DriveMode × Op)
  | [] => []
  | op :: ops => (w.currentDriveMode, op) :: timeline (op.exec w) ops

theorem timeline_concat (w : World) (ops : List Op) (op : Op) :
    timeline w (ops ++ [op]) =
      timeline w ops ++ [((execAll ops w).currentDriveMode, op)] := by
  induction ops generalizing w with
  | nil => rfl
  | cons op' ops ih =>
      rw [List.cons_append, timeline, timeline, ih]
      rfl

/-- Every operation leaves a settled mode. -/
theorem settled_exec {w : World} (h : Op.Settled w.currentDriveMode) (op : Op) :
    Op.Settled (op.exec w).currentDriveMode := by
  have hmode : (op.exec w).currentDriveMode = (op.effect w.readout).mode :=
    congrArg Readout.mode (readout_exec op w)
  rw [hmode]
  cases op with
  | setSpeed s =>
      simp only [Op.effect]
      split <;> exact h
  | setDriveMode m => cases m <;> simp [Op.effect, Op.Settled]
  | _ => exact h

/-! ## What decides the drive duty -/

/-- The duty of a `SetSpeed` made while driving. -/
def drivenSpeed : DriveMode × Op → Option Int
  | (.forward, .setSpeed speed) => some (speedPercentageToDutyCycle speed)
  | (.backward, .setSpeed speed) => some (speedPercentageToDutyCycle speed)
  | _ => none

/-- The duty of a `SetSpeed` that `Car::SetSpeed` acts on. -/
def admittedSpeed : DriveMode × Op → Option Int
  | (.stop, .setSpeed _) => none
  | (_, .setSpeed speed) => some (speedPercentageToDutyCycle speed)
  | _ => none

/-- One operation leaves the drive duty to the guard of `SetSpeed`. -/
theorem driveDuty_exec (op : Op) (w : World) :
    (op.exec w).readout.driveDuty =
      (admittedSpeed (w.currentDriveMode, op)).getD w.readout.driveDuty := by
  rw [readout_exec]
  cases op with
  | setSpeed s =>
      show (Op.effect (.setSpeed s) w.readout).driveDuty = _
      by_cases hstop : w.currentDriveMode = .stop
      · have hmode : w.readout.mode = .stop := hstop
        simp [Op.effect, hmode, hstop, admittedSpeed]
      · have hmode : w.readout.mode ≠ .stop := hstop
        simp only [Op.effect, if_neg hmode]
        cases hm : w.currentDriveMode <;> simp_all [admittedSpeed]
  | setDriveMode m => cases m <;> cases w.currentDriveMode <;> rfl
  | _ => cases w.currentDriveMode <;> rfl

theorem driveDuty_concat (w : World) (ops : List Op) (op : Op) :
    (execAll (ops ++ [op]) w).readout.driveDuty =
      (admittedSpeed ((execAll ops w).currentDriveMode, op)).getD
        (execAll ops w).readout.driveDuty := by
  rw [execAll_append]
  exact driveDuty_exec op (execAll ops w)

/-! ## The main result -/

/-- The modes of a car that does not move. -/
def Stopped (mode : DriveMode) : Prop := mode = .stop ∨ mode = .disconnectionStop

/-- `P` holds of every `SetSpeed` of a sequence, with what comes before it. -/
def EverySetSpeed (P : List Op → UInt8 → Prop) (ops : List Op) : Prop :=
  ∀ past speed, past ++ [.setSpeed speed] <+: ops → P past speed

/-- No `SetSpeed` made in a stopped mode changes the drive duty. -/
def RefusesWhenStopped (w : World) (ops : List Op) : Prop :=
  EverySetSpeed (fun past speed =>
    Stopped (execAll past w).currentDriveMode →
      (execAll (past ++ [.setSpeed speed]) w).readout.driveDuty =
        (execAll past w).readout.driveDuty) ops

/-- The drive duty at the end is that of the last `SetSpeed` made while driving,
or `MIN_PWM` if there was none; that is, those made in a stopped mode change
nothing. -/
structure ThrottleLocked (w : World) (ops : List Op) : Prop where
  duty : (execAll ops w).readout.driveDuty =
    (lastWrite drivenSpeed (timeline w ops)).getD minPwm
  refuses : RefusesWhenStopped w ops

/-- Every `SetSpeed` made in `DisconnectionStop` asks for the duty of the last
one made while driving. -/
def NotRearmed (w : World) (ops : List Op) : Prop :=
  EverySetSpeed (fun past speed =>
    (execAll past w).currentDriveMode = .disconnectionStop →
      speedPercentageToDutyCycle speed =
        (lastWrite drivenSpeed (timeline w past)).getD minPwm) ops

theorem everySetSpeed_nil (P : List Op → UInt8 → Prop) : EverySetSpeed P [] := by
  intro past speed hpast
  exact absurd (List.prefix_nil.mp hpast) (List.concat_ne_nil _ _)

theorem everySetSpeed_concat {P : List Op → UInt8 → Prop} {ops : List Op} {op : Op} :
    EverySetSpeed P (ops ++ [op]) ↔
      EverySetSpeed P ops ∧ ∀ speed, op = .setSpeed speed → P ops speed := by
  constructor
  · intro h
    refine ⟨fun past speed hpast => ?_, fun speed hop => ?_⟩
    · exact h past speed (hpast.trans (List.prefix_append ops [op]))
    · exact h ops speed (hop ▸ List.prefix_refl _)
  · rintro ⟨hbefore, hlast⟩ past speed hpast
    rcases List.prefix_concat_iff.mp hpast with hwhole | hpast
    · obtain ⟨rfl, hop⟩ := List.append_inj' hwhole rfl
      exact hlast speed (List.singleton_inj.mp hop).symm
    · exact hbefore past speed hpast

theorem lastDriven_concat (w : World) (ops : List Op) (op : Op) :
    lastWrite drivenSpeed (timeline w (ops ++ [op])) =
      (drivenSpeed ((execAll ops w).currentDriveMode, op)).or
        (lastWrite drivenSpeed (timeline w ops)) := by
  rw [timeline_concat, lastWrite_concat]

/-- The mode after some operations is one that `SetDriveMode` settles on. -/
theorem settled_execAll {w : World} (h : Op.Settled w.currentDriveMode) (ops : List Op) :
    Op.Settled (execAll ops w).currentDriveMode := by
  induction ops generalizing w with
  | nil => exact h
  | cons op ops ih => exact ih (settled_exec h op)

variable {w : World} {ops : List Op}

/-- Where no other speed is asked for in `DisconnectionStop`, the duty is that
of the last `SetSpeed` made while driving. -/
theorem NotRearmed.driveDuty (hsettled : Op.Settled w.currentDriveMode)
    (hduty : w.readout.driveDuty = minPwm) (h : NotRearmed w ops) :
    (execAll ops w).readout.driveDuty =
      (lastWrite drivenSpeed (timeline w ops)).getD minPwm := by
  induction ops using List.reverseRecOn with
  | nil => exact hduty
  | append_singleton ops op ih =>
      obtain ⟨hbefore, hlast⟩ := everySetSpeed_concat.mp h
      have hmode := settled_execAll hsettled ops
      rw [driveDuty_concat, lastDriven_concat, ih hbefore]
      cases op with
      | setSpeed speed =>
          have hrearmed := hlast speed rfl
          generalize (execAll ops w).currentDriveMode = mode at hmode hrearmed
          rcases hmode with rfl | rfl | rfl | rfl
          · rfl
          · rfl
          · rfl
          · exact hrearmed rfl
      | _ => cases (execAll ops w).currentDriveMode <;> rfl

/-- So a `SetSpeed` made in a stopped mode changes nothing if and only if it was
made in `Stop` or asks for that duty again. -/
theorem driveDuty_setSpeed_iff (hduty : (execAll ops w).readout.driveDuty =
      (lastWrite drivenSpeed (timeline w ops)).getD minPwm) (speed : UInt8) :
    (Stopped (execAll ops w).currentDriveMode →
      (execAll (ops ++ [.setSpeed speed]) w).readout.driveDuty =
        (execAll ops w).readout.driveDuty) ↔
      ((execAll ops w).currentDriveMode = .disconnectionStop →
        speedPercentageToDutyCycle speed =
          (lastWrite drivenSpeed (timeline w ops)).getD minPwm) := by
  rw [driveDuty_concat, hduty]
  generalize (execAll ops w).currentDriveMode = mode
  cases mode <;> simp [Stopped, admittedSpeed]

theorem refusesWhenStopped_iff (hsettled : Op.Settled w.currentDriveMode)
    (hduty : w.readout.driveDuty = minPwm) : RefusesWhenStopped w ops ↔ NotRearmed w ops := by
  induction ops using List.reverseRecOn with
  | nil => exact iff_of_true (everySetSpeed_nil _) (everySetSpeed_nil _)
  | append_singleton ops op ih =>
      rw [RefusesWhenStopped, everySetSpeed_concat, ← RefusesWhenStopped, ih]
      unfold NotRearmed
      rw [everySetSpeed_concat]
      refine and_congr_right fun hbefore => ?_
      refine forall_congr' fun speed => imp_congr_right fun _ => ?_
      exact driveDuty_setSpeed_iff (NotRearmed.driveDuty hsettled hduty hbefore) speed

/--
Over any sequence of operations on a constructed car, the throttle of the
stopped car is locked exactly if no `SetSpeed` made in `DisconnectionStop` asks
for anything new.
-/
theorem throttleLocked_iff (board : Board) (ops : List Op) :
    ThrottleLocked ⟨Car.construct, board⟩ ops ↔
      NotRearmed ⟨Car.construct, board⟩ ops := by
  have hsettled : Op.Settled (World.currentDriveMode ⟨Car.construct, board⟩) :=
    .inr (.inr (.inl rfl))
  have hrefuses : RefusesWhenStopped ⟨Car.construct, board⟩ ops ↔ _ :=
    refusesWhenStopped_iff hsettled rfl
  exact ⟨fun h => hrefuses.mp h.refuses, fun h => ⟨h.driveDuty hsettled rfl, hrefuses.mpr h⟩⟩

/-- Stopped for a disconnection, the car takes a speed for its next start. -/
theorem not_throttleLocked_disconnectionStop :
    ¬ ThrottleLocked World.powerUp
      [.setDriveMode .disconnectionStop, .setSpeed 80] := by
  intro h
  have hduty := h.duty
  revert hduty
  decide

end BLERCCar.Server
