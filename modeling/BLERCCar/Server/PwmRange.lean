import BLERCCar.Server.Tasks

/-!
# The range of the PWM duties

`Motor::SetSpeed` documents its percentage as `[0,100]`, and nothing between
the radio and the PWM register checks it.  Every statement is a step here, and
nothing is assumed about when clients connect.

## Main results

* `pwmInRange_iff_legalSpeeds`: duties and registers stay between `MIN_PWM` and
  `MAX_PWM` in exactly those runs in which no percentage above 100 reaches
  `SetSpeed`.
* `pwmInRange_of_legalWrites`: which is the case when no packet carries an
  amount above 100.
-/

namespace BLERCCar.Server

open BLERCCar.Lib BLERCCar.Lib.CString

/-- Between `MIN_PWM` and `MAX_PWM`. -/
def LegalDuty (duty : Int) : Prop := minPwm ≤ duty ∧ duty ≤ maxPwm

/-- A legal duty fits the 8 bits that `ledcSetup` configures. -/
theorem LegalDuty.fits {duty : Int} (h : LegalDuty duty) :
    0 ≤ duty ∧ duty < 256 := by
  unfold LegalDuty minPwm maxPwm at h
  omega

/-- `m_Pwmduty` of one motor. -/
def World.duty (w : World) (motor : MotorName) : Int := (w.car.motor motor).pwmduty

/-- The PWM register of one motor. -/
def World.register (w : World) (motor : MotorName) : Int :=
  w.board.ledc (w.car.motor motor).pwmChannel

/-- Both duties, and what was last written to both registers, are in range. -/
structure PwmInRange (w : World) : Prop where
  duty : ∀ motor, LegalDuty (w.duty motor)
  register : ∀ motor, LegalDuty (w.register motor)

/-- The statement of a controller call that a step executes, if any. -/
def State.executes (s : State) : Event → Option Instr
  | .callback _ => s.callback.call.head?
  | .task _ => s.task.call.head?
  | _ => none

/-- `Motor::SetSpeed` is given a percentage. -/
def Instr.Legal : Instr → Prop
  | .assignDuty _ speed => speed.toNat ≤ 100
  | _ => True

instance : DecidablePred Instr.Legal
  | .assignDuty _ speed => inferInstanceAs (Decidable (speed.toNat ≤ 100))
  | .ledcWrite _ | .assignMode _ | .digitalWrite _ _ _ | .returnIfStopped =>
      .isTrue trivial

/-- If the step sets a duty, it does so from a percentage. -/
def LegalSpeed (s : State) (e : Event) : Prop :=
  ∀ i ∈ s.executes e, i.Legal

instance (s : State) (e : Event) : Decidable (LegalSpeed s e) :=
  inferInstanceAs (Decidable (∀ i ∈ s.executes e, i.Legal))

/-! ## One statement -/

theorem legalDuty_iff (speed : UInt8) :
    LegalDuty (speedPercentageToDutyCycle speed) ↔ speed.toNat ≤ 100 := by
  rw [LegalDuty, speedPercentageToDutyCycle_le_iff]
  exact and_iff_right (minPwm_le_speedPercentageToDutyCycle speed)

theorem duty_assignDuty (c : Car) (motor other : MotorName) (duty : Int) :
    ((c.assignDuty motor duty).motor other).pwmduty =
      if other = motor then duty else (c.motor other).pwmduty := by
  cases motor <;> cases other <;> rfl

theorem pwmChannel_assignDuty (c : Car) (motor other : MotorName) (duty : Int) :
    ((c.assignDuty motor duty).motor other).pwmChannel =
      (c.motor other).pwmChannel := by
  cases motor <;> cases other <;> rfl

/-- The two motors have channels of their own. -/
theorem pwmChannel_inj (c : Car) (motor other : MotorName) :
    (c.motor other).pwmChannel = (c.motor motor).pwmChannel ↔ other = motor := by
  cases motor <;> cases other <;> simp [Car.motor]

/-- A statement keeps the duties in range exactly when it is legal. -/
theorem pwmInRange_exec_iff {w : World} (h : PwmInRange w) (i : Instr) :
    PwmInRange (i.exec w) ↔ i.Legal := by
  cases i with
  | assignDuty motor speed =>
      rw [Instr.Legal, ← legalDuty_iff]
      have hduty : ∀ other, (Instr.exec (.assignDuty motor speed) w).duty other =
          if other = motor then speedPercentageToDutyCycle speed
          else w.duty other := fun other => duty_assignDuty w.car motor other _
      have hregister : ∀ other,
          (Instr.exec (.assignDuty motor speed) w).register other =
            w.register other := fun other =>
        congrArg w.board.ledc (pwmChannel_assignDuty w.car motor other _)
      constructor
      · intro hrange
        simpa [hduty] using hrange.duty motor
      · intro hlegal
        refine
          { duty := fun other => ?_
            register := fun other => ?_ }
        · rw [hduty]
          split
          · exact hlegal
          · exact h.duty other
        · rw [hregister]
          exact h.register other
  | ledcWrite motor =>
      refine iff_of_true ?_ trivial
      refine
        { duty := h.duty
          register := fun other => ?_ }
      simp only [World.register, Instr.exec, Board.ledcWrite]
      by_cases hsame : other = motor
      · rw [hsame, Function.update_self]
        exact h.duty motor
      · rw [Function.update_of_ne (mt (pwmChannel_inj w.car motor other).mp hsame)]
        exact h.register other
  | assignMode | digitalWrite | returnIfStopped =>
      exact iff_of_true { h with } trivial

/-! ## One step -/

/-- A step of a thread keeps the duties in range exactly when the statement it
executes is legal. -/
theorem pwmInRange_move_iff {α : Type} [Statement α] {now : UInt32}
    {th th' : Thread α} {sh sh' : Shared}
    (hstmt : ∀ (st : α) now sh, PwmInRange sh.world →
      PwmInRange (Statement.exec now st sh).world)
    (h : PwmInRange sh.world)
    (hmove : Thread.Move .statement now th sh th' sh') :
    PwmInRange sh'.world ↔ ∀ i ∈ th.call.head?, i.Legal := by
  cases hmove with
  | instr i call rest =>
      rw [pwmInRange_exec_iff h]
      simp
  | enter => exact iff_of_true h (by simp)
  | whole _ _ _ _ _ hg => cases hg
  | stmt st rest => exact iff_of_true (hstmt st now sh h) (by simp)

theorem pwmInRange_callbackStmt (st : CallbackStmt) (now : UInt32) (sh : Shared)
    (h : PwmInRange sh.world) :
    PwmInRange (Statement.exec now st sh).world := by
  cases st <;> exact h

theorem pwmInRange_taskStmt (st : TaskStmt) (now : UInt32) (sh : Shared)
    (h : PwmInRange sh.world) :
    PwmInRange (Statement.exec now st sh).world := by
  cases st with
  | digitalWrite => exact { h with }
  | _ => exact h

/-- A step of the server keeps the duties in range exactly when it sets no duty
from more than 100 percent. -/
theorem pwmInRange_step_iff {accepts : Ble → Bool} {s s' : State} {e : Event}
    (h : PwmInRange s.world) (hmove : State.Move ⟨.statement, accepts⟩ s e s') :
    PwmInRange s'.world ↔ LegalSpeed s e := by
  cases hmove with
  | callback now th sh hth =>
      exact pwmInRange_move_iff pwmInRange_callbackStmt h hth
  | task now th sh hth =>
      exact pwmInRange_move_iff pwmInRange_taskStmt h hth
  | callbackReturns now hdone =>
      exact iff_of_true h (by simp [LegalSpeed, State.executes, hdone, Thread.done])
  | control now hdone =>
      exact iff_of_true h (by simp [LegalSpeed, State.executes, hdone, Thread.done])
  | _ => exact iff_of_true h (by simp [LegalSpeed, State.executes])

theorem pwmInRange_powerUp : PwmInRange State.powerUp.world := by
  refine
    { duty := fun motor => ?_
      register := fun motor => ?_ } <;>
  · cases motor <;> exact ⟨by decide, by decide⟩

/-! ## The main result -/

/--
The duties and the PWM registers stay between `MIN_PWM` and `MAX_PWM` along a
run exactly when no percentage above 100 reaches `Motor::SetSpeed` in it.
-/
theorem pwmInRange_iff_legalSpeeds (accepts : Ble → Bool) (es : List Event)
    (t : State)
    (hrun : (machine ⟨.statement, accepts⟩).run State.powerUp es = some t) :
    (machine ⟨.statement, accepts⟩).Always (fun s => PwmInRange s.world)
        State.powerUp es ↔
      (machine ⟨.statement, accepts⟩).EveryStep LegalSpeed State.powerUp es :=
  Machine.always_iff_everyStep _ (I := fun _ => True) (fun _ _ _ _ _ => trivial)
    (fun _ _ _ _ h hnext => pwmInRange_step_iff h (move_of_next hnext))
    trivial pwmInRange_powerUp hrun

theorem pwmInRange_iff_legalSpeeds_stopped :
    (machine singleStatements).Always (fun s => PwmInRange s.world)
      State.powerUp
      ([Event.constructorReturns, Event.connect, Event.callback 0, Event.callback 0,
        Event.write characteristicUuidSetDriveModes (some [5, 255])] ++
        List.replicate 7 (Event.callback 0)) := by
  refine (Option.isSome_iff_exists.mp ?_).elim fun t hrun =>
    (pwmInRange_iff_legalSpeeds oneAtATime _ t hrun).mpr ?_
  · decide +kernel
  · decide +kernel

/-- A drive packet with the amount 255 writes a duty that does not fit its
register. -/
theorem not_forall_reachable_pwmInRange :
    ¬ ∀ s, (machine singleStatements).Reachable s → PwmInRange s.world := by
  intro h
  obtain ⟨s, hs, htest⟩ := Machine.exists_reachable_of_any
    (M := machine singleStatements)
    (fun s => decide (maxPwm < s.world.register .driveShaft))
    ([Event.constructorReturns, Event.connect, Event.callback 0, Event.callback 0,
      Event.write characteristicUuidSetDriveModes (some [1, 255])] ++
      List.replicate 8 (Event.callback 0))
    (by decide +kernel)
  have hlegal := ((h s hs).register .driveShaft).2
  have hbad := of_decide_eq_true htest
  omega

/-! ## Packets -/

/-- The amount of a delivered packet is a percentage. -/
def Event.LegalWrite : Event → Prop
  | .write _ (some mem) => (byteAt mem 1).toNat ≤ 100
  | _ => True

theorem legal_setDriveMode (m : DriveMode) :
    ∀ i ∈ Op.body (.setDriveMode m), i.Legal := by
  intro i hi
  rcases Op.mem_body_setDriveMode hi with ⟨mode, _, rfl⟩ | ⟨motor, pin, level, rfl⟩
  · trivial
  · trivial

theorem legal_setSpeed {percentage : UInt8} (h : percentage.toNat ≤ 100) :
    ∀ i ∈ Op.body (.setSpeed percentage), i.Legal := by
  intro i hi
  rcases Op.mem_body_setSpeed hi with rfl | rfl | rfl
  · trivial
  · exact h
  · trivial

theorem legal_turn {percentage : UInt8} (h : percentage.toNat ≤ 100) (i : Instr)
    (hi : i ∈ Op.body (.turnLeft percentage) ∨ i ∈ Op.body (.turnRight percentage)) :
    i.Legal := by
  rcases Op.mem_body_turn hi with rfl | rfl | ⟨pin, level, rfl⟩
  · exact h
  · trivial
  · trivial

/-- Packets with legal amounts lead to legal calls. -/
theorem legal_controllerCalls {uuid : String} {raw : Option (List UInt8)}
    (h : Event.LegalWrite (.write uuid raw)) :
    ∀ op ∈ controllerCalls uuid raw, ∀ i ∈ op.body, i.Legal := by
  intro op hop
  cases raw with
  | none => simp [controllerCalls] at hop
  | some mem =>
      have hamount : (byteAt mem 1).toNat ≤ 100 := h
      rcases mem_controllerCalls hop with ⟨m, rfl⟩ | rfl | rfl | rfl
      · exact legal_setDriveMode m
      · exact legal_setSpeed hamount
      · exact fun i hi => legal_turn hamount i (.inl hi)
      · exact fun i hi => legal_turn hamount i (.inr hi)

/-- If all delivered amounts are percentages the PWM never leaves its range. -/
theorem pwmInRange_of_legalWrites {cfg : Setting} {s : State}
    (h : (machine cfg).Reach (fun _ e => e.LegalWrite) s) :
    PwmInRange s.world := by
  have hinv : PwmInRange s.world ∧ s.All Instr.Legal := by
    refine h.invariant (I := fun u => PwmInRange u.world ∧ u.All Instr.Legal)
      ⟨pwmInRange_powerUp, State.all_powerUp⟩ ?_
    rintro u e u' ⟨hrange, hall⟩ he hnext
    have hmove := move_of_next hnext
    constructor
    · refine hall.keeps (fun i w hi hw => ?_) (fun _ _ _ hw => { hw with })
        hrange hmove
      exact (pwmInRange_exec_iff hw i).mpr hi
    · refine hall.step (legal_setDriveMode .disconnectionStop) ?_ hmove
      rintro uuid raw rfl
      exact legal_controllerCalls he
  exact hinv.1

end BLERCCar.Server
