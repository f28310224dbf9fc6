import BLERCCar.Server.Granularity
import BLERCCar.Server.PwmRange

/-!
# Duties and their registers

`Motor::SetSpeed` first assigns the duty and then writes it to the register, and
the steps of the other task may come in between.  Every statement is a step
here, and nothing is assumed about when clients connect.

## Main results

* `reported_of_run`: after any run, duty, register and the percentage that
  `CurrentSpeedPercentage` returns are decided by the percentages that
  `Motor::SetSpeed` has been given; only the register lags behind the last one,
  and only until the next statement of the same call.
-/

namespace BLERCCar.Server

open BLERCCar.Lib

/-! ## Calls that keep register and duty together -/

/-- Each duty that is assigned is written to its register next, and nothing else
is. -/
def Paired : List Instr → Prop
  | [] => True
  | .assignDuty motor _ :: .ledcWrite motor' :: rest => motor' = motor ∧ Paired rest
  | .assignDuty _ _ :: _ => False
  | .ledcWrite _ :: _ => False
  | .assignMode _ :: rest => Paired rest
  | .digitalWrite _ _ _ :: rest => Paired rest
  | .returnIfStopped :: rest => Paired rest

theorem paired_body (op : Op) : Paired op.body := by
  cases op with
  | turnLeft percentage =>
      by_cases hzero : percentage = 0 <;>
        simp [Op.body, Car.turnLeft, Car.zeroSteer, Motor.setSpeed, Paired, hzero]
  | turnRight percentage =>
      by_cases hzero : percentage = 0 <;>
        simp [Op.body, Car.turnRight, Car.zeroSteer, Motor.setSpeed, Paired, hzero]
  | setSpeed speed => simp [Op.body, Car.setSpeed, Motor.setSpeed, Paired]
  | setDriveMode mode =>
      cases mode <;>
        simp [Op.body, Car.setDriveMode, Car.moveForward, Car.moveBackward, Car.stop,
          Car.zeroSteer, Paired]

/-- What is left of such a call: it may have stopped between the two. -/
def PairedFrom (call : List Instr) : Prop :=
  Paired call ∨ ∃ motor rest, call = .ledcWrite motor :: rest ∧ Paired rest

/-- No register is going to be written next. -/
theorem Paired.head {call : List Instr} (h : Paired call) (motor : MotorName) :
    call.head? ≠ some (.ledcWrite motor) := by
  intro hhead
  obtain ⟨rest, rfl⟩ := List.head?_eq_some_iff.mp hhead
  exact h

/-- The statement sets no duty and writes no register. -/
def Instr.Silent : Instr → Prop
  | .assignDuty _ _ => False
  | .ledcWrite _ => False
  | _ => True

theorem Instr.Silent.head {i : Instr} (h : i.Silent) (motor : MotorName)
    {call : List Instr} : (i :: call).head? ≠ some (.ledcWrite motor) := by
  intro hhead
  rw [List.head?_cons, Option.some.injEq] at hhead
  rw [hhead] at h
  exact h

/-- An early return ends the call. -/
theorem Paired.after {call : List Instr} (h : Paired call) (i : Instr) (w : World) :
    Paired (i.after call w) := by
  cases i with
  | returnIfStopped =>
      simp only [Instr.after]
      split
      · trivial
      · exact h
  | _ => exact h

/-- A call goes on with one of three kinds of statements. -/
theorem PairedFrom.cases {i : Instr} {call : List Instr} (h : PairedFrom (i :: call)) :
    (∃ motor speed rest, i = .assignDuty motor speed ∧ call = .ledcWrite motor :: rest ∧
      Paired rest) ∨
      (∃ motor, i = .ledcWrite motor ∧ Paired call) ∨ i.Silent ∧ Paired call := by
  rcases h with hpaired | ⟨motor, rest, heq, hpaired⟩
  · cases i with
    | assignDuty motor speed =>
        left
        match call, hpaired with
        | .ledcWrite motor' :: rest, hpaired =>
            obtain ⟨rfl, hrest⟩ := hpaired
            exact ⟨motor', speed, rest, rfl, rfl, hrest⟩
    | ledcWrite motor => exact hpaired.elim
    | _ => exact .inr (.inr ⟨trivial, hpaired⟩)
  · cases heq
    exact .inr (.inl ⟨motor, rfl, hpaired⟩)

/-! ## What a motor is given -/

/-- The percentage that a statement of one motor's `Motor::SetSpeed` is given. -/
def Instr.given (motor : MotorName) : Instr → List UInt8
  | .assignDuty motor' speed => if motor' = motor then [speed] else []
  | _ => []

/-- The percentage that a step gives to a motor. -/
def State.given (motor : MotorName) (s : State) (e : Event) : List UInt8 :=
  (s.executes e).elim [] (Instr.given motor)

/-- The duty after these percentages; a motor is constructed with the least. -/
def dutyAfter (given : List UInt8) : Int :=
  (given.getLast?.map speedPercentageToDutyCycle).getD minPwm

/-- What `CurrentSpeedPercentage` returns after these percentages. -/
def percentageAfter (given : List UInt8) : Int :=
  match given.getLast? with
  | none => 0
  | some speed =>
      if speed.toNat % 20 = 0 then (speed.toNat : Int) else speed.toNat - 1

@[simp] theorem dutyAfter_concat (given : List UInt8) (speed : UInt8) :
    dutyAfter (given ++ [speed]) = speedPercentageToDutyCycle speed := by
  simp [dutyAfter]

theorem currentSpeedPercentage_of_dutyAfter {m : Motor} {given : List UInt8}
    (h : m.pwmduty = dutyAfter given) :
    m.currentSpeedPercentage = percentageAfter given := by
  unfold dutyAfter at h
  unfold percentageAfter
  cases hlast : given.getLast? with
  | none =>
      rw [hlast] at h
      rw [Motor.currentSpeedPercentage, h]
      rfl
  | some speed =>
      rw [hlast] at h
      exact currentSpeedPercentage_eq h

/-- The duty is the one last assigned; the register is, too, unless it is going
to be written next. -/
structure Tracks (motor : MotorName) (given : List UInt8) (call : List Instr)
    (w : World) : Prop where
  duty : w.duty motor = dutyAfter given
  register : w.register motor =
    dutyAfter (if call.head? = some (.ledcWrite motor) then given.dropLast else given)

theorem Instr.Silent.given {i : Instr} (h : i.Silent) (motor : MotorName) :
    i.given motor = [] := by
  cases i with
  | assignDuty => exact h.elim
  | _ => rfl

/-- A statement that neither assigns a duty nor writes a register. -/
theorem Tracks.silent {motor : MotorName} {given : List UInt8} {call : List Instr}
    {w : World} (h : Tracks motor given call w) {i : Instr} (hi : i.Silent) :
    Tracks motor given call (i.exec w) := by
  cases i with
  | assignDuty => exact hi.elim
  | ledcWrite => exact hi.elim
  | _ => exact { h with }

/-- Where no register is written next, it does not matter what comes next. -/
theorem Tracks.go {motor : MotorName} {given : List UInt8} {call call' : List Instr}
    {w : World} (h : Tracks motor given call w)
    (hcall : call.head? ≠ some (.ledcWrite motor))
    (hcall' : call'.head? ≠ some (.ledcWrite motor)) : Tracks motor given call' w where
  duty := h.duty
  register := by rw [h.register, if_neg hcall, if_neg hcall']

theorem Tracks.assignDuty {motor motor' : MotorName} {given : List UInt8}
    {speed : UInt8} {rest : List Instr} {w : World}
    (h : Tracks motor given (.assignDuty motor' speed :: .ledcWrite motor' :: rest) w) :
    Tracks motor (given ++ Instr.given motor (.assignDuty motor' speed))
      (.ledcWrite motor' :: rest) (Instr.exec (.assignDuty motor' speed) w) := by
  have hduty := duty_assignDuty w.car motor' motor (speedPercentageToDutyCycle speed)
  have hregister : World.register (Instr.exec (.assignDuty motor' speed) w) motor =
      w.register motor :=
    congrArg w.board.ledc (pwmChannel_assignDuty w.car motor' motor _)
  by_cases hsame : motor' = motor
  · subst hsame
    rw [if_pos rfl] at hduty
    rw [Instr.given, if_pos rfl]
    exact
      { duty := by rw [dutyAfter_concat]; exact hduty
        register := by rw [hregister, h.register]; simp }
  · rw [Instr.given, if_neg hsame, List.append_nil]
    rw [if_neg (Ne.symm hsame)] at hduty
    exact
      { duty := hduty.trans h.duty
        register := by rw [hregister, h.register]; simp [hsame] }

theorem Tracks.ledcWrite {motor motor' : MotorName} {given : List UInt8}
    {rest : List Instr} {w : World}
    (h : Tracks motor given (.ledcWrite motor' :: rest) w)
    (hrest : rest.head? ≠ some (.ledcWrite motor)) :
    Tracks motor given rest (Instr.exec (.ledcWrite motor') w) where
  duty := h.duty
  register := by
    rw [if_neg hrest]
    simp only [World.register, Instr.exec, Board.ledcWrite]
    by_cases hsame : motor = motor'
    · subst hsame
      rw [Function.update_self]
      exact h.duty
    · rw [Function.update_of_ne (mt (pwmChannel_inj w.car motor' motor).mp hsame)]
      have hregister := h.register
      rwa [if_neg (by simp [Ne.symm hsame])] at hregister

/-- A step of the callback task. -/
theorem Tracks.move {motor : MotorName} {given : List UInt8} {now : UInt32}
    {th th' : Thread CallbackStmt} {sh sh' : Shared}
    (h : Tracks motor given th.call sh.world) (hpaired : PairedFrom th.call)
    (hmove : Thread.Move .statement now th sh th' sh') :
    Tracks motor (given ++ th.call.head?.elim [] (Instr.given motor)) th'.call
        sh'.world ∧ PairedFrom th'.call := by
  cases hmove with
  | instr i call rest =>
      rcases hpaired.cases with
        ⟨motor', speed, rest, rfl, rfl, hrest⟩ | ⟨motor', rfl, hrest⟩ | ⟨hsilent, hrest⟩
      · exact ⟨h.assignDuty, .inr ⟨motor', rest, rfl, hrest⟩⟩
      · refine ⟨?_, .inl hrest⟩
        show Tracks motor (given ++ []) call _
        rw [List.append_nil]
        exact h.ledcWrite (hrest.head motor)
      · have hafter := hrest.after i sh.world
        refine ⟨?_, .inl hafter⟩
        show Tracks motor (given ++ i.given motor) (i.after call sh.world) (i.exec sh.world)
        rw [hsilent.given, List.append_nil]
        exact (h.silent hsilent).go (hsilent.head motor) (hafter.head motor)
  | enter st op rest =>
      have hbody := paired_body op
      refine ⟨?_, .inl hbody⟩
      simpa using h.go (by simp) (hbody.head motor)
  | whole _ _ _ _ _ hg => cases hg
  | stmt st rest =>
      have hsame : (Statement.exec now st sh).world = sh.world := by cases st <;> rfl
      refine ⟨?_, hpaired⟩
      rw [hsame]
      simpa using h

/-! ## Runs -/

/-- Both tasks' part in the duties. -/
structure DutyInv (motor : MotorName) (given : List UInt8) (s : State) : Prop where
  tracks : Tracks motor given s.callback.call s.world
  paired : PairedFrom s.callback.call
  silent : s.task.All Instr.Silent
  idle : IdleBetween s

theorem silent_stop : ∀ i ∈ Op.body (.setDriveMode .disconnectionStop), i.Silent := by
  intro i hi
  rcases Op.mem_body_setDriveMode hi with ⟨mode, _, rfl⟩ | ⟨motor, pin, level, rfl⟩
  · trivial
  · trivial

theorem dutyInv_powerUp (motor : MotorName) : DutyInv motor [] State.powerUp where
  tracks := by cases motor <;> exact ⟨rfl, rfl⟩
  paired := .inl trivial
  silent := Thread.all_done
  idle := fun _ => rfl

/-- Steps that leave the callback task where it is and give the motor nothing. -/
theorem DutyInv.keep {motor : MotorName} {given given' : List UInt8} {s s' : State}
    (h : DutyInv motor given s) (hgiven : given' = [])
    (hcall : s'.callback.call = s.callback.call)
    (htracks : Tracks motor given s.callback.call s'.world)
    (hsilent : s'.task.All Instr.Silent) (hidle : IdleBetween s') :
    DutyInv motor (given ++ given') s' := by
  rw [hgiven, List.append_nil]
  exact
    { tracks := by rw [hcall]; exact htracks
      paired := by rw [hcall]; exact h.paired
      silent := hsilent
      idle := hidle }

theorem DutyInv.step {accepts : Ble → Bool} {motor : MotorName} {given : List UInt8}
    {s s' : State} {e : Event} (h : DutyInv motor given s)
    (hmove : State.Move ⟨.statement, accepts⟩ s e s') :
    DutyInv motor (given ++ s.given motor e) s' := by
  have hidle := h.idle.move hmove
  cases hmove with
  | constructorReturns => exact h.keep rfl rfl h.tracks h.silent hidle
  | connect _ _ hnone =>
      have hdone := h.idle hnone
      exact h.keep rfl (by rw [hdone]; rfl) h.tracks h.silent hidle
  | connected _ _ _ hg => cases hg
  | disconnect _ hnone =>
      have hdone := h.idle hnone
      exact h.keep rfl (by rw [hdone]; rfl) h.tracks h.silent hidle
  | write uuid raw _ hnone =>
      have hdone := h.idle hnone
      exact h.keep rfl (by rw [hdone]; rfl) h.tracks h.silent hidle
  | callback now th sh hth =>
      obtain ⟨htracks, hpaired⟩ := h.tracks.move h.paired hth
      exact ⟨htracks, hpaired, h.silent, hidle⟩
  | callbackReturns now hdone =>
      refine h.keep ?_ rfl h.tracks h.silent hidle
      simp [State.given, State.executes, hdone, Thread.done]
  | task now th sh hth =>
      refine h.keep ?_ rfl ?_ (h.silent.move hth) hidle
      · simp only [State.given, State.executes]
        cases hhead : s.task.call.head? with
        | none => rfl
        | some i => exact (h.silent.call i (List.mem_of_mem_head? hhead)).given motor
      · refine h.silent.keeps (J := Tracks motor given s.callback.call) ?_ ?_ h.tracks hth
        · exact fun i w hi hw => hw.silent hi
        · intro st now sh hsh
          cases st with
          | digitalWrite => exact { hsh with }
          | _ => exact hsh
  | control now hdone =>
      refine h.keep ?_ rfl h.tracks (all_task silent_stop _) hidle
      simp [State.given, State.executes, hdone, Thread.done]

/-- What can be told of a motor from the percentages it has been given. -/
structure Reported (motor : MotorName) (given : List UInt8) (s : State) : Prop where
  duty : s.world.duty motor = dutyAfter given
  register : s.world.register motor =
    dutyAfter (if s.callback.call.head? = some (.ledcWrite motor) then given.dropLast
      else given)
  settled : s.handler = none → s.world.register motor = dutyAfter given
  percentage : (s.world.car.motor motor).currentSpeedPercentage = percentageAfter given

/--
After any run, a motor's duty is that of the last percentage given to it.  Its
register is, too, unless it is written next, and then is still that of the one
before; between two callbacks it never lags.  `CurrentSpeedPercentage` returns
the last percentage, or one less if that is no multiple of 20.
-/
theorem reported_of_run (accepts : Ble → Bool) (motor : MotorName) (es : List Event)
    (t : State)
    (hrun : (machine ⟨.statement, accepts⟩).run State.powerUp es = some t) :
    Reported motor
      ((machine ⟨.statement, accepts⟩).outputs (State.given motor) State.powerUp es)
      t := by
  have hinv : DutyInv motor
      ([] ++ (machine ⟨.statement, accepts⟩).outputs (State.given motor) State.powerUp es)
      t :=
    Machine.history_run (fun _ _ _ _ h hnext => h.step (move_of_next hnext))
      (dutyInv_powerUp motor) hrun
  rw [List.nil_append] at hinv
  exact
    { duty := hinv.tracks.duty
      register := hinv.tracks.register
      settled := by
        intro hnone
        have hregister := hinv.tracks.register
        rw [hinv.idle hnone] at hregister
        exact hregister
      percentage := currentSpeedPercentage_of_dutyAfter hinv.tracks.duty }

/-- A turn by 50 percent, and one by 90 up to the assignment of the duty: the
register is still that of 50 percent. -/
theorem reported_of_run_turning :
    ∃ t, t.world.register .steering = 202 ∧
      Reported .steering
        ((machine singleStatements).outputs (State.given .steering) State.powerUp
          ([Event.constructorReturns, Event.connect, Event.callback 0, Event.callback 0,
              Event.write characteristicUuidSteering (some [0x4C, 50])] ++
            List.replicate 6 (Event.callback 0) ++
            [Event.write characteristicUuidSteering (some [0x4C, 90]), Event.callback 0,
              Event.callback 0])) t := by
  have hany : ((machine singleStatements).run State.powerUp
      ([Event.constructorReturns, Event.connect, Event.callback 0, Event.callback 0,
          Event.write characteristicUuidSteering (some [0x4C, 50])] ++
        List.replicate 6 (Event.callback 0) ++
        [Event.write characteristicUuidSteering (some [0x4C, 90]), Event.callback 0,
          Event.callback 0])).any
      (fun t => decide (t.world.register .steering = 202)) = true := by
    decide +kernel
  obtain ⟨t, hrun, htest⟩ := Machine.exists_run_of_any _ hany
  exact ⟨t, of_decide_eq_true htest, reported_of_run oneAtATime .steering _ t hrun⟩

end BLERCCar.Server
