import BLERCCar.Lib.Machine
import BLERCCar.Server.Callbacks

/-!
# The server as a machine of two tasks

The BLE library runs the callbacks one at a time in a task of its own, next to
`ConnectivityManagementTask_t`.  A `State` is what both share, the state
of the BLE library, and where each of the two tasks is; `State.step` performs
one step of either task or one event of the radio, so the runs of `machine` are
the interleavings.

The connectivity task is a program counter (`Pc`) naming the test or library
call it performs next, and a `Thread` holding the straight-line code it has to
get through before.

Two choices are left open in `Setting`: how much of a controller call is one
step, and when the BLE library accepts a client.

## Main results

* `move_of_step`: the inversion of `State.step`, on which every invariant of
  the later modules rests.
-/

namespace BLERCCar.Server

open BLERCCar.Lib

/-! ## Straight-line parts of `ConnectivityManagementTask_t` -/

/-- `CoolBlink`. -/
def coolBlink : List TaskStmt :=
  [.digitalWrite .led .high, .vTaskDelay, .digitalWrite .led .low, .vTaskDelay,
    .digitalWrite .led .high, .vTaskDelay, .digitalWrite .led .low, .vTaskDelay,
    .vTaskDelay]

/-- `DistanceSensor::GetCurrentDistanceInCm`: the trigger pulse and the wait for
its echo. -/
def getCurrentDistanceInCm (trig : AuxPin) : List TaskStmt :=
  [.digitalWrite trig .low, .delayMicroseconds, .digitalWrite trig .high,
    .delayMicroseconds, .digitalWrite trig .low, .pulseIn]

/-- The end of the polling loop's body: sample both sensors and sleep. -/
def measureAndSleep : List TaskStmt :=
  getCurrentDistanceInCm .leftTrig ++ getCurrentDistanceInCm .rightTrig ++
    [.vTaskDelay]

/-- `MAXIMUM_DISCONNECTION_TIMEOUT_MS`. -/
def maximumDisconnectionTimeoutMs : UInt32 := 10000

/-- The test of `manage_disconnection_timeout`; the difference of the two clock
readings wraps. -/
def timedOut (currentTime disconnectionTime : UInt32) : Bool :=
  maximumDisconnectionTimeoutMs < currentTime - disconnectionTime

/-! ## Program counter -/

/-- What the connectivity task does next, once its straight-line code is done.
The mode carried along is `tmp_drive_mode`. -/
inductive Pc where
  /-- `if (DeviceConnected)` -/
  | outerTest
  /-- `while (DeviceConnected)` of the connected branch -/
  | innerTest (tmp : DriveMode)
  /-- `current_drive_mode = CurrentDriveMode()` and the change test -/
  | pollMode (tmp : DriveMode)
  /-- `NotifyNewDriveMode` -/
  | notifyMode (current : DriveMode)
  /-- `Advertise()` -/
  | advertise
  /-- `while (!DeviceConnected)` of the waiting branch -/
  | waitTest
  /-- `CurrentTime = millis()` -/
  | readClock
  /-- read `DisconnectionTime` and test the elapsed time -/
  | testElapsed (currentTime : UInt32)
  /-- `CurrentDriveMode()` and the test against `DisconnectionStop` -/
  | testMode
  deriving DecidableEq

/-- Inside the connected branch, before the task has seen the disconnection. -/
def Pc.Polling : Pc → Prop
  | .innerTest _ => True
  | .pollMode _ => True
  | .notifyMode _ => True
  | _ => False

instance : DecidablePred Pc.Polling
  | .innerTest _ | .pollMode _ | .notifyMode _ => .isTrue trivial
  | .outerTest | .advertise | .waitTest | .readClock | .testElapsed _
  | .testMode => .isFalse id

/-- Perform the test or call at the program counter: the next program counter
and the straight-line code that comes before it. -/
def Pc.next (now : UInt32) (sh : Shared) : Pc → Pc × List TaskStmt
  | .outerTest =>
      if sh.ctx.deviceConnected then
        (.innerTest .initialConenction, [.digitalWrite .led .high])
      else (.waitTest, [])
  | .innerTest tmp =>
      if sh.ctx.deviceConnected then (.pollMode tmp, [])
      else (.advertise, [.stopForDisconnection])
  | .pollMode tmp =>
      if sh.world.currentDriveMode = tmp then (.innerTest tmp, measureAndSleep)
      else (.notifyMode sh.world.currentDriveMode, [])
  | .notifyMode current => (.innerTest current, measureAndSleep)
  | .advertise => (.outerTest, [.vTaskDelay])
  | .waitTest =>
      if sh.ctx.deviceConnected then (.outerTest, [.vTaskDelay])
      else (.readClock, coolBlink)
  | .readClock => (.testElapsed now, [])
  | .testElapsed currentTime =>
      if timedOut currentTime sh.ctx.disconnectionTime then (.testMode, [])
      else (.waitTest, [])
  | .testMode =>
      if sh.world.currentDriveMode = .disconnectionStop then (.waitTest, [])
      else (.waitTest, [.stopForDisconnection])

/-- The connected branch is entered only under a set flag. -/
theorem Pc.polling_of_next {now : UInt32} {sh : Shared} {pc : Pc}
    (h : (pc.next now sh).1.Polling) :
    pc.Polling ∨ sh.ctx.deviceConnected = true := by
  cases hflag : sh.ctx.deviceConnected with
  | true => exact .inr rfl
  | false =>
      cases pc with
      | innerTest tmp => exact .inl trivial
      | pollMode tmp => exact .inl trivial
      | notifyMode current => exact .inl trivial
      | outerTest => simp [Pc.next, hflag, Pc.Polling] at h
      | waitTest => simp [Pc.next, hflag, Pc.Polling] at h
      | testElapsed currentTime =>
          simp only [Pc.next] at h
          split at h <;> cases h
      | testMode =>
          simp only [Pc.next] at h
          split at h <;> cases h
      | _ => cases h

/-- It is left for advertising only. -/
theorem Pc.Polling.next {pc : Pc} (h : pc.Polling) (now : UInt32)
    (sh : Shared) :
    (pc.next now sh).1.Polling ∨ (pc.next now sh).1 = .advertise := by
  cases pc with
  | innerTest tmp =>
      cases hflag : sh.ctx.deviceConnected <;> simp [Pc.next, hflag, Pc.Polling]
  | pollMode tmp =>
      refine .inl ?_
      simp only [Pc.next]
      split <;> trivial
  | notifyMode current => exact .inl trivial
  | _ => exact h.elim

/-- And that happens only under a cleared flag. -/
theorem Pc.polling_of_next_advertise {now : UInt32} {sh : Shared} {pc : Pc}
    (h : (pc.next now sh).1 = .advertise) :
    pc.Polling ∧ sh.ctx.deviceConnected = false := by
  cases pc with
  | innerTest tmp =>
      cases hflag : sh.ctx.deviceConnected with
      | true => simp [Pc.next, hflag] at h
      | false => exact ⟨trivial, rfl⟩
  | notifyMode current => cases h
  | advertise => cases h
  | readClock => cases h
  | _ =>
      simp only [Pc.next] at h
      split at h <;> cases h

/-! ## The server -/

/-- The state of the BLE library: whether the manager's constructor has
returned, whether the server advertises, and how many clients are connected. -/
structure Ble where
  constructed : Bool
  advertising : Bool
  links : Nat
  deriving DecidableEq

/-- The callback that is being run. -/
inductive Handler where
  | onConnect
  | onDisconnect
  | onWrite
  deriving DecidableEq

/-- A state of the server. -/
structure State extends Shared where
  ble : Ble
  /-- the callback in progress, with what is left of it -/
  handler : Option Handler
  callback : Thread CallbackStmt
  /-- the connectivity task -/
  pc : Pc
  task : Thread TaskStmt

/-- `setup` has constructed the car and the manager's constructor has started
the connectivity task. -/
def State.powerUp : State where
  world := World.powerUp
  ctx := { disconnectionTime := 0, deviceConnected := false }
  ble := { constructed := false, advertising := false, links := 0 }
  handler := none
  callback := Thread.done
  pc := .outerTest
  task := Thread.done

/-- Events of the radio and steps of the tasks; `now` is what `millis()` reads
should the step ask for it. -/
inductive Event where
  /-- the manager's constructor starts advertising and returns -/
  | constructorReturns
  | connect
  | disconnect
  | write (uuid : String) (raw : Option (List UInt8))
  | callback (now : UInt32)
  | task (now : UInt32)
  deriving DecidableEq

/-- What the model leaves open. -/
structure Setting where
  granularity : Granularity
  /-- when the BLE library accepts a client -/
  accepts : Ble → Bool

/-- Clients can connect while the server advertises. -/
def advertised (b : Ble) : Bool := b.advertising

/-- Clients can connect one after the other, at any moment. -/
def oneAtATime (b : Ble) : Bool := b.links == 0

/-- Controller calls are atomic and clients connect to an advertising server. -/
abbrev atomicCalls : Setting := ⟨.call, advertised⟩

/-- Every statement is a step and clients come one at a time. -/
abbrev singleStatements : Setting := ⟨.statement, oneAtATime⟩

/-- Accepting a client ends advertising. -/
def Ble.accept (b : Ble) : Ble :=
  { b with advertising := false, links := b.links + 1 }

namespace State

/-- The connectivity task performs the test or call at its program counter. -/
def control (now : UInt32) (s : State) : State :=
  { s with
    ble := if s.pc = .advertise then { s.ble with advertising := true } else s.ble
    pc := (s.pc.next now s.toShared).1
    task := ⟨[], (s.pc.next now s.toShared).2⟩ }

theorem control_links (now : UInt32) (s : State) :
    (s.control now).ble.links = s.ble.links := by
  unfold control
  dsimp only
  split <;> rfl

theorem control_ble_of_ne {s : State} (now : UInt32) (h : s.pc ≠ .advertise) :
    (s.control now).ble = s.ble :=
  if_neg h

/-- One step.  `onConnect` is a single assignment, so where controller calls
are atomic it happens together with the connection. -/
def step (cfg : Setting) (s : State) : Event → Option State
  | .constructorReturns =>
      if s.ble.constructed then none
      else some
        { s with ble := { s.ble with constructed := true, advertising := true } }
  | .connect =>
      if s.ble.constructed ∧ cfg.accepts s.ble ∧ s.handler = none then
        match cfg.granularity with
        | .statement => some
            { s with
              ble := s.ble.accept
              handler := some .onConnect
              callback := ⟨[], onConnect⟩ }
        | .call => some
            { s with
              ble := s.ble.accept
              ctx := { s.ctx with deviceConnected := true } }
      else none
  | .disconnect =>
      if 0 < s.ble.links ∧ s.handler = none then some
        { s with
          ble := { s.ble with links := s.ble.links - 1 }
          handler := some .onDisconnect
          callback := ⟨[], onDisconnect⟩ }
      else none
  | .write uuid raw =>
      if 0 < s.ble.links ∧ s.handler = none then some
        { s with
          handler := some .onWrite
          callback := ⟨[], onWrite uuid raw⟩ }
      else none
  | .callback now =>
      match s.callback.step cfg.granularity now s.toShared with
      | some (th, sh) => some { s with toShared := sh, callback := th }
      | none => if s.handler = none then none else some { s with handler := none }
  | .task now =>
      match s.task.step cfg.granularity now s.toShared with
      | some (th, sh) => some { s with toShared := sh, task := th }
      | none => some (s.control now)

/-- A test or call comes behind the straight-line code before it. -/
theorem step_task_of_done {cfg : Setting} {s : State} (now : UInt32)
    (hdone : s.task = Thread.done) :
    s.step cfg (.task now) = some (s.control now) := by
  have hnone : s.task.step cfg.granularity now s.toShared = none :=
    Thread.step_eq_none_iff.mpr hdone
  simp only [step, hnone]

/-- The packet that a step hands to `notify`, if any. -/
def notified (s : State) : Event → Option BLERCCarPacket
  | .task _ =>
      match s.task, s.pc with
      | ⟨[], []⟩, .notifyMode current => some (.drive current 0)
      | _, _ => none
  | _ => none

/-- The drive mode that a step reads to look for a change, if any. -/
def polled (s : State) : Event → Option DriveMode
  | .task _ =>
      match s.task, s.pc with
      | ⟨[], []⟩, .pollMode _ => some s.world.currentDriveMode
      | _, _ => none
  | _ => none

/-- Only the task polls, at its poll. -/
theorem polled_eq_some {s : State} {e : Event} {mode : DriveMode}
    (h : s.polled e = some mode) : ∃ now tmp, e = .task now ∧
      s.task = Thread.done ∧ s.pc = .pollMode tmp ∧
        mode = s.world.currentDriveMode := by
  cases e with
  | task now =>
      simp only [polled] at h
      split at h
      · next tmp htask hpc =>
          cases h
          exact ⟨now, tmp, rfl, htask, hpc, rfl⟩
      · cases h
  | _ => cases h

/-- Only the task notifies, of the mode it just polled. -/
theorem notified_eq_some {s : State} {e : Event} {packet : BLERCCarPacket}
    (h : s.notified e = some packet) : ∃ now current, e = .task now ∧
      s.task = Thread.done ∧ s.pc = .notifyMode current ∧
        packet = .drive current 0 := by
  cases e with
  | task now =>
      simp only [notified] at h
      split at h
      · next current htask hpc =>
          cases h
          exact ⟨now, current, rfl, htask, hpc, rfl⟩
      · cases h
  | _ => cases h

theorem polled_of_done {s : State} (now : UInt32) {tmp : DriveMode}
    (hdone : s.task = Thread.done) (hpc : s.pc = .pollMode tmp) :
    s.polled (.task now) = some s.world.currentDriveMode := by
  simp [polled, hdone, Thread.done, hpc]

theorem notified_of_done {s : State} (now : UInt32) {current : DriveMode}
    (hdone : s.task = Thread.done) (hpc : s.pc = .notifyMode current) :
    s.notified (.task now) = some (.drive current 0) := by
  simp [notified, hdone, Thread.done, hpc]

/-- Everything a step can do. -/
inductive Move (cfg : Setting) (s : State) : Event → State → Prop
  | constructorReturns (hnew : s.ble.constructed = false) :
      Move cfg s .constructorReturns
        { s with ble := { s.ble with constructed := true, advertising := true } }
  | connect (hcon : s.ble.constructed = true)
      (hacc : cfg.accepts s.ble = true) (hidle : s.handler = none)
      (hg : cfg.granularity = .statement) :
      Move cfg s .connect
        { s with
          ble := s.ble.accept
          handler := some .onConnect
          callback := ⟨[], onConnect⟩ }
  | connected (hcon : s.ble.constructed = true)
      (hacc : cfg.accepts s.ble = true) (hidle : s.handler = none)
      (hg : cfg.granularity = .call) :
      Move cfg s .connect
        { s with
          ble := s.ble.accept
          ctx := { s.ctx with deviceConnected := true } }
  | disconnect (hlink : 0 < s.ble.links) (hidle : s.handler = none) :
      Move cfg s .disconnect
        { s with
          ble := { s.ble with links := s.ble.links - 1 }
          handler := some .onDisconnect
          callback := ⟨[], onDisconnect⟩ }
  | write (uuid : String) (raw : Option (List UInt8)) (hlink : 0 < s.ble.links)
      (hidle : s.handler = none) :
      Move cfg s (.write uuid raw)
        { s with
          handler := some .onWrite
          callback := ⟨[], onWrite uuid raw⟩ }
  | callback (now : UInt32) (th : Thread CallbackStmt) (sh : Shared)
      (hmove : Thread.Move cfg.granularity now s.callback s.toShared th sh) :
      Move cfg s (.callback now) { s with toShared := sh, callback := th }
  | callbackReturns (now : UInt32) (hdone : s.callback = Thread.done)
      (hbusy : s.handler ≠ none) :
      Move cfg s (.callback now) { s with handler := none }
  | task (now : UInt32) (th : Thread TaskStmt) (sh : Shared)
      (hmove : Thread.Move cfg.granularity now s.task s.toShared th sh) :
      Move cfg s (.task now) { s with toShared := sh, task := th }
  | control (now : UInt32) (hdone : s.task = Thread.done) :
      Move cfg s (.task now) (s.control now)

theorem move_of_step {cfg : Setting} {s s' : State} {e : Event}
    (h : s.step cfg e = some s') : Move cfg s e s' := by
  cases e with
  | constructorReturns =>
      simp only [step] at h
      split at h
      · cases h
      · next hnew =>
          cases h
          exact .constructorReturns (by simpa using hnew)
  | connect =>
      simp only [step] at h
      split at h
      · next hguard =>
          obtain ⟨hcon, hacc, hidle⟩ := hguard
          split at h
          · next hg =>
              cases h
              exact .connect hcon hacc hidle hg
          · next hg =>
              cases h
              exact .connected hcon hacc hidle hg
      · cases h
  | disconnect =>
      simp only [step] at h
      split at h
      · next hguard =>
          cases h
          exact .disconnect hguard.1 hguard.2
      · cases h
  | write uuid raw =>
      simp only [step] at h
      split at h
      · next hguard =>
          cases h
          exact .write uuid raw hguard.1 hguard.2
      · cases h
  | callback now =>
      simp only [step] at h
      split at h
      · next th sh hth =>
          cases h
          exact .callback now th sh (Thread.move_of_step hth)
      · next hth =>
          split at h
          · cases h
          · next hbusy =>
              cases h
              exact .callbackReturns now (Thread.step_eq_none_iff.mp hth) hbusy
  | task now =>
      simp only [step] at h
      split at h
      · next th sh hth =>
          cases h
          exact .task now th sh (Thread.move_of_step hth)
      · next hth =>
          cases h
          exact .control now (Thread.step_eq_none_iff.mp hth)

end State

/-- The interleavings of the server under a setting. -/
def machine (cfg : Setting) : Machine State Event where
  init := State.powerUp
  next := State.step cfg

theorem move_of_next {cfg : Setting} {s s' : State} {e : Event}
    (h : (machine cfg).next s e = some s') : State.Move cfg s e s' :=
  State.move_of_step h

/-! ## What both tasks are going to execute -/

/-- Every statement of a controller call that one of the tasks is still going to
execute meets `p`. -/
structure State.All (p : Instr → Prop) (s : State) : Prop where
  callback : s.callback.All p
  task : s.task.All p

section All

variable {p : Instr → Prop} {cfg : Setting} {s s' : State} {e : Event}

theorem State.all_powerUp : State.powerUp.All p :=
  ⟨Thread.all_done, Thread.all_done⟩

/-- The statements of a stop and of the calls that a write leads to are all that
ever comes in. -/
theorem State.All.step (h : s.All p)
    (hstop : ∀ i ∈ Op.body (.setDriveMode .disconnectionStop), p i)
    (hwrite : ∀ uuid raw, e = .write uuid raw →
      ∀ op ∈ controllerCalls uuid raw, ∀ i ∈ op.body, p i)
    (hmove : State.Move cfg s e s') : s'.All p := by
  cases hmove with
  | connect => exact ⟨all_onConnect, h.task⟩
  | disconnect => exact ⟨all_onDisconnect hstop, h.task⟩
  | write uuid raw => exact ⟨all_onWrite (hwrite uuid raw rfl), h.task⟩
  | callback now th sh hth => exact ⟨h.callback.move hth, h.task⟩
  | task now th sh hth => exact ⟨h.callback, h.task.move hth⟩
  | control => exact ⟨h.callback, all_task hstop _⟩
  | _ => exact ⟨h.callback, h.task⟩

/-- A property of the world that such statements keep, and that does not depend
on the connectivity task's own pins, is kept by every step. -/
theorem State.All.keeps {J : World → Prop} (h : s.All p)
    (hexec : ∀ i w, p i → J w → J (i.exec w))
    (haux : ∀ (pin : AuxPin) level w, J w →
      J { w with board := w.board.digitalWrite pin.number level })
    (hJ : J s.world) (hmove : State.Move cfg s e s') : J s'.world := by
  cases hmove with
  | callback now th sh hth =>
      refine h.callback.keeps hexec (fun st now sh hsh => ?_) hJ hth
      cases st <;> exact hsh
  | task now th sh hth =>
      refine h.task.keeps hexec (fun st now sh hsh => ?_) hJ hth
      cases st with
      | digitalWrite pin level => exact haux pin level sh.world hsh
      | _ => exact hsh
  | _ => exact hJ

end All

/-- The drive mode, and every mode that is still going to be assigned, is one
that `SetDriveMode` assigns. -/
structure State.ModeInv (s : State) : Prop where
  mode : Op.Settled s.world.currentDriveMode
  pending : s.All fun i => ∀ mode, i = .assignMode mode → Op.Settled mode

theorem State.modeInv_powerUp : State.powerUp.ModeInv :=
  ⟨.inr (.inr (.inl rfl)), State.all_powerUp⟩

theorem State.ModeInv.step {cfg : Setting} {s s' : State} {e : Event}
    (h : s.ModeInv) (hmove : State.Move cfg s e s') : s'.ModeInv := by
  have hbody : ∀ op : Op, ∀ i ∈ op.body, ∀ mode, i = .assignMode mode →
      Op.Settled mode := by
    rintro op i hi mode rfl
    exact op.settled_of_mem_body hi
  constructor
  · refine h.pending.keeps (J := fun w => Op.Settled w.currentDriveMode) ?_
      (fun _ _ _ hw => hw) h.mode hmove
    intro i w hi hw
    cases i with
    | assignMode mode => exact hi mode rfl
    | assignDuty motor speed => cases motor <;> exact hw
    | _ => exact hw
  · exact h.pending.step (hbody _) (fun _ _ _ op _ => hbody op) hmove

/-- In every interleaving the drive mode is one that `SetDriveMode` assigns. -/
theorem settled_of_reach {cfg : Setting} {ok : State → Event → Prop}
    {s : State} (h : (machine cfg).Reach ok s) :
    Op.Settled s.world.currentDriveMode := by
  have hinv : s.ModeInv := h.invariant State.modeInv_powerUp
    fun _ _ _ hinv _ hnext => hinv.step (move_of_next hnext)
  exact hinv.mode

end BLERCCar.Server
