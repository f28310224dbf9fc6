import BLERCCar.Common.Packets
import BLERCCar.Server.Car

/-!
# Callbacks of the BLE library

`BLECallbacks.hpp` and the part of `BLEManager.hpp` that runs without
branching, as statement lists.  The shared state of the two tasks is the car on
its board and the `Context` of the manager.

A statement that calls into `Icontroller` is kept apart from the statements the
call is made of: whether a call is one atomic step or one step for each of its
statements is a choice of the model built on top (`Granularity`).

## Main results

* `onWrite_steer_left`, `onWrite_steer_right`, `onWrite_drive`: the calls that
  the handler makes for each kind of packet.
-/

namespace BLERCCar.Server

open BLERCCar.Lib.CString

/-! ## Shared state -/

/-- `ble::Context`; the controller it points to is the car of the world. -/
structure Context where
  disconnectionTime : UInt32
  deviceConnected : Bool
  deriving DecidableEq

/-- What both tasks of the server read and write. -/
structure Shared where
  world : World
  ctx : Context

/-! ## Straight-line code -/

/-- Statements of the callback task. -/
inductive CallbackStmt where
  /-- `Controller->op` -/
  | call (op : Op)
  /-- `DisconnectionTime = millis()` -/
  | stampDisconnectionTime
  /-- `DeviceConnected = value` -/
  | assignDeviceConnected (value : Bool)
  deriving DecidableEq

/-- Pins the connectivity task writes itself: the LED and the triggers of the
two distance sensors. -/
inductive AuxPin where
  | led
  | leftTrig
  | rightTrig
  deriving DecidableEq

/-- `LED_PIN` and the trigger pins passed by the constructor of `Car`. -/
def AuxPin.number : AuxPin → Int
  | led => 23
  | leftTrig => 26
  | rightTrig => 14

/-- Statements of the connectivity task between two of its tests. -/
inductive TaskStmt where
  /-- `Controller->SetDriveMode(DriveMode::DisconnectionStop)` -/
  | stopForDisconnection
  /-- `digitalWrite(pin, level)` -/
  | digitalWrite (pin : AuxPin) (level : Level)
  /-- `vTaskDelay(..)` -/
  | vTaskDelay
  /-- `delayMicroseconds(..)` -/
  | delayMicroseconds
  /-- `pulseIn(m_EchoPin, HIGH)`, which waits for the echo -/
  | pulseIn
  deriving DecidableEq

/-- A statement either calls the controller or acts on the shared state at
once; `now` is what `millis()` reads. -/
class Statement (α : Type) where
  asCall : α → Option Op
  exec : UInt32 → α → Shared → Shared

instance : Statement CallbackStmt where
  asCall
    | .call op => some op
    | _ => none
  exec now st sh :=
    match st with
    | .call _ => sh
    | .stampDisconnectionTime =>
        { sh with ctx := { sh.ctx with disconnectionTime := now } }
    | .assignDeviceConnected value =>
        { sh with ctx := { sh.ctx with deviceConnected := value } }

instance : Statement TaskStmt where
  asCall
    | .stopForDisconnection => some (.setDriveMode .disconnectionStop)
    | _ => none
  exec _ st sh :=
    match st with
    | .digitalWrite pin level =>
        { sh with
          world := { sh.world with
            board := sh.world.board.digitalWrite pin.number level } }
    | _ => sh

/-- How much of a controller call is one step: a single statement, or all of
it. -/
inductive Granularity where
  | statement
  | call
  deriving DecidableEq

/-- A task inside straight-line code: what is left of the controller call it is
in, and the statements behind that call. -/
structure Thread (α : Type) where
  call : List Instr
  rest : List α
  deriving DecidableEq

namespace Thread

variable {α : Type} [Statement α]

/-- A thread with nothing left to do. -/
def done : Thread α := ⟨[], []⟩

/-- Execute the next statement, if there is one. -/
def step (g : Granularity) (now : UInt32) (th : Thread α) (sh : Shared) :
    Option (Thread α × Shared) :=
  match th with
  | ⟨i :: call, rest⟩ =>
      some (⟨i.after call sh.world, rest⟩,
        { sh with world := i.exec sh.world })
  | ⟨[], st :: rest⟩ =>
      match Statement.asCall st with
      | none => some (⟨[], rest⟩, Statement.exec now st sh)
      | some op =>
          match g with
          | .statement => some (⟨op.body, rest⟩, sh)
          | .call => some (⟨[], rest⟩, { sh with world := op.exec sh.world })
  | ⟨[], []⟩ => none

/-- Everything one step of a thread can do. -/
inductive Move (g : Granularity) (now : UInt32) :
    Thread α → Shared → Thread α → Shared → Prop
  /-- the next statement of the controller call it is in -/
  | instr (i : Instr) (call : List Instr) (rest : List α) (sh : Shared) :
      Move g now ⟨i :: call, rest⟩ sh ⟨i.after call sh.world, rest⟩
        { sh with world := i.exec sh.world }
  /-- entering a controller call -/
  | enter (st : α) (op : Op) (rest : List α) (sh : Shared)
      (hcall : Statement.asCall st = some op) (hg : g = .statement) :
      Move g now ⟨[], st :: rest⟩ sh ⟨op.body, rest⟩ sh
  /-- a whole controller call -/
  | whole (st : α) (op : Op) (rest : List α) (sh : Shared)
      (hcall : Statement.asCall st = some op) (hg : g = .call) :
      Move g now ⟨[], st :: rest⟩ sh ⟨[], rest⟩
        { sh with world := op.exec sh.world }
  /-- a statement of its own -/
  | stmt (st : α) (rest : List α) (sh : Shared)
      (hcall : Statement.asCall st = none) :
      Move g now ⟨[], st :: rest⟩ sh ⟨[], rest⟩ (Statement.exec now st sh)

theorem move_of_step {g : Granularity} {now : UInt32} {th th' : Thread α}
    {sh sh' : Shared} (h : th.step g now sh = some (th', sh')) :
    Move g now th sh th' sh' := by
  obtain ⟨call, rest⟩ := th
  cases call with
  | cons i call =>
      cases h
      exact .instr i call rest sh
  | nil =>
      cases rest with
      | nil => cases h
      | cons st rest =>
          simp only [step] at h
          split at h
          · next hcall =>
              cases h
              exact .stmt st rest sh hcall
          · next op hcall =>
              cases g with
              | statement =>
                  cases h
                  exact .enter st op rest sh hcall rfl
              | call =>
                  cases h
                  exact .whole st op rest sh hcall rfl

theorem step_eq_none_iff {g : Granularity} {now : UInt32} {th : Thread α}
    {sh : Shared} : th.step g now sh = none ↔ th = done := by
  obtain ⟨call, rest⟩ := th
  cases call with
  | cons i call => simp [step, done]
  | nil =>
      cases rest with
      | nil => simp [step, done]
      | cons st rest =>
          simp only [step, done, mk.injEq, reduceCtorEq, and_false, iff_false]
          split
          · simp
          · cases g <;> simp

/-- How much of its straight-line code a thread has left. -/
def length (th : Thread α) : Nat := th.call.length + th.rest.length

/-- Where calls are atomic every step leaves less to do. -/
theorem Move.length_lt {now : UInt32} {th th' : Thread α} {sh sh' : Shared}
    (h : Move .call now th sh th' sh') : th'.length < th.length := by
  cases h with
  | instr i call rest =>
      have hle := (i.after_sublist call sh.world).length_le
      simp only [length, List.length_cons]
      omega
  | enter st op rest _ _ hg => cases hg
  | whole st op rest => simp [length]
  | stmt st rest => simp [length]

/-- Every statement of a controller call that a thread is still going to
execute meets `p`. -/
structure All (p : Instr → Prop) (th : Thread α) : Prop where
  call : ∀ i ∈ th.call, p i
  rest : ∀ st ∈ th.rest, ∀ op, Statement.asCall st = some op →
    ∀ i ∈ op.body, p i

variable {p : Instr → Prop} {g : Granularity} {now : UInt32}
  {th th' : Thread α} {sh sh' : Shared}

/-- Between two statements nothing of a call is left to execute. -/
theorem all_of_rest {rest : List α}
    (h : ∀ st ∈ rest, ∀ op, Statement.asCall st = some op →
      ∀ i ∈ op.body, p i) : All p ⟨[], rest⟩ :=
  ⟨fun _ hi => absurd hi List.not_mem_nil, h⟩

theorem all_done : All p (done : Thread α) :=
  all_of_rest fun _ hst => absurd hst List.not_mem_nil

theorem All.move (h : th.All p) (hmove : Move g now th sh th' sh') :
    th'.All p := by
  cases hmove with
  | instr i call rest =>
      have hcall : ∀ j ∈ i.after call sh.world, j ∈ call :=
        fun j hj => (i.after_sublist call sh.world).subset hj
      exact ⟨fun j hj => h.call j (List.mem_cons_of_mem i (hcall j hj)), h.rest⟩
  | enter st op rest _ hcall =>
      exact ⟨h.rest st List.mem_cons_self op hcall,
        fun st' hst' => h.rest st' (List.mem_cons_of_mem st hst')⟩
  | whole st op rest _ hcall =>
      exact all_of_rest fun st' hst' => h.rest st' (List.mem_cons_of_mem st hst')
  | stmt st rest =>
      exact all_of_rest fun st' hst' => h.rest st' (List.mem_cons_of_mem st hst')

/-- A property of the world that these statements keep is kept by a step. -/
theorem All.keeps {J : World → Prop} (h : th.All p)
    (hexec : ∀ i w, p i → J w → J (i.exec w))
    (hstmt : ∀ (st : α) now sh, J sh.world → J (Statement.exec now st sh).world)
    (hJ : J sh.world) (hmove : Move g now th sh th' sh') : J sh'.world := by
  cases hmove with
  | instr i call rest => exact hexec i sh.world (h.call i List.mem_cons_self) hJ
  | enter => exact hJ
  | whole st op rest _ hcall =>
      exact run_keeps hexec (h.rest st List.mem_cons_self op hcall) hJ
  | stmt st rest => exact hstmt st now sh hJ

end Thread

/-! ## Callbacks -/

/-- `MyServerCallbacks::onConnect`. -/
def onConnect : List CallbackStmt := [.assignDeviceConnected true]

/-- `MyServerCallbacks::onDisconnect`. -/
def onDisconnect : List CallbackStmt :=
  [.stampDisconnectionTime, .assignDeviceConnected false,
    .call (.setDriveMode .disconnectionStop)]

/-- The controller calls of `MyCharCallbacks::onWrite` for a write to the
characteristic `uuid`, where `raw` is the memory behind `getData()`. -/
def controllerCalls (uuid : String) (raw : Option (List UInt8)) : List Op :=
  if uuid = characteristicUuidSetDriveModes then
    match raw with
    | none => []
    | some mem =>
        let packet := BLERCCarPacket.ofPayload mem
        if packet.getDriveMode = .unsupported then [.setDriveMode .unsupported]
        else [.setDriveMode packet.getDriveMode, .setSpeed packet.amount]
  else if uuid = characteristicUuidSteering then
    match raw with
    | none => []
    | some mem =>
        let packet := BLERCCarPacket.ofPayload mem
        (if byteAt mem 0 = 0x4C then [.turnLeft packet.amount] else []) ++
          if byteAt mem 0 = 0x52 then [.turnRight packet.amount] else []
  else []

/-- `MyCharCallbacks::onWrite`. -/
def onWrite (uuid : String) (raw : Option (List UInt8)) : List CallbackStmt :=
  (controllerCalls uuid raw).map .call

section All

variable {p : Instr → Prop}

theorem all_onConnect : Thread.All p ⟨[], onConnect⟩ := by
  refine Thread.all_of_rest fun st hst op hop => ?_
  rw [List.mem_singleton.mp hst] at hop
  cases hop

theorem all_onDisconnect
    (hstop : ∀ i ∈ Op.body (.setDriveMode .disconnectionStop), p i) :
    Thread.All p ⟨[], onDisconnect⟩ := by
  refine Thread.all_of_rest fun st hst op hop => ?_
  simp only [onDisconnect, List.mem_cons, List.not_mem_nil, or_false] at hst
  rcases hst with rfl | rfl | rfl
  · cases hop
  · cases hop
  · cases hop
    exact hstop

theorem all_onWrite {uuid : String} {raw : Option (List UInt8)}
    (hcalls : ∀ op ∈ controllerCalls uuid raw, ∀ i ∈ op.body, p i) :
    Thread.All p ⟨[], onWrite uuid raw⟩ := by
  refine Thread.all_of_rest fun st hst op hop => ?_
  obtain ⟨op', hmem, rfl⟩ := List.mem_map.mp hst
  cases hop
  exact hcalls op hmem

/-- The only controller call of the connectivity task is the stop. -/
theorem all_task (hstop : ∀ i ∈ Op.body (.setDriveMode .disconnectionStop), p i)
    (rest : List TaskStmt) : Thread.All p ⟨[], rest⟩ := by
  refine Thread.all_of_rest fun st _ op hop => ?_
  cases st with
  | stopForDisconnection =>
      cases hop
      exact hstop
  | _ => cases hop

end All

/-! ## What the handler makes of a packet -/

/-- The handler only ever calls the controller with a decoded mode or with the
second byte of the packet. -/
theorem mem_controllerCalls {uuid : String} {mem : List UInt8} {op : Op}
    (h : op ∈ controllerCalls uuid (some mem)) :
    (∃ m, op = .setDriveMode m) ∨ op = .setSpeed (byteAt mem 1) ∨
      op = .turnLeft (byteAt mem 1) ∨ op = .turnRight (byteAt mem 1) := by
  unfold controllerCalls at h
  by_cases hdrive : uuid = characteristicUuidSetDriveModes
  · simp only [if_pos hdrive] at h
    split at h
    · exact .inl ⟨_, List.mem_singleton.mp h⟩
    · rcases List.mem_cons.mp h with hmode | hspeed
      · exact .inl ⟨_, hmode⟩
      · exact .inr (.inl (List.mem_singleton.mp hspeed))
  · simp only [if_neg hdrive] at h
    split at h
    · rcases List.mem_append.mp h with hleft | hright
      · split at hleft
        · exact .inr (.inr (.inl (List.mem_singleton.mp hleft)))
        · cases hleft
      · split at hright
        · exact .inr (.inr (.inr (List.mem_singleton.mp hright)))
        · cases hright
    · cases h

/-- A left packet turns left by its amount. -/
theorem onWrite_steer_left {mem : List UInt8} {amount : UInt8}
    (h : BLERCCarPacket.ofPayload mem = .steerLeft amount) :
    controllerCalls characteristicUuidSteering (some mem) =
      [.turnLeft amount] := by
  have hcommand : byteAt mem 0 = 0x4C := congrArg BLERCCarPacket.command h
  simp [controllerCalls, h, hcommand, BLERCCarPacket.steerLeft]

/-- A right packet turns right by its amount. -/
theorem onWrite_steer_right {mem : List UInt8} {amount : UInt8}
    (h : BLERCCarPacket.ofPayload mem = .steerRight amount) :
    controllerCalls characteristicUuidSteering (some mem) =
      [.turnRight amount] := by
  have hcommand : byteAt mem 0 = 0x52 := congrArg BLERCCarPacket.command h
  simp [controllerCalls, h, hcommand, BLERCCarPacket.steerRight]

/-- A drive packet with a mode that `GetDriveMode` lists sets that mode and
then the speed. -/
theorem onWrite_drive {mem : List UInt8} {m : DriveMode} {amount : UInt8}
    (hm : BLERCCarPacket.Commandable m)
    (h : BLERCCarPacket.ofPayload mem = .drive m amount) :
    controllerCalls characteristicUuidSetDriveModes (some mem) =
      [.setDriveMode m, .setSpeed amount] := by
  have hne : m ≠ .unsupported := by
    rcases hm with rfl | rfl | rfl | rfl | rfl <;> decide
  have hamount : (BLERCCarPacket.drive m amount).amount = amount := rfl
  simp [controllerCalls, h, BLERCCarPacket.getDriveMode_drive hm, hne, hamount]

end BLERCCar.Server
