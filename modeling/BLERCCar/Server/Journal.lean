import BLERCCar.Lib.Interleaving
import BLERCCar.Server.Granularity

/-!
# The journal of controller calls

Two tasks call into one `Car`: the callback task on behalf of the radio, and the
connectivity task when it decides to stop the car.  The journal of a run lists
these calls in the order in which they are made, with the task that makes them.

It answers two questions.  What becomes of the calls that radio events ask for:
every one of them is made once and in order, or is still to be made by the
callback in progress.  And what the car is after a run: where calls are atomic,
the journal executed by one task on the car that `setup` constructed, up to the
pins that the connectivity task drives itself.

## Main results

* `asked_eq`: calls asked for are calls made and calls owed.
* `car_eq_execAll`: the car after a run is its journal executed.
* `serialized_journal`: the two put together.
-/

namespace BLERCCar.Server

open BLERCCar.Lib

/-! ## Entries -/

/-- The tasks that call the controller. -/
inductive Caller where
  | callbacks
  | connectivity
  deriving DecidableEq

/-- A call of the controller and the task that makes it. -/
structure Called where
  caller : Caller
  op : Op
  deriving DecidableEq

/-- The controller call that the next step of a thread makes or enters. -/
def Thread.calls {α : Type} [Statement α] (th : Thread α) : List Op :=
  match th with
  | ⟨[], st :: _⟩ => (Statement.asCall st).toList
  | _ => []

/-- The controller calls that statements still have to make. -/
def pendingCalls {α : Type} [Statement α] (rest : List α) : List Op :=
  rest.filterMap Statement.asCall

/-- The controller calls that the callback in progress still has to make. -/
def State.owed (s : State) : List Op := pendingCalls s.callback.rest

/-- The entries that a step adds to the journal. -/
def State.entries (s : State) : Event → List Called
  | .callback _ => s.callback.calls.map (Called.mk .callbacks)
  | .task _ => s.task.calls.map (Called.mk .connectivity)
  | _ => []

/-- The controller calls that an event of the radio asks for. -/
def Event.asks : Event → List Op
  | .disconnect => [.setDriveMode .disconnectionStop]
  | .write uuid raw => controllerCalls uuid raw
  | _ => []

/-- The journal of a run. -/
def journal (cfg : Setting) (s : State) (es : List Event) : List Called :=
  (machine cfg).outputs State.entries s es

/-- The calls in a journal, whoever made them. -/
def callsIn (entries : List Called) : List Op := entries.map Called.op

/-- The call of an entry, if it is one of the given task. -/
def Called.callOf (caller : Caller) (entry : Called) : Option Op :=
  if entry.caller = caller then some entry.op else none

/-- The calls that one task made. -/
def callsBy (caller : Caller) (entries : List Called) : List Op :=
  entries.filterMap (Called.callOf caller)

@[simp] theorem callsBy_nil (caller : Caller) : callsBy caller [] = [] := rfl

@[simp] theorem callsBy_self (caller : Caller) (ops : List Op) :
    callsBy caller (ops.map (Called.mk caller)) = ops := by
  simp [callsBy, List.filterMap_map, Function.comp_def, Called.callOf]

theorem callsBy_of_ne {caller caller' : Caller} (h : caller' ≠ caller)
    (ops : List Op) : callsBy caller (ops.map (Called.mk caller')) = [] := by
  simp [callsBy, Called.callOf, h]

/-- The journal merges the calls of the two tasks. -/
theorem interleaved_callsBy (entries : List Called) :
    Interleaved (callsBy .callbacks entries) (callsBy .connectivity entries)
      (callsIn entries) := by
  induction entries with
  | nil => exact .nil
  | cons entry entries ih =>
      obtain ⟨caller, op⟩ := entry
      cases caller with
      | callbacks => exact .left op ih
      | connectivity => exact .right op ih

/-! ## What is asked for is done -/

@[simp] theorem pendingCalls_onConnect : pendingCalls onConnect = [] := rfl

@[simp] theorem pendingCalls_onDisconnect :
    pendingCalls onDisconnect = [.setDriveMode .disconnectionStop] := rfl

@[simp] theorem pendingCalls_onWrite (uuid : String)
    (raw : Option (List UInt8)) :
    pendingCalls (onWrite uuid raw) = controllerCalls uuid raw := by
  rw [pendingCalls, onWrite, List.filterMap_map]
  exact List.filterMap_some

@[simp] theorem pendingCalls_done {α : Type} [Statement α] :
    pendingCalls (Thread.done : Thread α).rest = [] := rfl

/-- A step of a thread makes the first of its pending calls, or none. -/
theorem Thread.Move.calls_append {α : Type} [Statement α] {g : Granularity}
    {now : UInt32} {th th' : Thread α} {sh sh' : Shared}
    (h : Thread.Move g now th sh th' sh') :
    th.calls ++ pendingCalls th'.rest = pendingCalls th.rest := by
  cases h with
  | instr i call rest => rfl
  | enter st op rest _ hcall => simp [Thread.calls, pendingCalls, hcall]
  | whole st op rest _ hcall => simp [Thread.calls, pendingCalls, hcall]
  | stmt st rest _ hcall => simp [Thread.calls, pendingCalls, hcall]

/-- So does a step of the server, and only radio events bring in new ones. -/
theorem callbacks_step {cfg : Setting} {s s' : State} {e : Event}
    (hidle : IdleBetween s) (hmove : State.Move cfg s e s') :
    callsBy .callbacks (s.entries e) ++ s'.owed = s.owed ++ e.asks := by
  unfold State.owed
  have htask : ∀ ops, callsBy .callbacks
      (List.map (Called.mk .connectivity) ops) = [] :=
    callsBy_of_ne (by simp)
  cases hmove with
  | connect _ _ hnone =>
      rw [hidle hnone]
      rfl
  | disconnect _ hnone =>
      rw [hidle hnone]
      rfl
  | write uuid raw _ hnone =>
      rw [hidle hnone]
      exact pendingCalls_onWrite uuid raw
  | callback now th sh hth =>
      simpa [State.entries, Event.asks] using hth.calls_append
  | callbackReturns now hdone =>
      simp [State.entries, Event.asks, hdone, Thread.calls, Thread.done]
  | task now th sh hth => simp [State.entries, Event.asks, htask]
  | control now hdone => simp [State.entries, Event.asks, htask, State.control]
  | _ => simp [State.entries, Event.asks, callsBy]

variable {cfg : Setting} {s t : State} {es : List Event}

/-- Whatever the interleaving and however fine its steps are, the calls that
radio events asked for are those the callbacks have made, in order, followed by
those that the callback in progress has yet to make. -/
theorem asked_eq (hs : IdleBetween s) (hrun : (machine cfg).run s es = some t) :
    callsBy .callbacks (journal cfg s es) ++ t.owed =
      s.owed ++ es.flatMap Event.asks := by
  have hout := (machine cfg).outputs_filterMap (Called.callOf .callbacks)
    State.entries s es
  rw [journal, callsBy, ← hout]
  exact Machine.accounts_run (I := IdleBetween)
    (fun _ _ _ hidle hnext => hidle.move (move_of_next hnext))
    (fun _ _ _ hidle hnext => callbacks_step hidle (move_of_next hnext)) hs hrun

/-- The connectivity task calls for nothing but the stop. -/
theorem eq_stop_of_mem_calls {th : Thread TaskStmt} {op : Op}
    (h : op ∈ th.calls) : op = .setDriveMode .disconnectionStop := by
  unfold Thread.calls at h
  split at h
  · next st _ =>
      cases st with
      | stopForDisconnection => exact List.mem_singleton.mp h
      | _ => exact absurd h List.not_mem_nil
  · exact absurd h List.not_mem_nil

theorem eq_stop_of_mem_journal {op : Op}
    (h : op ∈ callsBy .connectivity (journal cfg s es)) :
    op = .setDriveMode .disconnectionStop := by
  have hall : ∀ entry ∈ journal cfg s es, entry.caller = .connectivity →
      entry.op = .setDriveMode .disconnectionStop := by
    refine Machine.forall_mem_outputs (fun s e entry hentry hcaller => ?_) s es
    cases e with
    | callback now =>
        obtain ⟨op, -, rfl⟩ := List.mem_map.mp hentry
        cases hcaller
    | task now =>
        obtain ⟨op, hop, rfl⟩ := List.mem_map.mp hentry
        exact eq_stop_of_mem_calls hop
    | _ => exact absurd hentry List.not_mem_nil
  obtain ⟨entry, hmem, hentry⟩ := List.mem_filterMap.mp h
  simp only [Called.callOf, Option.ite_none_right_eq_some,
    Option.some.injEq] at hentry
  rw [← hentry.2]
  exact hall entry hmem hentry.1

/-! ## The car is its journal executed -/

/-- The numbers of the pins that the connectivity task writes itself. -/
def auxNumbers : List Int :=
  [AuxPin.led.number, AuxPin.leftTrig.number, AuxPin.rightTrig.number]

theorem AuxPin.number_mem (aux : AuxPin) : aux.number ∈ auxNumbers := by
  cases aux <;> decide

/-- Direction inputs are none of them. -/
theorem pin_notMem_auxNumbers (c : Car) (motor : MotorName) (pin : PinName) :
    (c.motor motor).pin pin ∉ auxNumbers := by
  cases motor <;> cases pin <;>
    simp [Car.motor, Motor.pin, auxNumbers, AuxPin.number]

/-- The world with these pins reset to what they are at power-up. -/
def World.bare (w : World) : World :=
  { w with
    board := { w.board with
      gpio := fun pin =>
        if pin ∈ auxNumbers then Level.low else w.board.gpio pin } }

/-- The car and its board, without them. -/
def State.car (s : State) : World := s.world.bare

theorem World.bare_powerUp : World.powerUp.bare = World.powerUp := by
  simp [World.bare, World.powerUp, Board.ledcWrite]

/-- The task's own pins are not part of the rest. -/
theorem World.bare_digitalWrite (w : World) (aux : AuxPin) (level : Level) :
    World.bare { w with board := w.board.digitalWrite aux.number level } =
      w.bare := by
  have hgpio : ∀ pin, (if pin ∈ auxNumbers then Level.low
      else (w.board.digitalWrite aux.number level).gpio pin) =
        if pin ∈ auxNumbers then Level.low else w.board.gpio pin := by
    intro pin
    split
    · rfl
    · next hpin =>
        apply Function.update_of_ne
        rintro rfl
        exact hpin aux.number_mem
  simp only [World.bare, hgpio]
  rfl

/-- A statement of the car leaves them alone. -/
theorem Instr.bare_exec (i : Instr) (w : World) :
    (i.exec w).bare = i.exec w.bare := by
  cases i with
  | digitalWrite motor pin level =>
      have hpin := pin_notMem_auxNumbers w.car motor pin
      have hgpio : ∀ p, (if p ∈ auxNumbers then Level.low
          else Function.update w.board.gpio ((w.car.motor motor).pin pin) level p) =
            Function.update (fun p => if p ∈ auxNumbers then Level.low
              else w.board.gpio p) ((w.car.motor motor).pin pin) level p := by
        intro p
        by_cases hp : p = (w.car.motor motor).pin pin
        · subst hp
          simp [hpin]
        · simp [Function.update_of_ne hp]
      simp only [Instr.exec, World.bare, Board.digitalWrite, hgpio]
  | _ => rfl

/-- And so does a whole call. -/
theorem bare_run (call : List Instr) (w : World) :
    (run call w).bare = run call w.bare := by
  induction call generalizing w with
  | nil => rfl
  | cons i rest ih =>
      cases i with
      | returnIfStopped =>
          have hmode : w.bare.car.mode = w.car.mode := rfl
          simp only [run, hmode]
          split
          · rfl
          · exact ih w
      | _ =>
          simp only [run]
          rw [ih, Instr.bare_exec]

theorem bare_exec (op : Op) (w : World) : (op.exec w).bare = op.exec w.bare :=
  bare_run op.body w

/-- Where calls are atomic no task is ever inside one. -/
structure Whole (s : State) : Prop where
  idle : IdleBetween s
  callback : s.callback.call = []
  task : s.task.call = []

theorem Thread.Move.call_eq_nil {α : Type} [Statement α] {now : UInt32}
    {th th' : Thread α} {sh sh' : Shared}
    (h : Thread.Move .call now th sh th' sh') (hcall : th.call = []) :
    th'.call = [] := by
  cases h with
  | instr i call rest => cases hcall
  | enter st op rest _ _ hg => cases hg
  | _ => rfl

theorem Whole.move {accepts : Ble → Bool} {s s' : State} {e : Event}
    (h : Whole s) (hmove : State.Move ⟨.call, accepts⟩ s e s') : Whole s' := by
  have hidle := h.idle.move hmove
  cases hmove with
  | connect | disconnect | write => exact ⟨hidle, rfl, h.task⟩
  | callback now th sh hth => exact ⟨hidle, hth.call_eq_nil h.callback, h.task⟩
  | task now th sh hth => exact ⟨hidle, h.callback, hth.call_eq_nil h.task⟩
  | control => exact ⟨hidle, h.callback, rfl⟩
  | _ => exact ⟨hidle, h.callback, h.task⟩

/-- A step of a thread does to the car what the calls it makes do. -/
theorem Thread.Move.bare_eq {α : Type} [Statement α] {now : UInt32}
    {th th' : Thread α} {sh sh' : Shared}
    (h : Thread.Move .call now th sh th' sh') (hcall : th.call = [])
    (hstmt : ∀ (st : α) now sh, (Statement.exec now st sh).world.bare = sh.world.bare) :
    sh'.world.bare = execAll th.calls sh.world.bare := by
  cases h with
  | instr i call rest => cases hcall
  | enter st op rest _ _ hg => cases hg
  | whole st op rest _ hop =>
      simp only [Thread.calls, hop, Option.toList_some]
      exact bare_exec op sh.world
  | stmt st rest _ hop =>
      simp only [Thread.calls, hop, Option.toList_none]
      exact hstmt st now sh

theorem callsIn_map (caller : Caller) (ops : List Op) :
    callsIn (ops.map (Called.mk caller)) = ops := by
  simp [callsIn, Function.comp_def]

theorem bare_step {accepts : Ble → Bool} {s s' : State} {e : Event}
    (h : Whole s) (hmove : State.Move ⟨.call, accepts⟩ s e s') :
    s'.car = execAll (callsIn (s.entries e)) s.car := by
  cases hmove with
  | callback now th sh hth =>
      simp only [State.entries, callsIn_map]
      refine hth.bare_eq h.callback fun st now sh => ?_
      cases st <;> rfl
  | task now th sh hth =>
      simp only [State.entries, callsIn_map]
      refine hth.bare_eq h.task fun st now sh => ?_
      cases st with
      | digitalWrite pin level => exact sh.world.bare_digitalWrite pin level
      | _ => rfl
  | callbackReturns now hdone =>
      simp only [State.entries, hdone]
      rfl
  | control now hdone =>
      simp only [State.entries, hdone]
      rfl
  | _ => rfl

/-- The car after a run of atomic calls is the car before it after the calls of
the journal, one at a time. -/
theorem car_eq_execAll {accepts : Ble → Bool} (hs : Whole s)
    (hrun : (machine ⟨.call, accepts⟩).run s es = some t) :
    t.car = execAll (callsIn (journal ⟨.call, accepts⟩ s es)) s.car := by
  have hstep : ∀ s e s', Whole s →
      (machine ⟨.call, accepts⟩).next s e = some s' →
        s'.car = (s.entries e).foldl (fun w entry => entry.op.exec w) s.car := by
    intro s e s' h hnext
    rw [bare_step h (move_of_next hnext), execAll, callsIn, List.foldl_map]
  rw [execAll, callsIn, List.foldl_map]
  exact Machine.foldl_run (fun _ _ _ h hnext => h.move (move_of_next hnext))
    hstep hs hrun

/-- So from power-up it is the journal executed by one task. -/
theorem car_of_run {accepts : Ble → Bool}
    (hrun : (machine ⟨.call, accepts⟩).run State.powerUp es = some t) :
    t.car = execAll (callsIn (journal ⟨.call, accepts⟩ State.powerUp es))
      World.powerUp := by
  have hcar := car_eq_execAll ⟨fun _ => rfl, rfl, rfl⟩ hrun
  rwa [show State.powerUp.car = World.powerUp from World.bare_powerUp] at hcar

/-! ## Serialization -/

/-- What a run `es` from power-up to `t` owes to its journal. -/
structure Serialized (cfg : Setting) (es : List Event) (t : State)
    (entries : List Called) : Prop where
  /-- where calls are atomic, the car is what they make of it one at a time -/
  car : cfg.granularity = .call → t.car = execAll (callsIn entries) World.powerUp
  /-- they merge the calls of the two tasks -/
  merged : Interleaved (callsBy .callbacks entries)
    (callsBy .connectivity entries) (callsIn entries)
  /-- what the radio asked for is done or still owed, in order -/
  asked : callsBy .callbacks entries ++ t.owed = es.flatMap Event.asks
  /-- the connectivity task calls for nothing but the stop -/
  stops : ∀ op ∈ callsBy .connectivity entries,
    op = .setDriveMode .disconnectionStop

/-- Every interleaving of the two tasks makes the controller calls in some order
in which nothing that the radio asked for is lost, duplicated or overtaken, and
has the effect of this order if it keeps the calls whole. -/
theorem serialized_journal
    (hrun : (machine cfg).run State.powerUp es = some t) :
    Serialized cfg es t (journal cfg State.powerUp es) where
  car hg := by
    obtain ⟨g, accepts⟩ := cfg
    obtain rfl : g = .call := hg
    exact car_of_run hrun
  merged := interleaved_callsBy _
  asked := asked_eq (fun _ => rfl) hrun
  stops _ h := eq_stop_of_mem_journal h

/-- A client turns the wheels and goes.  The connectivity task notices before
the callback has been given the time to stop the car. -/
def turnAndLeave : List Event :=
  [Event.constructorReturns, Event.connect, Event.task 0, Event.task 0,
    Event.write characteristicUuidSteering (some [0x4C, 100, 0]),
    Event.callback 0, Event.callback 0, Event.disconnect, Event.callback 5,
    Event.callback 5, Event.task 6, Event.task 6]

theorem serialized_journal_turnAndLeave : ∃ t,
    (machine atomicCalls).run State.powerUp turnAndLeave = some t ∧
      t.owed = [.setDriveMode .disconnectionStop] ∧
      Serialized atomicCalls turnAndLeave t
        (journal atomicCalls State.powerUp turnAndLeave) := by
  obtain ⟨t, hrun, htest⟩ := Machine.exists_run_of_any (M := machine atomicCalls)
    (fun t => decide (t.owed = [.setDriveMode .disconnectionStop]))
    (show ((machine atomicCalls).run State.powerUp turnAndLeave).any _ = true
      by decide +kernel)
  exact ⟨t, hrun, of_decide_eq_true htest, serialized_journal hrun⟩

end BLERCCar.Server
