import BLERCCar.Server.Links

/-!
# A disconnected car stands still

Both tasks may stop the car at the same time, without a lock and one write at a
time.  While nobody is connected every write in progress clears the value it
writes to, so half-done stops of the two tasks cannot undo each other.  Every
statement is a step here and clients come one at a time.

## Main results

* `StandInv.step`: each of the five values that make a car stand still is
  cleared, or the write that clears it is still to come.
* `standsStill_of_disconnected`: without a client and outside `onDisconnect`,
  all four direction inputs are low and the mode is one of the two stops.
-/

namespace BLERCCar.Server

open BLERCCar.Lib

/-! ## The values that stop a car -/

/-- The mode and the four direction inputs. -/
inductive Spot where
  | mode
  | pin (motor : MotorName) (pin : PinName)

namespace Spot

/-- The value is one of a stopped car. -/
def Still (w : World) : Spot → Prop
  | .mode => w.currentDriveMode = .stop ∨ w.currentDriveMode = .disconnectionStop
  | .pin motor name => w.pin motor name = .low

/-- The statement of `SetDriveMode(DisconnectionStop)` that clears the value. -/
def clear : Spot → Instr
  | .mode => .assignMode .disconnectionStop
  | .pin motor name => .digitalWrite motor name .low

/-- Clearing a value clears it. -/
theorem still_exec_clear (spot : Spot) (w : World) :
    spot.Still (spot.clear.exec w) := by
  cases spot with
  | mode => exact .inr rfl
  | pin motor pin =>
      simp [Still, clear, Instr.exec, World.pin, Board.digitalWrite]

/-- Clearing another value does not hurt. -/
theorem Still.exec_clear {spot : Spot} {w : World} (h : spot.Still w)
    (other : Spot) : spot.Still (other.clear.exec w) := by
  cases other with
  | mode =>
      cases spot with
      | mode => exact .inr rfl
      | pin motor pin => exact h
  | pin motor pin =>
      cases spot with
      | mode => exact h
      | pin motor' pin' =>
          show Function.update w.board.gpio _ Level.low _ = Level.low
          rw [Function.update_apply]
          split
          · rfl
          · exact h

/-- The connectivity task's own pins are none of the motors'. -/
theorem Still.digitalWrite_aux {spot : Spot} {w : World} (h : spot.Still w)
    (aux : AuxPin) (level : Level) :
    spot.Still { w with board := w.board.digitalWrite aux.number level } := by
  cases spot with
  | mode => exact h
  | pin motor pin =>
      have hne : (w.car.motor motor).pin pin ≠ aux.number := by
        cases motor <;> cases pin <;> cases aux <;>
          simp [Car.motor, Motor.pin, AuxPin.number]
      show Function.update w.board.gpio aux.number level _ = Level.low
      rw [Function.update_of_ne hne]
      exact h

end Spot

/-- A statement that clears one of the values. -/
def Instr.Clears (i : Instr) : Prop := ∃ spot : Spot, i = spot.clear

theorem Instr.Clears.after_eq {i : Instr} (h : i.Clears) (rest : List Instr)
    (w : World) : i.after rest w = rest := by
  obtain ⟨spot, rfl⟩ := h
  cases spot <;> rfl

/-- The stop clears every value. -/
theorem clear_mem_stop (spot : Spot) :
    spot.clear ∈ Op.body (.setDriveMode .disconnectionStop) := by
  cases spot with
  | mode => exact List.mem_cons_self
  | pin motor pin =>
      cases motor <;> cases pin <;>
        simp [Spot.clear, Op.body, Car.setDriveMode, Car.stop, Car.zeroSteer]

/-- The stop does nothing else. -/
theorem clears_of_mem_stop {i : Instr}
    (h : i ∈ Op.body (.setDriveMode .disconnectionStop)) : i.Clears := by
  simp only [Op.body, Car.setDriveMode, Car.stop, Car.zeroSteer, if_true,
    List.cons_append, List.nil_append, List.mem_cons, List.not_mem_nil, or_false]
    at h
  rcases h with rfl | rfl | rfl | rfl | rfl
  · exact ⟨.mode, rfl⟩
  · exact ⟨.pin .driveShaft .pin1, rfl⟩
  · exact ⟨.pin .driveShaft .pin2, rfl⟩
  · exact ⟨.pin .steering .pin1, rfl⟩
  · exact ⟨.pin .steering .pin2, rfl⟩

/-! ## The invariant -/

/-- The value is cleared, or the callback task is going to clear it. -/
def Spot.Settles (th : Thread CallbackStmt) (w : World) (spot : Spot) : Prop :=
  spot.Still w ∨ spot.clear ∈ th.call ∨
    .call (.setDriveMode .disconnectionStop) ∈ th.rest

/-- What `onDisconnect` still has to do. -/
structure Leaving (th : Thread CallbackStmt) (w : World) : Prop where
  call : ∀ i ∈ th.call, i.Clears
  rest : ∀ op, .call op ∈ th.rest → op = .setDriveMode .disconnectionStop
  settles : ∀ spot : Spot, spot.Settles th w

/-- What every run keeps. -/
structure StandInv (s : State) : Prop where
  link : LinkInv s
  task : s.task.All Instr.Clears
  opening : s.handler = some .onConnect →
    s.callback = ⟨[], onConnect⟩ ∨ s.callback = Thread.done
  leaving : s.handler = some .onDisconnect → Leaving s.callback s.world
  still : s.handler ≠ some .onDisconnect → s.ctx.deviceConnected = false →
    ∀ spot : Spot, spot.Still s.world

/-- `onDisconnect` keeps on clearing. -/
theorem Leaving.move {now : UInt32} {th th' : Thread CallbackStmt}
    {sh sh' : Shared} (h : Leaving th sh.world)
    (hmove : Thread.Move .statement now th sh th' sh') :
    Leaving th' sh'.world := by
  cases hmove with
  | instr i call rest =>
      have hi : i.Clears := h.call i List.mem_cons_self
      obtain ⟨cleared, rfl⟩ := hi
      rw [Instr.Clears.after_eq ⟨cleared, rfl⟩]
      refine
        { call := fun j hj => h.call j (List.mem_cons_of_mem _ hj)
          rest := h.rest
          settles := fun spot => ?_ }
      rcases h.settles spot with hstill | hcall | hrest
      · exact .inl (hstill.exec_clear cleared)
      · rcases List.mem_cons.mp hcall with hhead | htail
        · refine .inl ?_
          rw [← hhead]
          exact spot.still_exec_clear sh.world
        · exact .inr (.inl htail)
      · exact .inr (.inr hrest)
  | enter st op rest _ hcall =>
      cases st with
      | call op' =>
          cases hcall
          obtain rfl := h.rest op List.mem_cons_self
          exact
            { call := fun i => clears_of_mem_stop
              rest := fun op' hop' => h.rest op' (List.mem_cons_of_mem _ hop')
              settles := fun spot => .inr (.inl (clear_mem_stop spot)) }
      | stampDisconnectionTime => cases hcall
      | assignDeviceConnected value => cases hcall
  | whole _ _ _ _ _ hg => cases hg
  | stmt st rest _ hcall =>
      have hworld : (Statement.exec now st sh).world = sh.world := by
        cases st <;> rfl
      refine
        { call := by simp
          rest := fun op hop => h.rest op (List.mem_cons_of_mem _ hop)
          settles := fun spot => ?_ }
      rcases h.settles spot with hstill | hbad | hrest
      · exact .inl (hworld ▸ hstill)
      · cases hbad
      · rcases List.mem_cons.mp hrest with rfl | htail
        · cases hcall
        · exact .inr (.inr htail)

/-- The connectivity task keeps what is cleared. -/
theorem still_of_move {now : UInt32} {th th' : Thread TaskStmt}
    {sh sh' : Shared} (hclears : th.All Instr.Clears)
    (hmove : Thread.Move .statement now th sh th' sh') (spot : Spot)
    (hstill : spot.Still sh.world) : spot.Still sh'.world := by
  refine hclears.keeps (J := fun w => spot.Still w) ?_ ?_ hstill hmove
  · rintro i w ⟨cleared, rfl⟩ hw
    exact hw.exec_clear cleared
  · intro st now sh hsh
    cases st with
    | digitalWrite aux level => exact hsh.digitalWrite_aux aux level
    | _ => exact hsh

/-- While a write is being handled the flag is set. -/
theorem LinkInv.flag_of_writing {s : State} (h : LinkInv s)
    (hwrite : s.handler = some .onWrite) : s.ctx.deviceConnected = true := by
  obtain ⟨hlinks, hflags⟩ := h.writing hwrite
  have hphase := h.phase
  rw [hflags] at hphase
  rcases hphase.of_nil with ⟨hzero, -⟩ | ⟨-, hflag⟩
  · omega
  · exact hflag

theorem StandInv.step {s s' : State} {e : Event} (h : StandInv s)
    (hlink : LinkInv s') (hmove : State.Move singleStatements s e s') :
    StandInv s' := by
  cases hmove with
  | constructorReturns => exact { h with link := hlink }
  | connect _ _ hidle =>
      have hnone : s.handler ≠ some .onDisconnect := by simp [hidle]
      exact
        { link := hlink
          task := h.task
          opening := fun _ => .inl rfl
          leaving := by simp
          still := fun _ => h.still hnone }
  | connected _ _ _ hg => cases hg
  | disconnect hpos hidle =>
      refine
        { link := hlink
          task := h.task
          opening := by simp
          leaving := fun _ => ?_
          still := fun hne => absurd rfl hne }
      exact
        { call := by simp
          rest := fun op hop => by simpa [onDisconnect] using hop
          settles := fun spot => .inr (.inr (by simp [onDisconnect])) }
  | write uuid raw hpos hidle =>
      exact
        { link := hlink
          task := h.task
          opening := by simp
          leaving := by simp
          still := fun _ hflag =>
            absurd ((h.link.up_of_idle hidle hpos).2.symm.trans hflag) (by simp) }
  | callback now th sh hth =>
      refine
        { link := hlink
          task := h.task
          opening := fun hopen => ?_
          leaving := fun hleave => (h.leaving hleave).move hth
          still := fun hne hflag => ?_ }
      · rcases h.opening hopen with hfirst | hdone
        · rw [hfirst] at hth
          cases hth with
          | enter _ _ _ _ hcall => cases hcall
          | whole _ _ _ _ _ hg => cases hg
          | stmt => exact .inr rfl
        · rw [hdone] at hth
          cases hth
      · -- only `onDisconnect` can end up with the flag cleared
        cases hhandler : s.handler with
        | none =>
            rw [h.link.idle hhandler] at hth
            cases hth
        | some handler =>
            cases handler with
            | onConnect =>
                rcases h.opening hhandler with hfirst | hdone
                · rw [hfirst] at hth
                  cases hth with
                  | enter _ _ _ _ hcall => cases hcall
                  | whole _ _ _ _ _ hg => cases hg
                  | stmt => exact absurd hflag (by simp)
                · rw [hdone] at hth
                  cases hth
            | onDisconnect => exact absurd hhandler hne
            | onWrite =>
                have hset := hlink.flag_of_writing hhandler
                exact absurd (hset.symm.trans hflag) (by simp)
  | callbackReturns now hdone hbusy =>
      refine
        { link := hlink
          task := h.task
          opening := by simp
          leaving := by simp
          still := fun _ hflag spot => ?_ }
      by_cases hleave : s.handler = some .onDisconnect
      · have hsettles := (h.leaving hleave).settles spot
        rw [hdone] at hsettles
        rcases hsettles with hstill | hbad | hbad
        · exact hstill
        · cases hbad
        · cases hbad
      · exact h.still hleave hflag spot
  | task now th sh hth =>
      have hstill := still_of_move h.task hth
      have hctx := ctx_of_move hth
      refine
        { link := hlink
          task := h.task.move hth
          opening := h.opening
          leaving := fun hleave => ?_
          still := fun hne hflag spot => ?_ }
      · have hbefore := h.leaving hleave
        exact
          { hbefore with
            settles := fun spot => (hbefore.settles spot).imp_left (hstill spot) }
      · refine hstill spot (h.still hne ?_ spot)
        rw [← hctx]
        exact hflag
  | control now hdone =>
      exact
        { link := hlink
          task := all_task (fun _ => clears_of_mem_stop) _
          opening := h.opening
          leaving := h.leaving
          still := h.still }

theorem standInv_powerUp : StandInv State.powerUp :=
  { link := linkInv_powerUp
    task := State.all_powerUp.task
    opening := by simp [State.powerUp]
    leaving := by simp [State.powerUp]
    still := fun _ _ spot => by
      cases spot with
      | mode => exact .inl rfl
      | pin motor pin => rfl }

theorem standInv_of_reachable {s : State}
    (h : (machine singleStatements).Reachable s) : StandInv s := by
  refine h.invariant standInv_powerUp ?_
  intro u e u' hu _ hnext
  exact hu.step (hu.link.next hnext) (move_of_next hnext)

/-! ## The main result -/

/--
In every reachable state without a client in which `onDisconnect` is not in
progress, all four direction inputs are low and the mode is one of the two
stops, whatever either task has left half done.
-/
theorem standsStill_of_disconnected {s : State}
    (h : (machine singleStatements).Reachable s)
    (hflag : s.ctx.deviceConnected = false)
    (hhandler : s.handler ≠ some .onDisconnect) :
    (∀ motor pin, s.world.pin motor pin = .low) ∧
      (s.world.currentDriveMode = .stop ∨
        s.world.currentDriveMode = .disconnectionStop) := by
  have hstill := (standInv_of_reachable h).still hhandler hflag
  exact ⟨fun motor pin => hstill (.pin motor pin), hstill .mode⟩

/-- A client connects during the watchdog's stop, drives off and leaves. -/
def stopOvertaken : List Event :=
  [Event.constructorReturns] ++ List.replicate 17 (Event.task 11000) ++
    [Event.connect, Event.callback 0, Event.callback 0,
      Event.write characteristicUuidSetDriveModes (some [1, 80])] ++
    List.replicate 6 (Event.callback 0) ++ List.replicate 2 (Event.task 11000) ++
    List.replicate 3 (Event.callback 0) ++ [Event.disconnect] ++
    List.replicate 9 (Event.callback 0)

theorem standsStill_of_disconnected_stopOvertaken : ∃ s,
    (machine singleStatements).run State.powerUp stopOvertaken = some s ∧
      (∀ motor pin, s.world.pin motor pin = .low) ∧
        (s.world.currentDriveMode = .stop ∨
          s.world.currentDriveMode = .disconnectionStop) := by
  obtain ⟨s, hrun, htest⟩ := Machine.exists_run_of_any
    (M := machine singleStatements)
    (fun s => decide (s.ctx.deviceConnected = false ∧
      s.handler ≠ some .onDisconnect))
    (show ((machine singleStatements).run State.powerUp stopOvertaken).any _ = true
      by decide +kernel)
  obtain ⟨hflag, hhandler⟩ := of_decide_eq_true htest
  have hreach : (machine singleStatements).Reachable s :=
    Machine.Reachable.of_run .init hrun
  exact ⟨s, hrun, standsStill_of_disconnected hreach hflag hhandler⟩

end BLERCCar.Server
