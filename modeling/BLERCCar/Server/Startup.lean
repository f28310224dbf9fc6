import BLERCCar.Server.Links

/-!
# Starting up

The constructor of `BLEManager` starts the connectivity task before it assigns
most of the pointers that this task and the callbacks go through.  Here the
constructor is a third thread next to them: a list of statements, each of which
may assign a pointer, call through others, start the task or start advertising.

`wellOrdered` checks such a list statement by statement: what a statement goes
through, and what those that it sets going may go through, has to be assigned by
then.

## Main results

* `assigned_of_wellOrdered`: a constructor that passes the check is safe in
  every interleaving.
* `sound_of_reach`: so is the constructor of the source, in which the task
  runs while the server, the callbacks and the characteristics are still null.
* `reachable_server`: what server and constructor reach together is among what
  the server with the constructor as a single step reaches.
-/

namespace BLERCCar.Server

open BLERCCar.Lib

/-! ## The constructor -/

/-- The pointers of a `BLEManager`, and `pService`. -/
inductive Pointer where
  /-- `m_BLEManager_ctx.Controller` -/
  | controller
  | charCallbacks
  | serverCallbacks
  | server
  | service
  | currentDriveMode
  | frontLeftDistance
  | frontRightDistance
  | receiveDriveMode
  | receiveSteering
  deriving DecidableEq

/-- Statements of the constructor. -/
inductive BuildStmt where
  /-- assign a pointer what a call through `uses` returns -/
  | assign (pointer : Pointer) (uses : List Pointer)
  /-- a call through `uses` -/
  | call (uses : List Pointer)
  /-- `xTaskCreate(ConnectivityManagementTask_t, ..)` -/
  | createTask
  /-- `m_pServer->startAdvertising()` -/
  | startAdvertising
  deriving DecidableEq

/-- `BLEManager::BLEManager`, with `InitConnectivityMaintenanceTask`. -/
def BLEManager.construct : List BuildStmt :=
  [ .assign .controller []
  , .createTask
    -- `BLEDevice::init`
  , .call []
  , .assign .charCallbacks []
  , .assign .serverCallbacks []
  , .assign .server []
  , .call [.server, .serverCallbacks]
  , .assign .service [.server]
  , .assign .currentDriveMode [.service]
  , .assign .frontLeftDistance [.service]
  , .call [.frontLeftDistance]
  , .assign .frontRightDistance [.service]
  , .call [.frontRightDistance]
  , .assign .receiveDriveMode [.service]
  , .call [.receiveDriveMode, .charCallbacks]
  , .assign .receiveSteering [.service]
  , .call [.receiveSteering, .charCallbacks]
  , .call [.service]
  , .startAdvertising ]

/-- The pointer that a statement assigns. -/
def BuildStmt.assigns : BuildStmt → Option Pointer
  | .assign pointer _ => some pointer
  | _ => none

/-- The pointers that a statement goes through. -/
def BuildStmt.uses : BuildStmt → List Pointer
  | .assign _ uses => uses
  | .call uses => uses
  | .createTask => []
  | .startAdvertising => [.server]

/-- What the task may go through while nobody can connect. -/
def usedAlone : List Pointer := [.controller]

/-- What task and callbacks may go through at all. -/
def usedConnected : List Pointer :=
  [.controller, .charCallbacks, .serverCallbacks, .server, .currentDriveMode,
    .frontLeftDistance, .frontRightDistance]

/-- What those may go through that a statement sets going. -/
def BuildStmt.releases : BuildStmt → List Pointer
  | .createTask => usedAlone
  | .startAdvertising => usedConnected
  | _ => []

/-- Everything is assigned before it is needed, where `assigned` is so already. -/
def wellOrdered (assigned : List Pointer) : List BuildStmt → Bool
  | [] => true
  | st :: todo =>
      decide (st.uses ++ st.releases ⊆ assigned) &&
        wellOrdered (st.assigns.toList ++ assigned) todo

/-! ## What the other threads go through -/

/-- The pointers behind the test or call at a program counter. -/
def Pc.uses : Pc → List Pointer
  | .pollMode _ => [.controller]
  | .notifyMode _ => [.currentDriveMode]
  | .advertise => [.server]
  | .testMode => [.controller]
  | _ => []

/-- The pointers behind a statement of the connectivity task, given what the
task does next.  `GetDistanceMeasurements` samples the sensors through the
controller, and `NotifyNewDistanceRead` comes right before the polling loop
sleeps. -/
def TaskStmt.uses (pc : Pc) : TaskStmt → List Pointer
  | .stopForDisconnection => [.controller]
  | .digitalWrite .leftTrig _ => [.controller]
  | .digitalWrite .rightTrig _ => [.controller]
  | .digitalWrite .led _ => []
  | .pulseIn => [.controller]
  | .delayMicroseconds => []
  | .vTaskDelay =>
      if pc.Polling then [.frontLeftDistance, .frontRightDistance] else []

/-- The pointers behind a statement of the callback task. -/
def CallbackStmt.uses : CallbackStmt → List Pointer
  | .call _ => [.controller]
  | _ => []

/-- The pointers that the next step of a thread goes through, where `idle` are
those behind what it does once its straight-line code is done. -/
def Thread.uses {α : Type} (stmtUses : α → List Pointer) (idle : List Pointer) :
    Thread α → List Pointer
  | ⟨[], []⟩ => idle
  | ⟨[], st :: _⟩ => stmtUses st
  | ⟨_ :: _, _⟩ => []

/-- The pointers that a step of the server goes through; the library holds those
to the callback objects. -/
def State.uses (s : State) : Event → List Pointer
  | .constructorReturns => []
  | .connect => [.serverCallbacks]
  | .disconnect => [.serverCallbacks]
  | .write _ _ => [.charCallbacks]
  | .callback _ => s.callback.uses CallbackStmt.uses []
  | .task _ => s.task.uses (TaskStmt.uses s.pc) s.pc.uses

/-! ## Three threads -/

/-- A server under construction. -/
structure Boot where
  server : State
  /-- the pointers that are not null -/
  assigned : List Pointer
  /-- the connectivity task exists -/
  running : Bool
  /-- the rest of the constructor -/
  todo : List BuildStmt

/-- Steps of the constructor, and of the server around it. -/
inductive BootEvent where
  | construct
  | server (e : Event)
  deriving DecidableEq

namespace Boot

/-- The car is constructed, and the constructor of the manager is called. -/
def init (body : List BuildStmt) : Boot where
  server := State.powerUp
  assigned := []
  running := false
  todo := body

/-- One step. -/
def step (cfg : Setting) (b : Boot) : BootEvent → Option Boot
  | .construct =>
      match b.todo with
      | [] => none
      | .createTask :: todo => some { b with running := true, todo := todo }
      | .startAdvertising :: todo =>
          (b.server.step cfg .constructorReturns).map fun s =>
            { b with server := s, todo := todo }
      | st :: todo =>
          some { b with assigned := st.assigns.toList ++ b.assigned, todo := todo }
  | .server .constructorReturns => none
  | .server (.task now) =>
      if b.running then
        (b.server.step cfg (.task now)).map fun s => { b with server := s }
      else none
  | .server e => (b.server.step cfg e).map fun s => { b with server := s }

/-- The pointers that a step goes through. -/
def uses (b : Boot) : BootEvent → List Pointer
  | .construct =>
      match b.todo with
      | [] => []
      | st :: _ => st.uses
  | .server e => b.server.uses e

/-- Everything a step can do. -/
inductive Move (cfg : Setting) (b : Boot) : BootEvent → Boot → Prop
  | createTask (todo : List BuildStmt) (htodo : b.todo = .createTask :: todo) :
      Move cfg b .construct { b with running := true, todo := todo }
  | startAdvertising (todo : List BuildStmt) (s : State)
      (htodo : b.todo = .startAdvertising :: todo)
      (hnext : (machine cfg).next b.server .constructorReturns = some s) :
      Move cfg b .construct { b with server := s, todo := todo }
  | build (st : BuildStmt) (todo : List BuildStmt) (htodo : b.todo = st :: todo)
      (hassign : st ≠ .createTask ∧ st ≠ .startAdvertising) :
      Move cfg b .construct
        { b with assigned := st.assigns.toList ++ b.assigned, todo := todo }
  | server (e : Event) (s : State) (hne : e ≠ .constructorReturns)
      (hrunning : ∀ now, e = .task now → b.running = true)
      (hnext : (machine cfg).next b.server e = some s) :
      Move cfg b (.server e) { b with server := s }

theorem move_of_step {cfg : Setting} {b b' : Boot} {e : BootEvent}
    (h : b.step cfg e = some b') : Move cfg b e b' := by
  cases e with
  | construct =>
      simp only [step] at h
      split at h
      · cases h
      · next todo htodo =>
          cases h
          exact .createTask todo htodo
      · next todo htodo =>
          obtain ⟨s, hs, rfl⟩ := Option.map_eq_some_iff.mp h
          exact .startAdvertising todo s htodo hs
      · next st todo htask hadv htodo =>
          cases h
          exact .build st todo htodo ⟨by simpa using htask, by simpa using hadv⟩
  | server e =>
      cases e with
      | constructorReturns => cases h
      | task now =>
          simp only [step] at h
          split at h
          · next hrunning =>
              obtain ⟨s, hs, rfl⟩ := Option.map_eq_some_iff.mp h
              exact .server _ s (by simp) (fun _ _ => hrunning) hs
          · cases h
      | _ =>
          obtain ⟨s, hs, rfl⟩ := Option.map_eq_some_iff.mp h
          exact .server _ s (by simp) (by simp) hs

end Boot

/-- The interleavings of a constructor with the server. -/
def boot (cfg : Setting) (body : List BuildStmt) : Machine Boot BootEvent where
  init := Boot.init body
  next := Boot.step cfg

/-! ## Before the constructor returns -/

/-- Nobody is connected, no callback runs, and the task waits. -/
structure Unborn (s : State) : Prop where
  links : s.ble.links = 0
  flag : s.ctx.deviceConnected = false
  handler : s.handler = none
  callback : s.callback = Thread.done
  polling : ¬ s.pc.Polling
  advertise : s.pc ≠ .advertise

theorem unborn_powerUp : Unborn State.powerUp :=
  ⟨rfl, rfl, rfl, rfl, id, by simp [State.powerUp]⟩

theorem Unborn.control {s : State} (h : Unborn s) (now : UInt32) :
    Unborn (s.control now) := by
  have hble : (s.control now).ble = s.ble :=
    State.control_ble_of_ne now h.advertise
  refine
    { links := by rw [hble]; exact h.links
      flag := h.flag
      handler := h.handler
      callback := h.callback
      polling := fun hp => ?_
      advertise := fun hp => ?_ }
  · rcases Pc.polling_of_next hp with hbefore | hflag
    · exact h.polling hbefore
    · exact absurd (h.flag.symm.trans hflag) (by simp)
  · exact h.polling (Pc.polling_of_next_advertise hp).1

/-- It stays that way until the constructor returns. -/
theorem Unborn.move {cfg : Setting} {s s' : State} {e : Event} (h : Unborn s)
    (hmove : State.Move cfg s e s') (hnew : s'.ble.constructed = false) :
    Unborn s' := by
  cases hmove with
  | constructorReturns => cases hnew
  | connect hcon | connected hcon =>
      exact absurd (hcon.symm.trans hnew) (by simp)
  | disconnect hlink | write _ _ hlink => exact absurd hlink (by simp [h.links])
  | callback now th sh hth =>
      rw [h.callback] at hth
      cases hth
  | callbackReturns now hdone hbusy => exact absurd h.handler hbusy
  | task now th sh hth =>
      have hctx := ctx_of_move hth
      exact { h with flag := (congrArg Context.deviceConnected hctx).trans h.flag }
  | control now hdone => exact h.control now

/-- No other step makes the constructor return. -/
theorem State.Move.constructed_of_ne {cfg : Setting} {s s' : State} {e : Event}
    (h : State.Move cfg s e s') (hne : e ≠ .constructorReturns) :
    s'.ble.constructed = s.ble.constructed := by
  cases h with
  | constructorReturns => exact absurd rfl hne
  | control now hdone =>
      unfold State.control
      dsimp only
      split <;> rfl
  | _ => rfl

/-! ## Every pointer is assigned before it is used -/

theorem Thread.uses_subset {α : Type} {stmtUses : α → List Pointer}
    {idle pointers : List Pointer} (hstmt : ∀ st, stmtUses st ⊆ pointers)
    (hidle : idle ⊆ pointers) (th : Thread α) :
    th.uses stmtUses idle ⊆ pointers := by
  obtain ⟨call, rest⟩ := th
  cases call with
  | cons i call => exact List.nil_subset _
  | nil =>
      cases rest with
      | nil => exact hidle
      | cons st rest => exact hstmt st

theorem Pc.uses_subset (pc : Pc) : pc.uses ⊆ usedConnected := by
  cases pc <;> simp [Pc.uses, usedConnected]

theorem TaskStmt.uses_subset (pc : Pc) (st : TaskStmt) :
    st.uses pc ⊆ usedConnected := by
  cases st with
  | stopForDisconnection => simp [TaskStmt.uses, usedConnected]
  | digitalWrite pin level => cases pin <;> simp [TaskStmt.uses, usedConnected]
  | pulseIn | delayMicroseconds => simp [TaskStmt.uses, usedConnected]
  | vTaskDelay =>
      simp only [TaskStmt.uses]
      split <;> simp [usedConnected]

/-- No step of the server goes through any other pointers. -/
theorem State.uses_subset (s : State) (e : Event) : s.uses e ⊆ usedConnected := by
  cases e with
  | callback now =>
      refine s.callback.uses_subset (fun st => ?_) (List.nil_subset _)
      cases st <;> simp [CallbackStmt.uses, usedConnected]
  | task now => exact s.task.uses_subset (TaskStmt.uses_subset s.pc) s.pc.uses_subset
  | _ => simp [State.uses, usedConnected]

/-- While nobody can connect, only the task moves. -/
theorem Unborn.eq_task {cfg : Setting} {s s' : State} {e : Event}
    (h : Unborn s) (hnew : s.ble.constructed = false)
    (hne : e ≠ .constructorReturns) (hmove : State.Move cfg s e s') :
    ∃ now, e = .task now := by
  cases hmove with
  | constructorReturns => exact absurd rfl hne
  | connect hcon | connected hcon =>
      exact absurd (hcon.symm.trans hnew) (by simp)
  | disconnect hlink | write _ _ hlink => exact absurd hlink (by simp [h.links])
  | callback now th sh hth =>
      rw [h.callback] at hth
      cases hth
  | callbackReturns now hdone hbusy => exact absurd h.handler hbusy
  | task now | control now => exact ⟨now, rfl⟩

/-- And it goes through the controller only. -/
theorem Unborn.uses_subset {s : State} (h : Unborn s) (now : UInt32) :
    s.uses (.task now) ⊆ usedAlone := by
  refine s.task.uses_subset (fun st => ?_) ?_
  · cases st with
    | stopForDisconnection => simp [TaskStmt.uses, usedAlone]
    | digitalWrite pin level => cases pin <;> simp [TaskStmt.uses, usedAlone]
    | pulseIn | delayMicroseconds => simp [TaskStmt.uses, usedAlone]
    | vTaskDelay => simp [TaskStmt.uses, h.polling]
  · have hpoll := h.polling
    have hadv := h.advertise
    cases hpc : s.pc with
    | pollMode | notifyMode => simp [hpc, Pc.Polling] at hpoll
    | advertise => exact absurd hpc hadv
    | _ => simp [Pc.uses, usedAlone]

/-- What holds between any two steps of server and constructor. -/
structure BootInv (b : Boot) : Prop where
  ordered : wellOrdered b.assigned b.todo = true
  running : b.running = true → usedAlone ⊆ b.assigned
  connected : b.server.ble.constructed = true → usedConnected ⊆ b.assigned
  unborn : b.server.ble.constructed = false → Unborn b.server

theorem bootInv_init {body : List BuildStmt} (h : wellOrdered [] body = true) :
    BootInv (Boot.init body) where
  ordered := h
  running := by simp [Boot.init]
  connected := by simp [Boot.init, State.powerUp]
  unborn _ := unborn_powerUp

/-- What the check of the next statement says. -/
theorem BootInv.head {b : Boot} (h : BootInv b) {st : BuildStmt}
    {todo : List BuildStmt} (htodo : b.todo = st :: todo) :
    st.uses ⊆ b.assigned ∧ st.releases ⊆ b.assigned ∧
      wellOrdered (st.assigns.toList ++ b.assigned) todo = true := by
  have hordered := h.ordered
  rw [htodo, wellOrdered, Bool.and_eq_true, decide_eq_true_eq,
    List.append_subset] at hordered
  exact ⟨hordered.1.1, hordered.1.2, hordered.2⟩

theorem BootInv.step {cfg : Setting} {b b' : Boot} {e : BootEvent}
    (h : BootInv b) (hmove : Boot.Move cfg b e b') : BootInv b' := by
  cases hmove with
  | createTask todo htodo =>
      obtain ⟨-, hreleases, hordered⟩ := h.head htodo
      exact { h with ordered := hordered, running := fun _ => hreleases }
  | startAdvertising todo s htodo hs =>
      obtain ⟨-, hreleases, hordered⟩ := h.head htodo
      exact
        { ordered := hordered
          running := h.running
          connected := fun _ => hreleases
          unborn := fun hnew => by
            cases move_of_next hs
            cases hnew }
  | build st todo htodo =>
      have hmore : b.assigned ⊆ st.assigns.toList ++ b.assigned :=
        List.subset_append_right _ _
      exact
        { ordered := (h.head htodo).2.2
          running := fun hr => List.Subset.trans (h.running hr) hmore
          connected := fun hcon => List.Subset.trans (h.connected hcon) hmore
          unborn := h.unborn }
  | server e s hne hrunning hs =>
      have hmove := move_of_next hs
      have hcon := hmove.constructed_of_ne hne
      exact
        { ordered := h.ordered
          running := h.running
          connected := fun hc => h.connected (hcon.symm.trans hc)
          unborn := fun hnew =>
            (h.unborn (hcon.symm.trans hnew)).move hmove hnew }

/-- No step goes through a pointer that is still null. -/
theorem BootInv.uses_subset {cfg : Setting} {b b' : Boot} {e : BootEvent}
    (h : BootInv b) (hmove : Boot.Move cfg b e b') : b.uses e ⊆ b.assigned := by
  cases hmove with
  | createTask todo htodo | startAdvertising todo s htodo | build st todo htodo =>
      simp only [Boot.uses, htodo]
      exact (h.head htodo).1
  | server e s hne hrunning hs =>
      cases hcon : b.server.ble.constructed with
      | true => exact List.Subset.trans (b.server.uses_subset e) (h.connected hcon)
      | false =>
          have hunborn := h.unborn hcon
          obtain ⟨now, rfl⟩ := hunborn.eq_task hcon hne (move_of_next hs)
          exact List.Subset.trans (hunborn.uses_subset now)
            (h.running (hrunning now rfl))

theorem bootInv_of_reach {cfg : Setting} {body : List BuildStmt} {b : Boot}
    (hbody : wellOrdered [] body = true) (h : (boot cfg body).Reachable b) :
    BootInv b :=
  h.invariant (bootInv_init hbody) fun _ _ _ hinv _ hnext =>
    hinv.step (Boot.move_of_step hnext)

/-- A constructor that passes the check is safe in every interleaving. -/
theorem assigned_of_wellOrdered {cfg : Setting} {body : List BuildStmt}
    {b b' : Boot} {e : BootEvent} (hbody : wellOrdered [] body = true)
    (h : (boot cfg body).Reachable b) (hnext : (boot cfg body).next b e = some b') :
    b.uses e ⊆ b.assigned :=
  (bootInv_of_reach hbody h).uses_subset (Boot.move_of_step hnext)

/-- The constructor of the source passes it. -/
theorem wellOrdered_construct : wellOrdered [] BLEManager.construct = true := by
  decide

/-- What holds of a server under construction about to take a step. -/
structure Sound (cfg : Setting) (b : Boot) (e : BootEvent) : Prop where
  /-- the step goes through no pointer that is still null -/
  assigned : b.uses e ⊆ b.assigned
  /-- the server is in a state it could be in without a constructor around it -/
  reachable : (machine cfg).Reachable b.server

/-- The server next to its constructor behaves like one whose constructor is a
single step. -/
theorem reachable_server {cfg : Setting} {body : List BuildStmt} {b : Boot}
    (h : (boot cfg body).Reachable b) : (machine cfg).Reachable b.server := by
  induction h with
  | init => exact .init
  | @step b b' e hreach _ hnext ih =>
      cases Boot.move_of_step hnext with
      | createTask | build => exact ih
      | startAdvertising todo s htodo hs => exact ih.step trivial hs
      | server e s hne hrunning hs => exact ih.step trivial hs

/-- Nothing goes wrong while the manager is under construction: in every
interleaving of its constructor with the task it starts and the callbacks it
installs, no step goes through a null pointer, and the server does what it could
also do if the constructor was a single step. -/
theorem sound_of_reach {cfg : Setting} {b b' : Boot} {e : BootEvent}
    (hreach : (boot cfg BLEManager.construct).Reachable b)
    (hnext : (boot cfg BLEManager.construct).next b e = some b') :
    Sound cfg b e :=
  ⟨assigned_of_wellOrdered wellOrdered_construct hreach hnext,
    reachable_server hreach⟩

/-- The task has been through a test before the server exists; then a client
connects, and the task is about to notify it of the mode. -/
def earlyTask : List BootEvent :=
  [BootEvent.construct, BootEvent.construct, BootEvent.server (.task 0),
    BootEvent.server (.task 0)] ++
    List.replicate 17 BootEvent.construct ++ [BootEvent.server .connect] ++
    List.replicate 17 (BootEvent.server (.task 0))

theorem sound_of_reach_earlyTask : ∃ b,
    (boot atomicCalls BLEManager.construct).run (Boot.init BLEManager.construct)
        earlyTask = some b ∧
      b.uses (.server (.task 0)) = [.currentDriveMode] ∧
        Sound atomicCalls b (.server (.task 0)) := by
  obtain ⟨b, hrun, htest⟩ := Machine.exists_run_of_any
    (M := boot atomicCalls BLEManager.construct)
    (fun b => decide (b.uses (.server (.task 0)) = [.currentDriveMode]) &&
      (b.step atomicCalls (.server (.task 0))).isSome)
    (show ((boot atomicCalls BLEManager.construct).run
      (Boot.init BLEManager.construct) earlyTask).any _ = true by decide +kernel)
  rw [Bool.and_eq_true, decide_eq_true_eq] at htest
  obtain ⟨b', hnext⟩ := Option.isSome_iff_exists.mp htest.2
  exact ⟨b, hrun, htest.1, sound_of_reach (Machine.Reachable.of_run .init hrun) hnext⟩

end BLERCCar.Server
