import BLERCCar.Server.Links

/-!
# The disconnection watchdog

The connectivity task stops the car in two places: behind the loop of its
connected branch, and in `manage_disconnection_timeout`.  The stop is meant for
a car without a client.  The first place only stops such a car; the second
decides on readings that a connecting client makes stale.

Controller calls are atomic here and clients connect only to an advertising
server.

## Main results

* `stops_iff_undisturbed`: the runs in which the task is never about to stop a
  connected car, and that in these runs a connected car keeps what its client
  last asked for.
-/

namespace BLERCCar.Server

open BLERCCar.Lib

/-- The task has nothing before it but the call that stops the car. -/
def stopPending : Thread TaskStmt := ⟨[], [.stopForDisconnection]⟩

/-- The task calls `SetDriveMode(DisconnectionStop)` only while nobody is
connected. -/
def StopsUnconnected (s : State) : Prop :=
  ∀ rest, s.task = ⟨[], .stopForDisconnection :: rest⟩ →
    s.ctx.deviceConnected = false

/-- No client connects between the watchdog's last test and the stop it decided
on, and when that test finds a client connected it finds the car stopped. -/
def Undisturbed (s : State) : Event → Prop
  | .connect => s.task ≠ stopPending
  | .task _ => s.task = Thread.done → s.pc = .testMode →
      s.ctx.deviceConnected = true →
        s.world.currentDriveMode = .disconnectionStop
  | _ => True

instance (s : State) : DecidablePred (Undisturbed s)
  | .connect => inferInstanceAs (Decidable (_ ≠ _))
  | .task _ => inferInstanceAs (Decidable (_ → _))
  | .constructorReturns | .disconnect | .write _ _ | .callback _ => .isTrue trivial

/-- The events by which a client takes back control from the state it left. -/
def Event.OfClient : Event → Prop
  | .write _ _ => True
  | .disconnect => True
  | _ => False

/-! ## Where the task stops the car -/

/-- The stop is always the last statement before the next test, and only two
tests come behind it. -/
structure StopShape (s : State) : Prop where
  atomic : s.task.call = []
  last : .stopForDisconnection ∈ s.task.rest →
    s.task = stopPending ∧ (s.pc = .advertise ∨ s.pc = .waitTest)

/-- The code behind a test contains a stop in two places only. -/
theorem stop_mem_next {pc : Pc} {now : UInt32} {sh : Shared}
    (h : .stopForDisconnection ∈ (pc.next now sh).2) :
    (pc.next now sh).2 = [.stopForDisconnection] ∧
      ((pc.next now sh).1 = .advertise ∧ sh.ctx.deviceConnected = false ∨
        (pc.next now sh).1 = .waitTest ∧ pc = .testMode ∧
          sh.world.currentDriveMode ≠ .disconnectionStop) := by
  cases pc with
  | innerTest tmp =>
      cases hflag : sh.ctx.deviceConnected with
      | true => simp [Pc.next, hflag] at h
      | false =>
          exact ⟨by simp [Pc.next, hflag], .inl ⟨by simp [Pc.next, hflag], rfl⟩⟩
  | testMode =>
      by_cases hmode : sh.world.currentDriveMode = .disconnectionStop
      · simp [Pc.next, hmode] at h
      · refine ⟨by simp [Pc.next, hmode], .inr ⟨?_, rfl, hmode⟩⟩
        simp [Pc.next, hmode]
  | outerTest =>
      simp only [Pc.next] at h
      split at h <;> simp at h
  | waitTest =>
      simp only [Pc.next] at h
      split at h <;> simp [coolBlink] at h
  | pollMode tmp =>
      simp only [Pc.next] at h
      split at h <;> simp [measureAndSleep, getCurrentDistanceInCm] at h
  | testElapsed currentTime =>
      simp only [Pc.next] at h
      split at h <;> simp at h
  | _ => simp [Pc.next, measureAndSleep, getCurrentDistanceInCm] at h

/-- Where calls are atomic, a step of the task performs the first statement of
its straight-line code. -/
theorem Thread.Move.rest_eq {α : Type} [Statement α] {now : UInt32}
    {th th' : Thread α} {sh sh' : Shared}
    (h : Thread.Move .call now th sh th' sh') (hcall : th.call = []) :
    th'.call = [] ∧ ∃ st, th.rest = st :: th'.rest := by
  cases h with
  | instr => cases hcall
  | enter _ _ _ _ _ hg => cases hg
  | whole st op rest => exact ⟨rfl, st, rfl⟩
  | stmt st rest => exact ⟨rfl, st, rfl⟩

/-- The stop has nothing behind it, so it is not left over by a step. -/
theorem StopShape.not_mem_of_move {s : State} (h : StopShape s) {now : UInt32}
    {th : Thread TaskStmt} {sh : Shared}
    (hth : Thread.Move .call now s.task s.toShared th sh) :
    .stopForDisconnection ∉ th.rest := by
  intro hmem
  obtain ⟨-, st, hrest⟩ := hth.rest_eq h.atomic
  have hlast := (h.last (hrest ▸ List.mem_cons_of_mem st hmem)).1
  rw [hlast] at hrest
  have hnil : [] = th.rest := (List.cons.inj hrest).2
  rw [← hnil] at hmem
  cases hmem

theorem StopShape.step {s s' : State} {e : Event} (h : StopShape s)
    (hmove : State.Move atomicCalls s e s') : StopShape s' := by
  cases hmove with
  | task now th sh hth =>
      exact
        { atomic := (hth.rest_eq h.atomic).1
          last := fun hmem => absurd hmem (h.not_mem_of_move hth) }
  | control now hdone =>
      refine ⟨rfl, fun hmem => ?_⟩
      obtain ⟨hrest, hpc⟩ := stop_mem_next hmem
      refine ⟨congrArg (Thread.mk []) hrest, ?_⟩
      rcases hpc with ⟨hpc, -⟩ | ⟨hpc, -⟩
      · exact .inl hpc
      · exact .inr hpc
  | _ => exact { h with }

/-- The invariant of the watchdog. -/
structure WatchdogInv (s : State) : Prop where
  call : CallInv s
  shape : StopShape s

theorem watchdogInv_powerUp : WatchdogInv State.powerUp :=
  ⟨callInv_powerUp, rfl, by simp [State.powerUp, Thread.done]⟩

theorem WatchdogInv.next {s s' : State} {e : Event} (h : WatchdogInv s)
    (hnext : (machine atomicCalls).next s e = some s') : WatchdogInv s' :=
  ⟨h.call.next hnext, h.shape.step (move_of_next hnext)⟩

theorem stopsUnconnected_iff {s : State} (h : StopShape s) :
    StopsUnconnected s ↔
      (s.task = stopPending → s.ctx.deviceConnected = false) := by
  constructor
  · exact fun hstop => hstop []
  · intro hstop rest htask
    exact hstop (h.last (by simp [htask])).1

/-- A step keeps the stop for unconnected cars exactly when it is
undisturbed. -/
theorem stopsUnconnected_step_iff {s s' : State} {e : Event}
    (hinv : WatchdogInv s) (h : StopsUnconnected s)
    (hmove : State.Move atomicCalls s e s') :
    StopsUnconnected s' ↔ Undisturbed s e := by
  have hshape' := hinv.shape.step hmove
  rw [stopsUnconnected_iff hshape']
  rw [stopsUnconnected_iff hinv.shape] at h
  cases hmove with
  | connect _ _ _ hg => cases hg
  | connected =>
      constructor
      · intro hstop hpending
        exact absurd (hstop hpending) (by simp)
      · intro hfree hpending
        exact absurd hpending hfree
  | callback now th sh hth =>
      refine ⟨fun _ => trivial, fun _ hpending => ?_⟩
      exact flag_of_move_of_false hinv.call.adv.link.phase hth (h hpending)
        hinv.call.settled
  | task now th sh hth =>
      constructor
      · intro _ hdone
        rw [hdone] at hth
        cases hth
      · intro _ hpending
        refine absurd ?_ (hinv.shape.not_mem_of_move hth)
        rw [show th = stopPending from hpending]
        exact List.mem_singleton_self _
  | control now hdone =>
      constructor
      · intro hstop _ hpc hflag
        by_contra hmode
        have hpending : Thread.mk [] (s.pc.next now s.toShared).2 = stopPending := by
          simp [Pc.next, hpc, hmode, stopPending]
        exact absurd (hflag.symm.trans (hstop hpending)) (by simp)
      · intro hfree hpending
        have hrest := congrArg Thread.rest hpending
        have hmem : .stopForDisconnection ∈ (s.pc.next now s.toShared).2 := by
          rw [show (s.pc.next now s.toShared).2 = _ from hrest]
          exact List.mem_singleton_self _
        rcases (stop_mem_next hmem).2 with ⟨-, hflag⟩ | ⟨-, hpc, hmode⟩
        · exact hflag
        · cases hflag : s.ctx.deviceConnected with
          | false => exact hflag
          | true => exact absurd (hfree hdone hpc hflag) hmode
  | _ => exact ⟨fun _ => trivial, fun _ => h⟩

/-! ## What a connected car keeps -/

/-- Apart from the stop, the connectivity task changes nothing that can be
observed of the car. -/
theorem readout_of_move {s : State} {now : UInt32} {th : Thread TaskStmt}
    {sh : Shared} (hshape : StopShape s)
    (hth : Thread.Move .call now s.task s.toShared th sh)
    (hstop : s.task ≠ stopPending) : sh.world.readout = s.world.readout := by
  have hatomic := hshape.atomic
  have hlast := hshape.last
  generalize s.task = before at hth hstop hatomic hlast
  cases hth with
  | instr => cases hatomic
  | enter _ _ _ _ _ hg => cases hg
  | whole st op rest _ hcall =>
      cases st with
      | stopForDisconnection =>
          exact absurd (hlast List.mem_cons_self).1 hstop
      | _ => cases hcall
  | stmt st rest _ hcall =>
      cases st with
      | digitalWrite pin level =>
          refine readout_digitalWrite_of_ne s.world pin.number level ?_ ?_ ?_ ?_ <;>
            cases pin <;> decide
      | vTaskDelay | delayMicroseconds | pulseIn => rfl
      | stopForDisconnection => cases hcall

/-- Between the callbacks of a connected client nothing happens to the car. -/
theorem keeps_readout {s s' : State} {e : Event} (hinv : WatchdogInv s)
    (hstop : StopsUnconnected s) (hflag : s.ctx.deviceConnected = true)
    (hidle : s.handler = none) (hclient : ¬ e.OfClient)
    (hmove : State.Move atomicCalls s e s') :
    s'.ctx.deviceConnected = true ∧ s'.handler = none ∧
      s'.world.readout = s.world.readout := by
  cases hmove with
  | constructorReturns => exact ⟨hflag, hidle, rfl⟩
  | connect _ _ _ hg => cases hg
  | connected => exact ⟨rfl, hidle, rfl⟩
  | disconnect => exact absurd trivial hclient
  | write => exact absurd trivial hclient
  | callback now th sh hth =>
      rw [hinv.call.adv.link.idle hidle] at hth
      cases hth
  | callbackReturns _ _ hbusy => exact absurd hidle hbusy
  | task now th sh hth =>
      refine ⟨(congrArg _ (ctx_of_move hth)).trans hflag, hidle, ?_⟩
      refine readout_of_move hinv.shape hth fun hpending => ?_
      exact absurd (hflag.symm.trans (hstop [] hpending)) (by simp)
  | control => exact ⟨hflag, hidle, rfl⟩

/-! ## The main result -/

/--
In exactly the undisturbed runs the task is never about to stop a connected
car.  While such a run goes on undisturbed with a client connected, mode, pins
and duties stay what they are between two callbacks of that client.
-/
theorem stops_iff_undisturbed {es : List Event} {s : State}
    (hrun : (machine atomicCalls).run State.powerUp es = some s) :
    ((machine atomicCalls).Always StopsUnconnected State.powerUp es ↔
        (machine atomicCalls).EveryStep Undisturbed State.powerUp es) ∧
      ((machine atomicCalls).EveryStep Undisturbed State.powerUp es →
        s.ctx.deviceConnected = true → s.handler = none →
        ∀ fs t, (machine atomicCalls).EveryStep
            (fun u e => Undisturbed u e ∧ ¬ e.OfClient) s fs →
          (machine atomicCalls).run s fs = some t →
          t.ctx.deviceConnected = true ∧ t.world.readout = s.world.readout) := by
  have hstep : ∀ s e s', WatchdogInv s → StopsUnconnected s →
      (machine atomicCalls).next s e = some s' →
      (StopsUnconnected s' ↔ Undisturbed s e) :=
    fun s e s' hinv hs hnext =>
      stopsUnconnected_step_iff hinv hs (move_of_next hnext)
  have hinit : StopsUnconnected State.powerUp := fun _ _ => rfl
  constructor
  · exact Machine.always_iff_everyStep _ (fun s e s' hinv => hinv.next) hstep
      watchdogInv_powerUp hinit hrun
  · intro hes hflag hidle fs t hfs hrun'
    have hs : WatchdogInv s ∧ StopsUnconnected s := by
      refine Machine.EveryStep.keeps _
        (I := fun u => WatchdogInv u ∧ StopsUnconnected u) ?_
        hes ⟨watchdogInv_powerUp, hinit⟩ hrun
      rintro u e u' ⟨hu, hok⟩ hfree hnext
      exact ⟨hu.next hnext, (hstep u e u' hu hok hnext).mpr hfree⟩
    obtain ⟨-, -, ht, -, hreadout⟩ : WatchdogInv t ∧ StopsUnconnected t ∧
        t.ctx.deviceConnected = true ∧ t.handler = none ∧
          t.world.readout = s.world.readout := by
      refine Machine.EveryStep.keeps _
        (I := fun u => WatchdogInv u ∧ StopsUnconnected u ∧
          u.ctx.deviceConnected = true ∧ u.handler = none ∧
            u.world.readout = s.world.readout) ?_
        hfs ⟨hs.1, hs.2, hflag, hidle, rfl⟩ hrun'
      rintro u e u' ⟨hu, hok, hflag, hidle, hsame⟩ ⟨hfree, hclient⟩ hnext
      obtain ⟨hflag', hidle', hsame'⟩ :=
        keeps_readout hu hok hflag hidle hclient (move_of_next hnext)
      exact ⟨hu.next hnext, (hstep u e u' hu hok hnext).mpr hfree, hflag', hidle',
        hsame'.trans hsame⟩
    exact ⟨ht, hreadout⟩

theorem stops_iff_undisturbed_session :
    (machine atomicCalls).Always StopsUnconnected State.powerUp
      ([Event.constructorReturns, Event.connect] ++
        List.replicate 4 (Event.task 0) ++
        [Event.write characteristicUuidSetDriveModes (some [1, 80]),
          Event.callback 0, Event.callback 0, Event.callback 0,
          Event.disconnect] ++
        List.replicate 12 (Event.task 0)) := by
  refine (Option.isSome_iff_exists.mp ?_).elim fun t hrun =>
    (stops_iff_undisturbed hrun).1.mpr ?_
  · decide +kernel
  · decide +kernel

/-- A client that connects while the LED blinks, long after the last one left,
and drives off is stopped again by the watchdog. -/
theorem not_forall_reachable_stopsUnconnected :
    ¬ ∀ s, (machine atomicCalls).Reachable s → StopsUnconnected s := by
  intro h
  obtain ⟨s, hs, htest⟩ := Machine.exists_reachable_of_any
    (M := machine atomicCalls)
    (fun s => decide (s.task = stopPending ∧ s.ctx.deviceConnected = true))
    ([Event.constructorReturns, Event.task 0, Event.task 0, Event.connect,
        Event.write characteristicUuidSetDriveModes (some [1, 80]),
        Event.callback 0, Event.callback 0, Event.callback 0] ++
      List.replicate 12 (Event.task 11000))
    (by decide +kernel)
  obtain ⟨htask, hflag⟩ := of_decide_eq_true htest
  exact absurd (hflag.symm.trans (h s hs [] htask)) (by simp)

end BLERCCar.Server
