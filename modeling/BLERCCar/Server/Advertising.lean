import BLERCCar.Server.Links

/-!
# The car stays reachable

A car that waits for a client should advertise.  The connectivity task calls
`Advertise` in one place, behind the loop of its connected branch, so a session
that this loop never saw leaves the server silent for good.

Controller calls are atomic here (`Granularity.call`) and clients connect only
to an advertising server.

## Main results

* `not_stranded_iff`: a step leaves the server silent for good exactly when it
  ends a session outside the connected branch.
* `advertises_iff_sessionsSeen`: so the waiting task always advertises in
  exactly those runs in which every session ends inside that branch.
-/

namespace BLERCCar.Server

open BLERCCar.Lib

/-- Whenever the waiting loop finds nobody connected, the server advertises. -/
def AdvertisesWhileWaiting (s : State) : Prop :=
  s.ble.constructed = true → s.pc = .waitTest → s.task = Thread.done →
    s.ctx.deviceConnected = false → s.ble.advertising = true

instance : DecidablePred AdvertisesWhileWaiting := fun _ =>
  inferInstanceAs (Decidable (_ → _))

/-- The step performs `DeviceConnected = false` of `onDisconnect`. -/
def endsSession (s : State) : Event → Prop
  | .callback _ =>
      ∃ rest, s.callback = ⟨[], .assignDeviceConnected false :: rest⟩
  | _ => False

instance (s : State) : DecidablePred (endsSession s)
  | .callback _ =>
      match h : s.callback with
      | ⟨[], .assignDeviceConnected false :: rest⟩ => .isTrue ⟨rest, h⟩
      | ⟨_ :: _, _⟩ | ⟨_, []⟩ | ⟨_, .call _ :: _⟩
      | ⟨_, .stampDisconnectionTime :: _⟩
      | ⟨_, .assignDeviceConnected true :: _⟩ =>
          .isFalse fun ⟨_, hrest⟩ => nomatch h.symm.trans hrest
  | .constructorReturns | .connect | .disconnect | .write _ _ | .task _ =>
      .isFalse id

/-- If the step ends a session, it does so while the task polls the
connection. -/
def SessionSeen (s : State) (e : Event) : Prop :=
  endsSession s e → s.pc.Polling

instance (s : State) (e : Event) : Decidable (SessionSeen s e) :=
  inferInstanceAs (Decidable (_ → _))

/-- A step of the connectivity task. -/
def Event.IsTask : Event → Prop
  | .task _ => True
  | _ => False

/-! ## Servers that are silent for good -/

/-- Nobody is connected, nobody can connect, and the task is past the only
place where it would advertise again. -/
structure Stranded (s : State) : Prop where
  constructed : s.ble.constructed = true
  silent : s.ble.advertising = false
  nobody : s.ble.links = 0
  cleared : s.ctx.deviceConnected = false
  outside : ¬ s.pc.Polling
  past : s.pc ≠ .advertise

/-- Once silent, silent forever. -/
theorem Stranded.step {g : Granularity} {s s' : State} {e : Event}
    (h : Stranded s) (hinv : AdvInv s)
    (hmove : State.Move ⟨g, advertised⟩ s e s') : Stranded s' := by
  cases hmove with
  | constructorReturns hnew =>
      exact absurd (h.constructed.symm.trans hnew) (by simp)
  | connect _ hacc => exact absurd (h.silent.symm.trans hacc) (by simp)
  | connected _ hacc => exact absurd (h.silent.symm.trans hacc) (by simp)
  | disconnect hlink => exact absurd h.nobody (by omega)
  | write _ _ hlink => exact absurd h.nobody (by omega)
  | callback now th sh hth =>
      have hphase := hinv.link.phase
      have hopen : flags s.callback.rest ≠ [true] := by
        intro hopen
        rw [hopen, h.nobody] at hphase
        cases hphase
      exact { h with cleared := flag_of_move_of_false hphase hth h.cleared hopen }
  | callbackReturns => exact { h with }
  | task now th sh hth =>
      exact { h with cleared := (congrArg _ (ctx_of_move hth)).trans h.cleared }
  | control now hdone =>
      have hble := State.control_ble_of_ne now h.past
      refine
        { constructed := hble ▸ h.constructed
          silent := hble ▸ h.silent
          nobody := hble ▸ h.nobody
          cleared := h.cleared
          outside := fun hp => ?_
          past := fun hp => ?_ }
      · rcases Pc.polling_of_next hp with hpoll | hflag
        · exact h.outside hpoll
        · exact absurd (h.cleared.symm.trans hflag) (by simp)
      · exact h.outside (Pc.polling_of_next_advertise hp).1

/-- Ending a session outside the connected branch strands the server. -/
theorem stranded_of_endsSession {g : Granularity} {s s' : State} {e : Event}
    (hinv : AdvInv s) (hmove : State.Move ⟨g, advertised⟩ s e s')
    (hend : endsSession s e) (hpoll : ¬ s.pc.Polling) : Stranded s' := by
  cases hmove with
  | callback now th sh hth =>
      obtain ⟨rest, hcallback⟩ := hend
      have hphase := hinv.link.phase
      rw [hcallback] at hphase hth
      obtain ⟨-, hflag, hsettled⟩ := LinkPhase.of_cons hphase
      have hnobody : s.ble.links = 0 := by
        rcases hsettled.of_nil with ⟨hzero, -⟩ | ⟨-, hbad⟩
        · exact hzero
        · cases hbad
      have hconstructed : s.ble.constructed = true := by
        cases hnew : s.ble.constructed with
        | true => rfl
        | false => exact absurd ((hinv.unborn hnew).2.1.symm.trans hflag) (by simp)
      have hsilent : s.ble.advertising = false := by
        cases hadv : s.ble.advertising with
        | false => rfl
        | true => exact absurd ((hinv.alone hadv).2.symm.trans hflag) (by simp)
      have hpast : s.pc ≠ .advertise := fun hpc =>
        absurd ((hinv.leaving hpc).2.2.symm.trans hflag) (by simp)
      cases hth with
      | enter st op rest _ hcall => cases hcall
      | whole st op rest _ hcall => cases hcall
      | stmt st rest _ hcall =>
          exact
            { constructed := hconstructed
              silent := hsilent
              nobody := hnobody
              cleared := rfl
              outside := hpoll
              past := hpast }
  | callbackReturns now hdone =>
      obtain ⟨rest, hcallback⟩ := hend
      rw [hcallback] at hdone
      cases hdone
  | _ => exact hend.elim

/-- Nothing else does. -/
theorem endsSession_of_stranded {g : Granularity} {s s' : State} {e : Event}
    (hinv : AdvInv s) (hmove : State.Move ⟨g, advertised⟩ s e s')
    (h : ¬ Stranded s) (h' : Stranded s') : endsSession s e := by
  cases hmove with
  | constructorReturns => exact absurd h'.silent (by simp)
  | connect => exact absurd h'.nobody (by simp [Ble.accept])
  | connected => exact absurd h'.cleared (by simp)
  | disconnect hlink hidle =>
      have hup := (hinv.link.up_of_idle hidle hlink).2
      exact absurd (hup.symm.trans h'.cleared) (by simp)
  | write _ _ hlink => exact absurd h'.nobody (Nat.pos_iff_ne_zero.mp hlink)
  | callback now th sh hth =>
      generalize hcallback : s.callback = before at hth
      cases hth with
      | instr | enter | whole => exact absurd { h' with } h
      | stmt st rest _ hcall =>
          cases st with
          | call op => cases hcall
          | stampDisconnectionTime => exact absurd { h' with } h
          | assignDeviceConnected value =>
              have hvalue : value = false := h'.cleared
              exact ⟨rest, hcallback.trans (by rw [hvalue])⟩
  | callbackReturns => exact absurd { h' with } h
  | task now th sh hth =>
      have hctx : s.ctx.deviceConnected = sh.ctx.deviceConnected := by
        rw [ctx_of_move hth]
      exact absurd { h' with cleared := hctx.trans h'.cleared } h
  | control now hdone =>
      have hpast : s.pc ≠ .advertise := by
        intro hpc
        have hsilent := h'.silent
        simp [State.control, hpc] at hsilent
      obtain ⟨hconstructed, hsilent, hnobody, hcleared, houtside, hnext⟩ := h'
      rw [State.control_ble_of_ne now hpast] at hconstructed hsilent hnobody
      refine absurd ⟨hconstructed, hsilent, hnobody, hcleared, ?_, hpast⟩ h
      intro hpoll
      rcases hpoll.next now s.toShared with hp | hp
      · exact houtside hp
      · exact hnext hp

/-- What a step does to a server that is not silent for good. -/
theorem not_stranded_iff {g : Granularity} {s s' : State} {e : Event}
    (hinv : AdvInv s) (h : ¬ Stranded s)
    (hmove : State.Move ⟨g, advertised⟩ s e s') :
    ¬ Stranded s' ↔ SessionSeen s e := by
  constructor
  · intro h' hend
    by_contra hpoll
    exact h' (stranded_of_endsSession hinv hmove hend hpoll)
  · intro hseen h'
    have hpoll := hseen (endsSession_of_stranded hinv hmove h h')
    have hend := endsSession_of_stranded hinv hmove h h'
    cases hmove with
    | callback => exact h'.outside hpoll
    | callbackReturns => exact h'.outside hpoll
    | _ => exact hend.elim

/-! ## Waiting in silence -/

/-- Where a client is up as soon as it is connected, the waiting loop advertises
unless the server is silent for good. -/
theorem advertisesWhileWaiting_of_not_stranded {s : State} (hinv : CallInv s)
    (h : ¬ Stranded s) : AdvertisesWhileWaiting s := by
  intro hconstructed hpc _ hflag
  have hphase := hinv.adv.link.phase
  rw [hflag] at hphase
  by_contra hadv
  exact h
    { constructed := hconstructed
      silent := by simpa using hadv
      nobody := hphase.links_eq_zero hinv.settled
      cleared := hflag
      outside := by simp [hpc, Pc.Polling]
      past := by simp [hpc] }

/-- Left alone, the connectivity task gets through its straight-line code. -/
theorem exists_run_done (s : State) (now : UInt32) : ∃ n t,
    (machine atomicCalls).run s (List.replicate n (.task now)) =
        some t ∧
      t.task = Thread.done ∧ t.pc = s.pc := by
  induction hlength : s.task.length using Nat.strong_induction_on generalizing s
    with
  | _ length ih =>
      cases hstep : s.task.step .call now s.toShared with
      | none => exact ⟨0, s, rfl, Thread.step_eq_none_iff.mp hstep, rfl⟩
      | some next =>
          obtain ⟨th, sh⟩ := next
          have hlt : th.length < length :=
            hlength ▸ (Thread.move_of_step hstep).length_lt
          obtain ⟨n, t, hrun, hdone, hpc⟩ :=
            ih th.length hlt { s with toShared := sh, task := th } rfl
          refine ⟨n + 1, t, ?_, hdone, hpc⟩
          rw [List.replicate_succ, Machine.run_cons_of_next]
          · exact hrun
          · simp [machine, State.step, hstep]

/-- How many tests and calls the task performs before its waiting loop comes
round. -/
def Pc.untilWaiting : Pc → Nat
  | .outerTest => 1
  | .readClock => 3
  | .testElapsed _ => 2
  | .testMode => 1
  | _ => 0

/-- Nobody connected, the task gets closer to its waiting loop. -/
theorem Pc.untilWaiting_next {pc : Pc} {sh : Shared} (now : UInt32)
    (hflag : sh.ctx.deviceConnected = false) (hpoll : ¬ pc.Polling)
    (hpast : pc ≠ .advertise) (hwait : pc ≠ .waitTest) :
    (pc.next now sh).1.untilWaiting < pc.untilWaiting := by
  cases pc with
  | outerTest =>
      have hnext : (Pc.outerTest.next now sh).1 = .waitTest := by
        simp [Pc.next, hflag]
      rw [hnext]
      show 0 < 1
      omega
  | readClock =>
      show 2 < 3
      omega
  | testElapsed currentTime =>
      simp only [Pc.next]
      split
      · show 1 < 2
        omega
      · show 0 < 2
        omega
  | testMode =>
      simp only [Pc.next]
      split
      · show 0 < 1
        omega
      · show 0 < 1
        omega
  | advertise => exact absurd rfl hpast
  | waitTest => exact absurd rfl hwait
  | _ => exact absurd trivial hpoll

/-- A server that is silent for good comes to wait in silence. -/
theorem Stranded.exists_run {s : State} (h : Stranded s) (hinv : CallInv s)
    (now : UInt32) : ∃ n t,
    (machine atomicCalls).run s (List.replicate n (.task now)) =
        some t ∧
      ¬ AdvertisesWhileWaiting t := by
  induction hpc : s.pc.untilWaiting using Nat.strong_induction_on
    generalizing s with
  | _ distance ih =>
      -- first the straight-line code, which keeps the server as it is
      obtain ⟨n, t, hrun, hdone, hsame⟩ := exists_run_done s now
      obtain ⟨hinv', h'⟩ : CallInv t ∧ Stranded t := by
        refine Machine.EveryStep.keeps _ (I := fun u => CallInv u ∧ Stranded u) ?_
          (Machine.everyStep_of_forall _ (fun _ _ => trivial) s) ⟨hinv, h⟩ hrun
        rintro u e u' ⟨hu, hstranded⟩ - hnext
        exact ⟨hu.next hnext, hstranded.step hu.adv (move_of_next hnext)⟩
      by_cases hwait : t.pc = .waitTest
      · refine ⟨n, t, hrun, fun hadv => ?_⟩
        have hbad := hadv h'.constructed hwait hdone h'.cleared
        exact absurd (h'.silent.symm.trans hbad) (by simp)
      · have hcloser := Pc.untilWaiting_next now h'.cleared h'.outside h'.past hwait
        have hnext : t.step atomicCalls (.task now) = some _ :=
          State.step_task_of_done now hdone
        obtain ⟨m, u, hrun', hu⟩ := ih _ (hcloser.trans_eq (by rw [hsame, hpc]))
          (h'.step hinv'.adv (State.move_of_step hnext))
          (hinv'.step (State.move_of_step hnext)) rfl
        refine ⟨n + (m + 1), u, ?_, hu⟩
        rw [← List.replicate_append_replicate, List.replicate_succ,
          Machine.run_append, hrun]
        exact (Machine.run_cons_of_next _ hnext _).trans hrun'

/-! ## The main result -/

/-- The waiting task advertises now, and however long it is left alone. -/
def KeepsAdvertising (s : State) : Prop :=
  ∀ es t, (machine atomicCalls).EveryStep (fun _ e => e.IsTask) s es →
    (machine atomicCalls).run s es = some t → AdvertisesWhileWaiting t

theorem keepsAdvertising_iff {s : State} (hinv : CallInv s) :
    KeepsAdvertising s ↔ ¬ Stranded s := by
  constructor
  · intro h hstranded
    obtain ⟨n, t, hrun, ht⟩ := hstranded.exists_run hinv 0
    refine ht (h _ t (Machine.everyStep_of_forall _ (fun e he => ?_) s) hrun)
    rw [List.eq_of_mem_replicate he]
    trivial
  · intro h es t hes hrun
    obtain ⟨hinv', h'⟩ : CallInv t ∧ ¬ Stranded t := by
      refine Machine.EveryStep.keeps _ (I := fun u => CallInv u ∧ ¬ Stranded u) ?_
        hes ⟨hinv, h⟩ hrun
      rintro u e u' ⟨hu, hok⟩ htask hnext
      refine ⟨hu.next hnext, ?_⟩
      rw [not_stranded_iff hu.adv hok (move_of_next hnext)]
      intro hend
      cases e with
      | callback => exact htask.elim
      | _ => exact hend.elim
    exact advertisesWhileWaiting_of_not_stranded hinv' h'

/--
A run in which every session ends while the task polls it always finds the
waiting task advertising, and only in these runs is that still so however long
the task is left alone afterwards.
-/
theorem advertises_iff_sessionsSeen {es : List Event} {t : State}
    (hrun : (machine atomicCalls).run State.powerUp es = some t) :
    ((machine atomicCalls).EveryStep SessionSeen State.powerUp es →
        (machine atomicCalls).Always AdvertisesWhileWaiting State.powerUp es) ∧
      ((machine atomicCalls).Always KeepsAdvertising State.powerUp es ↔
        (machine atomicCalls).EveryStep SessionSeen State.powerUp es) := by
  have hinit : KeepsAdvertising State.powerUp :=
    (keepsAdvertising_iff callInv_powerUp).mpr fun h =>
      absurd h.constructed Bool.false_ne_true
  have hstep : ∀ s e s', CallInv s → KeepsAdvertising s →
      (machine atomicCalls).next s e = some s' →
      (KeepsAdvertising s' ↔ SessionSeen s e) := by
    intro s e s' hinv hs hnext
    rw [keepsAdvertising_iff hinv] at hs
    rw [keepsAdvertising_iff (hinv.next hnext)]
    exact not_stranded_iff hinv.adv hs (move_of_next hnext)
  have halways := Machine.always_iff_everyStep _ (fun s e s' hinv => hinv.next)
    hstep callInv_powerUp hinit hrun
  refine ⟨fun hseen => Machine.Always.mono _ (fun s hs => ?_)
    (halways.mpr hseen), halways⟩
  -- being left alone includes doing nothing at all
  exact hs [] s trivial rfl

theorem advertises_iff_sessionsSeen_polled :
    (machine atomicCalls).Always AdvertisesWhileWaiting State.powerUp
      ([Event.constructorReturns, Event.connect] ++
        List.replicate 5 (Event.task 0) ++
        [Event.disconnect, Event.callback 0, Event.callback 0,
          Event.callback 0]) := by
  refine (Option.isSome_iff_exists.mp ?_).elim fun t hrun =>
    (advertises_iff_sessionsSeen hrun).1 ?_
  · decide +kernel
  · decide +kernel

/-- A client that comes and goes while the LED blinks is never noticed, and the
car waits in silence afterwards. -/
theorem not_forall_reachable_advertises :
    ¬ ∀ s, (machine atomicCalls).Reachable s →
      AdvertisesWhileWaiting s := by
  intro h
  obtain ⟨s, hs, htest⟩ := Machine.exists_reachable_of_any
    (M := machine atomicCalls)
    (fun s => !decide (AdvertisesWhileWaiting s))
    ([Event.constructorReturns, Event.task 0, Event.task 0, Event.connect,
        Event.disconnect, Event.callback 0, Event.callback 0, Event.callback 0,
        Event.callback 0] ++
      List.replicate 11 (Event.task 0))
    (by decide +kernel)
  simp [h s hs] at htest

end BLERCCar.Server
