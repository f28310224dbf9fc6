import BLERCCar.Server.Tasks

/-!
# The disconnection timeout on a wrapping clock

`manage_disconnection_timeout` subtracts two readings of `millis()`, a 32-bit
counter that starts over every 49.7 days.  Here true time is a natural number
of milliseconds and a reading is what is left of it in 32 bits.

## Main results

* `elapsed_millis`: the difference of two readings is the true elapsed time
  modulo `2 ^ 32`.
* `run_manageDisconnectionTimeout`: the connectivity task runs through exactly
  this function.
* `outlastsWrap_timeoutCalls`: over any sequence of calls the timeout neither
  comes early nor, within one period of the clock, stays out, and it is never
  taken back.
-/

namespace BLERCCar.Server

open BLERCCar.Lib

/-! ## The clock -/

/-- What `millis()` reads at a true time. -/
def millis (time : Nat) : UInt32 := UInt32.ofNat time

/-- Readings are subtracted modulo `2 ^ 32`, wherever the counter wrapped. -/
theorem elapsed_millis {since time : Nat} (h : since ≤ time) :
    (millis time - millis since).toNat = (time - since) % 4294967296 := by
  simp only [millis, UInt32.toNat_sub, UInt32.toNat_ofNat']
  omega

theorem timedOut_iff (currentTime disconnectionTime : UInt32) :
    timedOut currentTime disconnectionTime = true ↔
      10000 < (currentTime - disconnectionTime).toNat := by
  unfold timedOut
  rw [decide_eq_true_eq, UInt32.lt_iff_toNat_lt]
  rfl

/-- Up to the timeout, the test fails. -/
theorem not_timedOut_millis {since time : Nat} (h : since ≤ time)
    (hearly : time - since ≤ 10000) :
    timedOut (millis time) (millis since) = false := by
  have hnot : ¬ timedOut (millis time) (millis since) = true := by
    rw [timedOut_iff, elapsed_millis h]
    omega
  simpa using hnot

/-- Beyond it, the test succeeds until the counter is back where it was. -/
theorem timedOut_millis {since time : Nat} (h : since ≤ time)
    (hlate : 10000 < time - since) (hperiod : time - since < 4294967296) :
    timedOut (millis time) (millis since) = true := by
  rw [timedOut_iff, elapsed_millis h, Nat.mod_eq_of_lt hperiod]
  exact hlate

/-! ## One call -/

/-- `manage_disconnection_timeout`, called when `millis()` reads `now`. -/
def manageDisconnectionTimeout (now : UInt32) (sh : Shared) : Shared :=
  if timedOut now sh.ctx.disconnectionTime then
    if sh.world.currentDriveMode ≠ .disconnectionStop then
      { sh with
        world := Op.exec (.setDriveMode .disconnectionStop) sh.world }
    else sh
  else sh

theorem ctx_manageDisconnectionTimeout (now : UInt32) (sh : Shared) :
    (manageDisconnectionTimeout now sh).ctx = sh.ctx := by
  unfold manageDisconnectionTimeout
  split
  · split <;> rfl
  · rfl

theorem mode_setDriveMode_disconnectionStop (w : World) :
    (Op.exec (.setDriveMode .disconnectionStop) w).currentDriveMode =
      .disconnectionStop :=
  congrArg Readout.mode (readout_exec (.setDriveMode .disconnectionStop) w)

/-- A call that finds the timeout elapsed leaves the car stopped. -/
theorem mode_of_timedOut {now : UInt32} {sh : Shared}
    (h : timedOut now sh.ctx.disconnectionTime = true) :
    (manageDisconnectionTimeout now sh).world.currentDriveMode =
      .disconnectionStop := by
  unfold manageDisconnectionTimeout
  rw [if_pos h]
  by_cases hmode : sh.world.currentDriveMode = .disconnectionStop
  · rw [if_neg (not_not_intro hmode)]
    exact hmode
  · rw [if_pos hmode]
    exact mode_setDriveMode_disconnectionStop sh.world

/-- A call that does not, changes nothing. -/
theorem manageDisconnectionTimeout_of_not_timedOut {now : UInt32} {sh : Shared}
    (h : timedOut now sh.ctx.disconnectionTime = false) :
    manageDisconnectionTimeout now sh = sh := by
  unfold manageDisconnectionTimeout
  rw [h]
  rfl

/-- No call takes the stop back. -/
theorem mode_of_stopped {now : UInt32} {sh : Shared}
    (h : sh.world.currentDriveMode = .disconnectionStop) :
    (manageDisconnectionTimeout now sh).world.currentDriveMode =
      .disconnectionStop := by
  cases hout : timedOut now sh.ctx.disconnectionTime with
  | true => exact mode_of_timedOut hout
  | false =>
      rw [manageDisconnectionTimeout_of_not_timedOut hout]
      exact h

/-- The connectivity task between two calls, waiting for a client. -/
def State.waiting (sh : Shared) (s : State) : State :=
  { s with
    toShared := sh
    pc := .waitTest
    task := Thread.done }

/-- From the moment it is about to read the clock, the connectivity task does
what `manageDisconnectionTimeout` says, in a few steps of its own. -/
theorem run_manageDisconnectionTimeout {s : State} (hpc : s.pc = .readClock)
    (hdone : s.task = Thread.done) (now : UInt32) :
    ∃ k, (machine atomicCalls).run s (List.replicate k (.task now)) =
      some (s.waiting (manageDisconnectionTimeout now s.toShared)) := by
  obtain ⟨sh, ble, handler, callback, pc, task⟩ := s
  obtain rfl : pc = .readClock := hpc
  obtain rfl : task = Thread.done := hdone
  have hread : (machine atomicCalls).next
      ⟨sh, ble, handler, callback, .readClock, Thread.done⟩ (.task now) =
        some ⟨sh, ble, handler, callback, .testElapsed now, Thread.done⟩ := rfl
  cases hout : timedOut now sh.ctx.disconnectionTime with
  | false =>
      rw [manageDisconnectionTimeout_of_not_timedOut hout]
      refine ⟨2, ?_⟩
      rw [List.replicate_succ, Machine.run_cons_of_next _ hread]
      show some (State.control now _) = some _
      simp [State.control, Pc.next, hout, State.waiting, Thread.done]
  | true =>
      have htest : (machine atomicCalls).next
          ⟨sh, ble, handler, callback, .testElapsed now, Thread.done⟩
          (.task now) =
            some ⟨sh, ble, handler, callback, .testMode, Thread.done⟩ := by
        show some (State.control now _) = some _
        simp [State.control, Pc.next, hout, Thread.done]
      unfold manageDisconnectionTimeout
      rw [if_pos hout]
      by_cases hmode : sh.world.currentDriveMode = .disconnectionStop
      · rw [if_neg (not_not_intro hmode)]
        refine ⟨3, ?_⟩
        rw [List.replicate_succ, Machine.run_cons_of_next _ hread,
          List.replicate_succ, Machine.run_cons_of_next _ htest]
        show some (State.control now _) = some _
        simp [State.control, Pc.next, hmode, State.waiting, Thread.done]
      · rw [if_pos hmode]
        have hdecide : (machine atomicCalls).next
            ⟨sh, ble, handler, callback, .testMode, Thread.done⟩ (.task now) =
              some ⟨sh, ble, handler, callback, .waitTest,
                ⟨[], [.stopForDisconnection]⟩⟩ := by
          show some (State.control now _) = some _
          simp [State.control, Pc.next, hmode]
        refine ⟨4, ?_⟩
        rw [List.replicate_succ, Machine.run_cons_of_next _ hread,
          List.replicate_succ, Machine.run_cons_of_next _ htest,
          List.replicate_succ, Machine.run_cons_of_next _ hdecide]
        rfl

/-! ## All calls -/

/-- Calls at the given true times, with no other controller call in between. -/
def timeoutCalls (times : List Nat) (sh : Shared) : Shared :=
  times.foldl (fun sh time => manageDisconnectionTimeout (millis time) sh) sh

theorem timeoutCalls_append (times times' : List Nat) (sh : Shared) :
    timeoutCalls (times ++ times') sh =
      timeoutCalls times' (timeoutCalls times sh) := by
  simp [timeoutCalls, List.foldl_append]

/-- The calls never touch the time of the disconnection. -/
theorem ctx_timeoutCalls (times : List Nat) (sh : Shared) :
    (timeoutCalls times sh).ctx = sh.ctx := by
  induction times generalizing sh with
  | nil => rfl
  | cons time times ih =>
      have htail := ih (manageDisconnectionTimeout (millis time) sh)
      rw [ctx_manageDisconnectionTimeout] at htail
      exact htail

/-- No call takes the stop back, however many follow. -/
theorem mode_timeoutCalls_of_stopped {sh : Shared}
    (h : sh.world.currentDriveMode = .disconnectionStop) (times : List Nat) :
    (timeoutCalls times sh).world.currentDriveMode = .disconnectionStop := by
  induction times generalizing sh with
  | nil => exact h
  | cons time times ih => exact ih (mode_of_stopped h)

/-- What calls at the true times `times` should do, when the disconnection was
noted at the true time `since`. -/
structure OutlastsWrap (since : Nat) (sh : Shared) (times : List Nat) : Prop where
  /-- no call up to the timeout changes anything -/
  early : ∀ before time after, times = before ++ time :: after →
    time - since ≤ 10000 →
      timeoutCalls (before ++ [time]) sh = timeoutCalls before sh
  /-- every call beyond it, within one period of the clock, stops the car -/
  late : ∀ before time after, times = before ++ time :: after →
    10000 < time - since → time - since < 4294967296 →
      (timeoutCalls (before ++ [time]) sh).world.currentDriveMode =
        .disconnectionStop
  /-- and once a call has left the car stopped it stays stopped -/
  latched : ∀ before between after, times = before ++ between ++ after →
    (timeoutCalls before sh).world.currentDriveMode = .disconnectionStop →
      (timeoutCalls (before ++ between) sh).world.currentDriveMode =
        .disconnectionStop

/--
At whatever true time the disconnection was noted, and wherever the clock wraps
since, the calls of `manage_disconnection_timeout` stop the car between ten
seconds and one period of the clock, not earlier, and for good.
-/
theorem outlastsWrap_timeoutCalls (since : Nat) (sh : Shared)
    (hstamp : sh.ctx.disconnectionTime = millis since) (times : List Nat)
    (htimes : ∀ time ∈ times, since ≤ time) : OutlastsWrap since sh times := by
  have hctx : ∀ before,
      (timeoutCalls before sh).ctx.disconnectionTime = millis since := by
    intro before
    rw [ctx_timeoutCalls]
    exact hstamp
  have hafter : ∀ before time after, times = before ++ time :: after →
      since ≤ time := by
    intro before time after htimesEq
    apply htimes
    simp [htimesEq]
  refine
    { early := ?_
      late := ?_
      latched := ?_ }
  · intro before time after hsplit hearly
    have hnot := not_timedOut_millis (hafter before time after hsplit) hearly
    rw [← hctx before] at hnot
    rw [timeoutCalls_append]
    exact manageDisconnectionTimeout_of_not_timedOut hnot
  · intro before time after hsplit hlate hperiod
    have hout := timedOut_millis (hafter before time after hsplit) hlate hperiod
    rw [← hctx before] at hout
    rw [timeoutCalls_append]
    exact mode_of_timedOut hout
  · intro before between after _ hstopped
    rw [timeoutCalls_append]
    exact mode_timeoutCalls_of_stopped hstopped between

/-- Noted just before a wrap, with calls before and after it and one after the
counter has come round again. -/
theorem outlastsWrap_timeoutCalls_aroundWrap :
    OutlastsWrap 4294967290
      { world := Op.exec (.setDriveMode .forward) World.powerUp
        ctx := { disconnectionTime := 4294967290, deviceConnected := false } }
      [4294967295, 4294967300, 4294977290, 4294977291, 8589934590] := by
  apply outlastsWrap_timeoutCalls
  · rfl
  · decide

end BLERCCar.Server
