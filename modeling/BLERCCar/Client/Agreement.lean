import BLERCCar.Client.Connecting
import BLERCCar.Client.Discovery
import BLERCCar.Client.Main

/-!
# Four models of `Connect`

`BLERCCar_client::Connect` is the computation `connect`, a call of a `Session`
that counts only how far it gets, events of `Discovery`, and steps of either
thread of `program`, with or without a wait at the prompt.  Here all of them are
given one scene, and agree on what they make of it.

## Main results

* `answer_iff`: the answer is `true` exactly if `connect` gets to its end.
* `run_callSteps`, `run_askSteps`: with that answer, the steps of either thread
  are those of `Connect`, with a wait at the prompt where it reads a selection.
* `run_connectEvents`: behind the scan, `Discovery` finds the device that
  `connect` finds, and sets `m_Peripheral` exactly where `Session` does.
-/

namespace BLERCCar.Client

open BLERCCar.Lib
open SimpleDBus (Object)

/-- What `Connect` returns. -/
def Scene.answer (scene : Scene) (server : String) : Bool :=
  scene.outcome server = .connected

theorem answer_iff (scene : Scene) (server : String) (acts : List Act) :
    scene.answer server = true ↔
      ((connect scene server).run acts).1 = .ok .connected := by
  rw [run_connect, Scene.answer, decide_eq_true_iff]
  exact ⟨congrArg _, Except.ok.inj⟩

/-! ## The two threads -/

/-- `Connect` as steps of the main thread. -/
def Scene.callSteps (scene : Scene) (server : String) : List Step :=
  if scene.adapters = 1 then [.call (.returns (scene.answer server))]
  else [.callPrompts, .callSelected (.returns (scene.answer server))]

/-- `Connect` as steps of the print thread. -/
def Scene.askSteps (scene : Scene) (server : String) : List Step :=
  if scene.adapters = 1 then [.ask (.returns (scene.answer server))]
  else [.askPrompts, .askSelected (.returns (scene.answer server))]

section Threads

variable {p : Program} (scene : Scene) (server : String)

theorem run_callSteps (halive : p.terminated = false) (hmain : p.main = .connect) :
    program.run p (scene.callSteps server) =
      some (p.afterConnect (scene.answer server)) := by
  unfold Scene.callSteps
  split
  · refine program.run_cons_of_next ?_ []
    simp [program, Program.step, halive, Program.advance, Program.afterCall, hmain]
  · have hprompts : program.next p .callPrompts = some { p with main := .select } := by
      simp [program, Program.step, halive, Program.advance, hmain]
    rw [program.run_cons_of_next hprompts]
    refine program.run_cons_of_next ?_ []
    cases scene.answer server <;>
      simp [program, Program.step, halive, Program.advance, Program.afterConnect]

theorem run_askSteps (halive : p.terminated = false) (hprint : p.print = .reconnect) :
    program.run p (scene.askSteps server) =
      some (p.afterReconnect (scene.answer server)) := by
  unfold Scene.askSteps
  split
  · refine program.run_cons_of_next ?_ []
    simp [program, Program.step, halive, Program.advance, Program.afterAsk, hprint]
  · have hprompts : program.next p .askPrompts = some { p with print := .select } := by
      simp [program, Program.step, halive, Program.advance, hprint]
    rw [program.run_cons_of_next hprompts]
    refine program.run_cons_of_next ?_ []
    simp [program, Program.step, halive, Program.advance, Program.afterReconnect]

end Threads

/-! ## What is found -/

/-- `Connect` behind the scan, as events. -/
def connectEvents : Session.Outcome → List Discovery.Event
  | .noDevice => [.choose]
  | .notConnected => [.choose, .attempted false]
  | .connected => [.choose, .attempted true]

section Found

variable {address uuid : Object → String} {server : String} {scene : Scene}
  {s : Discovery}

/-- The search goes through the addresses that `connect` is given. -/
theorem search_eq_serverIdx (hscene : scene.addresses = s.peripherals.map address)
    (hdevices : ∀ o ∈ s.peripherals, s.hasInterface o "org.bluez.Device1" = true) :
    s.search address server s.peripherals =
      some ((scene.serverIdx server).bind (s.peripherals[·]?)) := by
  rw [Discovery.search_eq _ hdevices, List.find?_eq_bind_findIdx?_getElem?,
    Scene.serverIdx, hscene, List.findIdx?_map]
  rfl

/-- The last event sets `m_CharMap` at most. -/
theorem next_attempted {device : Object} (halive : s.terminated = false)
    (hphase : s.phase = .connecting) (hdevice : s.peripheral = some device)
    (resolved : Bool) :
    ∃ charMap gone, (Discovery.machine address uuid server).next s (.attempted resolved) =
      some { s with phase := .idle, charMap := charMap, terminated := gone } := by
  cases resolved with
  | false =>
      exact ⟨s.charMap, s.terminated, by
        simp [Discovery.machine, Discovery.next, halive, hphase, hdevice]⟩
  | true =>
      obtain ⟨charMap, gone, hmapped⟩ := Discovery.mapCharacteristics_eq uuid s device
      exact ⟨charMap, gone, by
        simp [Discovery.machine, Discovery.next, halive, hphase, hdevice, hmapped]⟩

/-- A device that is found stays `m_Peripheral`, connected or not. -/
theorem run_chosen {device : Object} (halive : s.terminated = false)
    (hscanning : s.phase = .scanning)
    (hsearch : s.search address server s.peripherals = some (some device))
    (resolved : Bool) :
    ∃ charMap gone,
      (Discovery.machine address uuid server).run s [.choose, .attempted resolved] =
        some { s with
          phase := .idle
          peripheral := some device
          charMap := charMap
          terminated := gone } := by
  have hchoose : (Discovery.machine address uuid server).next s .choose =
      some { s with phase := .connecting, peripheral := some device } := by
    simp [Discovery.machine, Discovery.next, halive, hscanning, hsearch]
  rw [Machine.run_cons_of_next _ hchoose]
  obtain ⟨charMap, gone, hnext⟩ := next_attempted
    (s := { s with phase := .connecting, peripheral := some device })
    halive rfl rfl resolved
  exact ⟨charMap, gone, Machine.run_cons_of_next _ hnext []⟩

/--
With a selected adapter that has looked for devices, the events of `Connect` run
through; a device is chosen unless the outcome is `noDevice`, and it is the one at
`server_idx`.
-/
theorem run_connectEvents (hvalid : scene.ValidSelection) (halive : s.terminated = false)
    (hscanning : s.phase = .scanning)
    (hscene : scene.addresses = s.peripherals.map address)
    (hdevices : ∀ o ∈ s.peripherals, s.hasInterface o "org.bluez.Device1" = true)
    {c : Session} (hsame : c.peripheral = s.peripheral.isSome) :
    ∃ t, (Discovery.machine address uuid server).run s
          (connectEvents (scene.outcome server)) = some t ∧
      t.phase = .idle ∧
      (c.connect (scene.outcome server)).peripheral = t.peripheral.isSome ∧
      (scene.outcome server ≠ .noDevice →
        t.peripheral = (scene.serverIdx server).bind (s.peripherals[·]?)) := by
  have hsearch : s.search address server s.peripherals = _ :=
    search_eq_serverIdx hscene hdevices
  cases hidx : scene.serverIdx server with
  | none =>
      rw [hidx] at hsearch
      rw [outcome_of_serverIdx_none hidx]
      have hchoose : (Discovery.machine address uuid server).next s .choose =
          some { s with phase := .idle } := by
        simp [Discovery.machine, Discovery.next, halive, hscanning, hsearch]
      exact ⟨_, Machine.run_cons_of_next _ hchoose [], rfl, hsame, fun h => absurd rfl h⟩
  | some idx =>
      obtain ⟨hidx', -⟩ := List.findIdx?_eq_some_iff_getElem.mp hidx
      rw [hscene, List.length_map] at hidx'
      have hdevice : (some idx).bind (s.peripherals[·]?) = some s.peripherals[idx] :=
        List.getElem?_eq_getElem hidx'
      rw [hidx, hdevice] at hsearch
      rw [outcome_of_serverIdx_some hvalid hidx, hdevice]
      split
      · obtain ⟨charMap, gone, hrun⟩ := run_chosen halive hscanning hsearch true
        exact ⟨_, hrun, rfl, rfl, fun _ => rfl⟩
      · obtain ⟨charMap, gone, hrun⟩ := run_chosen halive hscanning hsearch false
        exact ⟨_, hrun, rfl, rfl, fun _ => rfl⟩

end Found

end BLERCCar.Client
