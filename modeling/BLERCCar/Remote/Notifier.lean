import BLERCCar.Lib.Changes
import BLERCCar.Remote.Mirror

/-!
# Every change is notified once

The connectivity task compares each drive mode it polls with `tmp_drive_mode`,
which it creates anew whenever it enters its connected branch, while clients
come and go in the callback task.  A `Diary` is a server together with a record
of what the task polled and what it handed to `NotifyNewDriveMode`: one `Log`
for each pass through the connected branch, and one for each client, from its
connection to the next one.

Between the steps of the server the car may take up any of its modes, so the
polls read arbitrary sequences of these (`polled_takes`).

## Main results

* `notifies_changes`: the notifications of a pass are its polls without
  consecutive repeats, however clients connect; and if they connect to an
  advertising server only, each of them is notified of the first mode polled
  while it was the last to have connected.
* `exists_log_of_polling`: in the latter case no two clients share a pass.
* `run_server`: the server of a diary runs as it does by itself.
-/

namespace BLERCCar.Remote

open BLERCCar.Lib BLERCCar.Server

/-! ## Logs -/

/-- The modes polled and the packets handed to `NotifyNewDriveMode`, oldest
first. -/
structure Log where
  polled : List DriveMode
  notified : List BLERCCarPacket
  deriving DecidableEq

namespace Log

def empty : Log := ⟨[], []⟩

/-- Enter what a step polls and what it hands to `NotifyNewDriveMode`. -/
def add (polled : Option DriveMode) (notified : Option BLERCCarPacket)
    (l : Log) : Log :=
  ⟨l.polled ++ polled.toList, l.notified ++ notified.toList⟩

@[simp] theorem modifyHead_add_none (logs : List Log) :
    logs.modifyHead (add none none) = logs := by
  cases logs with
  | nil => rfl
  | cons l logs => simp [add]

/-- The modes notified are the modes polled without consecutive repeats. -/
def Faithful (l : Log) : Prop :=
  l.notified = (changes l.polled).map fun mode => .drive mode 0

/-- If a mode was polled, the first one was notified. -/
def Greeted (l : Log) : Prop :=
  ∀ mode, l.polled.head? = some mode →
    l.notified.head? = some (.drive mode 0)

theorem faithful_empty : empty.Faithful := rfl

theorem Faithful.greeted {l : Log} (h : l.Faithful) : l.Greeted := by
  intro mode hmode
  rw [h, List.head?_map, head?_changes, hmode]
  rfl

/-- Polling the last mode again calls for nothing. -/
theorem Faithful.add_known {l : Log} {mode : DriveMode} (h : l.Faithful)
    (hlast : l.polled.getLast? = some mode) :
    (l.add (some mode) none).Faithful := by
  have hsame : changes (l.polled ++ [mode]) = changes l.polled := by
    rw [changes_concat, if_pos hlast]
  simpa [Faithful, add, hsame] using h

/-- Polling another one calls for its notification. -/
theorem Faithful.add_new {l : Log} {mode : DriveMode} (h : l.Faithful)
    (hlast : l.polled.getLast? ≠ some mode) :
    ((l.add (some mode) none).add none (some (.drive mode 0))).Faithful := by
  have hnew : changes (l.polled ++ [mode]) = changes l.polled ++ [mode] := by
    rw [changes_concat, if_neg hlast]
  have hnotified := h
  simp only [Faithful] at hnotified
  simp [Faithful, add, hnew, hnotified]

end Log

/-! ## Diaries -/

/-- A server and the logs of the passes through its connected branch and of its
connections, newest first. -/
structure Diary where
  server : State
  passes : List Log
  connections : List Log

/-- Steps of the server, and a mode that the car takes up in between. -/
inductive Entry where
  | server (e : Server.Event)
  | takes (mode : DriveMode)
  deriving DecidableEq

/-- Whether a step enters the connected branch. -/
def enters (s : State) : Server.Event → Bool
  | .task _ =>
      match s.task, s.pc with
      | ⟨[], []⟩, .outerTest => s.ctx.deviceConnected
      | _, _ => false
  | _ => false

/-- The branch is entered behind the test of a set flag. -/
theorem enters_eq_true {s : State} {e : Server.Event}
    (h : enters s e = true) : ∃ now, e = .task now ∧ s.task = Thread.done ∧
      s.pc = .outerTest ∧ s.ctx.deviceConnected = true := by
  cases e with
  | task now =>
      simp only [enters] at h
      split at h
      · next htask hpc => exact ⟨now, rfl, htask, hpc, h⟩
      · cases h
  | _ => cases h

/-- The car takes up a mode. -/
def takes (mode : DriveMode) (s : State) : State :=
  { s with world := (Instr.assignMode mode).exec s.world }

/-- So the next poll may read any mode. -/
theorem polled_takes (mode : DriveMode) (s : State) (e : Server.Event) :
    (takes mode s).polled e = (s.polled e).map fun _ => mode := by
  cases e with
  | task now =>
      simp only [State.polled, takes]
      split <;> rfl
  | _ => rfl

/-- The logs once the task has made the call to `NotifyNewDriveMode` that its
next step makes, if it does. -/
def withDue (s : State) (logs : List Log) : List Log :=
  logs.modifyHead (Log.add none (s.notified (.task 0)))

instance (mode : DriveMode) : Decidable (Op.Settled mode) :=
  inferInstanceAs (Decidable (_ ∨ _ ∨ _ ∨ _))

namespace Diary

def init : Diary := ⟨State.powerUp, [], []⟩

/-- Record a step of the server to `s`. -/
def observe (d : Diary) (e : Server.Event) (s : State) : Diary where
  server := s
  passes :=
    if enters d.server e = true then Log.empty :: d.passes
    else d.passes.modifyHead (Log.add (d.server.polled e) (d.server.notified e))
  connections :=
    if e = .connect then Log.empty :: d.connections
    else d.connections.modifyHead
      (Log.add (d.server.polled e) (d.server.notified e))

/-- One step. -/
def step (cfg : Setting) (d : Diary) : Entry → Option Diary
  | .server e => (d.server.step cfg e).map (d.observe e)
  | .takes mode =>
      if Op.Settled mode then some { d with server := Remote.takes mode d.server }
      else none

/-- Everything a step can do. -/
inductive Move (cfg : Setting) (d : Diary) : Entry → Diary → Prop
  | takes (mode : DriveMode) (hmode : Op.Settled mode) :
      Move cfg d (.takes mode) { d with server := Remote.takes mode d.server }
  | connect (s : State) (hmove : State.Move cfg d.server .connect s) :
      Move cfg d (.server .connect)
        { d with server := s, connections := Log.empty :: d.connections }
  | enter (now : UInt32) (hdone : d.server.task = Thread.done)
      (hpc : d.server.pc = .outerTest)
      (hflag : d.server.ctx.deviceConnected = true) :
      Move cfg d (.server (.task now))
        { d with
          server := d.server.control now
          passes := Log.empty :: d.passes }
  | poll (now : UInt32) (tmp : DriveMode) (hdone : d.server.task = Thread.done)
      (hpc : d.server.pc = .pollMode tmp) :
      Move cfg d (.server (.task now))
        { server := d.server.control now
          passes := d.passes.modifyHead
            (Log.add (some d.server.world.currentDriveMode) none)
          connections := d.connections.modifyHead
            (Log.add (some d.server.world.currentDriveMode) none) }
  | notify (now : UInt32) (current : DriveMode)
      (hdone : d.server.task = Thread.done)
      (hpc : d.server.pc = .notifyMode current) :
      Move cfg d (.server (.task now))
        { server := d.server.control now
          passes := d.passes.modifyHead
            (Log.add none (some (.drive current 0)))
          connections := d.connections.modifyHead
            (Log.add none (some (.drive current 0))) }
  | quiet (e : Server.Event) (s : State) (hmove : State.Move cfg d.server e s)
      (hconn : e ≠ .connect) (henter : enters d.server e = false)
      (hpoll : d.server.polled e = none)
      (hnotify : d.server.notified e = none) :
      Move cfg d (.server e) { d with server := s }

theorem move_of_step {cfg : Setting} {d d' : Diary} {e : Entry}
    (h : d.step cfg e = some d') : Move cfg d e d' := by
  cases e with
  | takes mode =>
      simp only [step] at h
      split at h
      · next hmode =>
          cases h
          exact .takes mode hmode
      · cases h
  | server e =>
      obtain ⟨s, hs, rfl⟩ := Option.map_eq_some_iff.mp h
      have hmove := State.move_of_step hs
      by_cases hconn : e = .connect
      · subst hconn
        have hsilent : d.observe .connect s =
            { d with server := s, connections := Log.empty :: d.connections } := by
          simp [observe, enters, State.polled, State.notified]
        rw [hsilent]
        exact .connect s hmove
      · cases henter : enters d.server e with
        | true =>
            obtain ⟨now, rfl, hdone, hpc, hflag⟩ := enters_eq_true henter
            rw [State.step_task_of_done now hdone] at hs
            cases hs
            have henters : d.observe (.task now) (d.server.control now) =
                { d with
                  server := d.server.control now
                  passes := Log.empty :: d.passes } := by
              simp [observe, enters, State.polled, State.notified, hdone,
                Thread.done, hpc, hflag]
            rw [henters]
            exact .enter now hdone hpc hflag
        | false =>
            cases hpoll : d.server.polled e with
            | some mode =>
                obtain ⟨now, tmp, rfl, hdone, hpc, rfl⟩ := State.polled_eq_some hpoll
                rw [State.step_task_of_done now hdone] at hs
                cases hs
                have hnotify : d.server.notified (.task now) = none := by
                  simp [State.notified, hdone, Thread.done, hpc]
                simp only [observe, henter, hpoll, hnotify, reduceCtorEq, if_false]
                exact .poll now tmp hdone hpc
            | none =>
                cases hnotify : d.server.notified e with
                | some packet =>
                    obtain ⟨now, current, rfl, hdone, hpc, rfl⟩ :=
                      State.notified_eq_some hnotify
                    rw [State.step_task_of_done now hdone] at hs
                    cases hs
                    simp only [observe, henter, hpoll, hnotify, reduceCtorEq,
                      if_false]
                    exact .notify now current hdone hpc
                | none =>
                    have hsilent : d.observe e s = { d with server := s } := by
                      simp [observe, henter, hpoll, hnotify, hconn]
                    rw [hsilent]
                    exact .quiet e s hmove hconn henter hpoll hnotify

end Diary

/-- The interleavings of a server on record. -/
def diary (cfg : Setting) : Machine Diary Entry where
  init := Diary.init
  next := Diary.step cfg

theorem next_move {cfg : Setting} {d d' : Diary} {e : Entry}
    (h : (diary cfg).next d e = some d') : Diary.Move cfg d e d' :=
  Diary.move_of_step h

/-- Keeping a diary does not change what the server does. -/
theorem run_server (cfg : Setting) (d : Diary) (es : List Server.Event) :
    ((diary cfg).run d (es.map Entry.server)).map Diary.server =
      (machine cfg).run d.server es := by
  induction es generalizing d with
  | nil => rfl
  | cons e es ih =>
      rw [List.map_cons, Machine.run_cons, Machine.run_cons]
      show (((d.server.step cfg e).map (d.observe e)).bind _).map _ =
        (d.server.step cfg e).bind _
      cases d.server.step cfg e with
      | none => rfl
      | some s => exact ih (d.observe e s)

/-! ## The call that is due -/

theorem notified_of_not {s : State} (h : ¬ Notifying s.pc) (e : Server.Event) :
    s.notified e = none := by
  cases hnotify : s.notified e with
  | none => rfl
  | some packet =>
      obtain ⟨now, current, -, -, hpc, -⟩ := State.notified_eq_some hnotify
      exact absurd (by rw [hpc]; trivial) h

theorem withDue_of_not {s : State} (h : ¬ Notifying s.pc) (logs : List Log) :
    withDue s logs = logs := by
  rw [withDue, notified_of_not h, Log.modifyHead_add_none]

/-- Nothing comes between a poll and its notification. -/
def Ready (s : State) : Prop := Notifying s.pc → s.task = Thread.done

/-- What a step does to the task that neither enters the branch nor polls nor
notifies. -/
structure Idle (s s' : State) : Prop where
  quiet : s'.pc.Polling → s.pc.Polling ∧ Quiet s.pc s'.pc
  ready : Ready s'
  due : s'.notified (.task 0) = s.notified (.task 0)

theorem idle_of_same {s s' : State} (hready : Ready s) (hpc : s'.pc = s.pc)
    (htask : s'.task = s.task) : Idle s s' := by
  refine
    { quiet := fun hp => ?_
      ready := fun hp => ?_
      due := ?_ }
  · rw [hpc] at hp ⊢
    exact ⟨hp, .same _⟩
  · rw [hpc] at hp
    rw [htask]
    exact hready hp
  · simp only [State.notified, hpc, htask]

/-- The task's own tests: from one iteration to the next, out of the branch, or
outside of it. -/
theorem quiet_next_of_polling {s : State} (now : UInt32)
    (hout : s.pc = .outerTest → s.ctx.deviceConnected = false)
    (hpoll : ∀ tmp, s.pc ≠ .pollMode tmp) (hnotify : ¬ Notifying s.pc)
    (h : (s.control now).pc.Polling) :
    s.pc.Polling ∧ Quiet s.pc (s.control now).pc := by
  have hnext : (s.pc.next now s.toShared).1.Polling := h
  show s.pc.Polling ∧ Quiet s.pc (s.pc.next now s.toShared).1
  cases hpc : s.pc with
  | innerTest tmp =>
      rw [hpc] at hnext
      cases hflag : s.ctx.deviceConnected with
      | true =>
          simp only [Pc.next, hflag, if_true]
          exact ⟨trivial, .stay tmp⟩
      | false => simp [Pc.next, hflag, Pc.Polling] at hnext
  | pollMode tmp => exact absurd hpc (hpoll tmp)
  | notifyMode current => exact absurd (by rw [hpc]; trivial) hnotify
  | outerTest => simp [Pc.next, hpc, hout hpc, Pc.Polling] at hnext
  | waitTest | testElapsed | testMode =>
      simp only [hpc, Pc.next] at hnext
      split at hnext <;> cases hnext
  | advertise | readClock =>
      rw [hpc] at hnext
      cases hnext

theorem idle_of_move {cfg : Setting} {s s' : State} {e : Server.Event}
    (hready : Ready s) (hmove : State.Move cfg s e s')
    (henter : enters s e = false) (hpoll : s.polled e = none)
    (hnotify : s.notified e = none) : Idle s s' := by
  cases hmove with
  | task now th sh hth =>
      have hnot : ¬ Notifying s.pc := by
        intro hp
        rw [hready hp] at hth
        cases hth
      refine
        { quiet := fun hp => ⟨hp, .same _⟩
          ready := fun hp => absurd hp hnot
          due := ?_ }
      rw [notified_of_not hnot]
      exact notified_of_not (s := { s with toShared := sh, task := th }) hnot _
  | control now hdone =>
      have hnot := not_notifying hdone hnotify
      have hquiet := quiet_next_of_polling (s := s) now
        (fun hpc => by simpa [enters, hdone, Thread.done, hpc] using henter)
        (pc_ne_pollMode hdone hpoll) hnot
      have hnot' : ¬ Notifying (s.control now).pc := by
        intro hp
        have hstays := (hquiet hp.polling).2
        generalize (s.control now).pc = after at hstays hp
        generalize s.pc = before at hstays hnot
        cases hstays with
        | same => exact hnot hp
        | outside _ hout => exact hout hp.polling
        | enter => exact hp
        | stay => exact hp
      refine
        { quiet := hquiet
          ready := fun hp => absurd hp hnot'
          due := ?_ }
      rw [notified_of_not hnot, notified_of_not hnot']
  | _ => exact idle_of_same hready rfl rfl

/-! ## Passes -/

/-- Every log is faithful once the call that is due has been made. -/
def Kept (s : State) (logs : List Log) : Prop :=
  ∀ l ∈ withDue s logs, l.Faithful

theorem kept_iff_of_not {s : State} (h : ¬ Notifying s.pc) {logs : List Log} :
    Kept s logs ↔ ∀ l ∈ logs, l.Faithful := by
  rw [Kept, withDue_of_not h]

/-- Entering the branch starts from the sentinel. -/
theorem enter_next {s : State} (now : UInt32) (hpc : s.pc = .outerTest)
    (hflag : s.ctx.deviceConnected = true) :
    (s.control now).pc = .innerTest .initialConenction := by
  simp [State.control, hpc, Pc.next, hflag]

theorem Kept.idle {s s' : State} {logs : List Log} (h : Kept s logs)
    (hidle : Idle s s') : Kept s' logs := by
  rw [Kept, withDue, hidle.due]
  exact h

theorem Kept.of_not {s s' : State} {logs : List Log} (h : Kept s logs)
    (hnot : ¬ Notifying s.pc) (hnot' : ¬ Notifying s'.pc) : Kept s' logs := by
  rw [kept_iff_of_not hnot] at h
  rwa [kept_iff_of_not hnot']

theorem Kept.open {s : State} {logs : List Log} (h : Kept s logs)
    (hnot : ¬ Notifying s.pc) : Kept s (Log.empty :: logs) := by
  rw [kept_iff_of_not hnot] at h ⊢
  exact List.forall_mem_cons.mpr ⟨Log.faithful_empty, h⟩

theorem ready_poll {s : State} (now : UInt32) {tmp : DriveMode}
    (hpc : s.pc = .pollMode tmp) : Ready (s.control now) := by
  simp only [Ready, State.control, hpc, Pc.next]
  split
  · exact False.elim
  · exact fun _ => rfl

/-- A poll of a new mode makes its notification due. -/
theorem Kept.poll {s : State} {logs : List Log} (now : UInt32) {tmp : DriveMode}
    (hmode : Op.Settled s.world.currentDriveMode) (hpc : s.pc = .pollMode tmp)
    (hhead : ∀ l, logs.head? = some l → Pass s.pc l.polled.getLast?)
    (h : Kept s logs) :
    Kept (s.control now)
      (logs.modifyHead (Log.add (some s.world.currentDriveMode) none)) := by
  rw [kept_iff_of_not (by simp [hpc, Notifying])] at h
  cases logs with
  | nil => exact fun _ hl => absurd hl List.not_mem_nil
  | cons l earlier =>
      obtain ⟨hl, hearlier⟩ := List.forall_mem_cons.mp h
      have htmp : tmpDriveMode s.pc = some tmp := by
        rw [hpc]
        rfl
      have hlast := (hhead l rfl).poll_iff htmp hmode
      rcases pollMode_next now hpc with ⟨hsame, hnext⟩ | ⟨hnew, hnext⟩
      · rw [kept_iff_of_not (by simp [hnext, Notifying])]
        exact List.forall_mem_cons.mpr ⟨hl.add_known (hlast.mpr hsame), hearlier⟩
      · have hdone := ready_poll now hpc (by simp [hnext, Notifying])
        rw [Kept, withDue, State.notified_of_done 0 hdone hnext]
        exact List.forall_mem_cons.mpr
          ⟨hl.add_new fun hold => hnew (hlast.mp hold), hearlier⟩

/-- The notification settles what was due. -/
theorem Kept.notify {s : State} {logs : List Log} (now : UInt32)
    {current : DriveMode} (hdone : s.task = Thread.done)
    (hpc : s.pc = .notifyMode current) (h : Kept s logs) :
    Kept (s.control now)
      (logs.modifyHead (Log.add none (some (.drive current 0)))) := by
  rw [kept_iff_of_not (by simp [notifyMode_next now hpc, Notifying])]
  rwa [Kept, withDue, State.notified_of_done 0 hdone hpc] at h

/-- What every run keeps of the passes. -/
structure PassInv (d : Diary) : Prop where
  mode : d.server.ModeInv
  ready : Ready d.server
  pass : d.server.pc.Polling → ∃ p, d.passes.head? = some p ∧
    Pass d.server.pc p.polled.getLast?
  kept : Kept d.server d.passes

theorem passInv_init : PassInv Diary.init :=
  { mode := State.modeInv_powerUp
    ready := False.elim
    pass := False.elim
    kept := fun _ hl => absurd hl List.not_mem_nil }

theorem PassInv.idle {d : Diary} {s : State} (h : PassInv d)
    (hmode : s.ModeInv) (hidle : Idle d.server s) (connections : List Log) :
    PassInv ⟨s, d.passes, connections⟩ := by
  refine
    { mode := hmode
      ready := hidle.ready
      pass := fun hp => ?_
      kept := h.kept.idle hidle }
  obtain ⟨hbefore, hquiet⟩ := hidle.quiet hp
  obtain ⟨p, hhead, hpass⟩ := h.pass hbefore
  exact ⟨p, hhead, hpass.quiet hquiet⟩

theorem PassInv.step {cfg : Setting} {d d' : Diary} {e : Entry}
    (h : PassInv d) (hmove : Diary.Move cfg d e d') : PassInv d' := by
  cases hmove with
  | takes mode hmode =>
      have htaken : (takes mode d.server).ModeInv :=
        ⟨hmode, { h.mode.pending with }⟩
      exact h.idle htaken (idle_of_same h.ready rfl rfl) d.connections
  | connect s hmove =>
      have hidle := idle_of_move h.ready hmove rfl rfl rfl
      exact h.idle (h.mode.step hmove) hidle _
  | quiet e s hmove hconn henter hpoll hnotify =>
      have hidle := idle_of_move h.ready hmove henter hpoll hnotify
      exact h.idle (h.mode.step hmove) hidle d.connections
  | enter now hdone hpc hflag =>
      have hnext := enter_next now hpc hflag
      have hnot : ¬ Notifying (d.server.control now).pc := by
        simp [hnext, Notifying]
      have hout : ¬ d.server.pc.Polling := by simp [hpc, Pc.Polling]
      refine
        { mode := h.mode.step (@State.Move.control cfg d.server now hdone)
          ready := fun hp => absurd hp hnot
          pass := fun _ => ⟨Log.empty, rfl, ?_⟩
          kept := (h.kept.of_not (fun hp => hout hp.polling) hnot).open hnot }
      show Pass (d.server.control now).pc none
      rw [hnext]
      exact (pass_none hout).quiet (.enter hout)
  | poll now tmp hdone hpc =>
      obtain ⟨p, hhead, hpass⟩ := h.pass (by simp [hpc, Pc.Polling])
      refine
        { mode := h.mode.step (@State.Move.control cfg d.server now hdone)
          ready := ready_poll now hpc
          pass := fun _ =>
            ⟨p.add (some d.server.world.currentDriveMode) none, ?_, ?_⟩
          kept := h.kept.poll now h.mode.mode hpc fun l hl => ?_ }
      · simp [List.head?_modifyHead, hhead]
      · have hlast := pass_poll now h.mode.mode hpc
        simpa [Log.add] using hlast
      · cases hhead.symm.trans hl
        exact hpass
  | notify now current hdone hpc =>
      obtain ⟨p, hhead, hpass⟩ := h.pass (by simp [hpc, Pc.Polling])
      refine
        { mode := h.mode.step (@State.Move.control cfg d.server now hdone)
          ready := fun hp => ?_
          pass := fun _ =>
            ⟨p.add none (some (.drive current 0)), ?_, ?_⟩
          kept := h.kept.notify now hdone hpc }
      · simp [notifyMode_next now hpc, Notifying] at hp
      · simp [List.head?_modifyHead, hhead]
      · have hlast := hpass.notify now hpc
        simpa [Log.add] using hlast

/-! ## Connections -/

/-- The flag says that a client is connected, or is about to say so. -/
def Coming (s : State) : Prop :=
  s.ctx.deviceConnected = true ∨ flags s.callback.rest = [true]

/-- Only a connection brings a client. -/
theorem coming_of_move {g : Granularity} {s s' : State} {e : Server.Event}
    (hinv : AdvInv s) (hmove : State.Move ⟨g, advertised⟩ s e s')
    (hconn : e ≠ .connect) (h : Coming s') : Coming s := by
  cases hmove with
  | connect | connected => exact absurd rfl hconn
  | disconnect | write =>
      rcases h with hflag | hopen
      · exact .inl hflag
      · simp at hopen
  | callback now th sh hth =>
      rcases flags_of_move hth with ⟨hflags, hflag⟩ | hpop
      · rcases h with hset | hopen
        · exact .inl (hflag.symm.trans hset)
        · exact .inr (hflags.symm.trans hopen)
      · have hphase := hinv.link.phase
        rw [hpop] at hphase
        have htail := hphase.of_cons.1
        rcases h with hset | hopen
        · refine .inr ?_
          rw [hpop, htail, show sh.ctx.deviceConnected = true from hset]
        · exact absurd (htail.symm.trans hopen) (by simp)
  | task now th sh hth =>
      rcases h with hset | hopen
      · refine .inl ?_
        rw [← ctx_of_move hth]
        exact hset
      · exact .inr hopen
  | _ => exact h

/-- When the task leaves the branch, its client is gone and no other has
come. -/
theorem not_coming_of_leaves {g : Granularity} {s s' : State}
    {e : Server.Event} (hinv : AdvInv s)
    (hmove : State.Move ⟨g, advertised⟩ s e s') (hpoll : s.pc.Polling)
    (hleft : ¬ s'.pc.Polling) : ¬ Coming s' := by
  have hinv' := hinv.step hmove
  cases hmove with
  | control now hdone =>
      rcases hpoll.next now s.toShared with hp | hp
      · exact absurd hp hleft
      · obtain ⟨-, hopen, hflag⟩ := hinv'.leaving hp
        rintro (hset | hbad)
        · exact absurd (hflag.symm.trans hset) (by simp)
        · exact hopen hbad
  | _ => exact absurd hpoll hleft

/-- What every run keeps of the connections, if clients connect only while the
server advertises: a pass has the log of the client it began with, and begins
with a client that no pass has polled for. -/
structure ConnectionInv (d : Diary) : Prop where
  adv : AdvInv d.server
  current : d.server.pc.Polling → d.connections.head? = d.passes.head?
  fresh : ¬ d.server.pc.Polling → Coming d.server →
    d.connections.head? = some Log.empty
  kept : Kept d.server d.connections

theorem connectionInv_init : ConnectionInv Diary.init :=
  { adv := advInv_powerUp
    current := False.elim
    fresh := fun _ hcoming => by
      rcases hcoming with hflag | hopen
      · cases hflag
      · cases hopen
    kept := fun _ hl => absurd hl List.not_mem_nil }

theorem ConnectionInv.step {cfg : Setting} {d d' : Diary} {e : Entry}
    (hacc : ∀ b, cfg.accepts b = true → b.advertising = true)
    (hpass : PassInv d) (h : ConnectionInv d) (hmove : Diary.Move cfg d e d') :
    ConnectionInv d' := by
  cases hmove with
  | takes mode hmode =>
      exact
        { adv := { h.adv with link := { h.adv.link with } }
          current := h.current
          fresh := h.fresh
          kept := h.kept.idle (idle_of_same hpass.ready rfl rfl) }
  | connect s hmove =>
      have hout : ¬ d.server.pc.Polling := by
        intro hp
        have hsilent := (h.adv.polling hp).1
        cases hmove with
        | connect _ hb => exact absurd (hsilent.symm.trans (hacc _ hb)) (by simp)
        | connected _ hb => exact absurd (hsilent.symm.trans (hacc _ hb)) (by simp)
      have hpc : s.pc = d.server.pc := by
        cases hmove <;> rfl
      have hout' : ¬ s.pc.Polling := by rwa [hpc]
      have hidle := idle_of_move hpass.ready hmove rfl rfl rfl
      exact
        { adv := h.adv.step (hmove.advertised hacc)
          current := fun hp => absurd hp hout'
          fresh := fun _ _ => rfl
          kept := (h.kept.idle hidle).open fun hp => hout' hp.polling }
  | enter now hdone hpc hflag =>
      have hmove := @State.Move.control cfg d.server now hdone
      have hnext := enter_next now hpc hflag
      have hout : ¬ d.server.pc.Polling := by simp [hpc, Pc.Polling]
      refine
        { adv := h.adv.step (hmove.advertised hacc)
          current := fun _ => h.fresh hout (.inl hflag)
          fresh := fun hp => absurd (by simp [hnext, Pc.Polling]) hp
          kept := h.kept.of_not (fun hp => hout hp.polling) ?_ }
      simp [hnext, Notifying]
  | poll now tmp hdone hpc =>
      have hmove := @State.Move.control cfg d.server now hdone
      have hpoll : d.server.pc.Polling := by simp [hpc, Pc.Polling]
      have hpoll' : (d.server.control now).pc.Polling := by
        rcases pollMode_next now hpc with ⟨-, hnext⟩ | ⟨-, hnext⟩
        · simp [hnext, Pc.Polling]
        · simp [hnext, Pc.Polling]
      have hhead := h.current hpoll
      obtain ⟨p, hp, hlast⟩ := hpass.pass hpoll
      refine
        { adv := h.adv.step (hmove.advertised hacc)
          current := fun _ => by simp [List.head?_modifyHead, hhead]
          fresh := fun hbad => absurd hpoll' hbad
          kept := h.kept.poll now hpass.mode.mode hpc fun l hl => ?_ }
      cases (hhead.trans hp).symm.trans hl
      exact hlast
  | notify now current hdone hpc =>
      have hmove := @State.Move.control cfg d.server now hdone
      have hhead := h.current (by simp [hpc, Pc.Polling])
      exact
        { adv := h.adv.step (hmove.advertised hacc)
          current := fun _ => by simp [List.head?_modifyHead, hhead]
          fresh := fun hbad =>
            absurd (by simp [notifyMode_next now hpc, Pc.Polling]) hbad
          kept := h.kept.notify now hdone hpc }
  | quiet e s hmove hconn henter hpoll hnotify =>
      have hidle := idle_of_move hpass.ready hmove henter hpoll hnotify
      have hadv := hmove.advertised hacc
      refine
        { adv := h.adv.step hadv
          current := fun hp => h.current (hidle.quiet hp).1
          fresh := fun hout hcoming => ?_
          kept := h.kept.idle hidle }
      by_cases hp : d.server.pc.Polling
      · exact absurd hcoming (not_coming_of_leaves h.adv hadv hp hout)
      · exact h.fresh hp (coming_of_move h.adv hadv hconn hcoming)

/-! ## The main result -/

theorem passInv_of_reach {cfg : Setting} {d : Diary}
    (h : (diary cfg).Reachable d) : PassInv d :=
  h.invariant passInv_init fun _ _ _ hinv _ hnext => hinv.step (next_move hnext)

theorem connectionInv_of_reach {cfg : Setting} {d : Diary}
    (hacc : ∀ b, cfg.accepts b = true → b.advertising = true)
    (h : (diary cfg).Reachable d) : ConnectionInv d :=
  h.invariant_of (fun _ => passInv_of_reach) connectionInv_init
    fun _ _ _ hpass hinv _ hnext => hinv.step hacc hpass (next_move hnext)

/-- While the task is in its connected branch the pass has a log, and it is that
of a client: no two clients share a pass, and no poll goes unrecorded. -/
theorem exists_log_of_polling {cfg : Setting} {d : Diary}
    (hacc : ∀ b, cfg.accepts b = true → b.advertising = true)
    (hreach : (diary cfg).Reachable d) (hpoll : d.server.pc.Polling) :
    ∃ l, d.passes.head? = some l ∧ d.connections.head? = some l := by
  obtain ⟨l, hl, -⟩ := (passInv_of_reach hreach).pass hpoll
  have hsame := (connectionInv_of_reach hacc hreach).current hpoll
  exact ⟨l, hl, hsame.trans hl⟩

/--
In every run, with the call that is due counted in, the modes notified in a
pass are the modes polled in it without consecutive repeats.  If clients connect
only to an advertising server, the first mode polled after a client connected is
notified before the next one connects.
-/
theorem notifies_changes {cfg : Setting} {d : Diary}
    (hreach : (diary cfg).Reachable d) :
    (∀ pass ∈ withDue d.server d.passes, pass.Faithful) ∧
      ((∀ b, cfg.accepts b = true → b.advertising = true) →
        ∀ connection ∈ withDue d.server d.connections,
          connection.Greeted) := by
  refine ⟨(passInv_of_reach hreach).kept, fun hacc connection hmem => ?_⟩
  have hkept := (connectionInv_of_reach hacc hreach).kept
  exact (hkept connection hmem).greeted

/-- Two clients, one after the other.  The first mode has just been polled for
the second. -/
def twoClients : List Entry :=
  [Entry.server .constructorReturns, Entry.server .connect] ++
    List.replicate 19 (Entry.server (.task 0)) ++ [Entry.takes .forward] ++
    List.replicate 18 (Entry.server (.task 0)) ++ [Entry.server .disconnect] ++
    List.replicate 4 (Entry.server (.callback 0)) ++
    List.replicate 21 (Entry.server (.task 0)) ++ [Entry.server .connect] ++
    List.replicate 14 (Entry.server (.task 0))

theorem notifies_changes_twoClients : ∃ d,
    (diary atomicCalls).run Diary.init twoClients = some d ∧
      d.passes.map Log.polled =
        [[.disconnectionStop], [.stop, .forward, .forward]] ∧
      d.connections = d.passes ∧
      (∀ pass ∈ withDue d.server d.passes, pass.Faithful) ∧
        ∀ connection ∈ withDue d.server d.connections, connection.Greeted := by
  obtain ⟨d, hrun, htest⟩ := Machine.exists_run_of_any (M := diary atomicCalls)
    (fun d => decide (d.passes.map Log.polled =
      [[.disconnectionStop], [.stop, .forward, .forward]] ∧
        d.connections = d.passes))
    (show ((diary atomicCalls).run Diary.init twoClients).any _ = true
      by decide +kernel)
  obtain ⟨hpolled, hsame⟩ := of_decide_eq_true htest
  obtain ⟨hpasses, hconnections⟩ :=
    notifies_changes (Machine.Reachable.of_run .init hrun)
  exact ⟨d, hrun, hpolled, hsame, hpasses, hconnections fun _ hb => hb⟩

/-- Without that rule a client that comes before the task has noticed the loss
of the one before shares its pass, and may not be told of the mode at all. -/
theorem not_forall_greeted_oneAtATime :
    ¬ ∀ d, (diary ⟨.call, oneAtATime⟩).Reachable d →
      ∀ connection ∈ withDue d.server d.connections, connection.Greeted := by
  intro h
  obtain ⟨d, hd, htest⟩ := Machine.exists_reachable_of_any
    (M := diary ⟨.call, oneAtATime⟩)
    (fun d => decide (d.connections.head? = some ⟨[.stop], []⟩ ∧
      ¬ Notifying d.server.pc))
    ([Entry.server .constructorReturns, Entry.server .connect] ++
      List.replicate 5 (Entry.server (.task 0)) ++
      [Entry.server .disconnect] ++
      List.replicate 4 (Entry.server (.callback 0)) ++
      [Entry.server .connect, Entry.takes .stop] ++
      List.replicate 15 (Entry.server (.task 0)))
    (by decide +kernel)
  obtain ⟨hhead, hnot⟩ := of_decide_eq_true htest
  have hgreeted := h d hd ⟨[.stop], []⟩ (by
    rw [withDue_of_not hnot]
    exact List.mem_of_mem_head? hhead)
  exact absurd (hgreeted .stop rfl) (by simp)

end BLERCCar.Remote
