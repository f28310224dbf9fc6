import BLERCCar.Lib.Replica
import BLERCCar.Server.Links

/-!
# The client's copy of the drive mode

The connectivity task compares the drive mode with the one it sent last and
notifies the client of changes; the client's handler decodes what it receives
into `m_DriveMode`.  A `Link` joins the server to a client: whether the client
has installed its handler in this connection, and the notifications in flight,
which may be lost once the connection is down.

The last four fields of a `Link` only record what has happened, for the
statements to refer to.  The car may be driven at either granularity, and
clients connect to an advertising server.

## Main results

* `mirror_iff`: if the handler is installed before the task's first poll of each
  connection, the client shows the car's mode, except `DisconnectionStop`.
* `learns_iff`: a client that installs it later shows what the car's mode decodes
  to exactly if there was a new mode to send since, or if it happened to show
  that mode already.
-/

namespace BLERCCar.Remote

open BLERCCar.Lib BLERCCar.Lib.CString BLERCCar.Server

/-! ## Notifications -/

/-- A packet handed to `notify`, and the memory that lay behind it. -/
structure Notification where
  packet : BLERCCarPacket
  beyond : List UInt8
  deriving DecidableEq

/-- The mode that the handler of `attachNewDriveModeCallback` stores; `after` is
the memory behind the received value. -/
def Notification.received (after : List UInt8) (n : Notification) : DriveMode :=
  (BLERCCarPacket.ofPayload
    (stored (n.packet.payload n.beyond) after)).getDriveMode

/-- The mode that a notification carries. -/
def Notification.decode (n : Notification) : DriveMode := n.packet.getDriveMode

/-- What is stored does not depend on foreign memory. -/
theorem received_eq (after : List UInt8) :
    Notification.received after = Notification.decode := by
  funext n
  exact BLERCCarPacket.getDriveMode_of_stored_payload n.packet n.beyond after

/-- What the client makes of a notification of a drive mode. -/
def decodeMode (mode : DriveMode) : DriveMode :=
  (BLERCCarPacket.drive mode 0).getDriveMode

/-- `GetDriveMode` knows the modes of the car, except one. -/
theorem decodeMode_eq_iff {mode : DriveMode} (h : Op.Settled mode) :
    decodeMode mode = mode ↔ mode ≠ .disconnectionStop := by
  rcases h with rfl | rfl | rfl | rfl <;> decide

/-! ## Server and client -/

/-- The task has polled a mode and is about to send it. -/
def Notifying : Pc → Prop
  | .notifyMode _ => True
  | _ => False

instance : DecidablePred Notifying
  | .notifyMode _ => .isTrue trivial
  | .outerTest | .innerTest _ | .pollMode _ | .advertise | .waitTest
  | .readClock | .testElapsed _ | .testMode => .isFalse id

/-- A server and a client. -/
structure Link where
  server : State
  /-- the client has installed its drive-mode handler in this connection -/
  installed : Bool
  /-- notifications in flight, and `m_DriveMode` -/
  view : Replica Notification DriveMode
  /-- the mode read by the task's last poll of this connection -/
  lastPoll : Option DriveMode
  /-- the task has polled since the handler was installed -/
  polledSince : Bool
  /-- when the handler was installed the task was about to send a new mode, or it
  has polled one since that differs from the poll before -/
  news : Bool
  /-- what the client knew when it installed the handler, once everything then
  in flight was delivered -/
  known : DriveMode

/-- Steps of the server, where `beyond` is the memory behind a packet it may
send, and what happens at the client and in between. -/
inductive Event where
  | server (e : Server.Event) (beyond : List UInt8)
  | install
  | deliver (after : List UInt8)
  | lose (index : Nat)
  deriving DecidableEq

namespace Link

/-- Power-up of both sides. -/
def init : Link where
  server := State.powerUp
  installed := false
  view := { queue := [], shown := .unsupported }
  lastPoll := none
  polledSince := false
  news := false
  known := .unsupported

/-- The connection is up and the handler installed. -/
def Listening (m : Link) : Prop :=
  0 < m.server.ble.links ∧ m.installed = true

instance (m : Link) : Decidable m.Listening :=
  inferInstanceAs (Decidable (_ ∧ _))

/-- What a step of the server to `s` means for the client.  A notification is
dropped when nobody listens. -/
def observe (m : Link) (e : Server.Event) (beyond : List UInt8) (s : State) :
    Link :=
  if e = .connect then { m with server := s, installed := false, lastPoll := none }
  else
    match m.server.polled e, m.server.notified e with
    | some mode, _ =>
        { m with
          server := s
          lastPoll := some mode
          polledSince := true
          news := m.news || decide (m.lastPoll ≠ some mode) }
    | none, some packet =>
        if m.Listening then
          { m with server := s, view := m.view.send ⟨packet, beyond⟩ }
        else { m with server := s }
    | none, none => { m with server := s }

/-- One step. -/
def step (g : Granularity) (m : Link) : Event → Option Link
  | .server e beyond =>
      (m.server.step ⟨g, advertised⟩ e).map (m.observe e beyond)
  | .install =>
      if 0 < m.server.ble.links ∧ m.installed = false then some
        { m with
          installed := true
          polledSince := false
          news := decide (Notifying m.server.pc)
          known := m.view.settled Notification.decode }
      else none
  | .deliver after =>
      (m.view.deliver (Notification.received after)).map fun view =>
        { m with view := view }
  | .lose index =>
      if m.server.ble.links = 0 then some
        { m with view := { m.view with queue := m.view.queue.eraseIdx index } }
      else none

/-- Everything a step can do. -/
inductive Move (g : Granularity) (m : Link) : Event → Link → Prop
  | connect (beyond : List UInt8) (s : State)
      (hmove : State.Move ⟨g, advertised⟩ m.server .connect s) :
      Move g m (.server .connect beyond)
        { m with server := s, installed := false, lastPoll := none }
  | poll (now : UInt32) (beyond : List UInt8) (tmp : DriveMode)
      (hdone : m.server.task = Thread.done) (hpc : m.server.pc = .pollMode tmp) :
      Move g m (.server (.task now) beyond)
        { m with
          server := m.server.control now
          lastPoll := some m.server.world.currentDriveMode
          polledSince := true
          news := m.news ||
            decide (m.lastPoll ≠ some m.server.world.currentDriveMode) }
  | notify (now : UInt32) (beyond : List UInt8) (current : DriveMode)
      (hdone : m.server.task = Thread.done)
      (hpc : m.server.pc = .notifyMode current) (hlisten : m.Listening) :
      Move g m (.server (.task now) beyond)
        { m with
          server := m.server.control now
          view := m.view.send ⟨.drive current 0, beyond⟩ }
  | drop (now : UInt32) (beyond : List UInt8) (current : DriveMode)
      (hdone : m.server.task = Thread.done)
      (hpc : m.server.pc = .notifyMode current) (hlisten : ¬ m.Listening) :
      Move g m (.server (.task now) beyond)
        { m with server := m.server.control now }
  | quiet (e : Server.Event) (beyond : List UInt8) (s : State)
      (hmove : State.Move ⟨g, advertised⟩ m.server e s) (hconn : e ≠ .connect)
      (hpoll : m.server.polled e = none) (hnotify : m.server.notified e = none) :
      Move g m (.server e beyond) { m with server := s }
  | install (hlink : 0 < m.server.ble.links) (hnew : m.installed = false) :
      Move g m .install
        { m with
          installed := true
          polledSince := false
          news := decide (Notifying m.server.pc)
          known := m.view.settled Notification.decode }
  | deliver (after : List UInt8) (view : Replica Notification DriveMode)
      (hview : m.view.deliver Notification.decode = some view) :
      Move g m (.deliver after) { m with view := view }
  | lose (index : Nat) (hdown : m.server.ble.links = 0) :
      Move g m (.lose index)
        { m with view := { m.view with queue := m.view.queue.eraseIdx index } }

theorem move_of_step {g : Granularity} {m m' : Link} {e : Event}
    (h : m.step g e = some m') : Move g m e m' := by
  cases e with
  | server e beyond =>
      obtain ⟨s, hs, rfl⟩ := Option.map_eq_some_iff.mp h
      have hmove := State.move_of_step hs
      by_cases hconn : e = .connect
      · subst hconn
        exact .connect beyond s hmove
      · rw [observe, if_neg hconn]
        cases hpoll : m.server.polled e with
        | some mode =>
            obtain ⟨now, tmp, rfl, hdone, hpc, rfl⟩ := State.polled_eq_some hpoll
            rw [State.step_task_of_done now hdone] at hs
            cases hs
            exact .poll now beyond tmp hdone hpc
        | none =>
            cases hnotify : m.server.notified e with
            | some packet =>
                obtain ⟨now, current, rfl, hdone, hpc, rfl⟩ :=
                  State.notified_eq_some hnotify
                rw [State.step_task_of_done now hdone] at hs
                cases hs
                by_cases hlisten : m.Listening
                · simp only [if_pos hlisten]
                  exact .notify now beyond current hdone hpc hlisten
                · simp only [if_neg hlisten]
                  exact .drop now beyond current hdone hpc hlisten
            | none => exact .quiet e beyond s hmove hconn hpoll hnotify
  | install =>
      simp only [step] at h
      split at h
      · next hguard =>
          cases h
          exact .install hguard.1 hguard.2
      · cases h
  | deliver after =>
      obtain ⟨view, hview, rfl⟩ := Option.map_eq_some_iff.mp h
      rw [received_eq] at hview
      exact .deliver after view hview
  | lose index =>
      simp only [step] at h
      split at h
      · next hdown =>
          cases h
          exact .lose index hdown
      · cases h

end Link

/-- The interleavings of server, client and deliveries. -/
def mirror (g : Granularity) : Machine Link Event where
  init := Link.init
  next := Link.step g

theorem move_of_next {g : Granularity} {m m' : Link} {e : Event}
    (h : (mirror g).next m e = some m') : Link.Move g m e m' :=
  Link.move_of_step h

/-- The server of a link runs as it does by itself. -/
theorem simulation_server (g : Granularity) :
    Machine.Simulation (mirror g) (machine ⟨g, advertised⟩) (fun _ => True)
      Link.server where
  init := rfl
  step m e m' _ hnext := by
    cases e with
    | server e beyond =>
        obtain ⟨s, hs, rfl⟩ := Option.map_eq_some_iff.mp hnext
        have hserver : (m.observe e beyond s).server = s := by
          unfold Link.observe
          split
          · rfl
          · split
            · rfl
            · split <;> rfl
            · rfl
        refine ⟨[e], ?_⟩
        rw [hserver]
        exact Machine.run_cons_of_next _ hs []
    | install | deliver | lose =>
        have hsame : m'.server = m.server := by
          cases move_of_next hnext
          rfl
        exact ⟨[], congrArg some hsame.symm⟩

/-- What holds of the server of a link. -/
structure ServerInv (m : Link) : Prop where
  adv : AdvInv m.server
  mode : Op.Settled m.server.world.currentDriveMode

theorem serverInv_of_reach {g : Granularity} {ok : Link → Event → Prop}
    {m : Link} (h : (mirror g).Reach ok m) : ServerInv m := by
  have hreach := (simulation_server g).reach (fun _ _ => trivial) h
  exact ⟨advInv_of_reach hreach, settled_of_reach hreach⟩

/-! ## One pass through the connected branch -/

/-- The mode that the task has sent last, while it waits for the next poll. -/
def tmpDriveMode : Pc → Option DriveMode
  | .innerTest tmp => some tmp
  | .pollMode tmp => some tmp
  | _ => none

theorem Notifying.polling {pc : Pc} (h : Notifying pc) : pc.Polling := by
  cases pc with
  | notifyMode => trivial
  | _ => exact h.elim

theorem Notifying.tmp_ne {pc : Pc} {mode : DriveMode} (h : Notifying pc) :
    tmpDriveMode pc ≠ some mode := by
  cases pc with
  | notifyMode => simp [tmpDriveMode]
  | _ => exact h.elim

/-- How the program counter moves, apart from polls and notifications. -/
inductive Quiet : Pc → Pc → Prop
  | same (pc : Pc) : Quiet pc pc
  | outside {pc pc' : Pc} (h : ¬ pc.Polling) (h' : ¬ pc'.Polling) : Quiet pc pc'
  | enter {pc : Pc} (h : ¬ pc.Polling) :
      Quiet pc (.innerTest .initialConenction)
  | stay (tmp : DriveMode) : Quiet (.innerTest tmp) (.pollMode tmp)

/-- With a client connected the flag is set while the task polls. -/
theorem flag_of_polling {s : State} (h : AdvInv s) (hlink : 0 < s.ble.links)
    (hpoll : s.pc.Polling) : s.ctx.deviceConnected = true := by
  have hphase := h.link.phase
  cases hflag : s.ctx.deviceConnected with
  | true => rfl
  | false =>
      rw [hflag] at hphase
      have hzero := hphase.links_eq_zero (h.polling hpoll).2
      omega

theorem quiet_next {s : State} (now : UInt32)
    (hflag : s.pc.Polling → s.ctx.deviceConnected = true)
    (hpoll : ∀ tmp, s.pc ≠ .pollMode tmp) (hnotify : ¬ Notifying s.pc) :
    Quiet s.pc (s.pc.next now s.toShared).1 := by
  cases hpc : s.pc with
  | outerTest =>
      simp only [Pc.next]
      split
      · exact .enter (by simp [Pc.Polling])
      · exact .outside (by simp [Pc.Polling]) (by simp [Pc.Polling])
  | innerTest tmp =>
      have hset := hflag (by simp [hpc, Pc.Polling])
      simp only [Pc.next, hset, if_true]
      exact .stay tmp
  | pollMode tmp => exact absurd hpc (hpoll tmp)
  | notifyMode current => exact absurd (by simp [hpc, Notifying]) hnotify
  | waitTest | testElapsed | testMode =>
      simp only [Pc.next]
      split <;> exact .outside (by simp [Pc.Polling]) (by simp [Pc.Polling])
  | advertise | readClock =>
      exact .outside (by simp [Pc.Polling]) (by simp [Pc.next, Pc.Polling])

/-- A task that does not poll is not at its poll. -/
theorem pc_ne_pollMode {s : State} {now : UInt32} (hdone : s.task = Thread.done)
    (hpoll : s.polled (.task now) = none) (tmp : DriveMode) :
    s.pc ≠ .pollMode tmp := by
  intro hpc
  rw [State.polled_of_done now hdone hpc] at hpoll
  cases hpoll

/-- Nor is one that does not notify about to. -/
theorem not_notifying {s : State} {now : UInt32} (hdone : s.task = Thread.done)
    (hnotify : s.notified (.task now) = none) : ¬ Notifying s.pc := by
  intro hp
  cases hpc : s.pc with
  | notifyMode current =>
      rw [State.notified_of_done now hdone hpc] at hnotify
      cases hnotify
  | _ => simp [hpc, Notifying] at hp

/-- A step that neither connects nor polls nor notifies, as long as a client is
connected. -/
theorem quiet_of_move {g : Granularity} {s s' : State} {e : Server.Event}
    (hinv : AdvInv s) (hmove : State.Move ⟨g, advertised⟩ s e s')
    (hconn : e ≠ .connect) (hpoll : s.polled e = none)
    (hnotify : s.notified e = none) (hlink : 0 < s'.ble.links) :
    0 < s.ble.links ∧ Quiet s.pc s'.pc := by
  cases hmove with
  | constructorReturns => exact ⟨hlink, .same _⟩
  | connect => exact absurd rfl hconn
  | connected => exact absurd rfl hconn
  | disconnect hpos hidle =>
      have hone := (hinv.link.up_of_idle hidle hpos).1
      simp [hone] at hlink
  | control now hdone =>
      rw [State.control_links] at hlink
      exact ⟨hlink, quiet_next now (flag_of_polling hinv hlink)
        (pc_ne_pollMode hdone hpoll) (not_notifying hdone hnotify)⟩
  | _ => exact ⟨hlink, .same _⟩

/-- What the task remembers of the polls of this connection. -/
structure Pass (pc : Pc) (lastPoll : Option DriveMode) : Prop where
  tmp : ∀ mode, tmpDriveMode pc = some mode →
    lastPoll = if mode = .initialConenction then none else some mode
  notifying : ∀ mode, pc = .notifyMode mode →
    lastPoll = some mode ∧ mode ≠ .initialConenction
  outside : ¬ pc.Polling → lastPoll = none

theorem Pass.quiet {pc pc' : Pc} {lastPoll : Option DriveMode}
    (h : Pass pc lastPoll) (hquiet : Quiet pc pc') : Pass pc' lastPoll := by
  cases hquiet with
  | same => exact h
  | outside hpc hpc' =>
      have hnone := h.outside hpc
      refine
        { tmp := fun mode hmode => ?_
          notifying := fun mode hmode => ?_
          outside := fun _ => hnone }
      · cases pc' with
        | innerTest => exact absurd trivial hpc'
        | pollMode => exact absurd trivial hpc'
        | _ => cases hmode
      · subst hmode
        exact absurd trivial hpc'
  | enter hpc =>
      exact
        { tmp := fun mode hmode => by
            cases hmode
            exact h.outside hpc
          notifying := by simp
          outside := fun hbad => absurd trivial hbad }
  | stay tmp =>
      exact
        { tmp := h.tmp
          notifying := by simp
          outside := fun hbad => absurd trivial hbad }

theorem pass_none {pc : Pc} (h : ¬ pc.Polling) : Pass pc none := by
  refine
    { tmp := fun mode hmode => ?_
      notifying := fun mode hmode => ?_
      outside := fun _ => rfl }
  · cases pc with
    | innerTest => exact absurd trivial h
    | pollMode => exact absurd trivial h
    | _ => cases hmode
  · subst hmode
    exact absurd trivial h

/-- A poll either finds the mode it knows or is about to send the new one. -/
theorem pollMode_next {s : State} (now : UInt32) {tmp : DriveMode}
    (hpc : s.pc = .pollMode tmp) :
    (s.world.currentDriveMode = tmp ∧ (s.control now).pc = .innerTest tmp) ∨
      (s.world.currentDriveMode ≠ tmp ∧
        (s.control now).pc = .notifyMode s.world.currentDriveMode) := by
  by_cases hmode : s.world.currentDriveMode = tmp
  · exact .inl ⟨hmode, by simp [State.control, hpc, Pc.next, hmode]⟩
  · exact .inr ⟨hmode, by simp [State.control, hpc, Pc.next, hmode]⟩

theorem notifyMode_next {s : State} (now : UInt32) {current : DriveMode}
    (hpc : s.pc = .notifyMode current) :
    (s.control now).pc = .innerTest current := by
  simp [State.control, hpc, Pc.next]

/-- A poll finds the mode it remembers exactly if the last poll of this
connection read it. -/
theorem Pass.poll_iff {pc : Pc} {lastPoll : Option DriveMode}
    {tmp mode : DriveMode} (h : Pass pc lastPoll)
    (htmp : tmpDriveMode pc = some tmp) (hmode : Op.Settled mode) :
    lastPoll = some mode ↔ mode = tmp := by
  rw [h.tmp tmp htmp]
  by_cases hinitial : tmp = .initialConenction
  · subst hinitial
    simpa using hmode.ne_initial
  · rw [if_neg hinitial, Option.some.injEq]
    exact eq_comm

/-- What a poll leaves the task with. -/
theorem pass_poll {s : State} (now : UInt32) {tmp : DriveMode}
    (hmode : Op.Settled s.world.currentDriveMode) (hpc : s.pc = .pollMode tmp) :
    Pass (s.control now).pc (some s.world.currentDriveMode) := by
  have hne := hmode.ne_initial
  rcases pollMode_next now hpc with ⟨hsame, hnext⟩ | ⟨-, hnext⟩
  · rw [hnext]
    refine
      { tmp := fun mode hm => ?_
        notifying := by simp
        outside := fun hbad => absurd trivial hbad }
    cases hm
    rw [← hsame, if_neg hne]
  · rw [hnext]
    refine
      { tmp := by simp [tmpDriveMode]
        notifying := fun mode hm => ?_
        outside := fun hbad => absurd trivial hbad }
    cases hm
    exact ⟨rfl, hne⟩

/-- What a notification leaves it with. -/
theorem Pass.notify {s : State} {lastPoll : Option DriveMode} (now : UInt32)
    {current : DriveMode} (hpc : s.pc = .notifyMode current)
    (h : Pass s.pc lastPoll) : Pass (s.control now).pc lastPoll := by
  obtain ⟨hlast, hne⟩ := h.notifying current hpc
  rw [notifyMode_next now hpc]
  refine
    { tmp := fun mode hm => ?_
      notifying := by simp
      outside := fun hbad => absurd trivial hbad }
  cases hm
  rw [hlast, if_neg hne]

/-! ## What the client will show -/

/-- The mode the client shows once everything in flight is delivered. -/
def Link.settled (m : Link) : DriveMode := m.view.settled Notification.decode

/-- What every run keeps. -/
structure MirrorInv (m : Link) : Prop where
  pass : 0 < m.server.ble.links → Pass m.server.pc m.lastPoll
  told : m.Listening → m.news = true → m.server.pc.Polling ∧
    ∀ mode, tmpDriveMode m.server.pc = some mode →
      m.settled = decodeMode mode
  stale : m.Listening → m.news = false →
    m.settled = m.known ∧ ¬ Notifying m.server.pc

theorem mirrorInv_init : MirrorInv Link.init :=
  { pass := fun h => absurd h (Nat.lt_irrefl 0)
    told := fun h => absurd h.1 (Nat.lt_irrefl 0)
    stale := fun h => absurd h.1 (Nat.lt_irrefl 0) }

/-- A poll that finds a new mode is about to send it, and only such a poll. -/
theorem MirrorInv.poll {m : Link} (hserver : ServerInv m) (h : MirrorInv m)
    (now : UInt32) {tmp : DriveMode} (hpc : m.server.pc = .pollMode tmp) :
    MirrorInv
      { m with
        server := m.server.control now
        lastPoll := some m.server.world.currentDriveMode
        polledSince := true
        news := m.news ||
          decide (m.lastPoll ≠ some m.server.world.currentDriveMode) } := by
  have hlisten : 0 < (m.server.control now).ble.links ∧ m.installed = true →
      m.Listening := by
    rw [State.control_links]
    exact id
  have htmp : tmpDriveMode m.server.pc = some tmp := by
    rw [hpc]
    rfl
  refine
    { pass := fun _ => pass_poll now hserver.mode hpc
      told := fun hl hnews => ?_
      stale := fun hl hnews => ?_ }
  · have hlast := (h.pass (hlisten hl).1).poll_iff htmp hserver.mode
    show (m.server.control now).pc.Polling ∧ _
    rcases pollMode_next now hpc with ⟨hsame, hnext⟩ | ⟨-, hnext⟩
    · have hbefore : m.news = true := by simpa [hlast.mpr hsame] using hnews
      rw [hnext]
      refine ⟨trivial, fun mode hm => ?_⟩
      cases hm
      exact (h.told (hlisten hl) hbefore).2 tmp htmp
    · rw [hnext]
      exact ⟨trivial, by simp [tmpDriveMode]⟩
  · have hlast := (h.pass (hlisten hl).1).poll_iff htmp hserver.mode
    obtain ⟨hbefore, hknown⟩ : m.news = false ∧
        m.lastPoll = some m.server.world.currentDriveMode := by
      simpa using hnews
    rcases pollMode_next now hpc with ⟨-, hnext⟩ | ⟨hnew, -⟩
    · refine ⟨(h.stale (hlisten hl) hbefore).1, ?_⟩
      show ¬ Notifying (m.server.control now).pc
      rw [hnext]
      exact id
    · exact absurd (hlast.mp hknown) hnew

theorem MirrorInv.step {g : Granularity} {m m' : Link} {e : Event}
    (hserver : ServerInv m) (h : MirrorInv m) (hmove : Link.Move g m e m') :
    MirrorInv m' := by
  cases hmove with
  | connect beyond s hmove =>
      refine
        { pass := fun _ => pass_none fun hpoll => ?_
          told := fun hlisten => absurd hlisten.2 (by simp)
          stale := fun hlisten => absurd hlisten.2 (by simp) }
      -- the server advertised, which it does not do while it polls
      cases hmove with
      | connect _ hacc =>
          exact absurd ((hserver.adv.polling hpoll).1.symm.trans hacc) (by simp)
      | connected _ hacc =>
          exact absurd ((hserver.adv.polling hpoll).1.symm.trans hacc) (by simp)
  | poll now beyond tmp hdone hpc => exact h.poll hserver now hpc
  | notify now beyond current hdone hpc hlisten =>
      refine
        { pass := fun _ => (h.pass hlisten.1).notify now hpc
          told := fun _ _ => ?_
          stale := fun _ hnews => ?_ }
      · show (m.server.control now).pc.Polling ∧ _
        rw [notifyMode_next now hpc]
        refine ⟨trivial, fun mode hm => ?_⟩
        cases hm
        exact m.view.settled_send Notification.decode _
      · refine absurd ?_ (h.stale hlisten hnews).2
        rw [hpc]
        trivial
  | drop now beyond current hdone hpc hlisten =>
      have hsilent : ¬ (0 < (m.server.control now).ble.links ∧
          m.installed = true) := by
        rw [State.control_links]
        exact hlisten
      refine
        { pass := fun hlink => ?_
          told := fun hl => absurd hl hsilent
          stale := fun hl => absurd hl hsilent }
      rw [State.control_links] at hlink
      exact (h.pass hlink).notify now hpc
  | quiet e beyond s hmove hconn hpoll hnotify =>
      have hquiet := quiet_of_move hserver.adv hmove hconn hpoll hnotify
      refine
        { pass := fun hlink => (h.pass (hquiet hlink).1).quiet (hquiet hlink).2
          told := fun hl hnews => ?_
          stale := fun hl hnews => ?_ }
      · obtain ⟨hlink, hpc⟩ := hquiet hl.1
        obtain ⟨hpolling, hknown⟩ := h.told ⟨hlink, hl.2⟩ hnews
        show s.pc.Polling ∧ _
        generalize m.server.pc = before at hpc hpolling hknown
        generalize s.pc = after at hpc
        cases hpc with
        | same => exact ⟨hpolling, hknown⟩
        | outside hbad => exact absurd hpolling hbad
        | enter hbad => exact absurd hpolling hbad
        | stay tmp => exact ⟨trivial, hknown⟩
      · obtain ⟨hlink, hpc⟩ := hquiet hl.1
        obtain ⟨hknown, hidle⟩ := h.stale ⟨hlink, hl.2⟩ hnews
        refine ⟨hknown, ?_⟩
        show ¬ Notifying s.pc
        generalize m.server.pc = before at hpc hidle
        generalize s.pc = after at hpc
        cases hpc with
        | same => exact hidle
        | outside _ hout => exact fun hbad => hout hbad.polling
        | enter => exact id
        | stay => exact id
  | install hlink hnew =>
      refine
        { pass := h.pass
          told := fun _ hnews => ?_
          stale := fun _ hnews => ⟨rfl, of_decide_eq_false hnews⟩ }
      have hnotify : Notifying m.server.pc := of_decide_eq_true hnews
      exact ⟨hnotify.polling, fun mode hm => absurd hm hnotify.tmp_ne⟩
  | deliver after view hview =>
      have hsame : view.settled Notification.decode = m.settled :=
        Replica.settled_deliver Notification.decode hview
      exact
        { pass := h.pass
          told := fun hl hnews => ⟨(h.told hl hnews).1, fun mode hm =>
            hsame.trans ((h.told hl hnews).2 mode hm)⟩
          stale := fun hl hnews =>
            ⟨hsame.trans (h.stale hl hnews).1, (h.stale hl hnews).2⟩ }
  | lose index hdown =>
      exact
        { pass := h.pass
          told := fun hl => absurd hl.1 (by simp [hdown])
          stale := fun hl => absurd hl.1 (by simp [hdown]) }

theorem mirrorInv_of_reach {g : Granularity} {ok : Link → Event → Prop}
    {m : Link} (h : (mirror g).Reach ok m) : MirrorInv m :=
  h.invariant_of (fun _ => serverInv_of_reach) mirrorInv_init
    fun _ _ _ hserver hinv _ hnext => hinv.step hserver (move_of_next hnext)

/-! ## A client that listens from the start -/

/-- A client is connected, its task has polled in this connection and found the
mode that the car still has, and nothing is on the way to the client. -/
structure AtRest (m : Link) : Prop where
  connected : 0 < m.server.ble.links
  delivered : m.view.queue = []
  sent : ¬ Notifying m.server.pc
  unchanged : m.lastPoll = some m.server.world.currentDriveMode

instance : DecidablePred AtRest := fun m =>
  decidable_of_iff
    (0 < m.server.ble.links ∧ m.view.queue = [] ∧ ¬ Notifying m.server.pc ∧
      m.lastPoll = some m.server.world.currentDriveMode)
    ⟨fun ⟨h1, h2, h3, h4⟩ => ⟨h1, h2, h3, h4⟩,
      fun ⟨h1, h2, h3, h4⟩ => ⟨h1, h2, h3, h4⟩⟩

/-- At rest the task knows the mode of the car. -/
theorem AtRest.tmp {m : Link} (h : AtRest m) (hinv : MirrorInv m) :
    tmpDriveMode m.server.pc = some m.server.world.currentDriveMode := by
  have hpass := hinv.pass h.connected
  have hlast := h.unchanged
  have hsent := h.sent
  cases hpc : m.server.pc with
  | innerTest tmp | pollMode tmp =>
      have htmp := hpass.tmp tmp (by rw [hpc]; rfl)
      rw [hlast] at htmp
      split at htmp
      · cases htmp
      · exact htmp.symm
  | notifyMode current => exact absurd (by simp [hpc, Notifying]) hsent
  | _ =>
      have hnone := hpass.outside (by simp [hpc, Pc.Polling])
      exact absurd (hnone.symm.trans hlast) (by simp)

/-- At rest the client shows all it has been sent. -/
theorem AtRest.settled {m : Link} (h : AtRest m) : m.settled = m.view.shown :=
  Replica.settled_of_empty Notification.decode h.delivered

/-- The task polls a connection only once the handler is installed. -/
def InstalledFirst (m : Link) : Event → Prop
  | .server e _ => (m.server.polled e).isSome = true →
      0 < m.server.ble.links → m.installed = true
  | _ => True

instance (m : Link) : DecidablePred (InstalledFirst m)
  | .server _ _ => inferInstanceAs (Decidable (_ → _))
  | .install | .deliver _ | .lose _ => .isTrue trivial

/-- In such runs the client is going to show whatever the task has sent last. -/
def Informed (m : Link) : Prop :=
  0 < m.server.ble.links → ∀ mode, m.lastPoll = some mode →
    m.installed = true ∧
      ∀ tmp, tmpDriveMode m.server.pc = some tmp → m.settled = decodeMode tmp

theorem Informed.step {g : Granularity} {m m' : Link} {e : Event}
    (hserver : ServerInv m) (hinv : MirrorInv m) (h : Informed m)
    (hfirst : InstalledFirst m e) (hmove : Link.Move g m e m') :
    Informed m' := by
  cases hmove with
  | connect => exact fun _ _ => by simp
  | poll now beyond tmp hdone hpc =>
      intro hlink mode hmode
      rw [State.control_links] at hlink
      have hinstalled : m.installed = true :=
        hfirst (by rw [State.polled_of_done now hdone hpc]; rfl) hlink
      refine ⟨hinstalled, fun t ht => ?_⟩
      rcases pollMode_next now hpc with ⟨hsame, hnext⟩ | ⟨-, hnext⟩
      · -- a mode that is known has been polled and sent before
        rw [hnext] at ht
        cases ht
        have htmp : tmpDriveMode m.server.pc = some tmp := by
          rw [hpc]
          rfl
        have hlast := ((hinv.pass hlink).poll_iff htmp hserver.mode).mpr hsame
        exact (h hlink _ hlast).2 tmp htmp
      · rw [hnext] at ht
        cases ht
  | notify now beyond current hdone hpc hlisten =>
      refine fun _ _ _ => ⟨hlisten.2, fun tmp htmp => ?_⟩
      rw [notifyMode_next now hpc] at htmp
      cases htmp
      exact m.view.settled_send Notification.decode _
  | drop now beyond current hdone hpc hlisten =>
      intro hlink
      rw [State.control_links] at hlink
      have hlast := ((hinv.pass hlink).notifying current hpc).1
      exact absurd ⟨hlink, (h hlink current hlast).1⟩ hlisten
  | quiet e beyond s hmove hconn hpoll hnotify =>
      intro hlink mode hmode
      obtain ⟨hbefore, hquiet⟩ :=
        quiet_of_move hserver.adv hmove hconn hpoll hnotify hlink
      have hpass := hinv.pass hbefore
      obtain ⟨hinstalled, hknown⟩ := h hbefore mode hmode
      refine ⟨hinstalled, ?_⟩
      show ∀ tmp, tmpDriveMode s.pc = some tmp → _
      generalize m.server.pc = before at hquiet hpass hknown
      generalize s.pc = after at hquiet
      cases hquiet with
      | same => exact hknown
      | outside hout =>
          exact absurd ((hpass.outside hout).symm.trans hmode) (by simp)
      | enter hout =>
          exact absurd ((hpass.outside hout).symm.trans hmode) (by simp)
      | stay => exact hknown
  | install hlink hnew =>
      intro _ mode hmode
      exact absurd (hnew.symm.trans (h hlink mode hmode).1) (by simp)
  | deliver after view hview =>
      have hsame : view.settled Notification.decode = m.settled :=
        Replica.settled_deliver Notification.decode hview
      intro hlink mode hmode
      obtain ⟨hinstalled, hknown⟩ := h hlink mode hmode
      exact ⟨hinstalled, fun tmp htmp => hsame.trans (hknown tmp htmp)⟩
  | lose index hdown =>
      intro hlink
      exact absurd hlink (by simp [hdown])

/--
If the handler is always installed before the task's first poll, a client at
rest shows the mode of the car exactly if that is not `DisconnectionStop`.
-/
theorem mirror_iff {g : Granularity} {m : Link}
    (hreach : (mirror g).Reach InstalledFirst m) (hrest : AtRest m) :
    m.view.shown = m.server.world.currentDriveMode ↔
      m.server.world.currentDriveMode ≠ .disconnectionStop := by
  have hserver := serverInv_of_reach hreach
  have hinv := mirrorInv_of_reach hreach
  have hinformed : Informed m := by
    refine hreach.invariant_of (J := fun u => ServerInv u ∧ MirrorInv u) ?_ ?_ ?_
    · exact fun u hu => ⟨serverInv_of_reach hu, mirrorInv_of_reach hu⟩
    · exact fun h => absurd h (Nat.lt_irrefl 0)
    · rintro u e u' ⟨hs, hm⟩ hu hfirst hnext
      exact hu.step hs hm hfirst (move_of_next hnext)
  have hshown : m.view.shown = decodeMode m.server.world.currentDriveMode := by
    rw [← hrest.settled]
    exact (hinformed hrest.connected _ hrest.unchanged).2 _ (hrest.tmp hinv)
  rw [hshown]
  exact decodeMode_eq_iff hserver.mode

/-- The client connects, listens at once, and receives the first notification. -/
def firstNotification : List Event :=
  [Event.server .constructorReturns [], Event.server .connect [],
    Event.install] ++
    List.replicate 5 (Event.server (.task 0) []) ++ [Event.deliver []]

theorem mirror_iff_firstNotification : ∃ m,
    (mirror .call).run Link.init firstNotification = some m ∧
      (m.view.shown = m.server.world.currentDriveMode ↔
        m.server.world.currentDriveMode ≠ .disconnectionStop) := by
  obtain ⟨m, hrun, htest⟩ := Machine.exists_run_of_any (M := mirror .call)
    (fun m => decide (AtRest m))
    (show ((mirror .call).run Link.init firstNotification).any _ = true
      by decide +kernel)
  have hfirst : (mirror .call).EveryStep InstalledFirst Link.init
      firstNotification := by
    decide +kernel
  have hreach : (mirror .call).Reach InstalledFirst m :=
    Machine.Reach.run .init hfirst hrun
  exact ⟨m, hrun, mirror_iff hreach (of_decide_eq_true htest)⟩

/-- A client that connects to a car stopped by the watchdog is told of a mode
that its decoder does not know. -/
theorem not_forall_reach_shown :
    ¬ ∀ m, (mirror .call).Reach InstalledFirst m → AtRest m →
      m.view.shown = m.server.world.currentDriveMode := by
  intro h
  obtain ⟨m, hm, htest⟩ := Machine.exists_reach_of_any
    (M := mirror .call) InstalledFirst
    (fun m => decide (AtRest m ∧
      m.view.shown ≠ m.server.world.currentDriveMode))
    ([Event.server .constructorReturns []] ++
      List.replicate 15 (Event.server (.task 11000) []) ++
      [Event.server .connect [], Event.install] ++
      List.replicate 7 (Event.server (.task 11000) []) ++ [Event.deliver []])
    (by decide +kernel) (by decide +kernel)
  obtain ⟨hrest, hshown⟩ := of_decide_eq_true htest
  exact hshown (h m hm hrest)

/-! ## A client that listens later -/

/-- At rest, with the handler installed and a poll since. -/
structure CaughtUp (m : Link) : Prop extends AtRest m where
  installed : m.installed = true
  polled : m.polledSince = true

instance : DecidablePred CaughtUp := fun m =>
  decidable_of_iff (AtRest m ∧ m.installed = true ∧ m.polledSince = true)
    ⟨fun ⟨hrest, h1, h2⟩ => { hrest with installed := h1, polled := h2 },
      fun h => ⟨h.toAtRest, h.installed, h.polled⟩⟩

/--
A client that has caught up shows what the car's mode decodes to exactly if the
task has polled something new to it around or since the installation of the
handler, or if the client knew that mode already.
-/
theorem learns_iff {g : Granularity} {m : Link}
    (hreach : (mirror g).Reachable m) (hcaught : CaughtUp m) :
    m.view.shown = decodeMode m.server.world.currentDriveMode ↔
      m.news = true ∨
        m.known = decodeMode m.server.world.currentDriveMode := by
  have hinv := mirrorInv_of_reach hreach
  have hlisten : m.Listening := ⟨hcaught.connected, hcaught.installed⟩
  rw [← hcaught.toAtRest.settled]
  cases hnews : m.news with
  | true =>
      have hknown := (hinv.told hlisten hnews).2 _ (hcaught.toAtRest.tmp hinv)
      exact iff_of_true hknown (.inl rfl)
  | false => simp [(hinv.stale hlisten hnews).1]

theorem learns_iff_firstNotification : ∃ m,
    (mirror .call).run Link.init
        (firstNotification ++
          List.replicate 8 (Event.server (.task 0) [])) = some m ∧
      (m.view.shown = decodeMode m.server.world.currentDriveMode ↔
        m.news = true ∨
          m.known = decodeMode m.server.world.currentDriveMode) := by
  obtain ⟨m, hrun, htest⟩ := Machine.exists_run_of_any (M := mirror .call)
    (fun m => decide (CaughtUp m))
    (show ((mirror .call).run Link.init (firstNotification ++
      List.replicate 8 (Event.server (.task 0) []))).any _ = true by decide +kernel)
  have hreach : (mirror .call).Reachable m := Machine.Reachable.of_run .init hrun
  exact ⟨m, hrun, learns_iff hreach (of_decide_eq_true htest)⟩

/-- A client that installs its handler after the first poll is not told of the
mode it missed. -/
theorem not_forall_reachable_learns :
    ¬ ∀ m, (mirror .call).Reachable m → CaughtUp m →
      m.view.shown = decodeMode m.server.world.currentDriveMode := by
  intro h
  obtain ⟨m, hm, htest⟩ := Machine.exists_reachable_of_any
    (M := mirror .call)
    (fun m => decide (CaughtUp m ∧
      m.view.shown ≠ decodeMode m.server.world.currentDriveMode))
    ([Event.server .constructorReturns [], Event.server .connect []] ++
      List.replicate 5 (Event.server (.task 0) []) ++ [Event.install] ++
      List.replicate 15 (Event.server (.task 0) []))
    (by decide +kernel)
  obtain ⟨hcaught, hshown⟩ := of_decide_eq_true htest
  exact hshown (h m hm hcaught)

end BLERCCar.Remote
