import BLERCCar.Remote.Control
import BLERCCar.Server.Journal

/-!
# Driving over the air

A client drives the car of a running server.  Its calls become writes that are
in flight for a while; the link keeps them in order and loses what is in flight
when it breaks.  The server's two tasks go on in between.

A `Trip` records what was sent in one connection and what of it reached the
server, for the statements to refer to.  The driver names only the modes that
`GetDriveMode` lists.  The setting of the server is left open; a trip means what
it says where clients come one at a time.

## Main results

* `driven_of_run`: after any interleaving, the journal of the server has the
  calls of the callbacks, which with those still owed are the local equivalents
  of what has arrived, trip after trip, each trip ending with a stop; and where
  calls are atomic, the car is what the journal makes of it locally.
-/

namespace BLERCCar.Remote

open BLERCCar.Lib BLERCCar.Lib.CString BLERCCar.Server

/-- What was sent in one connection, and what of it has arrived. -/
structure Trip where
  sent : List Sent
  arrived : List Sent

/-- A call becomes a write to the server. -/
def Sent.written (x : Sent) : Server.Event :=
  .write (x.call.write x.beyond).uuid
    (some (stored (x.call.write x.beyond).value x.after))

/-- A server, the writes in flight to it, the current connection and those
before it. -/
structure Drive where
  server : State
  inFlight : List Sent
  trip : Trip
  past : List Trip

/-- Steps of the driver, of the link and of the server. -/
inductive DriveEvent where
  | send (x : Sent)
  | arrive
  | server (e : Server.Event)

namespace Drive

def init : Drive where
  server := State.powerUp
  inFlight := []
  trip := ⟨[], []⟩
  past := []

/-- One step.  All writes come from the driver. -/
def step (cfg : Setting) (d : Drive) : DriveEvent → Option Drive
  | .send x =>
      if 0 < d.server.ble.links then some
        { d with
          inFlight := d.inFlight ++ [x]
          trip := { d.trip with sent := d.trip.sent ++ [x] } }
      else none
  | .arrive =>
      match d.inFlight with
      | [] => none
      | x :: rest =>
          (d.server.step cfg x.written).map fun s =>
            { d with
              server := s
              inFlight := rest
              trip := { d.trip with arrived := d.trip.arrived ++ [x] } }
  | .server .disconnect =>
      (d.server.step cfg .disconnect).map fun s =>
        { server := s
          inFlight := []
          trip := ⟨[], []⟩
          past := d.past ++ [d.trip] }
  | .server (.write _ _) => none
  | .server e => (d.server.step cfg e).map fun s => { d with server := s }

/-- Everything a step can do. -/
inductive Move (cfg : Setting) (d : Drive) : DriveEvent → Drive → Prop
  | send (x : Sent) (hlink : 0 < d.server.ble.links) :
      Move cfg d (.send x)
        { d with
          inFlight := d.inFlight ++ [x]
          trip := { d.trip with sent := d.trip.sent ++ [x] } }
  | arrive (x : Sent) (rest : List Sent) (s : State)
      (hqueue : d.inFlight = x :: rest)
      (hnext : (machine cfg).next d.server x.written = some s) :
      Move cfg d .arrive
        { d with
          server := s
          inFlight := rest
          trip := { d.trip with arrived := d.trip.arrived ++ [x] } }
  | disconnect (s : State)
      (hnext : (machine cfg).next d.server .disconnect = some s) :
      Move cfg d (.server .disconnect)
        { server := s
          inFlight := []
          trip := ⟨[], []⟩
          past := d.past ++ [d.trip] }
  | server (e : Server.Event) (s : State) (hasks : e.asks = [])
      (hnext : (machine cfg).next d.server e = some s) :
      Move cfg d (.server e) { d with server := s }

theorem move_of_step {cfg : Setting} {d d' : Drive} {e : DriveEvent}
    (h : d.step cfg e = some d') : Move cfg d e d' := by
  cases e with
  | send x =>
      simp only [step] at h
      split at h
      · next hlink =>
          cases h
          exact .send x hlink
      · cases h
  | arrive =>
      simp only [step] at h
      split at h
      · cases h
      · next x rest hqueue =>
          obtain ⟨s, hnext, rfl⟩ := Option.map_eq_some_iff.mp h
          exact .arrive x rest s hqueue hnext
  | server e =>
      cases e with
      | disconnect =>
          obtain ⟨s, hnext, rfl⟩ := Option.map_eq_some_iff.mp h
          exact .disconnect s hnext
      | write => cases h
      | _ =>
          obtain ⟨s, hnext, rfl⟩ := Option.map_eq_some_iff.mp h
          exact .server _ s rfl hnext

end Drive

/-- The interleavings of driver, link and server. -/
def driving (cfg : Setting) : Machine Drive DriveEvent where
  init := Drive.init
  next := Drive.step cfg

/-- The driver names only modes that `GetDriveMode` lists. -/
def DriveEvent.Allowed : DriveEvent → Prop
  | .send x => x.call.Allowed
  | _ => True

/-- What the calls of a trip stand for on the car itself. -/
def locally (calls : List Sent) : List Op :=
  calls.flatMap fun x => x.call.locally

/-- What a connection that has ended asked for in the end. -/
def Trip.asked (trip : Trip) : List Op :=
  locally trip.arrived ++ [.setDriveMode .disconnectionStop]

/-- What has been asked of the server so far. -/
def Drive.asked (d : Drive) : List Op :=
  d.past.flatMap Trip.asked ++ locally d.trip.arrived

/-! ## The server's part -/

/-- What a step is for the server. -/
def Drive.serverEvents (d : Drive) : DriveEvent → List Server.Event
  | .send _ => []
  | .arrive => d.inFlight.head?.toList.map Sent.written
  | .server e => [e]

/-- What a drive is for the server. -/
def serverEvents (cfg : Setting) (es : List DriveEvent) : List Server.Event :=
  (driving cfg).outputs Drive.serverEvents Drive.init es

/-- The journal of the server in a drive. -/
def driveJournal (cfg : Setting) (es : List DriveEvent) : List Called :=
  journal cfg State.powerUp (serverEvents cfg es)

/-! ## Invariant -/

/-- How the records relate to the server, which has been through `past`. -/
structure DriveInv (cfg : Setting) (past : List Server.Event) (d : Drive) :
    Prop where
  run : (machine cfg).run State.powerUp past = some d.server
  asks : past.flatMap Server.Event.asks = d.asked
  /-- what was sent has arrived or is in flight -/
  trip : d.trip.arrived ++ d.inFlight = d.trip.sent
  /-- of an earlier trip the last calls may have been lost -/
  past : ∀ trip ∈ d.past, trip.arrived <+: trip.sent
  allowed : ∀ x ∈ d.trip.sent, x.call.Allowed

theorem driveInv_init (cfg : Setting) : DriveInv cfg [] Drive.init where
  run := rfl
  asks := rfl
  trip := rfl
  past := by simp [Drive.init]
  allowed := by simp [Drive.init]

theorem DriveInv.step {cfg : Setting} {past : List Server.Event} {d d' : Drive}
    {e : DriveEvent} (h : DriveInv cfg past d) (hallowed : e.Allowed)
    (hmove : Drive.Move cfg d e d') : DriveInv cfg (past ++ d.serverEvents e) d' := by
  cases hmove with
  | send x hlink =>
      rw [Drive.serverEvents, List.append_nil]
      refine { h with trip := ?_, allowed := ?_ }
      · simp [← h.trip]
      · intro y hy
        rcases List.mem_append.mp hy with hbefore | hnow
        · exact h.allowed y hbefore
        · rw [List.mem_singleton.mp hnow]
          exact hallowed
  | arrive x rest s hqueue hnext =>
      have hsent := h.trip
      rw [hqueue] at hsent
      have hx : x.call.Allowed := h.allowed x (by simp [← hsent])
      -- whatever memory it is read out of, the write asks for what was meant
      have hasks : x.written.asks = x.call.locally :=
        handle_write hx x.beyond x.after
      have hevents : d.serverEvents .arrive = [x.written] := by
        simp [Drive.serverEvents, hqueue]
      rw [hevents]
      refine { h with run := Machine.run_concat _ h.run hnext, asks := ?_, trip := ?_ }
      · rw [List.flatMap_append, h.asks, List.flatMap_singleton, hasks]
        simp [Drive.asked, locally]
      · simp [← hsent]
  | disconnect s hnext =>
      refine
        { run := Machine.run_concat _ h.run hnext
          asks := ?_
          trip := rfl
          past := ?_
          allowed := by simp }
      · rw [List.flatMap_append, h.asks]
        simp [Drive.serverEvents, Drive.asked, Trip.asked, locally, Server.Event.asks]
      · intro trip htrip
        rcases List.mem_append.mp htrip with hbefore | hnow
        · exact h.past trip hbefore
        · rw [List.mem_singleton.mp hnow]
          exact ⟨d.inFlight, h.trip⟩
  | server e s hasks hnext =>
      refine { h with run := Machine.run_concat _ h.run hnext, asks := ?_ }
      rw [List.flatMap_append, h.asks, Drive.serverEvents, List.flatMap_singleton, hasks,
        List.append_nil]
      rfl

theorem driveInv_of_run {cfg : Setting} {es : List DriveEvent} {d : Drive}
    (hes : ∀ e ∈ es, e.Allowed) (hrun : (driving cfg).run Drive.init es = some d) :
    DriveInv cfg (serverEvents cfg es) d := by
  have hinv : DriveInv cfg ([] ++ serverEvents cfg es) d :=
    Machine.EveryStep.history
      (fun _ _ _ _ h hok hnext => h.step hok (Drive.move_of_step hnext))
      (Machine.everyStep_of_forall _ hes Drive.init) (driveInv_init cfg) hrun
  rwa [List.nil_append] at hinv

/-! ## Remote control of a running server -/

/-- What the journal of the server has to do with the drive `es`, which has come
to `d`. -/
structure Driven (cfg : Setting) (es : List DriveEvent) (d : Drive) : Prop where
  run : (machine cfg).run State.powerUp (serverEvents cfg es) = some d.server
  /-- the calls are those of the two tasks, in some order -/
  order : Interleaved (callsBy .callbacks (driveJournal cfg es))
    (callsBy .connectivity (driveJournal cfg es)) (callsIn (driveJournal cfg es))
  onlyStops : ∀ op ∈ callsBy .connectivity (driveJournal cfg es),
    op = .setDriveMode .disconnectionStop
  /-- what has arrived is done as the local equivalent would be, or owed -/
  arrived : callsBy .callbacks (driveJournal cfg es) ++ d.server.owed = d.asked
  /-- all of the trip, once the link and the callbacks have come to rest -/
  rested : d.inFlight = [] → d.server.handler = none →
    callsBy .callbacks (driveJournal cfg es) =
      d.past.flatMap Trip.asked ++ locally d.trip.sent
  /-- of the present trip, what was sent has arrived or is in flight -/
  present : d.trip.arrived ++ d.inFlight = d.trip.sent
  /-- earlier trips lost at most the end of what was sent -/
  past : ∀ trip ∈ d.past, trip.arrived <+: trip.sent
  /-- the car is what the calls make of it locally -/
  car : cfg.granularity = .call →
    d.server.car = execAll (callsIn (driveJournal cfg es)) World.powerUp

/-- After any interleaving of driver, link and server the car is driven as if the
driver had called it locally. -/
theorem driven_of_run {cfg : Setting} {es : List DriveEvent} {d : Drive}
    (hes : ∀ e ∈ es, e.Allowed) (hrun : (driving cfg).run Drive.init es = some d) :
    Driven cfg es d := by
  have hinv := driveInv_of_run hes hrun
  have hasked := asked_eq (fun _ => rfl) hinv.run
  rw [hinv.asks] at hasked
  refine
    { run := hinv.run
      order := interleaved_callsBy _
      onlyStops := fun _ hop => eq_stop_of_mem_journal hop
      arrived := hasked
      rested := fun hflight hidle => ?_
      present := hinv.trip
      past := hinv.past
      car := fun hg => ?_ }
  · have howed : d.server.owed = [] := by
      have hdone := idleBetween_of_reach (Machine.Reachable.of_run .init hinv.run) hidle
      rw [State.owed, hdone]
      rfl
    have hsent := hinv.trip
    rw [hflight, List.append_nil] at hsent
    rw [howed, List.append_nil] at hasked
    rw [driveJournal, ← hsent]
    exact hasked
  · obtain ⟨g, accepts⟩ := cfg
    obtain rfl : g = .call := hg
    exact car_of_run hinv.run

/-- A driver who sets off, and is gone before the last call has arrived. -/
def hitAndRun : List DriveEvent :=
  [DriveEvent.server .constructorReturns, DriveEvent.server .connect,
    DriveEvent.send ⟨.turnLeft 0, [7], []⟩,
    DriveEvent.send ⟨.setSpeed .forward 80, [3], [1, 2]⟩, DriveEvent.arrive,
    DriveEvent.server (.callback 0), DriveEvent.server (.callback 0),
    DriveEvent.arrive, DriveEvent.send ⟨.setDriveMode .stop, [], [5]⟩] ++
    List.replicate 3 (DriveEvent.server (.callback 0)) ++
    [DriveEvent.server .disconnect] ++
    List.replicate 4 (DriveEvent.server (.callback 9))

theorem driven_of_run_hitAndRun : ∃ d,
    d.past.map (fun trip => (trip.sent.length, trip.arrived.length)) = [(3, 2)] ∧
      Driven atomicCalls hitAndRun d := by
  obtain ⟨d, hrun, htest⟩ := Machine.exists_run_of_any (M := driving atomicCalls)
    (fun d => decide (d.past.map
      (fun trip => (trip.sent.length, trip.arrived.length)) = [(3, 2)]))
    (show ((driving atomicCalls).run Drive.init hitAndRun).any _ = true
      by decide +kernel)
  have hallowed : ∀ e ∈ hitAndRun, e.Allowed := by
    simp [hitAndRun, DriveEvent.Allowed, Client.Call.Allowed,
      BLERCCarPacket.Commandable]
  exact ⟨d, of_decide_eq_true htest, driven_of_run hallowed hrun⟩

end BLERCCar.Remote
