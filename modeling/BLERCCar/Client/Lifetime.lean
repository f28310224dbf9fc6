import BLERCCar.Client.Threads
import BLERCCar.Lib.Machine
import Mathlib.Data.List.Induction

/-!
# How long the worker threads of a client live

`Threads` is about the objects behind the threads, this module about the
threads themselves: whether the destructor waits for all of them, and whether
they are still in their loops while a client is connected.

The threads take turns with the calls.  A turn of a thread (`Event.test`) is one
evaluation of `while (m_AsyncThreadActive)`, after which it has left its loop if
the flag was cleared.

## Main results

* `allJoined_whole_iff`: without a `Disconnect`, the destructor joins every
  thread exactly if some `Connect` chose a device and at most one succeeded.
* `live_iff_leftToDestructor`: a client that has just connected is live exactly
  if no `Disconnect` was called once a device had been chosen.
-/

namespace BLERCCar.Client.Session

open BLERCCar.Lib BLERCCar.Lib.ThreadHandle

/-! ## Threads that outlive the client -/

/-- A client after the given outcomes of `Connect`: thread `0` keeps the bus
alive, each success has started one more thread, and the map holds the last. -/
structure Grown (c : Session) (outcomes : List Outcome) : Prop where
  trace : ∀ a, a ∈ c.trace ↔ ∃ i < c.created, a = .create i
  created : c.created = outcomes.count .connected + 1
  peripheral : c.peripheral = true ↔ ∃ outcome ∈ outcomes, outcome ≠ .noDevice
  keepAlive : c.asyncThreadMap .bluezKeepAlive = some 0
  rssi : c.asyncThreadMap .connectionRssi =
    if outcomes.count .connected = 0 then none
    else some (outcomes.count .connected)

theorem grown_construct : Grown construct [] :=
  { trace := by simp [construct, spawn]
    created := rfl
    peripheral := by simp [construct, spawn]
    keepAlive := rfl
    rssi := rfl }

theorem Grown.connect {c : Session} {outcomes : List Outcome}
    (h : Grown c outcomes) (outcome : Outcome) :
    Grown (c.connect outcome) (outcomes ++ [outcome]) := by
  have hcreated := h.created
  cases outcome with
  | noDevice =>
      have hcount : (outcomes ++ [Outcome.noDevice]).count .connected =
          outcomes.count .connected := by simp
      exact
        { trace := h.trace
          created := by rw [hcount, ← hcreated]; rfl
          peripheral := by simpa [Session.connect] using h.peripheral
          keepAlive := h.keepAlive
          rssi := by rw [hcount, ← h.rssi]; rfl }
  | notConnected =>
      have hcount : (outcomes ++ [Outcome.notConnected]).count .connected =
          outcomes.count .connected := by simp
      exact
        { trace := h.trace
          created := by rw [hcount, ← hcreated]; rfl
          peripheral := by simp [Session.connect]
          keepAlive := h.keepAlive
          rssi := by rw [hcount, ← h.rssi]; rfl }
  | connected =>
      refine
        { trace := ?_
          created := by simp [Session.connect, spawn, hcreated]
          peripheral := by simp [Session.connect, spawn]
          keepAlive := h.keepAlive
          rssi := by simp [Session.connect, spawn, hcreated] }
      intro a
      simp only [Session.connect, spawn, List.mem_append, List.mem_singleton,
        h.trace]
      constructor
      · intro ha
        rcases ha with ⟨i, hi, rfl⟩ | rfl
        · exact ⟨i, by omega, rfl⟩
        · exact ⟨c.created, by omega, rfl⟩
      · intro ha
        obtain ⟨i, hi, rfl⟩ := ha
        by_cases hnew : i = c.created
        · exact .inr (by rw [hnew])
        · exact .inl ⟨i, by omega, rfl⟩

theorem grown_execAll (outcomes : List Outcome) :
    Grown (execAll (outcomes.map .connect) construct) outcomes := by
  induction outcomes using List.reverseRecOn with
  | nil => exact grown_construct
  | append_singleton outcomes outcome ih =>
      rw [List.map_append, execAll, List.foldl_append]
      exact ih.connect outcome

/-- The destructor joins the threads that are in the map. -/
theorem mem_visits_join_iff (c : Session) (rssiFirst : Bool) (i : Nat) :
    .join i ∈ (visits rssiFirst).flatMap c.releaseNamed ↔
      c.asyncThreadMap .bluezKeepAlive = some i ∨
        c.asyncThreadMap .connectionRssi = some i := by
  have hrelease : ∀ name, .join i ∈ c.releaseNamed name ↔
      c.asyncThreadMap name = some i := by
    intro name
    unfold releaseNamed
    cases c.asyncThreadMap name with
    | none => simp
    | some object => simp [release, eq_comm]
  cases rssiFirst <;> simp [visits, hrelease, or_comm]

theorem create_not_mem_visits (c : Session) (rssiFirst : Bool) (i : Nat) :
    .create i ∉ (visits rssiFirst).flatMap c.releaseNamed := by
  intro hmem
  obtain ⟨name, _, hname⟩ := List.mem_flatMap.mp hmem
  unfold releaseNamed at hname
  cases hmap : c.asyncThreadMap name with
  | none => simp [hmap] at hname
  | some object => simp [hmap, release] at hname

theorem Grown.join_not_mem {c : Session} {outcomes : List Outcome}
    (h : Grown c outcomes) (i : Nat) : .join i ∉ c.trace := by
  intro hi
  obtain ⟨j, _, hj⟩ := (h.trace _).mp hi
  cases hj

/-- Without a device the destructor does not join the keep-alive thread. -/
theorem Grown.not_allJoined {c : Session} {outcomes : List Outcome}
    (h : Grown c outcomes) (hperipheral : ¬ c.peripheral = true)
    (rssiFirst : Bool) : ¬ AllJoined (c.disconnect rssiFirst).trace := by
  intro hall
  have hcreated := h.created
  have hkeepAlive : Op.create 0 ∈ c.trace := (h.trace _).mpr ⟨0, by omega, rfl⟩
  rw [Session.disconnect, if_neg hperipheral] at hall
  exact h.join_not_mem 0 (hall 0 hkeepAlive)

/-- With one, it joins the keep-alive thread and the last RSSI thread. -/
theorem Grown.allJoined_iff {c : Session} {outcomes : List Outcome}
    (h : Grown c outcomes) (hperipheral : c.peripheral = true)
    (rssiFirst : Bool) :
    AllJoined (c.disconnect rssiFirst).trace ↔ outcomes.count .connected ≤ 1 := by
  have hcreated := h.created
  simp only [Session.disconnect, hperipheral, if_true]
  constructor
  · intro hall
    -- the thread of the first success is only in the map if it is the last
    by_contra hmany
    have hfirst : Op.create 1 ∈ c.trace := (h.trace _).mpr ⟨1, by omega, rfl⟩
    rcases List.mem_append.mp (hall 1 (List.mem_append_left _ hfirst))
      with hbefore | hnow
    · exact h.join_not_mem 1 hbefore
    · rw [mem_visits_join_iff, h.keepAlive, h.rssi, if_neg (by omega)] at hnow
      simp only [Option.some.injEq] at hnow
      omega
  · intro hone i hi
    have hi' : i < c.created := by
      rcases List.mem_append.mp hi with hbefore | hnow
      · obtain ⟨j, hj, hij⟩ := (h.trace _).mp hbefore
        cases hij
        exact hj
      · exact absurd hnow (create_not_mem_visits c rssiFirst i)
    apply List.mem_append_right
    rw [mem_visits_join_iff, h.keepAlive, h.rssi]
    by_cases hzero : i = 0
    · exact .inl (by rw [hzero])
    · have hcount : outcomes.count .connected = i := by omega
      exact .inr (by rw [hcount, if_neg hzero])

/--
Over a whole session without a `Disconnect`, the destructor has joined every
thread that was started exactly if some `Connect` got as far as choosing a
device and at most one returned true.
-/
theorem allJoined_whole_iff (outcomes : List Outcome) (rssiFirst : Bool) :
    AllJoined (whole (outcomes.map .connect) rssiFirst).trace ↔
      (∃ outcome ∈ outcomes, outcome ≠ .noDevice) ∧
        outcomes.count .connected ≤ 1 := by
  have hgrown := grown_execAll outcomes
  rw [whole, ← hgrown.peripheral]
  by_cases hperipheral :
      (execAll (outcomes.map .connect) construct).peripheral = true
  · rw [hgrown.allJoined_iff hperipheral]
    exact (and_iff_right hperipheral).symm
  · apply iff_of_false (hgrown.not_allJoined hperipheral rssiFirst)
    intro h
    exact hperipheral h.1

/-- Reconnecting after a lost link leaves the first RSSI thread behind. -/
theorem not_allJoined_whole_reconnect :
    ¬ AllJoined (whole ([.connected, .connected].map .connect) false).trace := by
  intro hall
  have hjoin := hall 1 (by decide)
  revert hjoin
  decide

/-! ## Threads that leave early -/

/-- A session with the threads that have left their loops. -/
structure Loops where
  session : Session
  left : List Nat

/-- Calls of the application and turns of the threads. -/
inductive Event where
  | call (call : Call)
  /-- a thread evaluates `while (m_AsyncThreadActive)` -/
  | test (thread : Nat)
  deriving DecidableEq

/-- The threads that `disconnect` finds in the map. -/
def mapped (c : Session) : List Nat :=
  [ThreadName.bluezKeepAlive, .connectionRssi].filterMap c.asyncThreadMap

/-- One step.  A `Disconnect` is over when it has joined the threads in the map,
which by then have left their loops.  One that comes back to a deleted thread
object need not be over at all; letting it be only adds runs. -/
def Loops.step (s : Loops) : Event → Option Loops
  | .call (.connect outcome) =>
      some { s with session := s.session.connect outcome }
  | .call (.disconnect rssiFirst) =>
      some
        { session := s.session.disconnect rssiFirst
          left :=
            if s.session.peripheral then s.left ++ s.session.mapped else s.left }
  | .test thread =>
      if thread < s.session.created ∧ thread ∉ s.left then
        if s.session.asyncThreadActive then some s
        else some { s with left := thread :: s.left }
      else none

/-- A client whose constructor has run. -/
def loops : Machine Loops Event where
  init := { session := construct, left := [] }
  next := Loops.step

/-- The calls of a run. -/
def callsOf (es : List Event) : List Call :=
  es.filterMap fun
    | .call call => some call
    | .test _ => none

/-- The flag is set and both worker threads in the map are in their loops. -/
structure Live (s : Loops) : Prop where
  active : s.session.asyncThreadActive = true
  looping : ∀ name, ∃ thread,
    s.session.asyncThreadMap name = some thread ∧ thread ∉ s.left

/-- The turns of the threads do not change the session. -/
theorem session_run {s t : Loops} {es : List Event}
    (hrun : loops.run s es = some t) :
    t.session = execAll (callsOf es) s.session := by
  induction es generalizing s with
  | nil =>
      cases hrun
      rfl
  | cons e es ih =>
      cases hnext : loops.next s e with
      | none => simp [Machine.run_cons, hnext] at hrun
      | some s' =>
          rw [Machine.run_cons_of_next _ hnext] at hrun
          have htail := ih hrun
          cases e with
          | call call =>
              cases call with
              | connect outcome =>
                  cases hnext
                  exact htail
              | disconnect rssiFirst =>
                  cases hnext
                  exact htail
          | test thread =>
              have hsame : s'.session = s.session := by
                simp only [loops, Loops.step] at hnext
                split at hnext
                · split at hnext <;> cases hnext <;> rfl
                · cases hnext
              rw [hsame] at htail
              exact htail

/-- While the flag is set no thread leaves. -/
theorem left_eq_nil {s : Loops} (h : loops.Reachable s)
    (hactive : s.session.asyncThreadActive = true) : s.left = [] := by
  have hinv : s.session.asyncThreadActive = true → s.left = [] := by
    apply h.invariant
      (I := fun u => u.session.asyncThreadActive = true → u.left = [])
    · intro _
      rfl
    · intro u e u' hu _ hnext hactive'
      cases e with
      | call call =>
          cases call with
          | connect outcome =>
              cases hnext
              apply hu
              cases outcome <;> exact hactive'
          | disconnect rssiFirst =>
              cases hnext
              by_cases hperipheral : u.session.peripheral = true
              · simp [Session.disconnect, hperipheral] at hactive'
              · simp only [Session.disconnect, if_neg hperipheral] at hactive' ⊢
                exact hu hactive'
      | test thread =>
          simp only [loops, Loops.step] at hnext
          split at hnext
          · split at hnext
            · cases hnext
              exact hu hactive'
            · next hcleared =>
                cases hnext
                exact absurd hactive' hcleared
          · cases hnext
  exact hinv hactive

/-- The flag survives a sequence of calls exactly if none of them is a
`Disconnect` behind the choice of a device. -/
theorem active_execAll_iff (calls : List Call) (c : Session) :
    (execAll calls c).asyncThreadActive = true ↔
      c.asyncThreadActive = true ∧ Quiet c calls := by
  induction calls generalizing c with
  | nil =>
      have hquiet : Quiet c [] :=
        ⟨fun _ _ hcall => absurd hcall List.not_mem_nil, List.Pairwise.nil⟩
      exact (and_iff_left hquiet).symm
  | cons call calls ih =>
      have hcons := ih (exec call c)
      rw [execAll, List.foldl_cons, ← execAll, hcons]
      cases call with
      | connect outcome =>
          have hactive : (c.connect outcome).asyncThreadActive =
              c.asyncThreadActive := by cases outcome <;> rfl
          rw [quiet_connect_iff, ← hactive]
          exact Iff.rfl
      | disconnect rssiFirst =>
          by_cases hperipheral : c.peripheral = true
          · have hcleared : (exec (.disconnect rssiFirst) c).asyncThreadActive =
                false := by
              simp [Session.exec, Session.disconnect, hperipheral]
            have hloud : ¬ Quiet c (.disconnect rssiFirst :: calls) := by
              intro hquiet
              exact hquiet.now hperipheral _ List.mem_cons_self trivial
            simp [hcleared, hloud]
          · have hsame : exec (.disconnect rssiFirst) c = c := if_neg hperipheral
            rw [hsame, quiet_disconnect_iff hperipheral]

/-- The keep-alive thread never leaves the map. -/
theorem keepAlive_execAll (calls : List Call) :
    (execAll calls construct).asyncThreadMap .bluezKeepAlive = some 0 := by
  rcases fresh_construct.execAll calls with ⟨_, hfresh⟩ | ⟨_, hdoomed⟩
  · exact hfresh.keepAlive
  · exact hdoomed.keepAlive

/-- A `Connect` that returns true puts its RSSI thread into the map. -/
theorem rssi_execAll {calls : List Call} (c : Session)
    (hlast : calls.getLast? = some (.connect .connected)) :
    ∃ thread, (execAll calls c).asyncThreadMap .connectionRssi = some thread := by
  obtain ⟨before, rfl⟩ := List.getLast?_eq_some_iff.mp hlast
  refine ⟨(execAll before c).created, ?_⟩
  rw [execAll, List.foldl_append]
  rfl

/--
After any calls and any turns of the threads, if the last call is a `Connect`
that returned true, the client is live exactly if no `Disconnect` was called
once `Connect` had chosen a device.
-/
theorem live_iff_leftToDestructor (es : List Event) (t : Loops)
    (hrun : loops.run loops.init es = some t)
    (hlast : (callsOf es).getLast? = some (.connect .connected)) :
    Live t ↔ LeftToDestructor (callsOf es) := by
  have hsession : t.session = execAll (callsOf es) construct := session_run hrun
  have hflag : t.session.asyncThreadActive = true ↔
      LeftToDestructor (callsOf es) := by
    rw [hsession, active_execAll_iff]
    constructor
    · intro h
      exact h.2.later
    · intro h
      exact ⟨rfl, fun hset => absurd hset Bool.false_ne_true, h⟩
  constructor
  · intro hlive
    exact hflag.mp hlive.active
  · intro hcalls
    have hactive := hflag.mpr hcalls
    have hreach : loops.Reachable t := Machine.Reachable.of_run .init hrun
    have hleft := left_eq_nil hreach hactive
    refine
      { active := hactive
        looping := ?_ }
    intro name
    rw [hleft, hsession]
    cases name with
    | bluezKeepAlive => exact ⟨0, keepAlive_execAll _, List.not_mem_nil⟩
    | connectionRssi =>
        obtain ⟨thread, hthread⟩ := rssi_execAll construct hlast
        exact ⟨thread, hthread, List.not_mem_nil⟩

/-- Failing once, connecting, and a turn of each thread. -/
theorem live_iff_leftToDestructor_secondAttempt :
    ∃ t, loops.run loops.init
        [Event.call (.connect .notConnected), Event.call (.connect .connected),
          Event.test 0, Event.test 1] = some t ∧
      (Live t ↔ LeftToDestructor (callsOf
        [Event.call (.connect .notConnected), Event.call (.connect .connected),
          Event.test 0, Event.test 1])) :=
  ⟨_, rfl, live_iff_leftToDestructor _ _ rfl rfl⟩

/-- A client that reconnects after a `Disconnect` is not live. -/
theorem not_forall_live :
    ¬ ∀ es t, loops.run loops.init es = some t →
      (callsOf es).getLast? = some (.connect .connected) → Live t := by
  intro h
  have hlive := h [Event.call (.connect .connected),
    Event.call (.disconnect false), Event.call (.connect .connected)] _ rfl rfl
  exact absurd hlive.active Bool.false_ne_true

end BLERCCar.Client.Session
