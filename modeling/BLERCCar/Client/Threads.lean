import BLERCCar.Lib.ThreadHandle

/-!
# The worker threads of the client

The part of `BLERCCar_client.cpp` that owns threads: the constructor, `Connect`,
`disconnect` behind `Disconnect`, and the destructor.  Thread objects live
behind raw pointers in `m_Async_thread_map`, which `Connect` overwrites and
`disconnect` walks without clearing it.  `m_Peripheral->disconnect()` is taken
not to throw.

## Main results

* `wellUsed_whole_iff`: the thread objects are well used in exactly those
  sessions in which no `Disconnect` is called once `Connect` has chosen a
  device.
-/

namespace BLERCCar.Client

open BLERCCar.Lib.ThreadHandle

/-! ## State -/

/-- The keys of `m_Async_thread_map`. -/
inductive ThreadName where
  | bluezKeepAlive
  | connectionRssi
  deriving DecidableEq

/-- The members of a client that thread ownership depends on, and what has
been done to thread objects so far.  They are numbered as they are created. -/
structure Session where
  asyncThreadMap : ThreadName → Option Nat
  asyncThreadActive : Bool
  /-- `m_Peripheral` is set -/
  peripheral : Bool
  created : Nat
  trace : List (Op Nat)

namespace Session

/-- `m_Async_thread_map[name] = new std::thread(..)`. -/
def spawn (name : ThreadName) (c : Session) : Session :=
  { c with
    asyncThreadMap := fun other =>
      if other = name then some c.created else c.asyncThreadMap other
    created := c.created + 1
    trace := c.trace ++ [.create c.created] }

/-- The constructor. -/
def construct : Session :=
  spawn .bluezKeepAlive
    { asyncThreadMap := fun _ => none
      asyncThreadActive := true
      peripheral := false
      created := 0
      trace := [] }

/-- How far a call of `Connect` gets.  Leaving it by an exception is leaving it
at the same point as the error returns there. -/
inductive Outcome where
  /-- no adapter, or no device with the address of the server -/
  | noDevice
  /-- the device was chosen but could not be connected -/
  | notConnected
  /-- `initRssiReadThread` was called -/
  | connected
  deriving DecidableEq

/-- `Connect`. -/
def connect (outcome : Outcome) (c : Session) : Session :=
  match outcome with
  | .noDevice => c
  | .notConnected => { c with peripheral := true }
  | .connected => spawn .connectionRssi { c with peripheral := true }

/-- The order in which the loop of `disconnect` visits the map.  An unordered
map leaves it open. -/
def visits (rssiFirst : Bool) : List ThreadName :=
  if rssiFirst then [.connectionRssi, .bluezKeepAlive]
  else [.bluezKeepAlive, .connectionRssi]

/-- One turn of that loop.  A thread that has not been joined is joinable, so
waiting for it tests it once. -/
def releaseNamed (c : Session) (name : ThreadName) : List (Op Nat) :=
  match c.asyncThreadMap name with
  | none => []
  | some object => release object

/-- `disconnect`. -/
def disconnect (rssiFirst : Bool) (c : Session) : Session :=
  if c.peripheral then
    { c with
      asyncThreadActive := false
      trace := c.trace ++ (visits rssiFirst).flatMap c.releaseNamed }
  else c

/-- The public calls between constructor and destructor. -/
inductive Call where
  | connect (outcome : Outcome)
  | disconnect (rssiFirst : Bool)
  deriving DecidableEq

def exec : Call → Session → Session
  | .connect outcome, c => c.connect outcome
  | .disconnect rssiFirst, c => c.disconnect rssiFirst

/-- Calls one after the other. -/
def execAll (calls : List Call) (c : Session) : Session :=
  calls.foldl (fun c call => exec call c) c

/-- A whole session; the destructor is another `disconnect`. -/
def whole (calls : List Call) (rssiFirst : Bool) : Session :=
  (execAll calls construct).disconnect rssiFirst

/-! ## Sessions without a loose `Disconnect` -/

/-- `Connect` got as far as choosing a device. -/
def Call.ChoosesDevice : Call → Prop
  | .connect .noDevice => False
  | .connect _ => True
  | .disconnect _ => False

def Call.IsDisconnect : Call → Prop
  | .connect _ => False
  | .disconnect _ => True

instance : DecidablePred Call.ChoosesDevice
  | .connect .noDevice | .disconnect _ => .isFalse id
  | .connect .notConnected | .connect .connected => .isTrue trivial

instance : DecidablePred Call.IsDisconnect
  | .connect _ => .isFalse id
  | .disconnect _ => .isTrue trivial

/-- No `Disconnect` is called once a device has been chosen. -/
def LeftToDestructor (calls : List Call) : Prop :=
  calls.Pairwise fun a b => a.ChoosesDevice → ¬ b.IsDisconnect

instance : DecidablePred LeftToDestructor := fun calls =>
  inferInstanceAs (Decidable (calls.Pairwise _))

/-- The same for a client in the middle of its session. -/
structure Quiet (c : Session) (calls : List Call) : Prop where
  now : c.peripheral = true → ∀ call ∈ calls, ¬ call.IsDisconnect
  later : LeftToDestructor calls

/-- No thread object has been released, and the map holds the two latest. -/
structure Fresh (c : Session) : Prop where
  creates : ∀ a ∈ c.trace, ∃ i, a = .create i
  keepAlive : c.asyncThreadMap .bluezKeepAlive = some 0
  rssi : c.asyncThreadMap .connectionRssi ≠ some 0
  started : 0 < c.created

/-- The keep-alive thread has been deleted and will be released again. -/
structure Doomed (c : Session) : Prop where
  deleted : .delete 0 ∈ c.trace
  keepAlive : c.asyncThreadMap .bluezKeepAlive = some 0
  peripheral : c.peripheral = true

theorem fresh_construct : Fresh construct :=
  { creates := fun _ ha => ⟨0, List.mem_singleton.mp ha⟩
    keepAlive := rfl
    rssi := by simp [construct, spawn]
    started := Nat.one_pos }

theorem Fresh.connect {c : Session} (h : Fresh c) (outcome : Outcome) :
    Fresh (c.connect outcome) := by
  cases outcome with
  | noDevice => exact h
  | notConnected => exact { h with }
  | connected =>
      refine
        { creates := fun a ha => ?_
          keepAlive := h.keepAlive
          rssi := ?_
          started := Nat.succ_pos _ }
      · rcases List.mem_append.mp ha with hbefore | hnow
        · exact h.creates a hbefore
        · exact ⟨c.created, List.mem_singleton.mp hnow⟩
      · have hpos := h.started
        simp only [Session.connect, spawn, if_true, ne_eq, Option.some.injEq]
        omega

/-- The trace that `disconnect` appends contains every operation on the
keep-alive thread. -/
theorem mem_visits_of_mem_release {c : Session}
    (h : c.asyncThreadMap .bluezKeepAlive = some 0) (rssiFirst : Bool)
    {a : Op Nat} (ha : a ∈ release 0) :
    a ∈ (visits rssiFirst).flatMap c.releaseNamed := by
  refine List.mem_flatMap.mpr ⟨.bluezKeepAlive, ?_, ?_⟩
  · cases rssiFirst <;> simp [visits]
  · simpa only [releaseNamed, h] using ha

theorem Doomed.exec {c : Session} (h : Doomed c) (call : Call) :
    Doomed (exec call c) := by
  cases call with
  | connect outcome =>
      cases outcome with
      | noDevice => exact h
      | notConnected => exact { h with peripheral := rfl }
      | connected =>
          exact
            { deleted := List.mem_append_left _ h.deleted
              keepAlive := h.keepAlive
              peripheral := rfl }
  | disconnect rssiFirst =>
      simp only [Session.exec, Session.disconnect, h.peripheral, if_true]
      exact
        { deleted := List.mem_append_left _ h.deleted
          keepAlive := h.keepAlive
          peripheral := rfl }

theorem Doomed.execAll {c : Session} (h : Doomed c) (calls : List Call) :
    Doomed (execAll calls c) := by
  induction calls generalizing c with
  | nil => exact h
  | cons call calls ih => exact ih (h.exec call)

/-- Releasing the threads of a chosen device from a fresh client dooms it. -/
theorem Fresh.doomed {c : Session} (h : Fresh c)
    (hperipheral : c.peripheral = true) (rssiFirst : Bool) :
    Doomed (c.disconnect rssiFirst) := by
  have hdelete : Op.delete 0 ∈ release 0 := by simp [release]
  simp only [Session.disconnect, hperipheral, if_true]
  exact
    { deleted := List.mem_append_right _
        (mem_visits_of_mem_release h.keepAlive rssiFirst hdelete)
      keepAlive := h.keepAlive
      peripheral := rfl }

/-- `Connect` never disconnects, and later disconnects hurt once it has chosen a
device. -/
theorem quiet_connect_iff {c : Session} {outcome : Outcome}
    {calls : List Call} :
    Quiet c (.connect outcome :: calls) ↔ Quiet (c.connect outcome) calls := by
  have hchosen : (c.connect outcome).peripheral = true ↔
      c.peripheral = true ∨ Call.ChoosesDevice (.connect outcome) := by
    cases outcome <;> simp [Session.connect, spawn, Call.ChoosesDevice]
  constructor
  · intro h
    obtain ⟨hhead, htail⟩ := List.pairwise_cons.mp h.later
    refine ⟨fun hperipheral call hcall => ?_, htail⟩
    rcases hchosen.mp hperipheral with hbefore | hnow
    · exact h.now hbefore call (List.mem_cons_of_mem _ hcall)
    · exact hhead call hcall hnow
  · intro h
    refine ⟨fun hperipheral call hcall => ?_,
      List.pairwise_cons.mpr ⟨?_, h.later⟩⟩
    · rcases List.mem_cons.mp hcall with rfl | htail
      · exact id
      · exact h.now (hchosen.mpr (.inl hperipheral)) call htail
    · intro call hcall hnow
      exact h.now (hchosen.mpr (.inr hnow)) call hcall

/-- Without a chosen device `Disconnect` is of no account. -/
theorem quiet_disconnect_iff {c : Session} (hperipheral : ¬ c.peripheral = true)
    {rssiFirst : Bool} {calls : List Call} :
    Quiet c (.disconnect rssiFirst :: calls) ↔ Quiet c calls := by
  constructor
  · intro hq
    exact ⟨fun hp => absurd hp hperipheral, (List.pairwise_cons.mp hq.later).2⟩
  · intro hq
    exact ⟨fun hp => absurd hp hperipheral,
      List.pairwise_cons.mpr ⟨fun _ _ => False.elim, hq.later⟩⟩

/-- A fresh client either stays fresh or is doomed, as its calls have it. -/
theorem Fresh.execAll {c : Session} (h : Fresh c) (calls : List Call) :
    (Quiet c calls ∧ Fresh (execAll calls c)) ∨
      (¬ Quiet c calls ∧ Doomed (execAll calls c)) := by
  induction calls generalizing c with
  | nil =>
      have hquiet : Quiet c [] :=
        ⟨fun _ _ hcall => absurd hcall List.not_mem_nil, List.Pairwise.nil⟩
      exact .inl ⟨hquiet, h⟩
  | cons call calls ih =>
      cases call with
      | connect outcome =>
          rw [quiet_connect_iff]
          exact ih (h.connect outcome)
      | disconnect rssiFirst =>
          by_cases hperipheral : c.peripheral = true
          · refine .inr ⟨fun hquiet => ?_, ?_⟩
            · exact hquiet.now hperipheral _ List.mem_cons_self trivial
            · exact (h.doomed hperipheral rssiFirst).execAll calls
          · have hsame : exec (.disconnect rssiFirst) c = c := if_neg hperipheral
            rw [quiet_disconnect_iff hperipheral, Session.execAll,
              List.foldl_cons, hsame]
            exact ih h

/-! ## The destructor -/

/-- The destructor of a fresh client releases each of its threads once. -/
theorem Fresh.wellUsed {c : Session} (h : Fresh c) (rssiFirst : Bool) :
    WellUsed (c.disconnect rssiFirst).trace := by
  have hused := wellUsed_of_creates h.creates
  have huntouched : ∀ i, Untouched c.trace i := by
    intro i a ha hobject
    obtain ⟨j, rfl⟩ := h.creates a ha
    exact congrArg Op.create hobject
  by_cases hperipheral : c.peripheral = true
  · simp only [Session.disconnect, hperipheral, if_true]
    cases hrssi : c.asyncThreadMap .connectionRssi with
    | none =>
        have hvisits : (visits rssiFirst).flatMap c.releaseNamed = release 0 := by
          cases rssiFirst <;> simp [visits, releaseNamed, h.keepAlive, hrssi]
        rw [hvisits]
        exact hused.release (huntouched 0)
    | some i =>
        have hne : i ≠ 0 := fun hzero => h.rssi (hzero ▸ hrssi)
        cases rssiFirst with
        | true =>
            have hvisits : (visits true).flatMap c.releaseNamed =
                release i ++ release 0 := by
              simp [visits, releaseNamed, h.keepAlive, hrssi]
            rw [hvisits, ← List.append_assoc]
            exact (hused.release (huntouched i)).release
              ((huntouched 0).release hne)
        | false =>
            have hvisits : (visits false).flatMap c.releaseNamed =
                release 0 ++ release i := by
              simp [visits, releaseNamed, h.keepAlive, hrssi]
            rw [hvisits, ← List.append_assoc]
            exact (hused.release (huntouched 0)).release
              ((huntouched i).release hne.symm)
  · rw [Session.disconnect, if_neg hperipheral]
    exact hused

/-- The destructor of a doomed client tests a deleted thread object. -/
theorem Doomed.not_wellUsed {c : Session} (h : Doomed c) (rssiFirst : Bool) :
    ¬ WellUsed (c.disconnect rssiFirst).trace := by
  have htest : Op.joinable 0 ∈ release 0 := List.mem_cons_self
  simp only [Session.disconnect, h.peripheral, if_true]
  exact not_wellUsed_of_deleted (a := .joinable 0) h.deleted
    (mem_visits_of_mem_release h.keepAlive rssiFirst htest)

/--
Over a whole session, from constructor to destructor, thread objects are joined
and deleted at most once and not used afterwards, exactly if no `Disconnect` is
called once `Connect` has chosen a device.
-/
theorem wellUsed_whole_iff (calls : List Call) (rssiFirst : Bool) :
    WellUsed (whole calls rssiFirst).trace ↔ LeftToDestructor calls := by
  have hquiet : Quiet construct calls ↔ LeftToDestructor calls :=
    ⟨Quiet.later, fun h => ⟨fun hset => absurd hset Bool.false_ne_true, h⟩⟩
  rcases fresh_construct.execAll calls with ⟨hcalls, hfresh⟩ | ⟨hcalls, hdoomed⟩
  · exact iff_of_true (hfresh.wellUsed rssiFirst) (hquiet.mp hcalls)
  · exact iff_of_false (hdoomed.not_wellUsed rssiFirst) (mt hquiet.mpr hcalls)

/-- Connecting, disconnecting and leaving scope uses a deleted thread object. -/
theorem not_wellUsed_whole_connect_disconnect :
    ¬ WellUsed (whole [.connect .connected, .disconnect false] false).trace := by
  intro h
  have honce := h.deletedOnce 0
  revert honce
  decide

end Session

end BLERCCar.Client
