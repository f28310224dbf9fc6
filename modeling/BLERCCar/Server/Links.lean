import BLERCCar.Server.Tasks

/-!
# Connections and the flag the tasks see

The connectivity task learns of connections only through `DeviceConnected`,
which the callbacks assign some time after the radio event.  This module ties
the flag, the number of connected clients and the assignments still pending in
the callback task to each other, and to the advertising state.

## Main results

* `LinkInv.step`: what holds of connections as long as clients come one at a
  time.
* `advInv_of_reach`: under the library's rule that clients connect only to an
  advertising server they do come one at a time, advertising means that nobody
  is connected, and nobody can connect while the task is in its connected
  branch.
* `reachable_oneAtATime`: so every interleaving under that rule is one with
  clients coming one at a time.
-/

namespace BLERCCar.Server

open BLERCCar.Lib

/-! ## Pending assignments of the flag -/

/-- The values that pending statements will assign to `DeviceConnected`. -/
def flags (rest : List CallbackStmt) : List Bool :=
  rest.filterMap fun
    | .assignDeviceConnected value => some value
    | _ => none

@[simp] theorem flags_nil : flags [] = [] := rfl

@[simp] theorem flags_onConnect : flags onConnect = [true] := rfl

@[simp] theorem flags_onDisconnect : flags onDisconnect = [false] := rfl

@[simp] theorem flags_onWrite (uuid : String) (raw : Option (List UInt8)) :
    flags (onWrite uuid raw) = [] := by
  simp [flags, onWrite]

/-- A step of the callback task either leaves the flag and its pending
assignments alone or performs the first of them. -/
theorem flags_of_move {g : Granularity} {now : UInt32}
    {th th' : Thread CallbackStmt} {sh sh' : Shared}
    (h : Thread.Move g now th sh th' sh') :
    (flags th'.rest = flags th.rest ∧
      sh'.ctx.deviceConnected = sh.ctx.deviceConnected) ∨
    flags th.rest = sh'.ctx.deviceConnected :: flags th'.rest := by
  cases h with
  | instr i call rest => exact .inl ⟨rfl, rfl⟩
  | enter st op rest _ hcall =>
      cases st with
      | call op => exact .inl ⟨rfl, rfl⟩
      | stampDisconnectionTime => cases hcall
      | assignDeviceConnected value => cases hcall
  | whole st op rest _ hcall =>
      cases st with
      | call op => exact .inl ⟨rfl, rfl⟩
      | stampDisconnectionTime => cases hcall
      | assignDeviceConnected value => cases hcall
  | stmt st rest _ hcall =>
      cases st with
      | call op => cases hcall
      | stampDisconnectionTime => exact .inl ⟨rfl, rfl⟩
      | assignDeviceConnected value => exact .inr rfl

/-- The connectivity task never writes the context. -/
theorem ctx_of_move {g : Granularity} {now : UInt32} {th th' : Thread TaskStmt}
    {sh sh' : Shared} (h : Thread.Move g now th sh th' sh') :
    sh'.ctx = sh.ctx := by
  cases h with
  | stmt st rest _ hcall => cases st <;> rfl
  | _ => rfl

/-! ## One client at a time -/

/-- Pending flag assignments, connected clients and the flag, over the life of
a connection. -/
inductive LinkPhase : List Bool → Nat → Bool → Prop
  | down : LinkPhase [] 0 false
  | opening : LinkPhase [true] 1 false
  | up : LinkPhase [] 1 true
  | closing : LinkPhase [false] 0 true

namespace LinkPhase

variable {links : Nat} {flag b : Bool} {pending : List Bool}

/-- With nothing pending the flag says whether a client is connected. -/
theorem of_nil (h : LinkPhase [] links flag) :
    links = 0 ∧ flag = false ∨ links = 1 ∧ flag = true := by
  cases h with
  | down => exact .inl ⟨rfl, rfl⟩
  | up => exact .inr ⟨rfl, rfl⟩

/-- A pending assignment is the last one, and performing it settles the
phase. -/
theorem of_cons (h : LinkPhase (b :: pending) links flag) :
    pending = [] ∧ flag = !b ∧ LinkPhase [] links b := by
  cases h with
  | opening => exact ⟨rfl, rfl, .up⟩
  | closing => exact ⟨rfl, rfl, .down⟩

/-- A cleared flag with no client on the way in means nobody is connected. -/
theorem links_eq_zero (h : LinkPhase pending links false)
    (hpending : pending ≠ [true]) : links = 0 := by
  cases h with
  | down => rfl
  | opening => exact absurd rfl hpending

/-- A set flag means nobody is on the way in. -/
theorem ne_opening (h : LinkPhase pending links true) : pending ≠ [true] := by
  cases h <;> simp

end LinkPhase

/-- What holds of connections while clients come one at a time. -/
structure LinkInv (s : State) : Prop where
  phase : LinkPhase (flags s.callback.rest) s.ble.links s.ctx.deviceConnected
  idle : s.handler = none → s.callback = Thread.done
  opening : s.handler = some .onConnect → s.ble.links = 1
  closing : s.handler = some .onDisconnect → s.ble.links = 0
  writing : s.handler = some .onWrite →
    s.ble.links = 1 ∧ flags s.callback.rest = []

theorem LinkInv.flags_of_idle {s : State} (h : LinkInv s)
    (hidle : s.handler = none) : flags s.callback.rest = [] := by
  rw [h.idle hidle]
  rfl

/-- With nobody connected and no callback running, everything is down. -/
theorem LinkInv.down_of_idle {s : State} (h : LinkInv s)
    (hidle : s.handler = none) (hlinks : s.ble.links = 0) :
    s.ctx.deviceConnected = false := by
  have hphase := h.phase
  rw [h.flags_of_idle hidle] at hphase
  rcases hphase.of_nil with ⟨-, hflag⟩ | ⟨hone, -⟩
  · exact hflag
  · omega

/-- With somebody connected and no callback running, everything is up. -/
theorem LinkInv.up_of_idle {s : State} (h : LinkInv s)
    (hidle : s.handler = none) (hlinks : 0 < s.ble.links) :
    s.ble.links = 1 ∧ s.ctx.deviceConnected = true := by
  have hphase := h.phase
  rw [h.flags_of_idle hidle] at hphase
  rcases hphase.of_nil with ⟨hzero, -⟩ | hup
  · omega
  · exact hup

/-- The callback task runs down its pending assignments and keeps the phase. -/
theorem LinkPhase.move {g : Granularity} {now : UInt32}
    {th th' : Thread CallbackStmt} {sh sh' : Shared} {links : Nat}
    (h : LinkPhase (flags th.rest) links sh.ctx.deviceConnected)
    (hmove : Thread.Move g now th sh th' sh') :
    LinkPhase (flags th'.rest) links sh'.ctx.deviceConnected := by
  rcases flags_of_move hmove with ⟨hflags, hflag⟩ | hpop
  · rw [hflags, hflag]
    exact h
  · rw [hpop] at h
    obtain ⟨htail, -, hsettled⟩ := h.of_cons
    rw [htail]
    exact hsettled

/-- Every step keeps the connection facts if clients connect only when nobody
is connected. -/
theorem LinkInv.step {cfg : Setting} {s s' : State} {e : Event}
    (h : LinkInv s) (hconn : e = .connect → s.ble.links = 0)
    (hmove : State.Move cfg s e s') : LinkInv s' := by
  cases hmove with
  | constructorReturns =>
      exact { h with }
  | connect hcon hacc hidle hg =>
      have hlinks := hconn rfl
      have hdown := h.down_of_idle hidle hlinks
      refine
        { phase := ?_
          idle := by simp
          opening := fun _ => by simp [Ble.accept, hlinks]
          closing := by simp
          writing := by simp }
      simp only [Ble.accept, hlinks, hdown, flags_onConnect]
      exact .opening
  | connected hcon hacc hidle hg =>
      have hlinks := hconn rfl
      refine
        { phase := ?_
          idle := h.idle
          opening := fun hh => absurd (hidle.symm.trans hh) (by simp)
          closing := fun hh => absurd (hidle.symm.trans hh) (by simp)
          writing := fun hh => absurd (hidle.symm.trans hh) (by simp) }
      simp only [Ble.accept, hlinks, h.flags_of_idle hidle]
      exact .up
  | disconnect hlink hidle =>
      obtain ⟨hlinks, hup⟩ := h.up_of_idle hidle hlink
      refine
        { phase := ?_
          idle := by simp
          opening := by simp
          closing := fun _ => by simp [hlinks]
          writing := by simp }
      simp only [hlinks, hup, flags_onDisconnect]
      exact .closing
  | write uuid raw hlink hidle =>
      obtain ⟨hlinks, hup⟩ := h.up_of_idle hidle hlink
      refine
        { phase := ?_
          idle := by simp
          opening := by simp
          closing := by simp
          writing := fun _ => ⟨hlinks, flags_onWrite uuid raw⟩ }
      simp only [hlinks, hup, flags_onWrite]
      exact .up
  | callback now th sh hth =>
      refine
        { phase := h.phase.move hth
          idle := fun hidle => ?_
          opening := h.opening
          closing := h.closing
          writing := fun hw => ⟨(h.writing hw).1, ?_⟩ }
      · have hdone := h.idle hidle
        rw [hdone] at hth
        cases hth
      · rcases flags_of_move hth with ⟨hflags, -⟩ | hpop
        · exact hflags.trans (h.writing hw).2
        · rw [(h.writing hw).2] at hpop
          cases hpop
  | callbackReturns now hdone hbusy =>
      exact
        { phase := h.phase
          idle := fun _ => hdone
          opening := by simp
          closing := by simp
          writing := by simp }
  | task now th sh hth =>
      refine { h with phase := ?_ }
      show LinkPhase _ _ sh.ctx.deviceConnected
      rw [ctx_of_move hth]
      exact h.phase
  | control now hdone =>
      have hlinks := s.control_links now
      refine
        { phase := ?_
          idle := h.idle
          opening := fun hh => hlinks.trans (h.opening hh)
          closing := fun hh => hlinks.trans (h.closing hh)
          writing := fun hh => ⟨hlinks.trans (h.writing hh).1, (h.writing hh).2⟩ }
      rw [hlinks]
      exact h.phase

theorem linkInv_powerUp : LinkInv State.powerUp :=
  { phase := .down
    idle := fun _ => rfl
    opening := by simp [State.powerUp]
    closing := by simp [State.powerUp]
    writing := by simp [State.powerUp] }

theorem LinkInv.next {g : Granularity} {s s' : State} {e : Event}
    (h : LinkInv s) (hnext : (machine ⟨g, oneAtATime⟩).next s e = some s') :
    LinkInv s' := by
  have hmove := move_of_next hnext
  refine h.step ?_ hmove
  rintro rfl
  cases hmove with
  | connect _ hacc => simpa [oneAtATime] using hacc
  | connected _ hacc => simpa [oneAtATime] using hacc

/-! ## Clients connect to an advertising server -/

/-- What holds when clients connect only while the server advertises. -/
structure AdvInv (s : State) : Prop where
  link : LinkInv s
  /-- advertising means that nobody is connected -/
  alone : s.ble.advertising = true →
    s.ble.links = 0 ∧ s.ctx.deviceConnected = false
  /-- nobody can connect while the task polls a connection -/
  polling : s.pc.Polling →
    s.ble.advertising = false ∧ flags s.callback.rest ≠ [true]
  /-- nor until it advertises again, with the client gone -/
  leaving : s.pc = .advertise →
    s.ble.advertising = false ∧ flags s.callback.rest ≠ [true] ∧
      s.ctx.deviceConnected = false
  /-- before the constructor returns there are no connections -/
  unborn : s.ble.constructed = false →
    s.ble.links = 0 ∧ s.ctx.deviceConnected = false ∧ s.handler = none ∧
      ¬ s.pc.Polling ∧ s.pc ≠ .advertise

/-- No client is on the way in after the callback task moved, if none was
before. -/
theorem flags_ne_opening_of_move {g : Granularity} {now : UInt32}
    {th th' : Thread CallbackStmt} {sh sh' : Shared} {links : Nat}
    (hphase : LinkPhase (flags th.rest) links sh.ctx.deviceConnected)
    (hmove : Thread.Move g now th sh th' sh') (h : flags th.rest ≠ [true]) :
    flags th'.rest ≠ [true] := by
  rcases flags_of_move hmove with ⟨hflags, -⟩ | hpop
  · rwa [hflags]
  · rw [hpop] at hphase
    rw [hphase.of_cons.1]
    simp

/-- With nobody on the way in the callback task cannot set the flag. -/
theorem flag_of_move_of_false {g : Granularity} {now : UInt32}
    {th th' : Thread CallbackStmt} {sh sh' : Shared} {links : Nat}
    (hphase : LinkPhase (flags th.rest) links sh.ctx.deviceConnected)
    (hmove : Thread.Move g now th sh th' sh')
    (hflag : sh.ctx.deviceConnected = false) (h : flags th.rest ≠ [true]) :
    sh'.ctx.deviceConnected = false := by
  rcases flags_of_move hmove with ⟨-, hflag'⟩ | hpop
  · exact hflag'.trans hflag
  · rw [hpop] at hphase h
    obtain ⟨htail, hvalue, -⟩ := hphase.of_cons
    rw [hflag] at hvalue
    rw [htail] at h
    cases hnew : sh'.ctx.deviceConnected with
    | false => rfl
    | true => exact absurd (by rw [hnew]) h

/-- The connectivity task performs the test or call at its program counter. -/
private theorem AdvInv.control {s : State} (h : AdvInv s) (now : UInt32)
    (hlink : LinkInv (s.control now)) : AdvInv (s.control now) := by
  have hphase := h.link.phase
  -- a set flag rules out advertising and a client on the way in
  have hset : s.ctx.deviceConnected = true →
      s.ble.advertising = false ∧ flags s.callback.rest ≠ [true] := by
    intro hflag
    rw [hflag] at hphase
    refine ⟨?_, hphase.ne_opening⟩
    cases hadv : s.ble.advertising with
    | false => rfl
    | true => exact absurd ((h.alone hadv).2.symm.trans hflag) (by simp)
  by_cases hpc : s.pc = .advertise
  · obtain ⟨-, hopen, hflag⟩ := h.leaving hpc
    rw [hflag] at hphase
    simp only [State.control, hpc, Pc.next, if_true] at hlink ⊢
    exact
      { link := hlink
        alone := fun _ => ⟨hphase.links_eq_zero hopen, hflag⟩
        polling := by simp [Pc.Polling]
        leaving := by simp
        unborn := fun hnew => absurd hpc (h.unborn hnew).2.2.2.2 }
  · simp only [State.control, if_neg hpc] at hlink ⊢
    refine
      { link := hlink
        alone := h.alone
        polling := fun hp => ?_
        leaving := fun hp => ?_
        unborn := fun hnew => ?_ }
    · rcases Pc.polling_of_next hp with hpoll | hflag
      · exact h.polling hpoll
      · exact hset hflag
    · obtain ⟨hpoll, hflag⟩ := Pc.polling_of_next_advertise hp
      exact ⟨(h.polling hpoll).1, (h.polling hpoll).2, hflag⟩
    · obtain ⟨hlinks, hflag, hidle, hpoll, -⟩ := h.unborn hnew
      refine ⟨hlinks, hflag, hidle, fun hp => ?_, fun hp => ?_⟩
      · rcases Pc.polling_of_next hp with hbad | hbad
        · exact hpoll hbad
        · exact absurd (hflag.symm.trans hbad) (by simp)
      · exact hpoll (Pc.polling_of_next_advertise hp).1

/-- Every step keeps the advertising facts. -/
theorem AdvInv.step {g : Granularity} {s s' : State} {e : Event} (h : AdvInv s)
    (hmove : State.Move ⟨g, advertised⟩ s e s') : AdvInv s' := by
  have hlink : LinkInv s' := by
    refine h.link.step ?_ hmove
    rintro rfl
    cases hmove with
    | connect hcon hacc => exact (h.alone hacc).1
    | connected hcon hacc => exact (h.alone hacc).1
  cases hmove with
  | constructorReturns hnew =>
      obtain ⟨hlinks, hflag, hhandler, hpoll, hleave⟩ := h.unborn hnew
      exact
        { link := hlink
          alone := fun _ => ⟨hlinks, hflag⟩
          polling := fun hp => absurd hp hpoll
          leaving := fun hp => absurd hp hleave
          unborn := by simp }
  | connect hcon hacc hidle hg =>
      exact
        { link := hlink
          alone := by simp [Ble.accept]
          polling := fun hp => absurd hacc (by simp [advertised, (h.polling hp).1])
          leaving := fun hp => absurd hacc (by simp [advertised, (h.leaving hp).1])
          unborn := fun hnew => absurd (hcon.symm.trans hnew) (by simp) }
  | connected hcon hacc hidle hg =>
      exact
        { link := hlink
          alone := by simp [Ble.accept]
          polling := fun hp => absurd hacc (by simp [advertised, (h.polling hp).1])
          leaving := fun hp => absurd hacc (by simp [advertised, (h.leaving hp).1])
          unborn := fun hnew => absurd (hcon.symm.trans hnew) (by simp) }
  | disconnect hpos hidle =>
      exact
        { link := hlink
          alone := fun hadv => absurd hpos (by simp [(h.alone hadv).1])
          polling := fun hp => ⟨(h.polling hp).1, by simp⟩
          leaving := fun hp => ⟨(h.leaving hp).1, by simp, (h.leaving hp).2.2⟩
          unborn := fun hnew => absurd hpos (by simp [(h.unborn hnew).1]) }
  | write uuid raw hpos hidle =>
      exact
        { link := hlink
          alone := fun hadv => absurd hpos (by simp [(h.alone hadv).1])
          polling := fun hp => ⟨(h.polling hp).1, by simp⟩
          leaving := fun hp => ⟨(h.leaving hp).1, by simp, (h.leaving hp).2.2⟩
          unborn := fun hnew => absurd hpos (by simp [(h.unborn hnew).1]) }
  | callback now th sh hth =>
      have hphase := h.link.phase
      -- outside a connection nothing is pending, so the flag keeps its value
      have hquiet : s.ble.links = 0 → s.ctx.deviceConnected = false →
          sh.ctx.deviceConnected = false := by
        intro hlinks hflag
        refine flag_of_move_of_false hphase hth hflag ?_
        intro hopen
        rw [hopen, hlinks] at hphase
        rcases hphase.of_cons.2.2.of_nil with ⟨-, hbad⟩ | ⟨hbad, -⟩
        · cases hbad
        · cases hbad
      refine
        { link := hlink
          alone := fun hadv => ?_
          polling := fun hp => ?_
          leaving := fun hp => ?_
          unborn := fun hnew => ?_ }
      · obtain ⟨hlinks, hflag⟩ := h.alone hadv
        exact ⟨hlinks, hquiet hlinks hflag⟩
      · obtain ⟨hadv, hopen⟩ := h.polling hp
        exact ⟨hadv, flags_ne_opening_of_move hphase hth hopen⟩
      · obtain ⟨hadv, hopen, hflag⟩ := h.leaving hp
        exact ⟨hadv, flags_ne_opening_of_move hphase hth hopen,
          flag_of_move_of_false hphase hth hflag hopen⟩
      · obtain ⟨hlinks, hflag, hrest⟩ := h.unborn hnew
        exact ⟨hlinks, hquiet hlinks hflag, hrest⟩
  | callbackReturns now hdone hbusy =>
      exact
        { link := hlink
          alone := h.alone
          polling := h.polling
          leaving := h.leaving
          unborn := fun hnew => absurd (h.unborn hnew).2.2.1 hbusy }
  | task now th sh hth =>
      have hctx : sh.ctx.deviceConnected = s.ctx.deviceConnected := by
        rw [ctx_of_move hth]
      exact
        { link := hlink
          alone := fun hadv => ⟨(h.alone hadv).1, hctx.trans (h.alone hadv).2⟩
          polling := h.polling
          leaving := fun hp => ⟨(h.leaving hp).1, (h.leaving hp).2.1,
            hctx.trans (h.leaving hp).2.2⟩
          unborn := fun hnew => ⟨(h.unborn hnew).1,
            hctx.trans (h.unborn hnew).2.1, (h.unborn hnew).2.2⟩ }
  | control now hdone => exact h.control now hlink

theorem advInv_powerUp : AdvInv State.powerUp :=
  { link := linkInv_powerUp
    alone := by simp [State.powerUp]
    polling := by simp [State.powerUp, Pc.Polling]
    leaving := by simp [State.powerUp]
    unborn := by simp [State.powerUp, Pc.Polling] }

theorem advInv_of_reach {g : Granularity} {ok : State → Event → Prop}
    {s : State} (h : (machine ⟨g, advertised⟩).Reach ok s) : AdvInv s :=
  h.invariant advInv_powerUp fun _ _ _ hinv _ hnext =>
    hinv.step (move_of_next hnext)

/-- Whoever accepts clients only while it advertises behaves like a server that
then always accepts them. -/
theorem State.Move.advertised {cfg : Setting} {s s' : State} {e : Event}
    (h : State.Move cfg s e s')
    (hacc : ∀ b, cfg.accepts b = true → b.advertising = true) :
    State.Move ⟨cfg.granularity, Server.advertised⟩ s e s' := by
  cases h with
  | constructorReturns hnew => exact .constructorReturns hnew
  | connect hcon hb hidle hg => exact .connect hcon (hacc _ hb) hidle hg
  | connected hcon hb hidle hg => exact .connected hcon (hacc _ hb) hidle hg
  | disconnect hlink hidle => exact .disconnect hlink hidle
  | write uuid raw hlink hidle => exact .write uuid raw hlink hidle
  | callback now th sh hth => exact .callback now th sh hth
  | callbackReturns now hdone hbusy => exact .callbackReturns now hdone hbusy
  | task now th sh hth => exact .task now th sh hth
  | control now hdone => exact .control now hdone

/-! ## Atomic controller calls -/

/-- What holds besides where controller calls are atomic, so that `onConnect`
is one step with the connection. -/
structure CallInv (s : State) : Prop where
  adv : AdvInv s
  settled : flags s.callback.rest ≠ [true]

theorem CallInv.step {s s' : State} {e : Event} (h : CallInv s)
    (hmove : State.Move atomicCalls s e s') : CallInv s' := by
  have hadv := h.adv.step hmove
  cases hmove with
  | connect _ _ _ hg => cases hg
  | disconnect => exact ⟨hadv, by simp⟩
  | write => exact ⟨hadv, by simp⟩
  | callback now th sh hth =>
      exact ⟨hadv, flags_ne_opening_of_move h.adv.link.phase hth h.settled⟩
  | _ => exact ⟨hadv, h.settled⟩

theorem callInv_powerUp : CallInv State.powerUp :=
  ⟨advInv_powerUp, by simp [State.powerUp, Thread.done]⟩

theorem CallInv.next {s s' : State} {e : Event} (h : CallInv s)
    (hnext : (machine atomicCalls).next s e = some s') : CallInv s' :=
  h.step (move_of_next hnext)

/-! ## One client at a time, after all -/

/-- Accepting clients only while advertising is a way of accepting them one at
a time. -/
theorem simulation_oneAtATime (g : Granularity) :
    Machine.Simulation (machine ⟨g, advertised⟩) (machine ⟨g, oneAtATime⟩)
      AdvInv id where
  init := rfl
  step s e s' hinv hnext := by
    refine ⟨[e], Machine.run_cons_of_next _ ?_ []⟩
    show s.step ⟨g, oneAtATime⟩ e = some s'
    rw [← show s.step ⟨g, advertised⟩ e = some s' from hnext]
    cases e with
    | connect =>
        have hmove := move_of_next hnext
        have hacc : advertised s.ble = true := by
          cases hmove with
          | connect hcon hacc => exact hacc
          | connected hcon hacc => exact hacc
        have hone : oneAtATime s.ble = true := by
          simp [oneAtATime, (hinv.alone hacc).1]
        simp only [State.step, hacc, hone]
    | _ => rfl

theorem reachable_oneAtATime {g : Granularity} {ok : State → Event → Prop}
    {s : State} (h : (machine ⟨g, advertised⟩).Reach ok s) :
    (machine ⟨g, oneAtATime⟩).Reachable s :=
  (simulation_oneAtATime g).reach (fun _ => advInv_of_reach) h

end BLERCCar.Server
