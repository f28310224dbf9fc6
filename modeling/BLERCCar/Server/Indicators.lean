import BLERCCar.Server.Links
import Mathlib.Data.List.Infix

/-!
# The LED and the trigger pins

The connectivity task writes three pins of its own: the LED that shows whether a
client is connected, and the triggers of the two distance sensors.  What they
show depends on where in its straight-line code the task is, so the invariant
relates a pin to the writes to it that are still to come.

The setting of the server is left open.

## Main results

* `indicates_of_reach`: in every interleaving the LED is on from the connected
  branch to the next blinking and off while the disconnection timeout is managed,
  and the sensors are triggered one at a time.
-/

namespace BLERCCar.Server

open BLERCCar.Lib

/-! ## A pin and what is going to be written to it -/

/-- A pin starts at `start` and is written the levels of `program`; those of
`ahead` are still to come, and `level` is where it is now. -/
def Follows (program : List Level) (start : Level) (ahead : List Level)
    (level : Level) : Prop :=
  ∃ past, past ++ ahead = program ∧ level = past.getLast?.getD start

namespace Follows

variable {program ahead ahead' : List Level} {start level level' : Level}

theorem load (program : List Level) (level : Level) :
    Follows program level program level :=
  ⟨[], rfl, rfl⟩

theorem write (h : Follows program start (level' :: ahead) level) :
    Follows program start ahead level' := by
  obtain ⟨past, hprogram, -⟩ := h
  exact ⟨past ++ [level'], by simp [← hprogram], by simp⟩

theorem finish (h : Follows program start [] level) :
    level = program.getLast?.getD start := by
  obtain ⟨past, hprogram, hlevel⟩ := h
  rw [List.append_nil] at hprogram
  rw [← hprogram]
  exact hlevel

/-- A step writes the next level or leaves the pin alone. -/
theorem move (h : Follows program start ahead level)
    (hmove : ahead' = ahead ∧ level' = level ∨ ahead = level' :: ahead') :
    Follows program start ahead' level' := by
  rcases hmove with ⟨rfl, rfl⟩ | rfl
  · exact h
  · exact h.write

/-- In the middle of a pulse, what is missing is its end. -/
theorem pulse (h : Follows [.low, .high, .low] .low ahead .high) : ahead = [.low] := by
  obtain ⟨past, hprogram, hlevel⟩ := h
  match past with
  | [] => cases hlevel
  | [_] =>
      simp only [List.cons_append, List.nil_append, List.cons.injEq] at hprogram
      rw [hprogram.1] at hlevel
      cases hlevel
  | [_, _] =>
      simp only [List.cons_append, List.nil_append, List.cons.injEq] at hprogram
      exact hprogram.2.2
  | _ :: _ :: last :: past =>
      simp only [List.cons_append, List.cons.injEq, List.append_eq_nil_iff] at hprogram
      obtain ⟨-, -, rfl, rfl, -⟩ := hprogram
      cases hlevel

end Follows

/-- The writes to a pin in straight-line code. -/
def writesOf (pin : AuxPin) (code : List TaskStmt) : List Level :=
  code.filterMap fun
    | .digitalWrite pin' level => if pin' = pin then some level else none
    | _ => none

theorem mem_writesOf {pin : AuxPin} {level : Level} {code : List TaskStmt} :
    level ∈ writesOf pin code ↔ .digitalWrite pin level ∈ code := by
  unfold writesOf
  rw [List.mem_filterMap]
  constructor
  · rintro ⟨st, hmem, hst⟩
    cases st with
    | digitalWrite pin' level' =>
        simp only [Option.ite_none_right_eq_some, Option.some.injEq] at hst
        rw [← hst.1, ← hst.2]
        exact hmem
    | _ => cases hst
  · exact fun hmem => ⟨_, hmem, by simp⟩

/-- The level of one of the task's own pins. -/
def World.aux (w : World) (pin : AuxPin) : Level := w.board.gpio pin.number

/-- No statement of a controller call writes such a pin. -/
theorem aux_exec (i : Instr) (w : World) (pin : AuxPin) :
    (i.exec w).aux pin = w.aux pin := by
  cases i with
  | digitalWrite motor pin' level =>
      have hne : pin.number ≠ (w.car.motor motor).pin pin' := by
        cases motor <;> cases pin' <;> cases pin <;>
          simp [Car.motor, Motor.pin, AuxPin.number]
      exact Function.update_of_ne hne _ _
  | _ => rfl

theorem aux_digitalWrite (w : World) (pin pin' : AuxPin) (level : Level) :
    World.aux { w with board := w.board.digitalWrite pin'.number level } pin =
      if pin' = pin then level else w.aux pin := by
  cases pin <;> cases pin' <;>
    simp [World.aux, Board.digitalWrite, AuxPin.number]

/-! ## One step of a thread -/

/-- The callback task never touches these pins. -/
theorem aux_callback {g : Granularity} {now : UInt32} {th th' : Thread CallbackStmt}
    {sh sh' : Shared} (hmove : Thread.Move g now th sh th' sh') :
    sh'.world.aux = sh.world.aux := by
  have hall : th.All fun _ => True := ⟨fun _ _ => trivial, fun _ _ _ _ _ _ => trivial⟩
  refine hall.keeps (J := fun w => w.aux = sh.world.aux) ?_ ?_ rfl hmove
  · intro i w _ hw
    rw [← hw]
    exact funext (aux_exec i w)
  · intro st now sh hsh
    cases st <;> exact hsh

/-- The connectivity task writes them as its straight-line code says. -/
theorem aux_task {g : Granularity} {now : UInt32} {th th' : Thread TaskStmt}
    {sh sh' : Shared} (hmove : Thread.Move g now th sh th' sh') :
    th'.rest <:+ th.rest ∧ ∀ pin,
      writesOf pin th'.rest = writesOf pin th.rest ∧
          sh'.world.aux pin = sh.world.aux pin ∨
        writesOf pin th.rest = sh'.world.aux pin :: writesOf pin th'.rest := by
  cases hmove with
  | instr i call rest =>
      exact ⟨List.suffix_refl rest, fun pin => .inl ⟨rfl, aux_exec i sh.world pin⟩⟩
  | enter st op rest _ hcall =>
      refine ⟨List.suffix_cons st rest, fun pin => .inl ⟨?_, rfl⟩⟩
      cases st with
      | stopForDisconnection => rfl
      | _ => cases hcall
  | whole st op rest _ hcall =>
      refine ⟨List.suffix_cons st rest, fun pin => .inl ⟨?_, ?_⟩⟩
      · cases st with
        | stopForDisconnection => rfl
        | _ => cases hcall
      · refine run_keeps (p := fun _ => True)
          (J := fun w => w.aux pin = sh.world.aux pin) ?_ (fun _ _ => trivial) rfl
        exact fun i w _ hw => (aux_exec i w pin).trans hw
  | stmt st rest _ hcall =>
      refine ⟨List.suffix_cons st rest, fun pin => ?_⟩
      cases st with
      | stopForDisconnection => cases hcall
      | vTaskDelay | delayMicroseconds | pulseIn => exact .inl ⟨rfl, rfl⟩
      | digitalWrite pin' level =>
          have haux : (Statement.exec now (TaskStmt.digitalWrite pin' level) sh).world.aux
              pin = if pin' = pin then level else sh.world.aux pin :=
            aux_digitalWrite sh.world pin pin' level
          by_cases hsame : pin' = pin
          · rw [if_pos hsame] at haux
            right
            rw [haux]
            simp [writesOf, hsame]
          · rw [if_neg hsame] at haux
            exact .inl ⟨by simp [writesOf, hsame], haux⟩

/-! ## Where the task is in its code -/

/-- The straight-line code in front of a test or call, or what is left of it. -/
def Pc.InCode (rest : List TaskStmt) : Pc → Prop
  | .outerTest => rest <:+ [.vTaskDelay]
  | .innerTest _ => rest <:+ [.digitalWrite .led .high] ∨ rest <:+ measureAndSleep
  | .pollMode _ => rest = []
  | .notifyMode _ => rest = []
  | .advertise => rest <:+ [.stopForDisconnection]
  | .waitTest => rest <:+ [.stopForDisconnection]
  | .readClock => rest <:+ coolBlink
  | .testElapsed _ => rest = []
  | .testMode => rest = []

theorem Pc.InCode.suffix {pc : Pc} {rest rest' : List TaskStmt} (h : pc.InCode rest)
    (hsuffix : rest' <:+ rest) : pc.InCode rest' := by
  cases pc with
  | innerTest tmp =>
      rcases h with h | h
      · exact .inl (hsuffix.trans h)
      · exact .inr (hsuffix.trans h)
  | outerTest => exact hsuffix.trans h
  | advertise => exact hsuffix.trans h
  | waitTest => exact hsuffix.trans h
  | readClock => exact hsuffix.trans h
  | _ =>
      rw [show rest = [] from h] at hsuffix
      exact List.suffix_nil.mp hsuffix

theorem Pc.inCode_next (now : UInt32) (sh : Shared) (pc : Pc) :
    (pc.next now sh).1.InCode (pc.next now sh).2 := by
  cases pc with
  | notifyMode current => exact .inr (List.suffix_refl _)
  | advertise => exact List.suffix_refl _
  | readClock => rfl
  | innerTest tmp =>
      simp only [Pc.next]
      split
      · rfl
      · exact List.suffix_refl _
  | outerTest =>
      simp only [Pc.next]
      split
      · exact .inl (List.suffix_refl _)
      · exact List.nil_suffix
  | pollMode tmp =>
      simp only [Pc.next]
      split
      · exact .inr (List.suffix_refl _)
      · rfl
  | waitTest =>
      simp only [Pc.next]
      split
      · exact List.suffix_refl _
      · exact List.suffix_refl _
  | testElapsed currentTime =>
      simp only [Pc.next]
      split
      · rfl
      · exact List.nil_suffix
  | testMode =>
      simp only [Pc.next]
      split
      · exact List.nil_suffix
      · exact List.suffix_refl _

/-- The levels that the LED is given: on in the connected branch, blinking twice
before the timeout is examined.  At the remaining tests it depends on where the
task comes from. -/
def Pc.ledProgram : Pc → Option (List Level)
  | .innerTest _ => some [.high]
  | .pollMode _ => some [.high]
  | .notifyMode _ => some [.high]
  | .advertise => some [.high]
  | .readClock => some [.high, .low, .high, .low]
  | .testElapsed _ => some [.high, .low, .high, .low]
  | .testMode => some [.high, .low, .high, .low]
  | .outerTest => none
  | .waitTest => none

/-- Where the LED's program is new it is ahead as a whole, and otherwise the
code in front of the next test does not touch the LED. -/
theorem Pc.ledProgram_next {now : UInt32} {sh : Shared} {pc : Pc} {program : List Level}
    (h : (pc.next now sh).1.ledProgram = some program) :
    writesOf .led (pc.next now sh).2 = program ∨
      pc.ledProgram = some program ∧ writesOf .led (pc.next now sh).2 = [] := by
  cases pc with
  | outerTest =>
      cases hflag : sh.ctx.deviceConnected with
      | true =>
          simp only [Pc.next, hflag, if_true, ledProgram, Option.some.injEq] at h ⊢
          rw [← h]
          exact .inl rfl
      | false => simp [Pc.next, hflag, ledProgram] at h
  | innerTest tmp =>
      right
      cases hflag : sh.ctx.deviceConnected <;>
        exact ⟨by simpa [Pc.next, hflag, ledProgram] using h, by simp [Pc.next, hflag, writesOf]⟩
  | pollMode tmp =>
      right
      by_cases hmode : sh.world.currentDriveMode = tmp
      · refine ⟨by simpa [Pc.next, hmode, ledProgram] using h, ?_⟩
        simp only [Pc.next, if_pos hmode]
        rfl
      · refine ⟨by simpa [Pc.next, hmode, ledProgram] using h, ?_⟩
        simp only [Pc.next, if_neg hmode]
        rfl
  | notifyMode current => exact .inr ⟨h, rfl⟩
  | advertise => cases h
  | waitTest =>
      cases hflag : sh.ctx.deviceConnected with
      | true => simp [Pc.next, hflag, ledProgram] at h
      | false =>
          simp only [Pc.next, hflag, Bool.false_eq_true, if_false, ledProgram,
            Option.some.injEq] at h ⊢
          rw [← h]
          exact .inl rfl
  | readClock => exact .inr ⟨h, rfl⟩
  | testElapsed currentTime =>
      cases hlate : timedOut currentTime sh.ctx.disconnectionTime with
      | true =>
          refine .inr ⟨by simpa [Pc.next, hlate, ledProgram] using h, ?_⟩
          simp [Pc.next, hlate, writesOf]
      | false => simp [Pc.next, hlate, ledProgram] at h
  | testMode =>
      by_cases hmode : sh.world.currentDriveMode = .disconnectionStop <;>
        simp [Pc.next, hmode, ledProgram] at h

/-- The triggers are pulsed from front to end or not at all. -/
theorem Pc.triggers_next (now : UInt32) (sh : Shared) (pc : Pc) {pin : AuxPin}
    (hpin : pin ≠ .led) :
    writesOf pin (pc.next now sh).2 = [.low, .high, .low] ∨
      writesOf pin (pc.next now sh).2 = [] := by
  have hmeasure : writesOf pin measureAndSleep = [.low, .high, .low] := by
    cases pin with
    | led => exact absurd rfl hpin
    | _ => rfl
  have hled : writesOf pin [.digitalWrite .led .high] = [] := by
    cases pin with
    | led => exact absurd rfl hpin
    | _ => rfl
  have hblink : writesOf pin coolBlink = [] := by
    cases pin with
    | led => exact absurd rfl hpin
    | _ => rfl
  cases pc with
  | outerTest =>
      simp only [Pc.next]
      split
      · exact .inr hled
      · exact .inr rfl
  | innerTest tmp =>
      simp only [Pc.next]
      split <;> exact .inr rfl
  | pollMode tmp =>
      simp only [Pc.next]
      split
      · exact .inl hmeasure
      · exact .inr rfl
  | notifyMode current => exact .inl hmeasure
  | advertise => exact .inr rfl
  | waitTest =>
      simp only [Pc.next]
      split
      · exact .inr rfl
      · exact .inr hblink
  | readClock => exact .inr rfl
  | testElapsed currentTime =>
      simp only [Pc.next]
      split <;> exact .inr rfl
  | testMode =>
      simp only [Pc.next]
      split <;> exact .inr rfl

/-- The timeout is being examined. -/
def Pc.Examining : Pc → Prop
  | .readClock => True
  | .testElapsed _ => True
  | .testMode => True
  | _ => False

theorem Pc.ledProgram_of_examining {pc : Pc} (h : pc.Examining) :
    pc.ledProgram = some [.high, .low, .high, .low] := by
  cases pc with
  | readClock => rfl
  | testElapsed => rfl
  | testMode => rfl
  | _ => exact h.elim

/-- Only from there the task comes to its test with something to do before it. -/
theorem Pc.eq_testMode_of_next {now : UInt32} {sh : Shared} {pc : Pc}
    (h : (pc.next now sh).1 = .waitTest) (hcode : (pc.next now sh).2 ≠ []) :
    pc = .testMode := by
  cases pc with
  | testMode => rfl
  | outerTest =>
      cases hflag : sh.ctx.deviceConnected <;> simp [Pc.next, hflag] at h hcode
  | innerTest tmp =>
      cases hflag : sh.ctx.deviceConnected <;> simp [Pc.next, hflag] at h
  | waitTest =>
      cases hflag : sh.ctx.deviceConnected <;> simp [Pc.next, hflag] at h
  | pollMode tmp =>
      simp only [Pc.next] at h
      split at h <;> cases h
  | testElapsed currentTime =>
      cases hlate : timedOut currentTime sh.ctx.disconnectionTime <;>
        simp [Pc.next, hlate] at h hcode
  | _ => cases h

/-! ## Invariant -/

/-- `manage_disconnection_timeout` is under way, the stop at its end included. -/
def State.ManagesTimeout (s : State) : Prop :=
  s.pc.Examining ∧ s.task.rest = [] ∨ s.pc = .waitTest ∧ s.task ≠ Thread.done

/-- Where the task's pins are. -/
structure PinInv (s : State) : Prop where
  code : s.pc.InCode s.task.rest
  led : ∀ program, s.pc.ledProgram = some program →
    ∃ start, Follows program start (writesOf .led s.task.rest) (s.world.aux .led)
  triggers : ∀ pin ≠ .led,
    Follows [.low, .high, .low] .low (writesOf pin s.task.rest) (s.world.aux pin)
  timeout : s.ManagesTimeout → s.world.aux .led = .low

/-- Behind the blinking the LED is off. -/
theorem aux_led_of_examining {s : State}
    (hled : ∀ program, s.pc.ledProgram = some program →
      ∃ start, Follows program start (writesOf .led s.task.rest) (s.world.aux .led))
    (hpc : s.pc.Examining) (hdone : s.task.rest = []) : s.world.aux .led = .low := by
  obtain ⟨start, hfollows⟩ := hled _ (Pc.ledProgram_of_examining hpc)
  rw [hdone] at hfollows
  exact hfollows.finish

theorem pinInv_powerUp : PinInv State.powerUp where
  code := List.nil_suffix
  led := by simp [State.powerUp, Pc.ledProgram]
  triggers pin _ := ⟨[.low, .high, .low], rfl, by cases pin <;> rfl⟩
  timeout _ := rfl

theorem PinInv.step {cfg : Setting} {s s' : State} {e : Event} (h : PinInv s)
    (hmove : State.Move cfg s e s') : PinInv s' := by
  cases hmove with
  | callback now th sh hth =>
      have haux := aux_callback hth
      exact
        { code := h.code
          led := by rw [haux]; exact h.led
          triggers := by rw [haux]; exact h.triggers
          timeout := by rw [haux]; exact h.timeout }
  | task now th sh hth =>
      obtain ⟨hsuffix, hwrites⟩ := aux_task hth
      have hled : ∀ program, s.pc.ledProgram = some program →
          ∃ start, Follows program start (writesOf .led th.rest) (sh.world.aux .led) := by
        intro program hprogram
        obtain ⟨start, hfollows⟩ := h.led program hprogram
        exact ⟨start, hfollows.move (hwrites .led)⟩
      exact
        { code := h.code.suffix hsuffix
          led := hled
          triggers := fun pin hpin => (h.triggers pin hpin).move (hwrites pin)
          timeout := by
            rintro (⟨hpc, hdone⟩ | ⟨hpc, -⟩)
            · exact aux_led_of_examining (s := { s with toShared := sh, task := th }) hled hpc hdone
            · have hbusy : s.task ≠ Thread.done := by
                intro heq
                rw [heq] at hth
                cases hth
              have hlow := h.timeout (.inr ⟨hpc, hbusy⟩)
              rcases hwrites .led with ⟨-, hlevel⟩ | hwrite
              · exact hlevel.trans hlow
              · have hmem := mem_writesOf.mp (hwrite ▸ List.mem_cons_self)
                have hcode := h.code
                rw [show s.pc = .waitTest from hpc] at hcode
                simpa using hcode.subset hmem }
  | control now hdone =>
      have hnone : ∀ pin, writesOf pin s.task.rest = [] := fun pin => by rw [hdone]; rfl
      have hled : ∀ program, (s.control now).pc.ledProgram = some program →
          ∃ start, Follows program start (writesOf .led (s.control now).task.rest)
            (s.world.aux .led) := by
        intro program hprogram
        rcases Pc.ledProgram_next hprogram with hnew | ⟨hold, hcode⟩
        · refine ⟨s.world.aux .led, ?_⟩
          show Follows program _ (writesOf .led (s.pc.next now s.toShared).2) _
          rw [hnew]
          exact .load program _
        · obtain ⟨start, hfollows⟩ := h.led program hold
          refine ⟨start, ?_⟩
          show Follows program _ (writesOf .led (s.pc.next now s.toShared).2) _
          rw [hcode, ← hnone .led]
          exact hfollows
      exact
        { code := Pc.inCode_next now s.toShared s.pc
          led := hled
          triggers := by
            intro pin hpin
            have hold := h.triggers pin hpin
            rw [hnone pin] at hold
            have hlow : s.world.aux pin = .low := hold.finish
            show Follows _ _ (writesOf pin (s.pc.next now s.toShared).2) (s.world.aux pin)
            rcases Pc.triggers_next now s.toShared s.pc hpin with hcode | hcode
            · rw [hcode, hlow]
              exact .load _ _
            · rw [hcode]
              exact hold
          timeout := by
            rintro (⟨hpc, hcode⟩ | ⟨hpc, hbusy⟩)
            · exact aux_led_of_examining hled hpc hcode
            · have hcode : (s.pc.next now s.toShared).2 ≠ [] :=
                fun hnil => hbusy (congrArg (Thread.mk []) hnil)
              have htest : s.pc = .testMode := Pc.eq_testMode_of_next hpc hcode
              have hexamining : s.pc.Examining := htest ▸ trivial
              exact h.timeout (.inl ⟨hexamining, by rw [hdone]; rfl⟩) }
  | _ => exact { h with }

theorem pinInv_of_reach {cfg : Setting} {ok : State → Event → Prop} {s : State}
    (h : (machine cfg).Reach ok s) : PinInv s :=
  h.invariant pinInv_powerUp fun _ _ _ hinv _ hnext => hinv.step (move_of_next hnext)

/-! ## What the pins show -/

/-- The LED is on and not about to be turned off. -/
structure Lit (s : State) : Prop where
  level : s.world.aux .led = .high
  ahead : ∀ level ∈ writesOf .led s.task.rest, level = .high

/-- The task turns the LED off in no code but that of the blinking. -/
theorem Pc.ahead_next {now : UInt32} {sh : Shared} {pc : Pc}
    (h : (pc.next now sh).1 ≠ .readClock) :
    ∀ level ∈ writesOf .led (pc.next now sh).2, level = .high := by
  cases pc with
  | outerTest => cases hflag : sh.ctx.deviceConnected <;> simp [Pc.next, hflag, writesOf]
  | innerTest tmp => cases hflag : sh.ctx.deviceConnected <;> simp [Pc.next, hflag, writesOf]
  | waitTest =>
      cases hflag : sh.ctx.deviceConnected with
      | true => simp [Pc.next, hflag, writesOf]
      | false => simp [Pc.next, hflag] at h
  | pollMode tmp =>
      simp only [Pc.next]
      split
      · exact fun level hmem => absurd hmem List.not_mem_nil
      · simp [writesOf]
  | notifyMode current => exact fun level hmem => absurd hmem List.not_mem_nil
  | advertise => simp [Pc.next, writesOf]
  | readClock => simp [Pc.next, writesOf]
  | testElapsed currentTime =>
      simp only [Pc.next]
      split <;> simp [writesOf]
  | testMode =>
      simp only [Pc.next]
      split <;> simp [writesOf]

/-- Once on, the LED stays on until the task comes to the blinking. -/
theorem Lit.step {cfg : Setting} {s s' : State} {e : Event} (h : Lit s)
    (hpc : s'.pc ≠ .readClock) (hmove : State.Move cfg s e s') : Lit s' := by
  cases hmove with
  | callback now th sh hth =>
      have haux := aux_callback hth
      exact
        { level := by rw [haux]; exact h.level
          ahead := h.ahead }
  | task now th sh hth =>
      rcases (aux_task hth).2 .led with ⟨hahead, hlevel⟩ | hwrite
      · exact
          { level := hlevel.trans h.level
            ahead := by rw [hahead]; exact h.ahead }
      · have hhigh := h.ahead
        rw [hwrite, List.forall_mem_cons] at hhigh
        exact ⟨hhigh.1, hhigh.2⟩
  | control now hdone => exact ⟨h.level, Pc.ahead_next hpc⟩
  | _ => exact { h with }

/-- The pulse ends with the next statement of the task, or the one behind the
delay that it is in. -/
def EndsPulse (pin : AuxPin) (rest : List TaskStmt) : Prop :=
  rest.head? = some (.digitalWrite pin .low) ∨
    rest.take 2 = [.delayMicroseconds, .digitalWrite pin .low]

/-- What the task's pins show between any two steps. -/
structure Indicates (cfg : Setting) (s : State) : Prop where
  /-- on, once the task has acted on finding a client, until it blinks again -/
  connected : s.pc.Polling ∨ s.pc = .advertise →
    .digitalWrite .led .high ∉ s.task.rest →
    ∀ es t, (machine cfg).run s es = some t →
      (machine cfg).Always (fun s => s.pc ≠ .readClock) s es → t.world.aux .led = .high
  timeout : s.ManagesTimeout → s.world.aux .led = .low
  pulse : ∀ pin ≠ .led, s.world.aux pin = .high → EndsPulse pin s.task.rest
  oneAtATime : ¬ (s.world.aux .leftTrig = .high ∧ s.world.aux .rightTrig = .high)

theorem Pc.ledProgram_of_polling {pc : Pc} (h : pc.Polling ∨ pc = .advertise) :
    pc.ledProgram = some [.high] := by
  rcases h with h | rfl
  · cases pc with
    | innerTest => rfl
    | pollMode => rfl
    | notifyMode => rfl
    | _ => exact h.elim
  · rfl

/-- In the connected branch the LED is on behind the first statement. -/
theorem PinInv.lit {s : State} (h : PinInv s) (hpc : s.pc.Polling ∨ s.pc = .advertise)
    (hdone : .digitalWrite .led .high ∉ s.task.rest) : Lit s := by
  obtain ⟨start, hfollows⟩ := h.led _ (Pc.ledProgram_of_polling hpc)
  have hnone : writesOf .led s.task.rest = [] := by
    obtain ⟨past, hprogram, -⟩ := hfollows
    rcases List.append_eq_singleton_iff.mp hprogram with ⟨-, hahead⟩ | ⟨-, hahead⟩
    · have hmem := mem_writesOf.mp (hahead ▸ List.mem_singleton_self _)
      exact absurd hmem hdone
    · exact hahead
  rw [hnone] at hfollows
  exact ⟨hfollows.finish, by simp [hnone]⟩

/-- What is missing of a pulse is what the code goes on with. -/
theorem endsPulse_of_writesOf {pc : Pc} {rest : List TaskStmt} (hcode : pc.InCode rest)
    {pin : AuxPin} (hpin : pin ≠ .led) (hwrites : writesOf pin rest = [.low]) :
    EndsPulse pin rest := by
  have hmem : TaskStmt.digitalWrite pin .low ∈ rest :=
    mem_writesOf.mp (by rw [hwrites]; exact List.mem_singleton_self _)
  cases pc with
  | innerTest tmp =>
      rcases hcode with hcode | hcode
      · have hled := hcode.subset hmem
        simp at hled
      · have hall : ∀ rest ∈ measureAndSleep.tails, writesOf pin rest = [.low] →
            rest.head? = some (.digitalWrite pin .low) ∨
              rest.take 2 = [.delayMicroseconds, .digitalWrite pin .low] := by
          cases pin with
          | led => exact absurd rfl hpin
          | _ => decide
        exact hall rest ((List.mem_tails _ _).mpr hcode) hwrites
  | outerTest => simpa using hcode.subset hmem
  | advertise => simpa using hcode.subset hmem
  | waitTest => simpa using hcode.subset hmem
  | readClock =>
      have hblink := hcode.subset hmem
      simp [coolBlink, hpin] at hblink
  | _ =>
      rw [show rest = [] from hcode] at hmem
      cases hmem

/-- Code ends one pulse at a time. -/
theorem EndsPulse.pin_eq {pin pin' : AuxPin} {rest : List TaskStmt} (h : EndsPulse pin rest)
    (h' : EndsPulse pin' rest) : pin = pin' := by
  cases rest with
  | nil => simp [EndsPulse] at h
  | cons st rest =>
      cases rest with
      | nil =>
          simp only [EndsPulse, List.head?_cons, Option.some.injEq, List.take_succ_cons,
            List.take_nil, List.cons.injEq, reduceCtorEq, and_false, or_false] at h h'
          rw [h] at h'
          simpa using h'
      | cons st' rest =>
          simp only [EndsPulse, List.head?_cons, Option.some.injEq, List.take_succ_cons,
            List.take_zero, List.cons.injEq, and_true] at h h'
          rcases h with rfl | ⟨rfl, rfl⟩ <;> simpa using h'

/--
Whatever the radio, the clients and the callbacks do in between: from the first
statement of the connected branch on the LED is on until the task blinks again,
and it is off while the timeout is managed; a trigger pin is high only in the
delay of its pulse and before the statement that ends it, and the two are never
high together.
-/
theorem indicates_of_reach {cfg : Setting} {ok : State → Event → Prop} {s : State}
    (h : (machine cfg).Reach ok s) : Indicates cfg s := by
  have hinv := pinInv_of_reach h
  have hpulse : ∀ pin ≠ .led, s.world.aux pin = .high → EndsPulse pin s.task.rest := by
    intro pin hpin hhigh
    have hfollows := hinv.triggers pin hpin
    rw [hhigh] at hfollows
    exact endsPulse_of_writesOf hinv.code hpin hfollows.pulse
  exact
    { connected := by
        intro hpc hdone es t hrun hnot
        have hlit : Lit t := hnot.keeps _
          (fun _ _ _ hlit hpc hnext => hlit.step hpc (move_of_next hnext))
          (hinv.lit hpc hdone) hrun
        exact hlit.level
      timeout := hinv.timeout
      pulse := hpulse
      oneAtATime := by
        rintro ⟨hleft, hright⟩
        have hsame := (hpulse .leftTrig (by decide) hleft).pin_eq
          (hpulse .rightTrig (by decide) hright)
        cases hsame }

/-- A client connects and the task samples the right sensor while the client's
write is being handled. -/
theorem indicates_of_reach_sampling :
    ∃ s, (machine singleStatements).Reachable s ∧ s.world.aux .rightTrig = .high ∧
      Indicates singleStatements s := by
  obtain ⟨s, hreach, htest⟩ := Machine.exists_reachable_of_any
    (M := machine singleStatements) (fun s => decide (s.world.aux .rightTrig = .high))
    ([Event.constructorReturns, Event.connect, Event.callback 0, Event.callback 0] ++
      List.replicate 5 (Event.task 0) ++
      [Event.write characteristicUuidSetDriveModes (some [1, 80]), Event.callback 0] ++
      List.replicate 9 (Event.task 0))
    (by decide +kernel)
  exact ⟨s, hreach, of_decide_eq_true htest, indicates_of_reach hreach⟩

end BLERCCar.Server
