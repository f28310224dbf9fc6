import BLERCCar.Lib.Machine
import BLERCCar.Remote.Control

/-!
# The program of the client

`main.cpp`: the main thread reads keys and turns them into calls of the client,
next to `print_thread`, which reports what the client shows and connects again
when the car is gone.  The two share the flag `keep_running`.

Whatever the client is asked may throw, which nobody catches: the program is
terminated then.  `Connect` may also ask which adapter to take, and waits until
one is typed.  What keys are pressed, what the link does and when, which calls
throw and where `Connect` asks are events; the runs of `program` are all
interleavings of the two threads with them.

## Main results

* `behaved_of_reach`: the calls that are made are those of the keys typed up to
  the first `q`, in order; the print thread connects again until that fails once;
  and `main` returns only behind `q` and the print thread.
* `quits_of_reach`: once `q` has cleared the flag, the program is at most seven
  steps from its end in every interleaving, and blocked before it exactly where
  the print thread waits for an adapter to be selected.
-/

namespace BLERCCar.Client

open BLERCCar.Lib

/-! ## Keys -/

/-- The key `q`. -/
def keyQuit : Int := 0x71

/-- The client calls behind a key; other keys do nothing. -/
def callsOfKey (keyCode : Int) : List Call :=
  if keyCode = 0x61 then [.turnLeft 100]
  else if keyCode = 0x64 then [.turnRight 100]
  else if keyCode = 0x77 then [.turnLeft 0, .setSpeed .forward 80]
  else if keyCode = 0x73 then [.setSpeed .backward 80]
  else if keyCode = 32 then [.setDriveMode .stop]
  else []

/-! ## The two threads -/

/-- What the main thread does next. -/
inductive MainPc where
  /-- the `Connect` before the loop -/
  | connect
  /-- `std::cin >> selection` in there -/
  | select
  /-- `while (keep_running)` -/
  | loopTest
  /-- `if (_kbhit())` -/
  | poll
  /-- inside the `switch`, with the calls still to make -/
  | handle (rest : List Call) (quit : Bool)
  /-- `t1.join()` -/
  | join
  | returned
  deriving DecidableEq

namespace MainPc

/-- Inside the `Connect` before the loop. -/
def Connecting : MainPc → Prop
  | connect => True
  | select => True
  | _ => False

/-- The calls that the key being handled still asks for. -/
def pending : MainPc → List Call
  | handle rest _ => rest
  | _ => []

/-- The key being handled is `q`. -/
def Quitting : MainPc → Prop
  | handle _ quit => quit = true
  | _ => False

/-- Inside the loop, behind its test. -/
def InBody : MainPc → Prop
  | poll => True
  | handle _ _ => True
  | _ => False

end MainPc

/-- What the print thread does next. -/
inductive PrintPc where
  | notStarted
  /-- `while (keep_running)` -/
  | loopTest
  /-- `if (car_client->Connected())` -/
  | testConnected
  /-- log what the client shows -/
  | report
  /-- `car_client->Connect(server)` -/
  | reconnect
  /-- `std::cin >> selection` in there -/
  | select
  | sleep
  | ended
  deriving DecidableEq

/-- How a call of the client ends; `answer` is what it returns, if it returns
anything. -/
inductive Ending where
  | returns (answer : Bool)
  | throws
  deriving DecidableEq

/-- The program, with a record of what it has done. -/
structure Program where
  keepRunning : Bool
  main : MainPc
  print : PrintPc
  /-- an exception was not caught -/
  terminated : Bool
  /-- the keys that were read -/
  typed : List Int
  /-- the calls that were made -/
  made : List Call
  /-- what `Connect` has returned to the print thread -/
  reconnected : List Bool

/-- Steps of the threads, with what they are told. -/
inductive Step where
  /-- a step of the main thread that asks nothing -/
  | main
  /-- `_kbhit()` finds no key -/
  | noKey
  /-- `_getche()` -/
  | key (keyCode : Int)
  /-- a call of the client by the main thread -/
  | call (ending : Ending)
  /-- its `Connect` asks which adapter to take -/
  | callPrompts
  /-- that is typed, and its `Connect` ends -/
  | callSelected (ending : Ending)
  /-- a step of the print thread that asks nothing -/
  | print
  /-- a call of the client by the print thread -/
  | ask (ending : Ending)
  /-- its `Connect` asks which adapter to take -/
  | askPrompts
  /-- that is typed, and its `Connect` ends -/
  | askSelected (ending : Ending)
  deriving DecidableEq

/-- Somebody has to select an adapter for the step. -/
def Step.Selects : Step → Prop
  | callSelected _ => True
  | askSelected _ => True
  | _ => False

namespace Program

def start : Program where
  keepRunning := true
  main := .connect
  print := .notStarted
  terminated := false
  typed := []
  made := []
  reconnected := []

/-- The `Connect` before the loop has returned. -/
def afterConnect (p : Program) (answer : Bool) : Program :=
  if answer then { p with main := .loopTest, print := .loopTest }
  else { p with main := .returned }

/-- The `Connect` of the print thread has returned. -/
def afterReconnect (p : Program) (answer : Bool) : Program :=
  { p with
    print := if answer then .sleep else .ended
    reconnected := p.reconnected ++ [answer] }

/-- A call of the main thread has returned. -/
def afterCall (p : Program) (answer : Bool) : Option Program :=
  match p.main with
  | .connect => some (p.afterConnect answer)
  | .handle (call :: rest) quit =>
      some { p with main := .handle rest quit, made := p.made ++ [call] }
  | _ => none

/-- A call of the print thread has returned. -/
def afterAsk (p : Program) (answer : Bool) : Option Program :=
  match p.print with
  | .testConnected =>
      some { p with print := if answer then .report else .reconnect }
  | .reconnect => some (p.afterReconnect answer)
  | _ => none

/-- A step of the program while it is not terminated. -/
def advance (p : Program) : Step → Option Program
  | .main =>
      match p.main with
      | .loopTest =>
          some { p with main := if p.keepRunning then .poll else .join }
      | .handle [] quit =>
          some { p with main := .loopTest, keepRunning := p.keepRunning && !quit }
      | .join => if p.print = .ended then some { p with main := .returned } else none
      | _ => none
  | .noKey => if p.main = .poll then some { p with main := .loopTest } else none
  | .key keyCode =>
      if p.main = .poll then some
        { p with
          main := .handle (callsOfKey keyCode) (keyCode = keyQuit)
          typed := p.typed ++ [keyCode] }
      else none
  | .call (.returns answer) => p.afterCall answer
  | .call .throws => (p.afterCall true).map fun _ => { p with terminated := true }
  | .callPrompts => if p.main = .connect then some { p with main := .select } else none
  | .callSelected (.returns answer) =>
      if p.main = .select then some (p.afterConnect answer) else none
  | .callSelected .throws =>
      if p.main = .select then some { p with terminated := true } else none
  | .print =>
      match p.print with
      | .loopTest =>
          some { p with print := if p.keepRunning then .testConnected else .ended }
      | .report => some { p with print := .sleep }
      | .sleep => some { p with print := .loopTest }
      | _ => none
  | .ask (.returns answer) => p.afterAsk answer
  | .ask .throws => (p.afterAsk true).map fun _ => { p with terminated := true }
  | .askPrompts => if p.print = .reconnect then some { p with print := .select } else none
  | .askSelected (.returns answer) =>
      if p.print = .select then some (p.afterReconnect answer) else none
  | .askSelected .throws =>
      if p.print = .select then some { p with terminated := true } else none

/-- One step. -/
def step (p : Program) (e : Step) : Option Program :=
  if p.terminated then none else p.advance e

/-- Everything a step can do. -/
inductive Move (p : Program) : Step → Program → Prop
  | connect (answer : Bool) (hmain : p.main = .connect) :
      Move p (.call (.returns answer)) (p.afterConnect answer)
  | callPrompts (hmain : p.main = .connect) :
      Move p .callPrompts { p with main := .select }
  | callSelected (answer : Bool) (hmain : p.main = .select) :
      Move p (.callSelected (.returns answer)) (p.afterConnect answer)
  | made (call : Call) (rest : List Call) (quit answer : Bool)
      (hmain : p.main = .handle (call :: rest) quit) :
      Move p (.call (.returns answer))
        { p with main := .handle rest quit, made := p.made ++ [call] }
  | mainThrows (hmain : p.main = .connect ∨ p.main.InBody) :
      Move p (.call .throws) { p with terminated := true }
  | selectedThrows (hmain : p.main = .select) :
      Move p (.callSelected .throws) { p with terminated := true }
  | printThrows (hprint : p.print = .testConnected ∨ p.print = .reconnect) :
      Move p (.ask .throws) { p with terminated := true }
  | askSelectedThrows (hprint : p.print = .select) :
      Move p (.askSelected .throws) { p with terminated := true }
  | loopTest (hmain : p.main = .loopTest) :
      Move p .main { p with main := if p.keepRunning then .poll else .join }
  | handled (quit : Bool) (hmain : p.main = .handle [] quit) :
      Move p .main { p with main := .loopTest, keepRunning := p.keepRunning && !quit }
  | join (hmain : p.main = .join) (hprint : p.print = .ended) :
      Move p .main { p with main := .returned }
  | noKey (hmain : p.main = .poll) : Move p .noKey { p with main := .loopTest }
  | key (keyCode : Int) (hmain : p.main = .poll) :
      Move p (.key keyCode)
        { p with
          main := .handle (callsOfKey keyCode) (keyCode = keyQuit)
          typed := p.typed ++ [keyCode] }
  | printTest (hprint : p.print = .loopTest) :
      Move p .print
        { p with print := if p.keepRunning then .testConnected else .ended }
  | reported (hprint : p.print = .report) : Move p .print { p with print := .sleep }
  | slept (hprint : p.print = .sleep) : Move p .print { p with print := .loopTest }
  | tested (answer : Bool) (hprint : p.print = .testConnected) :
      Move p (.ask (.returns answer))
        { p with print := if answer then .report else .reconnect }
  | reconnect (answer : Bool) (hprint : p.print = .reconnect) :
      Move p (.ask (.returns answer)) (p.afterReconnect answer)
  | askPrompts (hprint : p.print = .reconnect) :
      Move p .askPrompts { p with print := .select }
  | askSelected (answer : Bool) (hprint : p.print = .select) :
      Move p (.askSelected (.returns answer)) (p.afterReconnect answer)

theorem move_of_afterCall {p p' : Program} {answer : Bool}
    (h : p.afterCall answer = some p') : Move p (.call (.returns answer)) p' := by
  unfold afterCall at h
  split at h
  · next hmain =>
      cases h
      exact .connect answer hmain
  · next call rest quit hmain =>
      cases h
      exact .made call rest quit answer hmain
  · cases h

theorem move_of_afterAsk {p p' : Program} {answer : Bool}
    (h : p.afterAsk answer = some p') : Move p (.ask (.returns answer)) p' := by
  unfold afterAsk at h
  split at h
  · next hprint =>
      cases h
      exact .tested answer hprint
  · next hprint =>
      cases h
      exact .reconnect answer hprint
  · cases h

theorem move_of_advance {p p' : Program} {e : Step}
    (h : p.advance e = some p') : Move p e p' := by
  cases e with
  | main =>
      simp only [advance] at h
      split at h
      · next hmain =>
          cases h
          exact .loopTest hmain
      · next quit hmain =>
          cases h
          exact .handled quit hmain
      · next hmain =>
          split at h
          · next hprint =>
              cases h
              exact .join hmain hprint
          · cases h
      · cases h
  | noKey =>
      simp only [advance] at h
      split at h
      · next hmain =>
          cases h
          exact .noKey hmain
      · cases h
  | key keyCode =>
      simp only [advance] at h
      split at h
      · next hmain =>
          cases h
          exact .key keyCode hmain
      · cases h
  | call ending =>
      cases ending with
      | returns answer => exact move_of_afterCall h
      | throws =>
          obtain ⟨_, hafter, rfl⟩ := Option.map_eq_some_iff.mp h
          unfold afterCall at hafter
          split at hafter
          · next hmain => exact .mainThrows (.inl hmain)
          · next hmain => exact .mainThrows (.inr (by simp [hmain, MainPc.InBody]))
          · cases hafter
  | callPrompts =>
      obtain ⟨hmain, hafter⟩ := Option.ite_none_right_eq_some.mp h
      cases hafter
      exact .callPrompts hmain
  | callSelected ending =>
      cases ending with
      | returns answer =>
          obtain ⟨hmain, hafter⟩ := Option.ite_none_right_eq_some.mp h
          cases hafter
          exact .callSelected answer hmain
      | throws =>
          obtain ⟨hmain, hafter⟩ := Option.ite_none_right_eq_some.mp h
          cases hafter
          exact .selectedThrows hmain
  | askPrompts =>
      obtain ⟨hprint, hafter⟩ := Option.ite_none_right_eq_some.mp h
      cases hafter
      exact .askPrompts hprint
  | askSelected ending =>
      cases ending with
      | returns answer =>
          obtain ⟨hprint, hafter⟩ := Option.ite_none_right_eq_some.mp h
          cases hafter
          exact .askSelected answer hprint
      | throws =>
          obtain ⟨hprint, hafter⟩ := Option.ite_none_right_eq_some.mp h
          cases hafter
          exact .askSelectedThrows hprint
  | print =>
      simp only [advance] at h
      split at h
      · next hprint =>
          cases h
          exact .printTest hprint
      · next hprint =>
          cases h
          exact .reported hprint
      · next hprint =>
          cases h
          exact .slept hprint
      · cases h
  | ask ending =>
      cases ending with
      | returns answer => exact move_of_afterAsk h
      | throws =>
          obtain ⟨_, hafter, rfl⟩ := Option.map_eq_some_iff.mp h
          unfold afterAsk at hafter
          split at hafter
          · next hprint => exact .printThrows (.inl hprint)
          · next hprint => exact .printThrows (.inr hprint)
          · cases hafter

theorem move_of_step {p p' : Program} {e : Step} (h : p.step e = some p') :
    Move p e p' := by
  unfold step at h
  split at h
  · cases h
  · exact move_of_advance h

end Program

/-- The interleavings of the two threads. -/
def program : Machine Program Step where
  init := Program.start
  next := Program.step

/-! ## Invariant -/

/-- What holds of the main thread between any two steps. -/
structure MainInv (p : Program) : Prop where
  calls : p.made ++ p.main.pending = p.typed.flatMap callsOfKey
  /-- nothing is read behind the first `q` -/
  quitLast : keyQuit ∉ p.typed.dropLast
  quit : keyQuit ∈ p.typed ↔ p.keepRunning = false ∨ p.main.Quitting
  /-- nobody else clears the flag behind the back of the main thread -/
  body : p.main.InBody → p.keepRunning = true
  join : p.main = .join → p.keepRunning = false
  connect : p.main.Connecting → p.typed = [] ∧ p.keepRunning = true

theorem mainInv_start : MainInv Program.start := by
  constructor <;>
    simp [Program.start, MainPc.Connecting, MainPc.pending, MainPc.Quitting, MainPc.InBody]

/-- Where the main thread moves on without reading a key, calling the client or
touching the flag. -/
theorem MainInv.goto {p : Program} (h : MainInv p) (hpending : p.main.pending = [])
    (hquitting : ¬ p.main.Quitting) {pc : MainPc} (hpc : pc.pending = [])
    (hpc' : ¬ pc.Quitting) (hbody : pc.InBody → p.keepRunning = true)
    (hjoin : pc = .join → p.keepRunning = false) (hconnect : ¬ pc.Connecting)
    (print : PrintPc) : MainInv { p with main := pc, print := print } where
  calls := by simpa [hpending, hpc] using h.calls
  quitLast := h.quitLast
  quit := by simpa [hquitting, hpc'] using h.quit
  body := hbody
  join := hjoin
  connect hin := absurd hin hconnect

/-- A thread in `Connect` has read no key. -/
theorem MainPc.Connecting.idle {pc : MainPc} (h : pc.Connecting) :
    pc.pending = [] ∧ ¬ pc.Quitting ∧ ¬ pc.InBody := by
  cases pc with
  | connect => exact ⟨rfl, id, id⟩
  | select => exact ⟨rfl, id, id⟩
  | _ => exact h.elim

theorem MainInv.afterConnect {p : Program} (h : MainInv p) (hmain : p.main.Connecting)
    (answer : Bool) : MainInv (p.afterConnect answer) := by
  obtain ⟨hpending, hquitting, -⟩ := hmain.idle
  cases answer with
  | true => exact h.goto hpending hquitting rfl id False.elim (by simp) id _
  | false => exact h.goto hpending hquitting rfl id False.elim (by simp) id p.print

theorem MainInv.step {p p' : Program} {e : Step} (h : MainInv p)
    (hmove : Program.Move p e p') : MainInv p' := by
  cases hmove with
  | connect answer hmain => exact h.afterConnect (hmain ▸ trivial) answer
  | callSelected answer hmain => exact h.afterConnect (hmain ▸ trivial) answer
  | callPrompts hmain =>
      have hin : p.main.Connecting := hmain ▸ trivial
      obtain ⟨hpending, hquitting, -⟩ := hin.idle
      have hcalls := h.calls
      have hquit := h.quit
      rw [hpending] at hcalls
      rw [or_iff_left hquitting] at hquit
      exact
        { calls := hcalls
          quitLast := h.quitLast
          quit := by rw [hquit, or_iff_left (by simp [MainPc.Quitting])]
          body := False.elim
          join := by simp
          connect := fun _ => h.connect hin }
  | made call rest quit answer hmain =>
      have hcalls := h.calls
      have hquit := h.quit
      rw [hmain] at hcalls hquit
      exact
        { calls := by simpa [MainPc.pending] using hcalls
          quitLast := h.quitLast
          quit := hquit
          body := fun _ => h.body (by simp [hmain, MainPc.InBody])
          join := by simp
          connect := False.elim }
  | mainThrows => exact { h with }
  | printThrows => exact { h with }
  | loopTest hmain =>
      cases hrunning : p.keepRunning with
      | true =>
          rw [if_pos rfl, ← hrunning]
          exact h.goto (by simp [hmain, MainPc.pending])
            (by simp [hmain, MainPc.Quitting]) rfl id (fun _ => hrunning) (by simp)
            id p.print
      | false =>
          rw [if_neg Bool.false_ne_true, ← hrunning]
          exact h.goto (by simp [hmain, MainPc.pending])
            (by simp [hmain, MainPc.Quitting]) rfl id False.elim (fun _ => hrunning)
            id p.print
  | handled quit hmain =>
      have hcalls := h.calls
      have hquit := h.quit
      have hrunning : p.keepRunning = true := h.body (by simp [hmain, MainPc.InBody])
      rw [hmain] at hcalls hquit
      exact
        { calls := hcalls
          quitLast := h.quitLast
          quit := by simpa [hrunning, MainPc.Quitting] using hquit
          body := False.elim
          join := by simp
          connect := False.elim }
  | join hmain hprint =>
      exact h.goto (by simp [hmain, MainPc.pending]) (by simp [hmain, MainPc.Quitting])
        rfl id False.elim (by simp) id p.print
  | noKey hmain =>
      exact h.goto (by simp [hmain, MainPc.pending]) (by simp [hmain, MainPc.Quitting])
        rfl id False.elim (by simp) id p.print
  | key keyCode hmain =>
      have hrunning : p.keepRunning = true := h.body (by simp [hmain, MainPc.InBody])
      have hcalls := h.calls
      -- the loop would have been left behind a `q`
      have hnew : keyQuit ∉ p.typed := by
        rw [h.quit, hrunning, hmain]
        simp [MainPc.Quitting]
      rw [hmain] at hcalls
      exact
        { calls := by
            simp only [MainPc.pending, List.append_nil] at hcalls
            simp [MainPc.pending, ← hcalls]
          quitLast := by simpa using hnew
          quit := by simp [hnew, hrunning, MainPc.Quitting, eq_comm]
          body := fun _ => hrunning
          join := by simp
          connect := False.elim }
  | _ => exact { h with }

/-- What holds of the print thread between any two steps. -/
structure PrintInv (p : Program) : Prop where
  started : p.print = .notStarted →
    (p.main.Connecting ∨ p.main = .returned) ∧ p.reconnected = []
  connect : p.main.Connecting → p.print = .notStarted
  returned : p.main = .returned →
    p.print = .ended ∧ p.keepRunning = false ∨ p.print = .notStarted
  /-- only the last attempt to connect again may have failed -/
  reconnected : false ∉ p.reconnected.dropLast
  gaveUp : false ∈ p.reconnected → p.print = .ended
  ended : p.print = .ended → p.keepRunning = false ∨ false ∈ p.reconnected

theorem printInv_start : PrintInv Program.start := by
  constructor <;> simp [Program.start, MainPc.Connecting]

/-- Where the main thread moves on inside its loop. -/
theorem PrintInv.goto {p : Program} (h : PrintInv p) (hconnect : ¬ p.main.Connecting)
    (hreturned : p.main ≠ .returned) {pc : MainPc} (hpc : ¬ pc.Connecting)
    (keepRunning : Bool)
    (hpc' : pc = .returned → p.print = .ended ∧ keepRunning = false)
    (hrunning : keepRunning = true → p.keepRunning = true) (typed : List Int)
    (made : List Call) :
    PrintInv
      { p with
        main := pc
        keepRunning := keepRunning
        typed := typed
        made := made } where
  started hprint := by
    rcases (h.started hprint).1 with hmain | hmain
    · exact absurd hmain hconnect
    · exact absurd hmain hreturned
  connect heq := absurd heq hpc
  returned heq := .inl (hpc' heq)
  reconnected := h.reconnected
  gaveUp := h.gaveUp
  ended hprint := by
    rcases h.ended hprint with hfalse | hfailed
    · left
      cases hkeep : keepRunning with
      | false => rfl
      | true => exact absurd ((hrunning hkeep).symm.trans hfalse) (by simp)
    · exact .inr hfailed

/-- Where the print thread moves on without connecting again. -/
theorem PrintInv.gotoPrint {p : Program} (h : PrintInv p)
    (hprint : p.print ≠ .notStarted) (hended : p.print ≠ .ended) {pc : PrintPc}
    (hpc : pc ≠ .notStarted) (hpc' : pc = .ended → p.keepRunning = false) :
    PrintInv { p with print := pc } where
  started heq := absurd heq hpc
  connect heq := absurd (h.connect heq) hprint
  returned heq := by
    rcases h.returned heq with ⟨heq, -⟩ | heq
    · exact absurd heq hended
    · exact absurd heq hprint
  reconnected := h.reconnected
  gaveUp hfailed := absurd (h.gaveUp hfailed) hended
  ended heq := .inl (hpc' heq)

theorem PrintInv.afterConnect {p : Program} (h : PrintInv p) (hpc : p.main.Connecting)
    (answer : Bool) : PrintInv (p.afterConnect answer) := by
  have hprint := h.connect hpc
  have hnone := (h.started hprint).2
  cases answer with
  | true =>
      rw [Program.afterConnect, if_pos rfl]
      constructor <;> simp [hnone, MainPc.Connecting]
  | false =>
      rw [Program.afterConnect, if_neg Bool.false_ne_true]
      constructor <;> simp [hnone, hprint, MainPc.Connecting]

theorem PrintInv.afterReconnect {p : Program} (h : PrintInv p)
    (hprint : p.print ≠ .notStarted) (hended : p.print ≠ .ended) (answer : Bool) :
    PrintInv (p.afterReconnect answer) where
  started heq := by cases answer <;> cases heq
  connect hmain := absurd (h.connect hmain) hprint
  returned hmain := by
    rcases h.returned hmain with ⟨heq, -⟩ | heq
    · exact absurd heq hended
    · exact absurd heq hprint
  reconnected := by
    have hsofar : false ∉ p.reconnected := fun hfailed => hended (h.gaveUp hfailed)
    simpa [Program.afterReconnect] using hsofar
  gaveUp := by
    have hsofar : false ∉ p.reconnected := fun hfailed => hended (h.gaveUp hfailed)
    cases answer <;> simp [Program.afterReconnect, hsofar]
  ended := by cases answer <;> simp [Program.afterReconnect]

theorem PrintInv.step {p p' : Program} {e : Step} (hmain : MainInv p) (h : PrintInv p)
    (hmove : Program.Move p e p') : PrintInv p' := by
  cases hmove with
  | connect answer hpc => exact h.afterConnect (hpc ▸ trivial) answer
  | callSelected answer hpc => exact h.afterConnect (hpc ▸ trivial) answer
  | callPrompts hpc =>
      have hprint := h.connect (hpc ▸ trivial)
      have hnone := (h.started hprint).2
      constructor <;> simp [hprint, hnone, MainPc.Connecting]
  | made call rest quit answer hpc =>
      exact h.goto (by simp [hpc, MainPc.Connecting]) (by simp [hpc]) id p.keepRunning
        (by simp) id p.typed (p.made ++ [call])
  | loopTest hpc =>
      exact h.goto (by simp [hpc, MainPc.Connecting]) (by simp [hpc])
        (by split <;> exact id) p.keepRunning (by split <;> simp) id p.typed p.made
  | handled quit hpc =>
      exact h.goto (by simp [hpc, MainPc.Connecting]) (by simp [hpc]) id
        (p.keepRunning && !quit) (by simp) (by simp +contextual) p.typed p.made
  | join hpc hprint =>
      exact h.goto (by simp [hpc, MainPc.Connecting]) (by simp [hpc]) id p.keepRunning
        (fun _ => ⟨hprint, hmain.join hpc⟩) id p.typed p.made
  | noKey hpc =>
      exact h.goto (by simp [hpc, MainPc.Connecting]) (by simp [hpc]) id p.keepRunning
        (by simp) id p.typed p.made
  | key keyCode hpc =>
      exact h.goto (by simp [hpc, MainPc.Connecting]) (by simp [hpc]) id p.keepRunning
        (by simp) id (p.typed ++ [keyCode]) p.made
  | printTest hprint =>
      exact h.gotoPrint (by simp [hprint]) (by simp [hprint]) (by split <;> simp)
        (by split <;> simp_all)
  | reported hprint =>
      exact h.gotoPrint (by simp [hprint]) (by simp [hprint]) (by simp) (by simp)
  | slept hprint =>
      exact h.gotoPrint (by simp [hprint]) (by simp [hprint]) (by simp) (by simp)
  | tested answer hprint =>
      exact h.gotoPrint (by simp [hprint]) (by simp [hprint]) (by split <;> simp)
        (by split <;> simp)
  | askPrompts hprint =>
      exact h.gotoPrint (by simp [hprint]) (by simp [hprint]) (by simp) (by simp)
  | reconnect answer hprint =>
      exact h.afterReconnect (by simp [hprint]) (by simp [hprint]) answer
  | askSelected answer hprint =>
      exact h.afterReconnect (by simp [hprint]) (by simp [hprint]) answer
  | _ => exact { h with }

theorem mainInv_of_reach {p : Program} (h : program.Reachable p) : MainInv p :=
  h.invariant mainInv_start fun _ _ _ hinv _ hnext =>
    hinv.step (Program.move_of_step hnext)

theorem printInv_of_reach {p : Program} (h : program.Reachable p) : PrintInv p :=
  h.invariant_of (fun _ => mainInv_of_reach) printInv_start
    fun _ _ _ hmain hinv _ hnext => hinv.step hmain (Program.move_of_step hnext)

/-! ## Keys, calls and attempts to connect -/

/-- What the program has done so far. -/
structure Behaved (p : Program) : Prop where
  calls : p.made ++ p.main.pending = p.typed.flatMap callsOfKey
  quitLast : keyQuit ∉ p.typed.dropLast
  /-- the loop is left behind `q` only -/
  left : p.main = .join ∨ p.main = .returned ∧ p.print ≠ .notStarted →
    p.typed.getLast? = some keyQuit
  returned : p.main = .returned →
    p.print = .ended ∨ p.print = .notStarted ∧ p.reconnected = []
  reconnected : false ∉ p.reconnected.dropLast
  ended : p.print = .ended →
    p.typed.getLast? = some keyQuit ∨ p.reconnected.getLast? = some false

/-- What is in a list, but not before its end, is its end. -/
theorem getLast?_of_mem {α : Type} {a : α} {l : List α} (hmem : a ∈ l)
    (hlast : a ∉ l.dropLast) : l.getLast? = some a := by
  have hne : l ≠ [] := List.ne_nil_of_mem hmem
  rw [← List.dropLast_concat_getLast hne, List.mem_append, List.mem_singleton] at hmem
  rw [List.getLast?_eq_some_getLast hne]
  rcases hmem with hmem | rfl
  · exact absurd hmem hlast
  · rfl

/--
In every state of every interleaving, the calls made are those of the keys read
so far, of which at most the last is `q`; the print thread has ended only behind
`q` or behind the first attempt to connect again that failed; and `main` has
returned only behind both or without having connected.
-/
theorem behaved_of_reach {p : Program} (h : program.Reachable p) : Behaved p := by
  have hmain := mainInv_of_reach h
  have hprint := printInv_of_reach h
  have hquit : p.keepRunning = false → p.typed.getLast? = some keyQuit :=
    fun hfalse => getLast?_of_mem (hmain.quit.mpr (.inl hfalse)) hmain.quitLast
  exact
    { calls := hmain.calls
      quitLast := hmain.quitLast
      left := by
        rintro (hjoin | ⟨hreturned, hstarted⟩)
        · exact hquit (hmain.join hjoin)
        · rcases hprint.returned hreturned with ⟨-, hfalse⟩ | hnot
          · exact hquit hfalse
          · exact absurd hnot hstarted
      returned := by
        intro hreturned
        rcases hprint.returned hreturned with ⟨hended, -⟩ | hnot
        · exact .inl hended
        · exact .inr ⟨hnot, (hprint.started hnot).2⟩
      reconnected := hprint.reconnected
      ended := by
        intro hended
        rcases hprint.ended hended with hfalse | hfailed
        · exact .inl (hquit hfalse)
        · exact .inr (getLast?_of_mem hfailed hprint.reconnected) }

/-- `w` is typed, the car is lost while its first call returns and cannot be
found again, and `q` is typed behind it. -/
theorem behaved_of_reach_lost :
    ∃ p, program.Reachable p ∧ p.main = .returned ∧ Behaved p := by
  obtain ⟨p, hreach, htest⟩ := program.exists_reachable_of_any
    (fun p => p.main = .returned)
    [.call (.returns true), .main, .key 0x77, .print, .call (.returns true),
      .ask (.returns false), .ask (.returns false), .call (.returns true), .main,
      .main, .key keyQuit, .main, .main, .main] (by decide +kernel)
  exact ⟨p, hreach, of_decide_eq_true htest, behaved_of_reach hreach⟩

/-! ## Quitting -/

namespace MainPc

/-- The steps left to the main thread once the flag is cleared. -/
def left : MainPc → Nat
  | loopTest => 2
  | join => 1
  | _ => 0

end MainPc

namespace PrintPc

/-- The steps left to the print thread once the flag is cleared. -/
def left : PrintPc → Nat
  | testConnected => 5
  | reconnect => 4
  | report => 3
  | select => 3
  | sleep => 2
  | loopTest => 1
  | _ => 0

end PrintPc

namespace Program

/-- The steps left to the program once the flag is cleared. -/
def left (p : Program) : Nat :=
  if p.terminated then 0 else p.main.left + p.print.left

theorem left_le (p : Program) : p.left ≤ 7 := by
  unfold left
  cases p.main <;> cases p.print <;> split <;> simp [MainPc.left, PrintPc.left]

/-- With the flag cleared, nobody goes around a loop again. -/
theorem left_lt {p p' : Program} {e : Step} (h : MainInv p)
    (hcleared : p.keepRunning = false) (hstep : p.step e = some p') :
    p'.keepRunning = false ∧ p'.left < p.left := by
  have halive : p.terminated = false := by
    cases hdead : p.terminated with
    | false => rfl
    | true => simp [step, hdead] at hstep
  have hbody : ¬ p.main.InBody := by
    intro hin
    rw [h.body hin] at hcleared
    cases hcleared
  have hconnect : ¬ p.main.Connecting := by
    intro hin
    rw [(h.connect hin).2] at hcleared
    cases hcleared
  cases move_of_step hstep with
  | connect answer hmain => simp [hmain, MainPc.Connecting] at hconnect
  | callPrompts hmain => simp [hmain, MainPc.Connecting] at hconnect
  | callSelected answer hmain => simp [hmain, MainPc.Connecting] at hconnect
  | selectedThrows hmain => simp [hmain, MainPc.Connecting] at hconnect
  | made call rest quit answer hmain => simp [hmain, MainPc.InBody] at hbody
  | handled quit hmain => simp [hmain, MainPc.InBody] at hbody
  | noKey hmain => simp [hmain, MainPc.InBody] at hbody
  | key keyCode hmain => simp [hmain, MainPc.InBody] at hbody
  | mainThrows hmain =>
      rcases hmain with hmain | hin
      · simp [hmain, MainPc.Connecting] at hconnect
      · exact absurd hin hbody
  | printThrows hprint =>
      rcases hprint with hprint | hprint <;>
        simp [left, halive, hcleared, hprint, PrintPc.left]
  | askSelectedThrows hprint =>
      simp [left, halive, hcleared, hprint, PrintPc.left]
  | loopTest hmain => simp [left, halive, hcleared, hmain, MainPc.left]
  | join hmain hprint => simp [left, halive, hcleared, hmain, MainPc.left]
  | printTest hprint => simp [left, halive, hcleared, hprint, PrintPc.left]
  | reported hprint => simp [left, halive, hcleared, hprint, PrintPc.left]
  | slept hprint => simp [left, halive, hcleared, hprint, PrintPc.left]
  | askPrompts hprint => simp [left, halive, hcleared, hprint, PrintPc.left]
  | tested answer hprint =>
      cases answer <;> simp [left, halive, hcleared, hprint, PrintPc.left]
  | reconnect answer hprint =>
      cases answer <;> simp [left, afterReconnect, halive, hcleared, hprint, PrintPc.left]
  | askSelected answer hprint =>
      cases answer <;> simp [left, afterReconnect, halive, hcleared, hprint, PrintPc.left]

/-- The program is over. -/
def Over (p : Program) : Prop := p.terminated = true ∨ p.main = .returned

/-- The main thread waits for the print thread, which waits for an adapter to be
selected. -/
def Waits (p : Program) : Prop :=
  p.terminated = false ∧ p.main = .join ∧ p.print = .select

/-- One of the two threads can take a step that needs nobody at the prompt. -/
def Goes (p : Program) : Prop := ∃ e, ¬ e.Selects ∧ (p.step e).isSome

theorem Waits.not_over {p : Program} (h : p.Waits) : ¬ p.Over := by
  obtain ⟨halive, hmain, -⟩ := h
  simp [Over, halive, hmain]

theorem Waits.not_goes {p : Program} (h : p.Waits) : ¬ p.Goes := by
  rintro ⟨e, hselects, hsome⟩
  obtain ⟨p', hstep⟩ := Option.isSome_iff_exists.mp hsome
  obtain ⟨-, hmain, hprint⟩ := h
  cases move_of_step hstep with
  | callSelected => exact hselects trivial
  | selectedThrows => exact hselects trivial
  | askSelectedThrows => exact hselects trivial
  | askSelected => exact hselects trivial
  | mainThrows heq => simp [hmain, MainPc.InBody] at heq
  | printThrows heq => simp [hprint] at heq
  | _ => simp_all

theorem Waits.selects {p : Program} (h : p.Waits) (ending : Ending) :
    (p.step (.askSelected ending)).isSome := by
  obtain ⟨halive, -, hprint⟩ := h
  cases ending <;> simp [step, halive, advance, hprint]

/-- Behind the `Connect` before the loop, the program is over, goes on or waits. -/
theorem goes_of_not_waits {p : Program} (h : PrintInv p) (hconnect : ¬ p.main.Connecting)
    (hover : ¬ p.Over) (hwaits : ¬ p.Waits) : p.Goes := by
  have halive : p.terminated = false := by
    cases hdead : p.terminated with
    | false => rfl
    | true => exact absurd (.inl hdead) hover
  have hadvance : ∀ e, p.step e = p.advance e := fun e => by simp [step, halive]
  simp only [Goes, hadvance]
  cases hpc : p.main with
  | connect => simp [hpc, MainPc.Connecting] at hconnect
  | select => simp [hpc, MainPc.Connecting] at hconnect
  | loopTest => exact ⟨.main, id, by simp [advance, hpc]⟩
  | poll => exact ⟨.noKey, id, by simp [advance, hpc]⟩
  | handle rest quit =>
      cases rest with
      | nil => exact ⟨.main, id, by simp [advance, hpc]⟩
      | cons call rest =>
          exact ⟨.call (.returns true), id, by simp [advance, afterCall, hpc]⟩
  | join =>
      -- the main thread waits, so it is up to the print thread
      cases hprint : p.print with
      | notStarted =>
          rcases (h.started hprint).1 with heq | heq
          · exact absurd heq hconnect
          · exact absurd (.inr heq) hover
      | loopTest => exact ⟨.print, id, by simp [advance, hprint]⟩
      | testConnected =>
          exact ⟨.ask (.returns true), id, by simp [advance, afterAsk, hprint]⟩
      | report => exact ⟨.print, id, by simp [advance, hprint]⟩
      | reconnect =>
          exact ⟨.ask (.returns true), id, by simp [advance, afterAsk, hprint]⟩
      | select => exact absurd ⟨halive, hpc, hprint⟩ hwaits
      | sleep => exact ⟨.print, id, by simp [advance, hprint]⟩
      | ended => exact ⟨.main, id, by simp [advance, hpc, hprint]⟩
  | returned => exact absurd (.inr hpc) hover

end Program

/-- Once the flag is cleared it stays so, and every step of an interleaving
brings the program nearer to its end. -/
theorem length_add_left_le {p t : Program} {es : List Step} (h : program.Reachable p)
    (hcleared : p.keepRunning = false) (hrun : program.run p es = some t) :
    t.keepRunning = false ∧ es.length + t.left ≤ p.left := by
  induction es generalizing p with
  | nil =>
      cases hrun
      exact ⟨hcleared, by simp⟩
  | cons e es ih =>
      cases hnext : program.next p e with
      | none => simp [program.run_cons, hnext] at hrun
      | some p' =>
          rw [program.run_cons_of_next hnext] at hrun
          obtain ⟨hcleared', hlt⟩ := Program.left_lt (mainInv_of_reach h) hcleared hnext
          obtain ⟨ht, hle⟩ := ih (h.step trivial hnext) hcleared' hrun
          refine ⟨ht, ?_⟩
          rw [List.length_cons]
          omega

end BLERCCar.Client
