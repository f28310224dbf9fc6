import BLERCCar.Client.Main
import BLERCCar.Lib.LastWrite

/-!
# Driving by keyboard

What the keys of `main.cpp` make of the car, through the packets and the
callbacks on the way.  Each value that can be observed of the car is what the
last key that writes it has left there, so a whole session of typing has a
closed form.

The calls are delivered one after the other, as `Control` does it; what else
goes on at the server is the subject of `Driving`.

## Main results

* `readout_deliverAll`: a session acts on the car call by call.
* `asTyped_of_reach`: at any moment of any interleaving of the client's program
  at which no key is being handled, the car is as the keys read so far say.
-/

namespace BLERCCar.Remote

open BLERCCar.Lib BLERCCar.Server BLERCCar.Client

/-! ## Sessions -/

/-- What a call does to the observable values. -/
def callEffect (r : Readout) (call : Call) : Readout :=
  call.locally.foldl (fun r op => op.effect r) r

/-- Whatever memory lies behind the packets, the delivered calls act on the car
one after the other. -/
theorem readout_deliverAll (w : World) {session : List Sent}
    (h : ∀ x ∈ session, x.call.Allowed) :
    (deliverAll session w).readout =
      (session.map Sent.call).foldl callEffect w.readout := by
  induction session generalizing w with
  | nil => rfl
  | cons x session ih =>
      have hx : (x.deliver w).readout = callEffect w.readout x.call := by
        rw [Sent.deliver, handle_write (h x List.mem_cons_self), readout_execAll]
        rfl
      have hsession := ih (x.deliver w) fun y hy => h y (List.mem_cons_of_mem x hy)
      rw [List.map_cons, List.foldl_cons, ← hx]
      exact hsession

/-! ## Keys -/

theorem allowed_callsOfKey (keyCode : Int) :
    ∀ call ∈ callsOfKey keyCode, call.Allowed := by
  unfold callsOfKey
  repeat' split
  all_goals simp [Call.Allowed, BLERCCarPacket.Commandable]

/-- What a key does to the observable values. -/
def keyEffect (r : Readout) (keyCode : Int) : Readout :=
  (callsOfKey keyCode).foldl callEffect r

/-- The mode that a key sets. -/
def modeOfKey (keyCode : Int) : Option DriveMode :=
  if keyCode = 0x77 then some .forward
  else if keyCode = 0x73 then some .backward
  else if keyCode = 32 then some .stop
  else none

/-- The direction inputs of the drive shaft for a mode. -/
def drivePinsOf : DriveMode → Level × Level
  | .forward => (.low, .high)
  | .backward => (.high, .low)
  | _ => (.low, .low)

/-- The direction inputs of the steering motor and its duty behind a key.  The
key for driving straight ahead turns left by zero percent. -/
def steeringOfKey (keyCode : Int) : Option ((Level × Level) × Int) :=
  if keyCode = 0x61 then some ((.high, .low), 255)
  else if keyCode = 0x64 then some ((.low, .high), 255)
  else if keyCode = 0x77 then some ((.high, .low), 150)
  else none

/-- The duty of the drive shaft behind a key.  Stopping leaves it alone, as
`SetSpeed` does nothing in that mode. -/
def driveDutyOfKey (keyCode : Int) : Option Int :=
  if keyCode = 0x77 then some 234
  else if keyCode = 0x73 then some 234
  else none

/-- What a key does, value by value. -/
theorem keyEffect_eq (r : Readout) (keyCode : Int) :
    keyEffect r keyCode =
      { mode := (modeOfKey keyCode).getD r.mode
        drivePins := ((modeOfKey keyCode).map drivePinsOf).getD r.drivePins
        steeringPins := ((steeringOfKey keyCode).map Prod.fst).getD r.steeringPins
        driveDuty := (driveDutyOfKey keyCode).getD r.driveDuty
        steeringDuty := ((steeringOfKey keyCode).map Prod.snd).getD r.steeringDuty } := by
  by_cases ha : keyCode = 0x61
  · subst ha
    rfl
  by_cases hd : keyCode = 0x64
  · subst hd
    rfl
  by_cases hw : keyCode = 0x77
  · subst hw
    rfl
  by_cases hs : keyCode = 0x73
  · subst hs
    rfl
  by_cases hspace : keyCode = 32
  · subst hspace
    rfl
  · have hnone : callsOfKey keyCode = [] := by
      simp [callsOfKey, ha, hd, hw, hs, hspace]
    rw [keyEffect, hnone]
    simp [modeOfKey, steeringOfKey, driveDutyOfKey, ha, hd, hw, hs, hspace]

/-- Typing makes the calls of the keys. -/
theorem foldl_keyEffect (r : Readout) (typed : List Int) :
    (typed.flatMap callsOfKey).foldl callEffect r = typed.foldl keyEffect r :=
  List.foldl_flatMap

/-! ## Typing -/

/-- The car is as the keys say that were typed since `r`. -/
structure AsTyped (typed : List Int) (r r' : Readout) : Prop where
  mode : r'.mode = (lastWrite modeOfKey typed).getD r.mode
  drivePins : r'.drivePins =
    ((lastWrite modeOfKey typed).map drivePinsOf).getD r.drivePins
  steering : (r'.steeringPins, r'.steeringDuty) =
    (lastWrite steeringOfKey typed).getD (r.steeringPins, r.steeringDuty)
  driveDuty : r'.driveDuty = (lastWrite driveDutyOfKey typed).getD r.driveDuty
  /-- the wheels are never straight again behind the first key that steers -/
  turned : (∃ keyCode ∈ typed, (steeringOfKey keyCode).isSome) →
    r'.steeringPins = (.high, .low) ∨ r'.steeringPins = (.low, .high)

theorem written_mode : Written Readout.mode keyEffect modeOfKey := by
  intro r keyCode
  rw [keyEffect_eq]

theorem written_drivePins : Written Readout.drivePins keyEffect
    fun keyCode => (modeOfKey keyCode).map drivePinsOf := by
  intro r keyCode
  rw [keyEffect_eq]

theorem written_steering : Written (fun r => (r.steeringPins, r.steeringDuty)) keyEffect
    steeringOfKey := by
  intro r keyCode
  rw [keyEffect_eq]
  cases steeringOfKey keyCode <;> rfl

theorem written_driveDuty : Written Readout.driveDuty keyEffect driveDutyOfKey := by
  intro r keyCode
  rw [keyEffect_eq]

/-- No key straightens the wheels. -/
theorem turned_of_steeringOfKey {keyCode : Int} {pins : Level × Level} {duty : Int}
    (h : steeringOfKey keyCode = some (pins, duty)) :
    pins = (.high, .low) ∨ pins = (.low, .high) := by
  unfold steeringOfKey at h
  grind

theorem asTyped_foldl (typed : List Int) (r : Readout) :
    AsTyped typed r (typed.foldl keyEffect r) := by
  have hsteering := written_steering.foldl r typed
  refine
    { mode := written_mode.foldl r typed
      drivePins := ?_
      steering := hsteering
      driveDuty := written_driveDuty.foldl r typed
      turned := ?_ }
  · rw [written_drivePins.foldl r typed, lastWrite_map]
  · rintro ⟨keyCode, hmem, hsome⟩
    have hwriter : lastWriter steeringOfKey typed ≠ none := by
      intro hnone
      simp only [lastWriter, List.getLast?_eq_none_iff, List.filter_eq_nil_iff] at hnone
      exact hnone keyCode hmem hsome
    obtain ⟨last, hlast⟩ := Option.ne_none_iff_exists'.mp hwriter
    obtain ⟨⟨pins, duty⟩, hvalue⟩ :=
      Option.isSome_iff_exists.mp (isSome_of_lastWriter hlast)
    rw [lastWrite, hlast, Option.bind_some, hvalue] at hsteering
    have hpins : (typed.foldl keyEffect r).steeringPins = pins :=
      congrArg Prod.fst hsteering
    rw [hpins]
    exact turned_of_steeringOfKey hvalue

/--
Whenever the client's program is between two keys, whatever its two threads, the
keys and the link have done, the car on which its calls have been delivered is
as the keys read so far say.
-/
theorem asTyped_of_reach {p : Program} (h : program.Reachable p)
    (hidle : p.main.pending = []) {session : List Sent}
    (hsession : session.map Sent.call = p.made) (w : World) :
    AsTyped p.typed w.readout (deliverAll session w).readout := by
  have hmade : p.made = p.typed.flatMap callsOfKey := by
    have hcalls := (mainInv_of_reach h).calls
    rwa [hidle, List.append_nil] at hcalls
  have hallowed : ∀ x ∈ session, x.call.Allowed := by
    intro x hx
    have hmem : x.call ∈ p.typed.flatMap callsOfKey := by
      rw [← hmade, ← hsession]
      exact List.mem_map_of_mem hx
    obtain ⟨keyCode, -, hcall⟩ := List.mem_flatMap.mp hmem
    exact allowed_callsOfKey keyCode x.call hcall
  rw [readout_deliverAll w hallowed, hsession, hmade, foldl_keyEffect]
  exact asTyped_foldl p.typed w.readout

/-- `d`, `w` and the space bar: the car stands with its wheels to the left. -/
theorem asTyped_of_reach_standing :
    ∃ typed, typed = [0x64, 0x77, 32] ∧
      AsTyped typed World.powerUp.readout
        (deliverAll
          [⟨.turnRight 100, [], []⟩, ⟨.turnLeft 0, [7], []⟩,
            ⟨.setSpeed .forward 80, [], [9]⟩, ⟨.setDriveMode .stop, [1], [2]⟩]
          World.powerUp).readout := by
  obtain ⟨p, hreach, htest⟩ := program.exists_reachable_of_any
    (fun p => decide (p.main.pending = []) && (decide (p.typed = [0x64, 0x77, 32]) &&
      decide (p.made = [.turnRight 100, .turnLeft 0, .setSpeed .forward 80,
        .setDriveMode .stop])))
    [.call (.returns true), .main, .key 0x64, .call (.returns true), .main,
      .main, .key 0x77, .call (.returns true), .call (.returns true), .main,
      .main, .key 32, .call (.returns true)] (by decide +kernel)
  simp only [Bool.and_eq_true, decide_eq_true_eq] at htest
  obtain ⟨hidle, htyped, hmade⟩ := htest
  exact ⟨p.typed, htyped, asTyped_of_reach hreach hidle (by rw [hmade]; rfl) World.powerUp⟩

end BLERCCar.Remote
