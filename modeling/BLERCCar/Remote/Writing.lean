import BLERCCar.Remote.Control
import BLERCCar.SimpleDBus.Appending

/-!
# Writing through BlueZ

`write_command` does not reach the server by itself: `WriteValue` makes a
message for BlueZ of the value, and BlueZ sends on what it finds in there.

## Main results

* `writeValue_sends`: the arguments of the message, for every value.
* `carryAll_eq_execAll`: what a session of the client does to the car, message
  by message.
-/

namespace BLERCCar

open BLERCCar.Lib.CString BLERCCar.Server BLERCCar.SimpleDBus

/-! ## The source -/

namespace SimpleDBus.GattCharacteristic1

/-- `GattCharacteristic1::WriteType`. -/
inductive WriteType
  | request
  | command

/-- The option that `WriteValue` gives. -/
def WriteType.name : WriteType → Text
  | request => "request".toList
  | command => "command".toList

def typeName : Text := "type".toList

/-- `value_data`. -/
def valueData (value : List UInt8) : Holder :=
  value.foldl (fun h byte => h.arrayAppend (.createByte byte)) .createArray

/-- `options`. -/
def options (type : WriteType) : Holder :=
  Holder.createDict.dictAppend .string (.chars typeName) (.createString type.name)

variable {M W R : Type} (lib : LibDBus M W R)

/-- `GattCharacteristic1::WriteValue`, up to the message that is sent; `call`
is what `create_method_call` makes. -/
def writeValue (fuel : ℕ) (call : M) (value : List UInt8) (type : WriteType) :
    Option (Message M R) :=
  ((Message.ofMsg call).append lib fuel (valueData value) "ay".toList).bind fun msg =>
    msg.append lib fuel (options type) "a{sv}".toList

end SimpleDBus.GattCharacteristic1

namespace Remote

open SimpleDBus.GattCharacteristic1

/-- The value that BlueZ finds among the arguments of `WriteValue`. -/
def foundValue : List Value → List UInt8
  | .array _ values :: _ => values.filterMap fun
      | .basic .byte byte => some byte
      | _ => none
  | _ => []

variable {M W R : Type} {lib : LibDBus M W R} (doc : lib.Documented)

/-- A control call whose `write_command` becomes a message; BlueZ sends the
value on, and `onWrite` handles it. -/
def Sent.carry (fuel : ℕ) (call : M) (x : Sent) (w : World) : Option World :=
  (writeValue lib fuel call (x.call.write x.beyond).value .command).map fun sent =>
    execAll (controllerCalls (x.call.write x.beyond).uuid
      (some (stored (foundValue (doc.arguments sent.msg)) x.after))) w

/-- One call after the other. -/
def carryAll (fuel : ℕ) (call : M) (session : List Sent) (w : World) : Option World :=
  session.foldlM (fun w x => x.carry doc fuel call w) w

end Remote

/-! ## The message -/

namespace SimpleDBus.GattCharacteristic1

variable {M W R : Type} {lib : LibDBus M W R} (doc : lib.Documented)

/-- `libdbus` takes what `WriteValue` appends. -/
structure Takes : Prop where
  bytes : doc.Admits ['y']
  options : doc.Admits "{sv}".toList
  text : doc.Admits ['s']
  byte : ∀ byte, doc.Accepts .byte byte
  typeName : doc.Accepts .string typeName
  name : ∀ type : WriteType, doc.Accepts .string type.name

/-- What is appended by `WriteValue`. -/
def arguments (value : List UInt8) (type : WriteType) : List Value :=
  [.array ['y'] (value.map (.basic .byte)),
    .array "{sv}".toList [.dictEntry (.basic .string typeName)
      (.variant (.basic .string type.name))]]

variable {doc}

theorem valueData_eq (value : List UInt8) :
    valueData value = .ofArray (value.map .createByte) :=
  Holder.foldl_arrayAppend _ value []

/-- The bytes are appended one by one. -/
theorem appends_valueData (htakes : Takes doc) (fuel : ℕ) (value : List UInt8) :
    Appends doc (fun w => Message.appendArgument lib (fuel + 2) w (valueData value)
      (Signature.array (.basic .byte)).text) (.array ['y'] (value.map (.basic .byte))) := by
  have hbyte : ∀ byte ∈ value, ∃ read,
      Appends doc (fun w => Message.appendArgument lib (fuel + 1) w (.createByte byte)
        (Signature.basic .byte).text) read ∧ read = .basic .byte byte := by
    intro byte _
    refine ⟨_, fun w => ?_, rfl⟩
    refine ⟨_, appendArgument_basic lib fuel w .byte _, ?_⟩
    exact (doc.frame_appendBasic w _ _ (htakes.byte _)).trans
      (by simp [Basic.passed, Basic.get])
  obtain ⟨values, hall, happends⟩ := appendsAll_foldlM value hbyte
  have hvalues : values = value.map (.basic .byte) := by
    rw [← List.forall₂_eq_eq_eq, List.forall₂_map_right_iff]
    exact hall
  have harray := appends_array htakes.bytes happends fun v hv => ?_
  · rw [hvalues] at harray
    intro w
    obtain ⟨w', hw', hframe⟩ := harray w
    refine ⟨w', ?_, hframe⟩
    rw [← hw']
    dsimp only
    rw [appendArgument_array, valueData_eq]
    change Option.map _ ((value.map Holder.createByte).foldlM _ _) = _
    rw [List.foldlM_map]
    rfl
  · rw [hvalues, List.mem_map] at hv
    obtain ⟨byte, -, rfl⟩ := hv
    rfl

/-- The dictionary has one entry, with a variant. -/
theorem appends_options (htakes : Takes doc) (fuel : ℕ) (type : WriteType) :
    Appends doc (fun w => Message.appendArgument lib (fuel + 3) w (options type)
      (Signature.dict .string .variant).text)
      (.array "{sv}".toList [.dictEntry (.basic .string typeName)
        (.variant (.basic .string type.name))]) := by
  have hpassed : Message.cStr type.name = type.name := by cases type <;> decide
  have htext : Appends doc (fun w => Message.appendArgument lib (fuel + 1) w
      (.createString type.name) (Signature.basic .string).text)
      (.basic .string type.name) := by
    intro w
    refine ⟨_, appendArgument_basic lib fuel w .string _, ?_⟩
    change doc.frame (lib.appendBasic w .string (Message.cStr type.name)) = _
    rw [hpassed]
    exact doc.frame_appendBasic w .string _ (htakes.name type)
  have hvariant := appends_variant htakes.text htext rfl
  have hkey : doc.Accepts .string typeName := htakes.typeName
  have hentry := appends_entry hkey hvariant
  have hpair : Holder.Tagged Basic.string.type Basic.string.any
      [(typeName, .createString type.name)] (options type) := rfl
  have hlist : (Holder.ofPairs [(typeName, Holder.createString type.name)]).toList =
      [(typeName, .createString type.name)] :=
    Holder.toList_ofPairs (List.pairwise_singleton _ _)
  have hentries : AppendsAll doc _ [_] := hentry
  have harray := appends_array htakes.options hentries (by simp [Value.signature, Basic.code])
  intro w
  obtain ⟨w', hw', hframe⟩ := harray w
  refine ⟨w', ?_, hframe⟩
  rw [← hw']
  dsimp only
  rw [appendArgument_dict rfl, Holder.getDict_tagged (Basic.cast_any rfl) hpair, Option.bind_some,
    Message.dictAppendKey, hlist, List.foldlM_cons]
  simp only [List.foldlM_nil]
  rfl

/-- Whatever the value is, `WriteValue` sends it as it is, and the option. -/
theorem writeValue_sends (htakes : Takes doc) {call : M} (hcall : doc.arguments call = [])
    (fuel : ℕ) (value : List UInt8) (type : WriteType) :
    ∃ sent : Message M R, writeValue lib (fuel + 3) call value type = some sent ∧
      doc.arguments sent.msg = arguments value type := by
  obtain ⟨msg, hmsg, hfirst⟩ := append_eq (.ofMsg call) (appends_valueData htakes (fuel + 1) value)
  obtain ⟨sent, hsent, hsecond⟩ := append_eq msg (appends_options htakes fuel type)
  refine ⟨sent, ?_, ?_⟩
  · rw [writeValue]
    change ((Message.ofMsg call).append lib (fuel + 3) (valueData value)
      (Signature.array (.basic .byte)).text).bind _ = _
    rw [hmsg]
    exact hsent
  · rw [hsecond, hfirst, arguments]
    change (doc.arguments call ++ [_]) ++ [_] = _
    rw [hcall]
    rfl

end SimpleDBus.GattCharacteristic1

/-! ## A session -/

namespace Remote

open SimpleDBus.GattCharacteristic1

variable {M W R : Type} {lib : LibDBus M W R} {doc : lib.Documented}

theorem foundValue_arguments (value : List UInt8) (type : WriteType) :
    foundValue (arguments value type) = value := by
  rw [arguments, foundValue, List.filterMap_map]
  exact List.filterMap_some

/-- What the car does comes through BlueZ as it is. -/
theorem carry_eq (htakes : Takes doc) {call : M} (hcall : doc.arguments call = []) (fuel : ℕ)
    {x : Sent} (hallowed : x.call.Allowed) (w : World) :
    x.carry doc (fuel + 3) call w = some (execAll x.call.locally w) := by
  obtain ⟨sent, hsent, harguments⟩ :=
    writeValue_sends htakes hcall fuel (x.call.write x.beyond).value .command
  rw [Sent.carry, hsent, Option.map_some, harguments, foundValue_arguments, handle_write hallowed]

/-- The messages of a session leave the car, its pins and its PWM registers as
the local calls leave them. -/
theorem carryAll_eq_execAll (htakes : Takes doc) {call : M} (hcall : doc.arguments call = [])
    (fuel : ℕ) {session : List Sent} (hallowed : ∀ x ∈ session, x.call.Allowed) (w : World) :
    carryAll doc (fuel + 3) call session w =
      some (execAll (session.flatMap fun x => x.call.locally) w) := by
  induction session generalizing w with
  | nil => rfl
  | cons x session ih =>
      rw [List.forall_mem_cons] at hallowed
      have hrest := ih hallowed.2 (execAll x.call.locally w)
      rw [carryAll, List.foldlM_cons, carry_eq htakes hcall fuel hallowed.1, List.flatMap_cons,
        execAll_append, ← hrest]
      rfl

theorem takes_lists : Takes LibDBus.listsDocumented :=
  ⟨trivial, trivial, trivial, fun _ => trivial, trivial, fun _ => trivial⟩

/-- Straighten the wheels, drive off, stop. -/
theorem carryAll_eq_execAll_drive :
    carryAll LibDBus.listsDocumented 3 []
        [⟨.turnLeft 0, [7, 9], []⟩, ⟨.setSpeed .forward 80, [3], [1, 2]⟩,
          ⟨.setDriveMode .stop, [], [5]⟩] World.powerUp =
      some (execAll [.turnLeft 0, .setDriveMode .forward, .setSpeed 80,
        .setDriveMode .stop, .setSpeed 0] World.powerUp) :=
  carryAll_eq_execAll takes_lists rfl 0 (by
    simp [Client.Call.Allowed, BLERCCarPacket.Commandable]) World.powerUp

end Remote

end BLERCCar
