import BLERCCar.SimpleDBus.Holder
import BLERCCar.SimpleDBus.LibDBus

/-!
# The arguments of messages

`Message.cpp` of the vendored `simpledbus`: how a `Holder` becomes an argument
of a message, by the signature that the caller gives, and how an argument that
came becomes a `Holder`.

Loops and recursions have `fuel`.  An exception is `none`.
-/

namespace BLERCCar.SimpleDBus

namespace Message

variable {M W R : Type} (lib : LibDBus M W R)

/-! ## Appending -/

/-- `c_str`, as `libdbus` reads it. -/
def cStr (text : Text) : Text := text.takeWhile (· ≠ '\x00')

/-- `MESSAGE_DICT_APPEND_KEY_NUM` and `MESSAGE_DICT_APPEND_KEY_STR`. -/
def dictAppendKey {κ : Type} [Ord κ] [Std.TransOrd κ] (append : W → Holder → Option W)
    (keySig : Basic) (contents : κ → keySig.Contents) (dict : Std.ExtTreeMap κ Holder)
    (sub : W) : Option W :=
  dict.toList.foldlM
    (fun sub entry =>
      (append (lib.appendBasic (lib.openContainer sub 'e' none) keySig (contents entry.1))
        entry.2).map (lib.closeContainer sub))
    sub

/-- The switch over the type of the keys; there is no case for two of them. -/
def appendDict (append : W → Holder → Option W) (keySig : Char) (argument : Holder)
    (sub : W) : Option W :=
  match keySig with
  | 'y' => argument.getDictUint8.bind fun dict => dictAppendKey lib append .byte id dict sub
  | 'n' => argument.getDictInt16.bind fun dict => dictAppendKey lib append .int16 id dict sub
  | 'q' => argument.getDictUint16.bind fun dict => dictAppendKey lib append .uint16 id dict sub
  | 'i' => argument.getDictInt32.bind fun dict => dictAppendKey lib append .int32 id dict sub
  | 'u' => argument.getDictUint32.bind fun dict => dictAppendKey lib append .uint32 id dict sub
  | 'x' => argument.getDictInt64.bind fun dict => dictAppendKey lib append .int64 id dict sub
  | 't' => argument.getDictUint64.bind fun dict => dictAppendKey lib append .uint64 id dict sub
  | 's' => argument.getDictString.bind fun dict => dictAppendKey lib append .string cStr dict sub
  | 'o' => argument.getDictObjectPath.bind fun dict =>
      dictAppendKey lib append .objectPath cStr dict sub
  | 'g' => argument.getDictSignature.bind fun dict =>
      dictAppendKey lib append .signature cStr dict sub
  | _ => some sub

/-- `Message::_append_argument`. -/
def appendArgument : ℕ → W → Holder → Text → Option W
  | 0, _, _, _ => none
  | fuel + 1, iter, argument, signature =>
      match signature.headD '\x00' with
      | 'y' => some (lib.appendBasic iter .byte argument.getByte)
      | 'b' => some (lib.appendBasic iter .boolean (if argument.getBoolean then 1 else 0))
      | 'n' => some (lib.appendBasic iter .int16 argument.getInt16)
      | 'q' => some (lib.appendBasic iter .uint16 argument.getUint16)
      | 'i' => some (lib.appendBasic iter .int32 argument.getInt32)
      | 'u' => some (lib.appendBasic iter .uint32 argument.getUint32)
      | 'x' => some (lib.appendBasic iter .int64 argument.getInt64)
      | 't' => some (lib.appendBasic iter .uint64 argument.getUint64)
      | 'd' => some (lib.appendBasic iter .double argument.getDouble)
      | 's' => some (lib.appendBasic iter .string (cStr argument.getString))
      | 'o' => some (lib.appendBasic iter .objectPath (cStr argument.getObjectPath))
      | 'g' => some (lib.appendBasic iter .signature (cStr argument.getSignature))
      | 'v' =>
          let signature := argument.signature
          let sub := lib.openContainer iter 'v' (some (cStr signature))
          (appendArgument fuel sub argument signature).map (lib.closeContainer iter)
      | 'a' =>
          let sigNext := signature.drop 1
          let sub := lib.openContainer iter 'a' (some (cStr sigNext))
          (if sigNext.headD '\x00' ≠ '{' then
            argument.getArray.foldlM (fun sub elem => appendArgument fuel sub elem sigNext) sub
          else
            match (sigNext.drop 1).take (sigNext.length - 2) with
            | [] => none
            | keySig :: valueSig =>
                appendDict lib (fun entry value => appendArgument fuel entry value valueSig)
                  keySig argument sub).map (lib.closeContainer iter)
      | _ => some iter

/-! ## Extracting -/

/-- `Message::_extract_bytearray`. -/
def extractBytearray (iter : R) : Holder :=
  (lib.getFixedArray iter).foldl (fun h byte => h.arrayAppend (.createByte byte)) .createArray

mutual

/-- `Message::_extract_generic`.  Of a boolean `libdbus` writes four bytes where
the code has a `bool` of one: the first of them is what it reads here, and what
the others overwrite is left out. -/
def extractGeneric : ℕ → R → Option Holder
  | 0, _ => none
  | fuel + 1, iter =>
      match lib.argType iter with
      | 'y' => some (.createByte (lib.getBasic iter .byte))
      | 'b' => some (.createBoolean ((lib.getBasic iter .boolean).toUInt8 ≠ 0))
      | 'n' => some (.createInt16 (lib.getBasic iter .int16))
      | 'q' => some (.createUint16 (lib.getBasic iter .uint16))
      | 'i' => some (.createInt32 (lib.getBasic iter .int32))
      | 'u' => some (.createUint32 (lib.getBasic iter .uint32))
      | 'x' => some (.createInt64 (lib.getBasic iter .int64))
      | 't' => some (.createUint64 (lib.getBasic iter .uint64))
      | 'd' => some (.createDouble (lib.getBasic iter .double))
      | 's' => some (.createString (lib.getBasic iter .string))
      | 'o' => some (.createObjectPath (lib.getBasic iter .objectPath))
      | 'g' => some (.createSignature (lib.getBasic iter .signature))
      | 'a' =>
          let sub := lib.recurse iter
          if lib.argType sub = 'e' then extractDict fuel sub {}
          -- `Message::_extract_array`
          else if lib.argType sub = 'y' then some (extractBytearray lib sub)
          else extractArray fuel sub .createArray
      | 'v' => extractGeneric fuel (lib.recurse iter)
      | _ => some {}

/-- The loop of `Message::_extract_array`. -/
def extractArray : ℕ → R → Holder → Option Holder
  | 0, _, _ => none
  | fuel + 1, iter, holderArray =>
      if lib.argType iter = '\x00' then some holderArray
      else do
        let h ← extractGeneric fuel iter
        let holderArray := if h.type ≠ .none then holderArray.arrayAppend h else holderArray
        extractArray fuel (lib.next iter) holderArray

/-- The loop of `Message::_extract_dict`; the dictionary is initialized by the
first entry. -/
def extractDict : ℕ → R → Holder → Option Holder
  | 0, _, _ => none
  | fuel + 1, iter, holderDict =>
      if lib.argType iter = '\x00' then some holderDict
      else do
        let sub := lib.recurse iter
        let key ← extractGeneric fuel sub
        let value ← extractGeneric fuel (lib.next sub)
        let holderDict := if holderDict.type = .none then .createDict else holderDict
        extractDict fuel (lib.next iter) (holderDict.dictAppend key.type key.getContents value)

end

end Message

/-! ## Messages -/

/-- `Message`, as far as its arguments go; an iterator that has been initialized
and an argument that has been extracted are there. -/
structure Message (M R : Type) where
  msg : M
  iter : Option R := none
  extracted : Option Holder := none
  arguments : List Holder := []

namespace Message

variable {M W R : Type} (lib : LibDBus M W R)

/-- `Message::Message` of a message that has been created or has come. -/
def ofMsg (msg : M) : Message M R := { msg := msg }

/-- `Message::append_argument`. -/
def append (fuel : ℕ) (m : Message M R) (argument : Holder) (signature : Text) :
    Option (Message M R) :=
  (appendArgument lib fuel (lib.initAppend m.msg) argument signature).map fun iter =>
    { m with msg := lib.appended iter, arguments := m.arguments ++ [argument] }

/-- `Message::extract_reset`. -/
def extractReset (m : Message M R) : Message M R :=
  { m with iter := some (lib.init m.msg) }

/-- `Message::extract`. -/
def extract (fuel : ℕ) (m : Message M R) : Option (Holder × Message M R) :=
  match m.extracted with
  | some h => some (h, m)
  | none =>
      let iter := m.iter.getD (lib.init m.msg)
      (extractGeneric lib fuel iter).map fun h =>
        (h, { m with iter := some iter, extracted := some h })

/-- `Message::extract_has_next`. -/
def extractHasNext (m : Message M R) : Bool :=
  match m.iter with
  | some iter => lib.hasNext iter
  | none => false

/-- `Message::extract_next`. -/
def extractNext (m : Message M R) : Message M R :=
  match m.iter with
  | some iter =>
      if lib.hasNext iter then { m with iter := some (lib.next iter), extracted := none } else m
  | none => m

/-- The argument that is extracted behind some rounds of `extract` and
`extract_next`. -/
def extractNth (fuel : ℕ) : ℕ → Message M R → Option Holder
  | 0, m => (m.extract lib fuel).map Prod.fst
  | index + 1, m =>
      (m.extract lib fuel).bind fun extracted =>
        extractNth fuel index (extracted.2.extractNext lib)

end Message

end BLERCCar.SimpleDBus
