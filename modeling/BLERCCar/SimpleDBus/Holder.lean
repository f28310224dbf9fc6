import Mathlib
import BLERCCar.Lib.Binary64
import BLERCCar.Lib.LastWrite
import BLERCCar.SimpleDBus.Path

/-!
# Holders

`Holder.cpp` of the vendored `simpledbus`: a value of any type that D-Bus has,
on its way into a message or out of one.  An object has room for a value of
each kind, and a type that says which of them counts.

A `double` is its bit pattern.

## Main results

* `getDict_tagged`, `getElem?_ofPairs`: a dictionary that has keys of one type
  is a map, and the last value appended under a key counts.
* `toList_ofPairs`: a map is made of what it lists.
* `equalAll_of_forall₂`: how `operator==` goes through a vector.
-/

namespace BLERCCar.SimpleDBus

open BLERCCar.Lib

/-! ## The source -/

/-- `Holder::Type`. -/
inductive HolderType
  | none | byte | boolean | int16 | uint16 | int32 | uint32 | int64 | uint64 | double
  | string | objPath | signature | array | dict
  deriving DecidableEq

/-- `std::any`, as far as holders put something in it. -/
inductive Any
  | empty
  | boolean (value : Bool)
  | uint8 (value : UInt8)
  | int16 (value : Int16)
  | uint16 (value : UInt16)
  | int32 (value : Int32)
  | uint32 (value : UInt32)
  | int64 (value : Int64)
  | uint64 (value : UInt64)
  | double (bits : UInt64)
  | string (text : Text)
  /-- a `const char*` -/
  | chars (text : Text)
  deriving DecidableEq

/-- `Holder`. -/
structure Holder where
  type : HolderType := .none
  holderBoolean : Bool := false
  holderInteger : UInt64 := 0
  holderDouble : UInt64 := 0
  holderString : Text := []
  holderArray : List Holder := []
  holderDict : List (HolderType × Any × Holder) := []

def isNaN (bits : UInt64) : Bool :=
  Binary64.exponent bits.toNat = 2047 && Binary64.fraction bits.toNat != 0

def isZero (bits : UInt64) : Bool :=
  Binary64.exponent bits.toNat = 0 && Binary64.fraction bits.toNat = 0

/-- `operator==` of two `double`s. -/
def sameDouble (a b : UInt64) : Bool :=
  !isNaN a && !isNaN b && (a == b || isZero a && isZero b)

namespace Any

/-- `std::any_cast<T>`; another type than the one put in is an exception. -/
def toUint8 : Any → Option UInt8 | .uint8 value => some value | _ => none
def toInt16 : Any → Option Int16 | .int16 value => some value | _ => none
def toUint16 : Any → Option UInt16 | .uint16 value => some value | _ => none
def toInt32 : Any → Option Int32 | .int32 value => some value | _ => none
def toUint32 : Any → Option UInt32 | .uint32 value => some value | _ => none
def toInt64 : Any → Option Int64 | .int64 value => some value | _ => none
def toUint64 : Any → Option UInt64 | .uint64 value => some value | _ => none
def toText : Any → Option Text | .string text => some text | _ => none

/-- A `const char*` is copied into a string. -/
def owned : Any → Any | .chars text => .string text | key => key

end Any

namespace Holder

def createByte (value : UInt8) : Holder :=
  { type := .byte, holderInteger := value.toUInt64 }
def createBoolean (value : Bool) : Holder := { type := .boolean, holderBoolean := value }
def createInt16 (value : Int16) : Holder :=
  { type := .int16, holderInteger := value.toInt64.toUInt64 }
def createUint16 (value : UInt16) : Holder :=
  { type := .uint16, holderInteger := value.toUInt64 }
def createInt32 (value : Int32) : Holder :=
  { type := .int32, holderInteger := value.toInt64.toUInt64 }
def createUint32 (value : UInt32) : Holder :=
  { type := .uint32, holderInteger := value.toUInt64 }
def createInt64 (value : Int64) : Holder :=
  { type := .int64, holderInteger := value.toUInt64 }
def createUint64 (value : UInt64) : Holder := { type := .uint64, holderInteger := value }
def createDouble (bits : UInt64) : Holder := { type := .double, holderDouble := bits }
def createString (text : Text) : Holder := { type := .string, holderString := text }
def createObjectPath (text : Text) : Holder := { type := .objPath, holderString := text }
def createSignature (text : Text) : Holder := { type := .signature, holderString := text }
def createArray : Holder := { type := .array }
def createDict : Holder := { type := .dict }

def getBoolean (h : Holder) : Bool := h.holderBoolean
def getByte (h : Holder) : UInt8 := (h.holderInteger &&& 0xFF).toUInt8
def getInt16 (h : Holder) : Int16 := (h.holderInteger &&& 0xFFFF).toUInt16.toInt16
def getUint16 (h : Holder) : UInt16 := (h.holderInteger &&& 0xFFFF).toUInt16
def getInt32 (h : Holder) : Int32 := (h.holderInteger &&& 0xFFFFFFFF).toUInt32.toInt32
def getUint32 (h : Holder) : UInt32 := (h.holderInteger &&& 0xFFFFFFFF).toUInt32
def getInt64 (h : Holder) : Int64 := h.holderInteger.toInt64
def getUint64 (h : Holder) : UInt64 := h.holderInteger
def getDouble (h : Holder) : UInt64 := h.holderDouble
def getString (h : Holder) : Text := h.holderString
def getObjectPath (h : Holder) : Text := h.holderString
def getSignature (h : Holder) : Text := h.holderString
def getArray (h : Holder) : List Holder := h.holderArray

/-- `Holder::get_contents`. -/
def getContents (h : Holder) : Any :=
  match h.type with
  | .boolean => .boolean h.getBoolean
  | .byte => .uint8 h.getByte
  | .int16 => .int16 h.getInt16
  | .uint16 => .uint16 h.getUint16
  | .int32 => .int32 h.getInt32
  | .uint32 => .uint32 h.getUint32
  | .int64 => .int64 h.getInt64
  | .uint64 => .uint64 h.getUint64
  | .double => .double h.getDouble
  | .string => .string h.getString
  | .objPath => .string h.getObjectPath
  | .signature => .string h.getSignature
  | _ => .empty

/-- `Holder::array_append`. -/
def arrayAppend (h value : Holder) : Holder :=
  { h with holderArray := h.holderArray ++ [value] }

/-- `Holder::dict_append`. -/
def dictAppend (h : Holder) (keyType : HolderType) (key : Any) (value : Holder) : Holder :=
  { h with holderDict := h.holderDict ++ [(keyType, key.owned, value)] }

/-- `Holder::_get_dict`. -/
def getDict {κ : Type} [Ord κ] [Std.TransOrd κ] (cast : Any → Option κ) (keyType : HolderType)
    (h : Holder) : Option (Std.ExtTreeMap κ Holder) :=
  h.holderDict.foldlM
    (fun output entry =>
      if entry.1 = keyType then
        (cast entry.2.1).map fun key => output.insert key entry.2.2
      else some output)
    ∅

def getDictUint8 := getDict Any.toUint8 .byte
def getDictUint16 := getDict Any.toUint16 .uint16
def getDictUint32 := getDict Any.toUint32 .uint32
def getDictUint64 := getDict Any.toUint64 .uint64
def getDictInt16 := getDict Any.toInt16 .int16
def getDictInt32 := getDict Any.toInt32 .int32
def getDictInt64 := getDict Any.toInt64 .int64
def getDictString := getDict Any.toText .string
def getDictObjectPath := getDict Any.toText .objPath
def getDictSignature := getDict Any.toText .signature

/-- `Holder::_signature_type`. -/
def signatureType : HolderType → Text
  | .boolean => ['b']
  | .byte => ['y']
  | .int16 => ['n']
  | .uint16 => ['q']
  | .int32 => ['i']
  | .uint32 => ['u']
  | .int64 => ['x']
  | .uint64 => ['t']
  | .double => ['d']
  | .string => ['s']
  | .objPath => ['o']
  | .signature => ['g']
  | _ => []

/-- `Holder::_signature_simple`: the same for the type of the holder. -/
def signatureSimple (h : Holder) : Text := signatureType h.type

/-- `Holder::signature`. -/
def signature (h : Holder) : Text :=
  match h.type with
  | .array =>
      'a' :: match h.holderArray with
        | [] => ['v']
        | first :: rest =>
            if (first :: rest).all (·.type = first.type) then first.signatureSimple else ['v']
  | .dict =>
      ['a', '{'] ++ (match h.holderDict with
        | [] => ['s', 'v']
        | first :: rest =>
            (if (first :: rest).all (·.1 = first.1) then signatureType first.1 else ['v']) ++
            (if (first :: rest).all (·.2.2.type = first.2.2.type) then
              first.2.2.signatureSimple else ['v'])) ++ ['}']
  | _ => h.signatureSimple

/-- Two ranges of the same length, element by element. -/
def equalRange {α : Type} (eq : α → α → Option Bool) : List α → List α → Option Bool
  | a :: as, b :: bs => eq a b <&&> equalRange eq as bs
  | _, _ => some true

/-- `operator==` of two vectors, or of two maps. -/
def equalAll {α : Type} (eq : α → α → Option Bool) (as bs : List α) : Option Bool :=
  if as.length = bs.length then equalRange eq as bs else some false

/-- `operator==` of what `_get_dict` returns. -/
def equalDict {κ : Type} [Ord κ] [Std.TransOrd κ] [DecidableEq κ]
    (eq : Holder → Holder → Option Bool)
    (dict : Holder → Option (Std.ExtTreeMap κ Holder)) (a b : Holder) : Option Bool := do
  equalAll (fun x y => if x.1 = y.1 then eq x.2 y.2 else some false)
    (← dict a).toList (← dict b).toList

/-- `Holder::operator==`. -/
def equal : ℕ → Holder → Holder → Option Bool
  | 0, _, _ => none
  | fuel + 1, a, b =>
      if a.type ≠ b.type then some false
      else
        match a.type with
        | .none => some true
        | .byte => some (a.getByte == b.getByte)
        | .boolean => some (a.getBoolean == b.getBoolean)
        | .int16 => some (a.getInt16 == b.getInt16)
        | .uint16 => some (a.getUint16 == b.getUint16)
        | .int32 => some (a.getInt32 == b.getInt32)
        | .uint32 => some (a.getUint32 == b.getUint32)
        | .int64 => some (a.getInt64 == b.getInt64)
        | .uint64 => some (a.getUint64 == b.getUint64)
        | .double => some (sameDouble a.getDouble b.getDouble)
        | .string => some (a.getString == b.getString)
        | .objPath => some (a.getObjectPath == b.getObjectPath)
        | .signature => some (a.getSignature == b.getSignature)
        | .array => equalAll (equal fuel) a.getArray b.getArray
        | .dict =>
            equalDict (equal fuel) getDictUint8 a b <&&>
            equalDict (equal fuel) getDictUint16 a b <&&>
            equalDict (equal fuel) getDictInt16 a b <&&>
            equalDict (equal fuel) getDictUint32 a b <&&>
            equalDict (equal fuel) getDictInt32 a b <&&>
            equalDict (equal fuel) getDictUint64 a b <&&>
            equalDict (equal fuel) getDictInt64 a b <&&>
            equalDict (equal fuel) getDictString a b <&&>
            equalDict (equal fuel) getDictObjectPath a b <&&>
            equalDict (equal fuel) getDictSignature a b

/-! ## What is put in is got -/

theorem setWidth_signExtend {w v : ℕ} (h : w ≤ v) (bits : BitVec w) :
    (bits.signExtend v).setWidth w = bits := by
  ext i hi
  simp [BitVec.getElem_signExtend, hi, show i < v by omega]

@[simp] theorem getByte_createByte (value : UInt8) : (createByte value).getByte = value := by
  have hmask := UInt8.and_neg_one (a := value)
  rw [getByte, createByte, UInt64.toUInt8_and, UInt8.toUInt8_toUInt64]
  exact hmask

@[simp] theorem getInt16_createInt16 (value : Int16) :
    (createInt16 value).getInt16 = value := by
  rw [← Int16.toBitVec_inj, getInt16, createInt16]
  simp only [UInt64.toUInt16_and, UInt16.toBitVec_toInt16, UInt16.toBitVec_and,
    UInt64.toBitVec_toUInt16, Int64.toBitVec_toUInt64, Int16.toBitVec_toInt64]
  rw [setWidth_signExtend (by decide)]
  exact BitVec.and_allOnes

@[simp] theorem getUint16_createUint16 (value : UInt16) :
    (createUint16 value).getUint16 = value := by
  rw [getUint16, createUint16, UInt64.toUInt16_and, UInt16.toUInt16_toUInt64]
  exact UInt16.and_neg_one

@[simp] theorem getInt32_createInt32 (value : Int32) :
    (createInt32 value).getInt32 = value := by
  rw [← Int32.toBitVec_inj, getInt32, createInt32]
  simp only [UInt64.toUInt32_and, UInt32.toBitVec_toInt32, UInt32.toBitVec_and,
    UInt64.toBitVec_toUInt32, Int64.toBitVec_toUInt64, Int32.toBitVec_toInt64]
  rw [setWidth_signExtend (by decide)]
  exact BitVec.and_allOnes

@[simp] theorem getUint32_createUint32 (value : UInt32) :
    (createUint32 value).getUint32 = value := by
  rw [getUint32, createUint32, UInt64.toUInt32_and, UInt32.toUInt32_toUInt64]
  exact UInt32.and_neg_one

@[simp] theorem getInt64_createInt64 (value : Int64) :
    (createInt64 value).getInt64 = value := Int64.toInt64_toUInt64 value

@[simp] theorem getUint64_createUint64 (value : UInt64) :
    (createUint64 value).getUint64 = value := rfl

@[simp] theorem getBoolean_createBoolean (value : Bool) :
    (createBoolean value).getBoolean = value := rfl

@[simp] theorem getString_createString (text : Text) : (createString text).getString = text := rfl

@[simp] theorem getObjectPath_createObjectPath (text : Text) :
    (createObjectPath text).getObjectPath = text := rfl

@[simp] theorem getSignature_createSignature (text : Text) :
    (createSignature text).getSignature = text := rfl

/-! ## Containers -/

/-- An array with some elements. -/
def ofArray (elements : List Holder) : Holder := { createArray with holderArray := elements }

/-- A dictionary with some entries. -/
def ofDict (entries : List (HolderType × Any × Holder)) : Holder :=
  { createDict with holderDict := entries }

@[simp] theorem type_ofArray (elements : List Holder) : (ofArray elements).type = .array := rfl

@[simp] theorem type_ofDict (entries : List (HolderType × Any × Holder)) :
    (ofDict entries).type = .dict := rfl

@[simp] theorem arrayAppend_ofArray (elements : List Holder) (value : Holder) :
    (ofArray elements).arrayAppend value = ofArray (elements ++ [value]) := rfl

@[simp] theorem owned_getContents (h : Holder) : h.getContents.owned = h.getContents := by
  rw [getContents]
  split <;> rfl

@[simp] theorem dictAppend_ofDict (entries : List (HolderType × Any × Holder))
    (keyType : HolderType) (key : Any) (value : Holder) :
    (ofDict entries).dictAppend keyType key value =
      ofDict (entries ++ [(keyType, key.owned, value)]) := rfl

/-- Elements appended one by one. -/
theorem foldl_arrayAppend {α : Type} (f : α → Holder) (xs : List α) (elements : List Holder) :
    xs.foldl (fun h x => h.arrayAppend (f x)) (ofArray elements) =
      ofArray (elements ++ xs.map f) := by
  induction xs generalizing elements with
  | nil => rw [List.foldl_nil, List.map_nil, List.append_nil]
  | cons x xs ih =>
      rw [List.foldl_cons, arrayAppend_ofArray, ih, List.map_cons, List.append_assoc,
        List.singleton_append]

/-! ## Dictionaries -/

section Dictionaries

variable {κ : Type} [Ord κ] [Std.TransOrd κ] {cast : Any → Option κ} {any : κ → Any}
  {keyType keyType' : HolderType} {pairs : List (κ × Holder)} {h : Holder}

/-- All keys of the dictionary have one type. -/
def Tagged (keyType : HolderType) (any : κ → Any) (pairs : List (κ × Holder)) (h : Holder) :
    Prop :=
  h.holderDict = pairs.map fun p => (keyType, any p.1, p.2)

/-- The map that some pairs make. -/
def ofPairs (pairs : List (κ × Holder)) : Std.ExtTreeMap κ Holder :=
  pairs.foldl (fun output p => output.insert p.1 p.2) ∅

theorem getDict_tagged (hcast : ∀ key, cast (any key) = some key)
    (htagged : Tagged keyType any pairs h) :
    getDict cast keyType h = some (ofPairs pairs) := by
  rw [getDict, htagged, ofPairs]
  clear htagged
  generalize (∅ : Std.ExtTreeMap κ Holder) = output
  induction pairs generalizing output with
  | nil => rfl
  | cons p pairs ih =>
      rw [List.map_cons, List.foldlM_cons, if_pos rfl, hcast]
      exact ih _

/-- There are no keys of another type. -/
theorem getDict_tagged_of_ne {κ' : Type} {any : κ' → Any} {pairs : List (κ' × Holder)}
    (hne : keyType' ≠ keyType) (htagged : Tagged keyType' any pairs h) :
    getDict cast keyType h = some ∅ := by
  rw [getDict, htagged]
  clear htagged
  generalize (∅ : Std.ExtTreeMap κ Holder) = output
  induction pairs generalizing output with
  | nil => rfl
  | cons p pairs ih =>
      rw [List.map_cons, List.foldlM_cons, if_neg hne]
      exact ih _

variable [Std.LawfulEqOrd κ] [DecidableEq κ]

/-- What a pair puts under a key. -/
def writes (key : κ) (p : κ × Holder) : Option Holder :=
  if p.1 = key then some p.2 else none

omit [Ord κ] [Std.TransOrd κ] [Std.LawfulEqOrd κ] in
theorem writes_eq_some_iff {key : κ} {p : κ × Holder} {value : Holder} :
    writes key p = some value ↔ p.1 = key ∧ p.2 = value := by
  rw [writes, Option.ite_none_right_eq_some, Option.some.injEq]

/-- The last value under a key counts. -/
theorem getElem?_ofPairs (pairs : List (κ × Holder)) (key : κ) :
    (ofPairs pairs)[key]? = lastWrite (writes key) pairs := by
  have hstep : Written (fun output : Std.ExtTreeMap κ Holder => output[key]?)
      (fun output p => output.insert p.1 p.2) (fun p => (writes key p).map some) := by
    intro output p
    dsimp only
    rw [Std.ExtTreeMap.getElem?_insert, writes]
    by_cases hkey : p.1 = key <;> simp [hkey]
  rw [ofPairs, hstep.foldl, lastWrite_map]
  cases lastWrite (writes key) pairs <;> simp

theorem mem_of_mem_ofPairs {p : κ × Holder} (h : p ∈ (ofPairs pairs).toList) : p ∈ pairs := by
  obtain ⟨key, value⟩ := p
  rw [Std.ExtTreeMap.mem_toList_iff_getElem?_eq_some, getElem?_ofPairs, lastWrite,
    Option.bind_eq_some_iff] at h
  obtain ⟨⟨key', value'⟩, hlast, hwrites⟩ := h
  obtain ⟨rfl, rfl⟩ := writes_eq_some_iff.mp hwrites
  exact mem_of_lastWriter hlast

theorem exists_mem_ofPairs {p : κ × Holder} (hp : p ∈ pairs) :
    ∃ value, (p.1, value) ∈ (ofPairs pairs).toList := by
  have hwriter : ∃ q, lastWriter (writes p.1) pairs = some q := by
    rw [← Option.ne_none_iff_exists', ne_eq, lastWriter, List.getLast?_eq_none_iff,
      List.filter_eq_nil_iff]
    exact fun hnone => hnone p hp (by rw [writes, if_pos rfl]; rfl)
  obtain ⟨q, hlast⟩ := hwriter
  obtain ⟨value, hwrites⟩ := Option.isSome_iff_exists.mp (isSome_of_lastWriter hlast)
  refine ⟨value, ?_⟩
  rw [Std.ExtTreeMap.mem_toList_iff_getElem?_eq_some, getElem?_ofPairs, lastWrite, hlast]
  exact hwrites

/-- A map is made of what it lists. -/
theorem toList_ofPairs (h : pairs.Pairwise fun p q => compare p.1 q.1 = .lt) :
    (ofPairs pairs).toList = pairs := by
  have hanti : Std.Antisymm fun p q : κ × Holder => compare p.1 q.1 = .lt :=
    ⟨fun p q hpq hqp => absurd hqp (Std.OrientedCmp.not_lt_of_lt hpq)⟩
  have hirrefl : Std.Irrefl fun p q : κ × Holder => compare p.1 q.1 = .lt :=
    ⟨fun p hpp => absurd hpp (Std.OrientedCmp.not_lt_of_lt hpp)⟩
  refine Std.ExtTreeMap.ordered_keys_toList.eq_of_mem_iff h fun p => ⟨mem_of_mem_ofPairs, ?_⟩
  intro hp
  have hnodup : (pairs.map Prod.fst).Nodup := by
    rw [List.Nodup, List.pairwise_map]
    refine h.imp fun {p q} hpq hkey => ?_
    have heq : compare p.1 q.1 = .eq := Std.LawfulEqCmp.compare_eq_iff_eq.mpr hkey
    rw [hpq] at heq
    cases heq
  -- what is listed under the key is the only pair that has it
  obtain ⟨value, hvalue⟩ := exists_mem_ofPairs hp
  have hsame := List.inj_on_of_nodup_map hnodup (mem_of_mem_ofPairs hvalue) hp rfl
  rwa [hsame] at hvalue

end Dictionaries

/-- The value of a dictionary under a key. -/
def lookup (h : Holder) (keyType : HolderType) (key : Any) : Option Holder :=
  lastWrite (fun entry => if entry.1 = keyType ∧ entry.2.1 = key then some entry.2.2 else none)
    h.holderDict

theorem lookup_tagged {κ : Type} [DecidableEq κ] {any : κ → Any} {keyType : HolderType}
    {pairs : List (κ × Holder)} {h : Holder} (hany : ∀ k k', any k = any k' → k = k')
    (htagged : Tagged keyType any pairs h) (key : κ) :
    h.lookup keyType (any key) = lastWrite (writes key) pairs := by
  have heffect : (fun entry : HolderType × Any × Holder =>
      if entry.1 = keyType ∧ entry.2.1 = any key then some entry.2.2 else none) ∘
        (fun p : κ × Holder => (keyType, any p.1, p.2)) = writes key := by
    funext p
    have hkey : any p.1 = any key ↔ p.1 = key := ⟨hany _ _, congrArg any⟩
    simp only [Function.comp_apply, true_and, hkey, writes]
  rw [lookup, htagged, lastWrite_comp_map, heffect]

/-! ## Equality -/

mutual

/-- How deep containers are nested in a holder. -/
def depth : Holder → ℕ
  | ⟨_, _, _, _, _, array, dict⟩ => max (depthArray array) (depthDict dict) + 1

def depthArray : List Holder → ℕ
  | [] => 0
  | h :: hs => max h.depth (depthArray hs)

def depthDict : List (HolderType × Any × Holder) → ℕ
  | [] => 0
  | (_, _, h) :: hs => max h.depth (depthDict hs)

end

theorem depth_le_depthArray {e : Holder} {hs : List Holder} (h : e ∈ hs) :
    e.depth ≤ depthArray hs := by
  induction hs with
  | nil => cases h
  | cons e' hs ih =>
      rw [depthArray]
      rcases List.mem_cons.mp h with rfl | h
      · exact le_max_left _ _
      · exact (ih h).trans (le_max_right _ _)

theorem depth_le_depthDict {e : HolderType × Any × Holder}
    {hs : List (HolderType × Any × Holder)} (h : e ∈ hs) : e.2.2.depth ≤ depthDict hs := by
  induction hs with
  | nil => cases h
  | cons e' hs ih =>
      rw [depthDict]
      rcases List.mem_cons.mp h with rfl | h
      · exact le_max_left _ _
      · exact (ih h).trans (le_max_right _ _)

theorem depth_eq (h : Holder) :
    h.depth = max (depthArray h.holderArray) (depthDict h.holderDict) + 1 := by
  cases h
  rfl

theorem depth_lt_of_mem_array {h e : Holder} (he : e ∈ h.getArray) : e.depth < h.depth := by
  have hle := depth_le_depthArray he
  rw [depth_eq h]
  exact Nat.lt_succ_of_le (hle.trans (le_max_left _ _))

theorem depth_lt_of_mem_dict {h : Holder} {e : HolderType × Any × Holder}
    (he : e ∈ h.holderDict) : e.2.2.depth < h.depth := by
  have hle := depth_le_depthDict he
  rw [depth_eq h]
  exact Nat.lt_succ_of_le (hle.trans (le_max_right _ _))

/-- Two vectors are equal if they are element by element. -/
theorem equalAll_of_forall₂ {α : Type} {eq : α → α → Option Bool} {P : α → Prop}
    {as bs : List α}
    (h : List.Forall₂ (fun a b => ∃ r, eq a b = some r ∧ (r = true ↔ P b)) as bs) :
    ∃ r, equalAll eq as bs = some r ∧ (r = true ↔ ∀ b ∈ bs, P b) := by
  rw [equalAll, if_pos h.length_eq]
  induction h with
  | nil => exact ⟨true, rfl, by simp⟩
  | cons hab _ ih =>
      obtain ⟨r, hr, hP⟩ := hab
      obtain ⟨r', hr', hall⟩ := ih
      rw [equalRange, hr, hr']
      refine ⟨r && r', ?_, ?_⟩
      · cases r <;> rfl
      · rw [Bool.and_eq_true, hP, hall, List.forall_mem_cons]

end Holder

end BLERCCar.SimpleDBus
