import BLERCCar.SimpleDBus.Extracting

/-!
# What is appended comes back

A holder that is as a signature says (`Fits`), without booleans and without a
variant whose signature `Holder::signature` leaves incomplete, is appended as one
value of that type, and the holder that is extracted from the value is equal to
the one appended, in the sense of `operator==`, unless something is lost (`Lost`):
a dictionary without entries comes back as an array, and `NaN` is not equal to
itself.

Keys that are appended twice do no harm, and the order of the entries does not
matter: `operator==` compares maps.

## Main results

* `appendArgument_carries`: the value that an argument becomes.
* `extract_append`: the arguments of a message, one after the other.
-/

namespace BLERCCar.SimpleDBus

open BLERCCar.Lib

namespace Basic

/-- The type of a holder that has a basic value. -/
def type : Basic → HolderType
  | byte => .byte
  | boolean => .boolean
  | int16 => .int16
  | uint16 => .uint16
  | int32 => .int32
  | uint32 => .uint32
  | int64 => .int64
  | uint64 => .uint64
  | double => .double
  | string => .string
  | objectPath => .objPath
  | signature => .signature

/-- What `_append_argument` takes out of a holder. -/
def get : (b : Basic) → Holder → b.Contents
  | byte, h => h.getByte
  | boolean, h => if h.getBoolean then 1 else 0
  | int16, h => h.getInt16
  | uint16, h => h.getUint16
  | int32, h => h.getInt32
  | uint32, h => h.getUint32
  | int64, h => h.getInt64
  | uint64, h => h.getUint64
  | double, h => h.getDouble
  | string, h => h.getString
  | objectPath, h => h.getObjectPath
  | signature, h => h.getSignature

/-- What `libdbus` gets of it: texts are passed by a pointer. -/
def passed : (b : Basic) → b.Contents → b.Contents
  | string, text => Message.cStr text
  | objectPath, text => Message.cStr text
  | signature, text => Message.cStr text
  | _, contents => contents

/-- The types that keys may have. -/
def isKey : Basic → Bool
  | boolean => false
  | double => false
  | _ => true

/-- A key as it stands in a dictionary. -/
def any : (b : Basic) → b.Contents → Any
  | byte, key => .uint8 key
  | int16, key => .int16 key
  | uint16, key => .uint16 key
  | int32, key => .int32 key
  | uint32, key => .uint32 key
  | int64, key => .int64 key
  | uint64, key => .uint64 key
  | string, key => .string key
  | objectPath, key => .string key
  | signature, key => .string key
  | _, _ => .empty

/-- The `std::any_cast` of the function for dictionaries with such keys. -/
def cast : (b : Basic) → Any → Option b.Contents
  | byte => Any.toUint8
  | int16 => Any.toInt16
  | uint16 => Any.toUint16
  | int32 => Any.toInt32
  | uint32 => Any.toUint32
  | int64 => Any.toInt64
  | uint64 => Any.toUint64
  | string => Any.toText
  | objectPath => Any.toText
  | signature => Any.toText
  | _ => fun _ => none

instance instOrdContents : (b : Basic) → Ord b.Contents
  | byte => inferInstanceAs (Ord UInt8)
  | boolean => inferInstanceAs (Ord UInt32)
  | int16 => inferInstanceAs (Ord Int16)
  | uint16 => inferInstanceAs (Ord UInt16)
  | int32 => inferInstanceAs (Ord Int32)
  | uint32 => inferInstanceAs (Ord UInt32)
  | int64 => inferInstanceAs (Ord Int64)
  | uint64 => inferInstanceAs (Ord UInt64)
  | double => inferInstanceAs (Ord UInt64)
  | string => inferInstanceAs (Ord Text)
  | objectPath => inferInstanceAs (Ord Text)
  | signature => inferInstanceAs (Ord Text)

instance instDecidableEqContents : (b : Basic) → DecidableEq b.Contents
  | byte => inferInstanceAs (DecidableEq UInt8)
  | boolean => inferInstanceAs (DecidableEq UInt32)
  | int16 => inferInstanceAs (DecidableEq Int16)
  | uint16 => inferInstanceAs (DecidableEq UInt16)
  | int32 => inferInstanceAs (DecidableEq Int32)
  | uint32 => inferInstanceAs (DecidableEq UInt32)
  | int64 => inferInstanceAs (DecidableEq Int64)
  | uint64 => inferInstanceAs (DecidableEq UInt64)
  | double => inferInstanceAs (DecidableEq UInt64)
  | string => inferInstanceAs (DecidableEq Text)
  | objectPath => inferInstanceAs (DecidableEq Text)
  | signature => inferInstanceAs (DecidableEq Text)

instance instTransOrdContents (b : Basic) : Std.TransOrd b.Contents := by
  cases b <;> exact inferInstance

instance instLawfulEqOrdContents (b : Basic) : Std.LawfulEqOrd b.Contents := by
  cases b <;> exact inferInstance

variable {b : Basic}

theorem cast_any (hkey : b.isKey = true) (key : b.Contents) :
    b.cast (b.any key) = some key := by
  cases b with
  | boolean => cases hkey
  | double => cases hkey
  | _ => rfl

theorem any_injective (hkey : b.isKey = true) {key key' : b.Contents}
    (h : b.any key = b.any key') : key = key' := by
  have hcast := congrArg b.cast h
  rw [cast_any hkey, cast_any hkey] at hcast
  exact Option.some.inj hcast

@[simp] theorem type_holder (contents : b.Contents) : (b.holder contents).type = b.type := by
  cases b <;> rfl

theorem type_ne_none (b : Basic) : b.type ≠ .none := by
  cases b <;> simp [type]

theorem get_holder (hkey : b.isKey = true) (key : b.Contents) :
    b.get (b.holder key) = key := by
  cases b with
  | boolean => cases hkey
  | double => cases hkey
  | int16 => exact Holder.getInt16_createInt16 key
  | int32 => exact Holder.getInt32_createInt32 key
  | int64 => exact Holder.getInt64_createInt64 key
  | byte => exact Holder.getByte_createByte key
  | uint16 => exact Holder.getUint16_createUint16 key
  | uint32 => exact Holder.getUint32_createUint32 key
  | _ => rfl

theorem getContents_eq (hkey : b.isKey = true) {h : Holder} (htype : h.type = b.type) :
    h.getContents = b.any (b.get h) := by
  cases b with
  | boolean => cases hkey
  | double => cases hkey
  | _ =>
      rw [Holder.getContents, htype]
      rfl

/-- A key comes out of a message as it has to stand in a dictionary. -/
theorem getContents_holder (hkey : b.isKey = true) (key : b.Contents) :
    (b.holder key).getContents = b.any key := by
  rw [getContents_eq hkey (type_holder key), get_holder hkey]

end Basic

open Message

variable {M W R : Type} {lib : LibDBus M W R} (doc : lib.Documented)

/-! ## What is lost, and what fits -/

/-- The holder is not equal to the one that comes back. -/
inductive Lost : Holder → Prop
  | nan {h : Holder} (htype : h.type = .double) (hnan : isNaN h.getDouble = true) : Lost h
  | empty {h : Holder} (htype : h.type = .dict) (hempty : h.holderDict = []) : Lost h
  | element {h e : Holder} (htype : h.type = .array) (he : e ∈ h.getArray) (hlost : Lost e) :
      Lost h
  | value {h value : Holder} {keyType : HolderType} {key : Any} (htype : h.type = .dict)
      (hlookup : h.lookup keyType key = some value) (hlost : Lost value) : Lost h

/-- The holder is as the signature says, and `libdbus` takes what is in it.  There
are no booleans in it, which are extracted into too small a `bool`; a variant
stands only around a holder whose `Holder::signature` says what is in it, which
it does not where a container has nothing but containers of one kind in it; and a
dictionary has keys that `_append_argument` has a case for. -/
inductive Fits : Signature → Holder → Prop
  | basic {b : Basic} {h : Holder} (hboolean : b ≠ .boolean) (htype : h.type = b.type)
      (hpassed : b.passed (b.get h) = b.get h) (haccepts : doc.Accepts b (b.get h)) :
      Fits (.basic b) h
  | variant {s : Signature} {h : Holder} (hsignature : h.signature = s.text)
      (hadmits : doc.Admits s.text) (hfits : Fits s h) : Fits .variant h
  | array {s : Signature} {h : Holder} (htype : h.type = .array) (hadmits : doc.Admits s.text)
      (hfits : ∀ e ∈ h.getArray, Fits s e) : Fits (.array s) h
  | dict {b : Basic} {s : Signature} {h : Holder} (pairs : List (b.Contents × Holder))
      (htype : h.type = .dict) (hkey : b.isKey = true) (htagged : h.Tagged b.type b.any pairs)
      (hpassed : ∀ p ∈ pairs, b.passed p.1 = p.1) (haccepts : ∀ p ∈ pairs, doc.Accepts b p.1)
      (hadmits : doc.Admits ('{' :: b.code :: (s.text ++ ['}'])))
      (hfits : ∀ p ∈ pairs, Fits s p.2) : Fits (.dict b s) h

/-- The value is of the type, and the holder of the value is equal to the one
given, unless something is lost. -/
structure Carries (value : Value) (s : Signature) (h : Holder) : Prop where
  signature : value.signature = s.text
  typed : value.Typed
  kept : value.holder.type ≠ .none
  equal : ∀ fuel, h.depth ≤ fuel →
    ∃ same, Holder.equal fuel value.holder h = some same ∧ (same = true ↔ ¬ Lost h)

/-- Something appends a value. -/
def Appends (append : W → Option W) (value : Value) : Prop :=
  ∀ w, ∃ w', append w = some w' ∧ doc.frame w' = (doc.frame w).add value

variable {doc} {b : Basic} {s : Signature} {h : Holder} {value : Value} {fuel : ℕ}

/-! ## Basic values -/

theorem lost_basic_iff (htype : h.type = b.type) :
    Lost h ↔ b = .double ∧ isNaN h.getDouble = true := by
  constructor
  · intro hlost
    cases hlost with
    | nan hdouble hnan =>
        rw [htype] at hdouble
        cases b <;> first | exact ⟨rfl, hnan⟩ | cases hdouble
    | empty hdict => rw [htype] at hdict; cases b <;> cases hdict
    | element harray => rw [htype] at harray; cases b <;> cases harray
    | value hdict => rw [htype] at hdict; cases b <;> cases hdict
  · rintro ⟨rfl, hnan⟩
    exact .nan htype hnan

theorem sameDouble_self (bits : UInt64) : sameDouble bits bits = !isNaN bits := by
  simp [sameDouble]

theorem carries_basic (hboolean : b ≠ .boolean) (htype : h.type = b.type) :
    Carries (.basic b (b.get h)) (.basic b) h where
  signature := rfl
  typed := trivial
  kept := by
    rw [Value.holder, Basic.type_holder]
    exact b.type_ne_none
  equal := by
    intro fuel hfuel
    have hpos : 0 < h.depth := by rw [Holder.depth_eq]; exact Nat.succ_pos _
    obtain ⟨fuel, rfl⟩ := Nat.exists_eq_succ_of_ne_zero (hpos.trans_le hfuel).ne'
    rw [lost_basic_iff htype, Value.holder, Holder.equal,
      if_neg (not_not_intro ((Basic.type_holder _).trans htype.symm)), Basic.type_holder]
    cases b with
    | double =>
        refine ⟨sameDouble h.getDouble h.getDouble, rfl, ?_⟩
        simp [sameDouble_self]
    | boolean => exact absurd rfl hboolean
    | _ =>
        refine ⟨true, ?_, by simp⟩
        simp [Basic.type, Basic.holder, Basic.get]

/-! ## Containers -/

/-- Something appends some values, one after the other. -/
def AppendsAll (doc : lib.Documented) (append : W → Option W) (values : List Value) : Prop :=
  ∀ w, ∃ w', append w = some w' ∧
    doc.frame w' = { doc.frame w with values := (doc.frame w).values ++ values }

theorem appendsAll_foldlM {α : Type} {append : W → α → Option W} {P : Value → α → Prop}
    (xs : List α)
    (h : ∀ x ∈ xs, ∃ value, Appends doc (fun w => append w x) value ∧ P value x) :
    ∃ values, List.Forall₂ P values xs ∧ AppendsAll doc (fun w => xs.foldlM append w) values := by
  induction xs with
  | nil => exact ⟨[], .nil, fun w => ⟨w, rfl, by rw [List.append_nil]⟩⟩
  | cons x xs ih =>
      obtain ⟨value, hvalue, hP⟩ := h x List.mem_cons_self
      obtain ⟨values, hall, hvalues⟩ := ih fun y hy => h y (List.mem_cons_of_mem _ hy)
      refine ⟨value :: values, .cons hP hall, fun w => ?_⟩
      obtain ⟨w', hw', hframe⟩ := hvalue w
      obtain ⟨w'', hw'', hframe'⟩ := hvalues w'
      refine ⟨w'', ?_, ?_⟩
      · dsimp only at hw' hw'' ⊢
        rw [List.foldlM_cons, hw']
        exact hw''
      · rw [hframe', hframe, Frame.add]
        simp

theorem appends_variant {append : W → Option W} {inside : Text} (hadmits : doc.Admits inside)
    (happend : Appends doc append value) (hvalue : value.signature = inside) :
    Appends doc (fun w => (append (lib.openContainer w 'v' (some inside))).map
      (lib.closeContainer w)) (.variant value) := by
  intro w
  obtain ⟨sub, hsub, hframe⟩ := happend (lib.openContainer w 'v' (some inside))
  rw [doc.frame_openVariant w inside hadmits] at hframe
  exact ⟨lib.closeContainer w sub, by dsimp only; rw [hsub]; rfl,
    doc.frame_closeVariant w sub inside value hframe hvalue⟩

theorem appends_array {append : W → Option W} {inside : Text} {values : List Value}
    (hadmits : doc.Admits inside) (happend : AppendsAll doc append values)
    (hvalues : ∀ value ∈ values, value.signature = inside) :
    Appends doc (fun w => (append (lib.openContainer w 'a' (some inside))).map
      (lib.closeContainer w)) (.array inside values) := by
  intro w
  obtain ⟨sub, hsub, hframe⟩ := happend (lib.openContainer w 'a' (some inside))
  rw [doc.frame_openArray w inside hadmits] at hframe
  exact ⟨lib.closeContainer w sub, by dsimp only; rw [hsub]; rfl,
    doc.frame_closeArray w sub inside values hframe hvalues⟩

theorem appends_entry {append : W → Option W} {key : b.Contents}
    (haccepts : doc.Accepts b key) (happend : Appends doc append value) :
    Appends doc (fun w => (append (lib.appendBasic (lib.openContainer w 'e' none) b key)).map
      (lib.closeContainer w)) (.dictEntry (.basic b key) value) := by
  intro w
  obtain ⟨sub, hsub, hframe⟩ := happend (lib.appendBasic (lib.openContainer w 'e' none) b key)
  rw [doc.frame_appendBasic _ b key haccepts, doc.frame_openDictEntry] at hframe
  exact ⟨lib.closeContainer w sub, by dsimp only; rw [hsub]; rfl,
    doc.frame_closeDictEntry w sub b key value hframe⟩

/-! ## The cases of `_append_argument` -/

theorem cStr_eq {text : Text} (h : '\x00' ∉ text) : cStr text = text :=
  List.takeWhile_eq_self_iff.mpr fun _ hc => decide_eq_true fun hnul => h (hnul ▸ hc)

theorem Signature.nul_not_mem_text (s : Signature) : '\x00' ∉ s.text := by
  have hcode : ∀ b : Basic, b.code ≠ '\x00' := by
    intro b
    cases b <;> decide
  induction s with
  | basic b => simpa [text] using (hcode b).symm
  | variant => decide
  | array element ih => simpa [text] using ih
  | dict key value ih => simpa [text] using ⟨(hcode key).symm, ih⟩

theorem Signature.headD_text_ne (s : Signature) : s.text.headD '\x00' ≠ '{' := by
  cases s with
  | basic b => cases b <;> decide
  | variant => decide
  | array element => simp [text]
  | dict key value => simp [text]

theorem appendArgument_basic (lib : LibDBus M W R) (fuel : ℕ) (w : W) (b : Basic) (h : Holder) :
    appendArgument lib (fuel + 1) w h [b.code] =
      some (lib.appendBasic w b (b.passed (b.get h))) := by
  cases b <;> rfl

theorem appendArgument_array (w : W) :
    appendArgument lib (fuel + 1) w h (Signature.array s).text =
      (h.getArray.foldlM (fun sub elem => appendArgument lib fuel sub elem s.text)
        (lib.openContainer w 'a' (some s.text))).map (lib.closeContainer w) := by
  have hclean := cStr_eq s.nul_not_mem_text
  rw [appendArgument, Signature.text]
  change Option.map _ (if s.text.headD '\x00' ≠ '{' then _ else _) = _
  rw [if_pos s.headD_text_ne, List.drop_succ_cons, List.drop_zero, hclean]

theorem appendDict_eq (hkey : b.isKey = true) (append : W → Holder → Option W) (sub : W) :
    appendDict lib append b.code h sub =
      (h.getDict b.cast b.type).bind fun dict => dictAppendKey lib append b b.passed dict sub := by
  cases b with
  | boolean => cases hkey
  | double => cases hkey
  | _ => rfl

theorem appendArgument_dict (hkey : b.isKey = true) (w : W) :
    appendArgument lib (fuel + 1) w h (Signature.dict b s).text =
      ((h.getDict b.cast b.type).bind fun dict =>
        dictAppendKey lib (fun entry value => appendArgument lib fuel entry value s.text) b b.passed
          dict (lib.openContainer w 'a' (some ('{' :: b.code :: (s.text ++ ['}']))))).map
        (lib.closeContainer w) := by
  have hclean : cStr ('{' :: b.code :: (s.text ++ ['}'])) = '{' :: b.code :: (s.text ++ ['}']) := by
    have hnul := (Signature.dict b s).nul_not_mem_text
    exact cStr_eq fun hmem => hnul (List.mem_cons_of_mem _ hmem)
  have hinner : (('{' :: b.code :: (s.text ++ ['}'])).drop 1).take
      (('{' :: b.code :: (s.text ++ ['}'])).length - 2) = b.code :: s.text := by
    simp
  rw [appendArgument, Signature.text]
  change Option.map _ (if '{' ≠ '{' then _ else _) = _
  rw [if_neg (not_not_intro rfl), List.drop_succ_cons, List.drop_zero, hinner, hclean]
  dsimp only
  rw [appendDict_eq hkey]

/-! ## Arrays and dictionaries -/

theorem lost_array_iff (htype : h.type = .array) : Lost h ↔ ∃ e ∈ h.getArray, Lost e := by
  constructor
  · intro hlost
    cases hlost with
    | element _ he hlost => exact ⟨_, he, hlost⟩
    | nan hdouble => rw [htype] at hdouble; cases hdouble
    | empty hdict => rw [htype] at hdict; cases hdict
    | value hdict => rw [htype] at hdict; cases hdict
  · rintro ⟨e, he, hlost⟩
    exact .element htype he hlost

theorem lookup_eq_some_iff {pairs : List (b.Contents × Holder)} (hkey : b.isKey = true)
    (htagged : h.Tagged b.type b.any pairs) {keyType : HolderType} {key : Any} {e : Holder} :
    h.lookup keyType key = some e ↔
      keyType = b.type ∧ ∃ k, key = b.any k ∧ (k, e) ∈ (Holder.ofPairs pairs).toList := by
  have hat : ∀ k, h.lookup b.type (b.any k) = some e ↔
      (k, e) ∈ (Holder.ofPairs pairs).toList := by
    intro k
    rw [Holder.lookup_tagged (fun _ _ => Basic.any_injective hkey) htagged,
      Std.ExtTreeMap.mem_toList_iff_getElem?_eq_some, Holder.getElem?_ofPairs]
  constructor
  · intro hlookup
    obtain ⟨entry, hlast, heffect⟩ := Option.bind_eq_some_iff.mp hlookup
    obtain ⟨⟨rfl, rfl⟩, -⟩ := Option.ite_none_right_eq_some.mp heffect
    have hmem := mem_of_lastWriter hlast
    rw [htagged] at hmem
    obtain ⟨p, -, rfl⟩ := List.mem_map.mp hmem
    exact ⟨rfl, p.1, rfl, (hat p.1).mp hlookup⟩
  · rintro ⟨rfl, k, rfl, hmem⟩
    exact (hat k).mpr hmem

theorem lost_dict_iff {pairs : List (b.Contents × Holder)} (htype : h.type = .dict)
    (hkey : b.isKey = true) (htagged : h.Tagged b.type b.any pairs) :
    Lost h ↔ pairs = [] ∨ ∃ p ∈ (Holder.ofPairs pairs).toList, Lost p.2 := by
  constructor
  · intro hlost
    cases hlost with
    | empty _ hempty =>
        rw [htagged] at hempty
        exact .inl (List.map_eq_nil_iff.mp hempty)
    | value _ hlookup hlost =>
        obtain ⟨-, k, -, hmem⟩ := (lookup_eq_some_iff hkey htagged).mp hlookup
        exact .inr ⟨_, hmem, hlost⟩
    | nan hdouble => rw [htype] at hdouble; cases hdouble
    | element harray => rw [htype] at harray; cases harray
  · rintro (rfl | ⟨p, hmem, hlost⟩)
    · exact .empty htype htagged
    · exact .value htype ((lookup_eq_some_iff hkey htagged).mpr ⟨rfl, p.1, rfl, hmem⟩) hlost

/-- Dictionaries have no keys of another type to be compared. -/
theorem equalDict_of_ne {κ : Type} [Ord κ] [Std.TransOrd κ] [DecidableEq κ]
    {eq : Holder → Holder → Option Bool} {cast : Any → Option κ} {keyType : HolderType}
    {a : Holder} {as bs : List (b.Contents × Holder)} (hatagged : a.Tagged b.type b.any as)
    (htagged : h.Tagged b.type b.any bs) (hne : b.type ≠ keyType) :
    Holder.equalDict eq (Holder.getDict cast keyType) a h = some true := by
  rw [Holder.equalDict, Holder.getDict_tagged_of_ne hne hatagged,
    Holder.getDict_tagged_of_ne hne htagged]
  rfl

/-- Two dictionaries with keys of one type are compared as maps from it. -/
theorem equal_dict {a : Holder} {as bs : List (b.Contents × Holder)} (hkey : b.isKey = true)
    (hatype : a.type = .dict) (htype : h.type = .dict) (hatagged : a.Tagged b.type b.any as)
    (htagged : h.Tagged b.type b.any bs) :
    Holder.equal (fuel + 1) a h =
      Holder.equalAll (fun x y => if x.1 = y.1 then Holder.equal fuel x.2 y.2 else some false)
        (Holder.ofPairs as).toList (Holder.ofPairs bs).toList := by
  have hown : Holder.equalDict (Holder.equal fuel) (Holder.getDict b.cast b.type) a h =
      Holder.equalAll (fun x y => if x.1 = y.1 then Holder.equal fuel x.2 y.2 else some false)
        (Holder.ofPairs as).toList (Holder.ofPairs bs).toList := by
    rw [Holder.equalDict, Holder.getDict_tagged (Basic.cast_any hkey) hatagged,
      Holder.getDict_tagged (Basic.cast_any hkey) htagged]
    rfl
  have hleft : ∀ same : Option Bool, (some true <&&> same) = same := fun _ => rfl
  have hright : ∀ same : Option Bool, (same <&&> some true) = same := by decide
  rw [← hown, Holder.equal, if_neg (not_not_intro (hatype.trans htype.symm)), hatype]
  cases b with
  | boolean => cases hkey
  | double => cases hkey
  | _ =>
      simp only [Holder.getDictUint8, Holder.getDictUint16, Holder.getDictInt16,
        Holder.getDictUint32, Holder.getDictInt32, Holder.getDictUint64, Holder.getDictInt64,
        Holder.getDictString, Holder.getDictObjectPath, Holder.getDictSignature]
      simp (disch := decide) only [equalDict_of_ne hatagged htagged, hleft, hright]
      rfl

theorem exists_succ_of_depth_le (hfuel : h.depth ≤ fuel) : ∃ fuel', fuel = fuel' + 1 := by
  rw [Holder.depth_eq] at hfuel
  exact ⟨fuel - 1, by omega⟩

theorem forall_of_carries {values : List Value} {es : List Holder}
    (hall : List.Forall₂ (fun value e => Carries value s e) values es) :
    ∀ value ∈ values,
      value.signature = s.text ∧ value.Typed ∧ value.holder.type ≠ .none := by
  induction hall with
  | nil => simp
  | cons hvalue _ ih =>
      rw [List.forall_mem_cons]
      exact ⟨⟨hvalue.signature, hvalue.typed, hvalue.kept⟩, ih⟩

theorem equal_elements {values : List Value} {es : List Holder}
    (hall : List.Forall₂ (fun value e => Carries value s e) values es)
    (hfuel : ∀ e ∈ es, e.depth ≤ fuel) :
    List.Forall₂ (fun a e => ∃ same, Holder.equal fuel a e = some same ∧
      (same = true ↔ ¬ Lost e)) (values.map Value.holder) es := by
  induction hall with
  | nil => exact .nil
  | cons hvalue _ ih =>
      rw [List.forall_mem_cons] at hfuel
      exact .cons (hvalue.equal fuel hfuel.1) (ih hfuel.2)

/-- Values of a type that a signature names are no entries. -/
theorem areEntries_eq_false {values : List Value}
    (h : ∀ value ∈ values, value.signature = s.text) : ¬ Value.areEntries values = true := by
  cases values with
  | nil => simp [Value.areEntries]
  | cons value values =>
      rw [Value.areEntries_cons_iff, Value.argType_eq_entry_iff]
      rintro ⟨key, value', rfl⟩
      have hsignature := h _ List.mem_cons_self
      have hhead := s.headD_text_ne
      rw [← hsignature] at hhead
      exact hhead rfl

theorem carries_array {values : List Value} (htype : h.type = .array)
    (hall : List.Forall₂ (fun value e => Carries value s e) values h.getArray) :
    Carries (.array s.text values) (.array s) h := by
  have hvalues := forall_of_carries hall
  have hholder : (Value.array s.text values).holder = .ofArray (values.map Value.holder) := by
    rw [Value.holder, if_neg (areEntries_eq_false fun v hv => (hvalues v hv).1),
      Value.holders_eq fun v hv => (hvalues v hv).2.2]
  refine ⟨rfl, ⟨fun v hv => (hvalues v hv).1, ?_⟩, ?_, fun fuel hfuel => ?_⟩
  · exact Value.allTyped_iff.mpr fun v hv => (hvalues v hv).2.1
  · rw [hholder]
    simp
  · obtain ⟨fuel, rfl⟩ := exists_succ_of_depth_le hfuel
    have helements := equal_elements hall fun e he =>
      Nat.le_of_lt_succ ((Holder.depth_lt_of_mem_array he).trans_le hfuel)
    obtain ⟨same, hsame, hall⟩ := Holder.equalAll_of_forall₂ helements
    refine ⟨same, ?_, ?_⟩
    · rw [hholder, Holder.equal, Holder.type_ofArray, htype, if_neg (not_not_intro rfl)]
      exact hsame
    · rw [hall, lost_array_iff htype]
      simp

/-- The entry that a pair becomes. -/
def CarriesEntry (s : Signature) (entry : Value) (p : b.Contents × Holder) : Prop :=
  ∃ value, entry = .dictEntry (.basic b p.1) value ∧ Carries value s p.2

theorem forall_of_carriesEntry {values : List Value} {pairs : List (b.Contents × Holder)}
    (hall : List.Forall₂ (CarriesEntry s) values pairs) :
    ∀ value ∈ values, value.signature = '{' :: b.code :: (s.text ++ ['}']) ∧ value.Typed := by
  induction hall with
  | nil => simp
  | cons hentry _ ih =>
      obtain ⟨value, rfl, hvalue⟩ := hentry
      rw [List.forall_mem_cons]
      refine ⟨⟨?_, trivial, hvalue.typed⟩, ih⟩
      rw [Value.signature, Value.signature, hvalue.signature]
      rfl

/-- What is read has the same keys, and values that are equal as far as
nothing is lost. -/
theorem exists_read {values : List Value} {pairs : List (b.Contents × Holder)}
    (hkey : b.isKey = true) (hall : List.Forall₂ (CarriesEntry s) values pairs)
    (hfuel : ∀ p ∈ pairs, p.2.depth ≤ fuel) : ∃ read : List (b.Contents × Holder),
      Value.entries values = read.map (fun p => (b.type, b.any p.1, p.2)) ∧
        List.Forall₂ (fun x p => x.1 = p.1 ∧ ∃ same,
          Holder.equal fuel x.2 p.2 = some same ∧ (same = true ↔ ¬ Lost p.2)) read pairs := by
  induction hall with
  | nil => exact ⟨[], rfl, .nil⟩
  | @cons entry p values pairs hentry _ ih =>
      obtain ⟨value, rfl, hvalue⟩ := hentry
      rw [List.forall_mem_cons] at hfuel
      obtain ⟨read, hread, hequal⟩ := ih hfuel.2
      refine ⟨(p.1, value.holder) :: read, ?_, .cons ⟨rfl, hvalue.equal fuel hfuel.1⟩ hequal⟩
      rw [Value.entries, hread, Value.holder, Basic.type_holder, Basic.getContents_holder hkey,
        List.map_cons]

theorem carries_dict {pairs : List (b.Contents × Holder)} {values : List Value}
    (htype : h.type = .dict) (hkey : b.isKey = true) (htagged : h.Tagged b.type b.any pairs)
    (hall : List.Forall₂ (CarriesEntry s) values (Holder.ofPairs pairs).toList) :
    Carries (.array ('{' :: b.code :: (s.text ++ ['}'])) values) (.dict b s) h := by
  have hvalues := forall_of_carriesEntry hall
  refine ⟨rfl, ⟨fun v hv => (hvalues v hv).1, ?_⟩, ?_, fun fuel hfuel => ?_⟩
  · exact Value.allTyped_iff.mpr fun v hv => (hvalues v hv).2
  · rw [Value.holder]
    split <;> simp
  obtain ⟨fuel, rfl⟩ := exists_succ_of_depth_le hfuel
  rw [lost_dict_iff htype hkey htagged]
  cases values with
  | nil =>
      -- an array comes back, and there was nothing in the dictionary
      have hempty : pairs = [] := by
        by_contra hne
        obtain ⟨p, hp⟩ := List.exists_mem_of_ne_nil _ hne
        obtain ⟨value, hvalue⟩ := Holder.exists_mem_ofPairs hp
        rw [List.forall₂_nil_left_iff.mp hall] at hvalue
        cases hvalue
      refine ⟨false, ?_, by simp [hempty]⟩
      rw [Value.holder, if_neg (by simp [Value.areEntries]), Holder.equal, Holder.type_ofArray,
        htype, if_pos (by simp)]
  | cons entry values =>
      have hentries : Value.areEntries (entry :: values) = true := by
        obtain ⟨p, _, ⟨value, rfl, -⟩, -, -⟩ := List.forall₂_cons_left_iff.mp hall
        rfl
      have hne : pairs ≠ [] := by
        rintro rfl
        obtain ⟨_, _, -, -, hnil⟩ := List.forall₂_cons_left_iff.mp hall
        cases hnil
      have hdepth : ∀ p ∈ (Holder.ofPairs pairs).toList, p.2.depth ≤ fuel := by
        intro p hp
        have hmem : (b.type, b.any p.1, p.2) ∈ h.holderDict := by
          rw [htagged]
          exact List.mem_map_of_mem (Holder.mem_of_mem_ofPairs hp)
        exact Nat.le_of_lt_succ ((Holder.depth_lt_of_mem_dict hmem).trans_le hfuel)
      obtain ⟨read, hread, hequal⟩ := exists_read hkey hall hdepth
      have hsorted : read.Pairwise fun p q => compare p.1 q.1 = .lt := by
        have hkeys : read.map Prod.fst = (Holder.ofPairs pairs).toList.map Prod.fst := by
          rw [← List.forall₂_eq_eq_eq, List.forall₂_map_left_iff, List.forall₂_map_right_iff]
          exact hequal.imp fun x p hxp => hxp.1
        rw [← List.pairwise_map (f := Prod.fst) (R := fun k k' => compare k k' = .lt), hkeys,
          List.pairwise_map]
        exact Std.ExtTreeMap.ordered_keys_toList
      have hforall : List.Forall₂ (fun x p => ∃ same,
          (if x.1 = p.1 then Holder.equal fuel x.2 p.2 else some false) = some same ∧
            (same = true ↔ ¬ Lost p.2)) read (Holder.ofPairs pairs).toList :=
        hequal.imp fun x p hxp => by rw [if_pos hxp.1]; exact hxp.2
      obtain ⟨same, hsame, hall⟩ := Holder.equalAll_of_forall₂ hforall
      refine ⟨same, ?_, ?_⟩
      · rw [Value.holder, if_pos hentries,
          equal_dict (a := .ofDict (Value.entries (entry :: values))) hkey rfl htype hread htagged,
          Holder.toList_ofPairs hsorted]
        exact hsame
      · rw [hall]
        simp [hne]

/-! ## Arguments -/

/-- A variant takes a round of its own. -/
def Signature.extra : Signature → ℕ
  | variant => 1
  | _ => 0

theorem Signature.extra_le (s : Signature) : s.extra ≤ 1 := by
  cases s <;> simp [extra]

theorem Holder.headD_signature_ne (h : Holder) : h.signature.headD '\x00' ≠ 'v' := by
  cases htype : h.type <;>
    simp [Holder.signature, htype, Holder.signatureSimple, Holder.signatureType]

/-- What `signature` returns is not a variant. -/
theorem extra_eq_zero (hsignature : h.signature = s.text) : s.extra = 0 := by
  have hhead := h.headD_signature_ne
  rw [hsignature] at hhead
  cases s with
  | variant => exact absurd rfl hhead
  | _ => rfl

theorem Carries.variant (hvalue : Carries value s h) : Carries (.variant value) .variant h where
  signature := rfl
  typed := hvalue.typed
  kept := hvalue.kept
  equal := hvalue.equal

/-- An argument that fits becomes one value, which carries it. -/
theorem appendArgument_carries (hfits : Fits doc s h) (hfuel : 2 * h.depth + s.extra ≤ fuel) :
    ∃ value, Appends doc (fun w => appendArgument lib fuel w h s.text) value ∧
      Carries value s h := by
  induction hfits generalizing fuel with
  | @basic b h hboolean htype hpassed haccepts =>
      obtain ⟨fuel, rfl⟩ := exists_succ_of_depth_le (show h.depth ≤ fuel by omega)
      refine ⟨.basic b (b.get h), fun w => ?_, carries_basic hboolean htype⟩
      have happend := appendArgument_basic lib fuel w b h
      rw [hpassed] at happend
      exact ⟨_, happend, doc.frame_appendBasic w b _ haccepts⟩
  | @variant s h hsignature hadmits _ ih =>
      obtain ⟨fuel, rfl⟩ := exists_succ_of_depth_le (show h.depth ≤ fuel by omega)
      have hextra := extra_eq_zero hsignature
      rw [Signature.extra] at hfuel
      obtain ⟨value, happends, hcarries⟩ := ih (show 2 * h.depth + s.extra ≤ fuel by omega)
      have hvariant := appends_variant hadmits happends hcarries.signature
      refine ⟨.variant value, fun w => ?_, hcarries.variant⟩
      obtain ⟨w', hw', hframe⟩ := hvariant w
      refine ⟨w', ?_, hframe⟩
      rw [← hw']
      change Option.map _ (appendArgument lib fuel
        (lib.openContainer w 'v' (some (cStr h.signature))) h h.signature) = _
      rw [hsignature, cStr_eq s.nul_not_mem_text]
  | @array s h htype hadmits _ ih =>
      obtain ⟨fuel, rfl⟩ := exists_succ_of_depth_le (show h.depth ≤ fuel by omega)
      have helement : ∀ e ∈ h.getArray, ∃ value,
          Appends doc (fun w => appendArgument lib fuel w e s.text) value ∧ Carries value s e := by
        intro e he
        have hdepth := Holder.depth_lt_of_mem_array he
        have hextra := s.extra_le
        exact ih e he (by omega)
      obtain ⟨values, hall, happends⟩ := appendsAll_foldlM h.getArray helement
      have harray := appends_array hadmits happends fun v hv => (forall_of_carries hall v hv).1
      refine ⟨.array s.text values, fun w => ?_, carries_array htype hall⟩
      obtain ⟨w', hw', hframe⟩ := harray w
      exact ⟨w', (appendArgument_array w).trans hw', hframe⟩
  | @dict b s h pairs htype hkey htagged hpassed haccepts hadmits _ ih =>
      obtain ⟨fuel, rfl⟩ := exists_succ_of_depth_le (show h.depth ≤ fuel by omega)
      have hentry : ∀ p ∈ (Holder.ofPairs pairs).toList, ∃ value,
          Appends doc (fun w => (appendArgument lib fuel (lib.appendBasic
            (lib.openContainer w 'e' none) b (b.passed p.1)) p.2 s.text).map
              (lib.closeContainer w)) value ∧ CarriesEntry s value p := by
        intro p hp
        have hmem := Holder.mem_of_mem_ofPairs hp
        have hdict : (b.type, b.any p.1, p.2) ∈ h.holderDict := by
          rw [htagged]
          exact List.mem_map_of_mem hmem
        have hdepth := Holder.depth_lt_of_mem_dict hdict
        have hextra := s.extra_le
        dsimp only at hdepth
        obtain ⟨value, happends, hcarries⟩ :=
          ih p hmem (show 2 * p.2.depth + s.extra ≤ fuel by omega)
        rw [hpassed p hmem]
        exact ⟨_, appends_entry (haccepts p hmem) happends, value, rfl, hcarries⟩
      obtain ⟨values, hall, happends⟩ := appendsAll_foldlM _ hentry
      have harray := appends_array hadmits happends
        fun v hv => (forall_of_carriesEntry hall v hv).1
      refine ⟨_, fun w => ?_, carries_dict htype hkey htagged hall⟩
      obtain ⟨w', hw', hframe⟩ := harray w
      refine ⟨w', ?_, hframe⟩
      rw [← hw']
      dsimp only
      rw [appendArgument_dict hkey, Holder.getDict_tagged (Basic.cast_any hkey) htagged]
      rfl

/-! ## Messages -/

/-- Appending one argument after the other. -/
def Message.appendAll (lib : LibDBus M W R) (fuel : ℕ) (m : Message M R)
    (args : List (Holder × Signature)) : Option (Message M R) :=
  args.foldlM (fun m arg => m.append lib fuel arg.1 arg.2.text) m

theorem append_eq (m : Message M R)
    (happends : Appends doc (fun w => appendArgument lib fuel w h s.text) value) :
    ∃ m' : Message M R, m.append lib fuel h s.text = some m' ∧
      doc.arguments m'.msg = doc.arguments m.msg ++ [value] := by
  obtain ⟨w', hw', hframe⟩ := happends (lib.initAppend m.msg)
  dsimp only at hw'
  rw [Message.append, hw']
  refine ⟨_, rfl, ?_⟩
  rw [doc.arguments_appended, hframe, Frame.add, doc.values_initAppend]

theorem appendAll_eq {args : List (Holder × Signature)} (m : Message M R)
    (hfits : ∀ arg ∈ args, Fits doc arg.2 arg.1)
    (hfuel : ∀ arg ∈ args, 2 * arg.1.depth + arg.2.extra ≤ fuel) :
    ∃ (sent : Message M R) (values : List Value), m.appendAll lib fuel args = some sent ∧
      doc.arguments sent.msg = doc.arguments m.msg ++ values ∧
        List.Forall₂ (fun value arg => Carries value arg.2 arg.1) values args := by
  induction args generalizing m with
  | nil => exact ⟨m, [], rfl, (List.append_nil _).symm, .nil⟩
  | cons arg args ih =>
      rw [List.forall_mem_cons] at hfits hfuel
      obtain ⟨value, happends, hcarries⟩ := appendArgument_carries hfits.1 hfuel.1
      obtain ⟨m', hm', harguments⟩ := append_eq m happends
      obtain ⟨sent, values, hsent, hvalues, hall⟩ := ih m' hfits.2 hfuel.2
      refine ⟨sent, value :: values, ?_, ?_, .cons hcarries hall⟩
      · rw [Message.appendAll, List.foldlM_cons, hm']
        exact hsent
      · rw [hvalues, harguments, List.append_assoc, List.singleton_append]

theorem typed_of_carries {args : List (Holder × Signature)} {values : List Value}
    (hall : List.Forall₂ (fun value arg => Carries value arg.2 arg.1) values args) :
    ∀ value ∈ values, value.Typed := by
  induction hall with
  | nil => simp
  | cons hvalue _ ih =>
      rw [List.forall_mem_cons]
      exact ⟨hvalue.typed, ih⟩

theorem exists_carries {args : List (Holder × Signature)} {values : List Value}
    (hall : List.Forall₂ (fun value arg => Carries value arg.2 arg.1) values args) {index : ℕ}
    {arg : Holder × Signature} (harg : args[index]? = some arg) :
    ∃ value, values[index]? = some value ∧ Carries value arg.2 arg.1 := by
  induction hall generalizing index with
  | nil => cases harg
  | cons hvalue _ ih =>
      cases index with
      | zero =>
          obtain rfl := Option.some.inj harg
          exact ⟨_, rfl, hvalue⟩
      | succ index => exact ih harg

/-- Two bytes, and options of which one is given twice. -/
def command : List (Holder × Signature) :=
  [((Holder.createArray.arrayAppend (.createByte 49)).arrayAppend (.createByte 0),
      .array (.basic .byte)),
    ((Holder.createDict.dictAppend .string (.chars ['t']) (.createInt16 (-1))).dictAppend .string
      (.chars ['t']) (.createString ['c']), .dict .string .variant)]

theorem fits_command : ∀ arg ∈ command, Fits LibDBus.listsDocumented arg.2 arg.1 := by
  have hbyte : ∀ byte, Fits LibDBus.listsDocumented (.basic .byte) (.createByte byte) :=
    fun _ => .basic (by simp) rfl rfl trivial
  have hnumber : Fits LibDBus.listsDocumented (.basic .int16) (.createInt16 (-1)) :=
    .basic (by simp) rfl rfl trivial
  have htext : Fits LibDBus.listsDocumented (.basic .string) (.createString ['c']) :=
    .basic (by simp) rfl rfl trivial
  simp only [command, List.forall_mem_cons, List.not_mem_nil, false_imp_iff, implies_true,
    and_true]
  constructor
  · refine .array rfl trivial fun e he => ?_
    rcases List.mem_pair.mp he with rfl | rfl
    · exact hbyte 49
    · exact hbyte 0
  · refine .dict [(['t'], .createInt16 (-1)), (['t'], .createString ['c'])] rfl rfl rfl ?_
      (fun _ _ => trivial) trivial ?_
    · simp [Basic.passed, cStr]
    · simp only [List.forall_mem_cons, List.not_mem_nil, false_imp_iff, implies_true, and_true]
      exact ⟨.variant rfl trivial hnumber, .variant rfl trivial htext⟩

end BLERCCar.SimpleDBus
