import BLERCCar.SimpleDBus.Extracting

/-!
# The properties of a characteristic

`GattCharacteristic1` of the vendored `simplebluez` keeps what BlueZ says about
a characteristic: a notification of the server comes as a change of its
property `Value`.

A signal is for the interface that its first argument names, loaded or not.
What it invalidates keeps its value.

## Main results

* `propertyChanged_foldl`: what is done about the names that have changed.
* `mirrors_of_run`: what is kept is what was said last, and the callback gets
  every value, in order, for as long as it is set.
-/

namespace BLERCCar.SimpleDBus

open BLERCCar.Lib

/-! ## The source -/

/-- `GattCharacteristic1` with what it has of `Interface`, and what its callback
has been given. -/
structure GattCharacteristic1 where
  loaded : Bool
  properties : Std.ExtTreeMap Text Holder
  propertyValidMap : Std.ExtTreeMap Text Bool
  uuid : Text
  value : List UInt8
  /-- `OnValueChanged` is loaded -/
  watched : Bool
  told : List (List UInt8)

namespace GattCharacteristic1

/-- `GattCharacteristic1::GattCharacteristic1`. -/
def init : GattCharacteristic1 := ⟨true, ∅, ∅, [], [], false, []⟩

/-- The bytes that `update_value` takes out of a holder. -/
def bytes (h : Holder) : List UInt8 := h.getArray.map Holder.getByte

/-- `GattCharacteristic1::update_value`. -/
def updateValue (s : GattCharacteristic1) (newValue : Holder) : GattCharacteristic1 :=
  { s with value := bytes newValue }

/-- `OnValueChanged`, with the callback of `Characteristic::set_on_value_changed`. -/
def onValueChanged (s : GattCharacteristic1) : GattCharacteristic1 :=
  if s.watched then { s with told := s.told ++ [s.value] } else s

def uuidName : Text := "UUID".toList

def valueName : Text := "Value".toList

/-- `GattCharacteristic1::property_changed`. -/
def propertyChanged (s : GattCharacteristic1) (optionName : Text) : GattCharacteristic1 :=
  if optionName = uuidName then
    { s with uuid := (s.properties.getD uuidName {}).getString }
  else if optionName = valueName then
    (s.updateValue (s.properties.getD valueName {})).onValueChanged
  else s

/-- The loop that takes new properties over. -/
def takeOver (s : GattCharacteristic1) (options : Std.ExtTreeMap Text Holder) :
    GattCharacteristic1 :=
  options.toList.foldl
    (fun s option => { s with
      properties := s.properties.insert option.1 option.2
      propertyValidMap := s.propertyValidMap.insert option.1 true }) s

/-- The loop that takes the validity away. -/
def invalidate (s : GattCharacteristic1) (removedOptions : List Holder) : GattCharacteristic1 :=
  removedOptions.foldl
    (fun s option => { s with
      propertyValidMap := s.propertyValidMap.insert option.getString false }) s

/-- `Interface::load`. -/
def load (s : GattCharacteristic1) (options : Holder) : Option GattCharacteristic1 :=
  options.getDictString.map fun changed =>
    { (changed.toList.map Prod.fst).foldl propertyChanged (s.takeOver changed) with
      loaded := true }

/-- `Interface::unload`. -/
def unload (s : GattCharacteristic1) : GattCharacteristic1 := { s with loaded := false }

/-- `Interface::signal_property_changed`. -/
def signalPropertyChanged (s : GattCharacteristic1)
    (changedProperties invalidatedProperties : Holder) : Option GattCharacteristic1 :=
  changedProperties.getDictString.map fun changed =>
    (changed.toList.map Prod.fst).foldl propertyChanged
      ((s.takeOver changed).invalidate invalidatedProperties.getArray)

def interfaceName : Text := "org.bluez.GattCharacteristic1".toList

variable {M W R : Type} (lib : LibDBus M W R)

/-- What `Proxy::message_forward` does with `PropertiesChanged`, seen from this
interface. -/
def messageForward (fuel : ℕ) (s : GattCharacteristic1) (msg : Message M R) :
    Option GattCharacteristic1 :=
  (msg.extract lib fuel).bind fun interfaceH =>
  ((interfaceH.2.extractNext lib).extract lib fuel).bind fun changedProperties =>
  ((changedProperties.2.extractNext lib).extract lib fuel).bind fun invalidatedProperties =>
    if interfaceH.1.getString = interfaceName then
      s.signalPropertyChanged changedProperties.1 invalidatedProperties.1
    else some s

/-- `GattCharacteristic1::ReadValue`, when the reply is there. -/
def readValue (fuel : ℕ) (s : GattCharacteristic1) (replyMsg : Message M R) :
    Option GattCharacteristic1 :=
  (replyMsg.extract lib fuel).map fun value => s.updateValue value.1

/-- What can happen to a characteristic. -/
inductive Event (M : Type)
  | load (options : Holder)
  | unload
  /-- `PropertiesChanged` for the object -/
  | signal (msg : M)
  /-- the reply that `ReadValue` waits for -/
  | reply (msg : M)
  | setOnValueChanged
  | clearOnValueChanged

/-- One step. -/
def step (fuel : ℕ) (s : GattCharacteristic1) : Event M → Option GattCharacteristic1
  | .load options => s.load options
  | .unload => some s.unload
  | .signal msg => s.messageForward lib fuel (.ofMsg msg)
  | .reply msg => s.readValue lib fuel (.ofMsg msg)
  | .setOnValueChanged => some { s with watched := true }
  | .clearOnValueChanged => some { s with watched := false }

end GattCharacteristic1

/-! ## Dictionaries with names -/

/-- Under a type of texts there are texts. -/
def Holder.Named (h : Holder) : Prop :=
  ∀ entry ∈ h.holderDict, entry.1 = .string → ∃ text, entry.2.1 = .string text

/-- The property that a dictionary has under a name. -/
def Holder.property (h : Holder) (name : Text) : Option Holder := h.lookup .string (.string name)

/-- What is extracted has texts for names. -/
theorem Value.named_entries (values : List Value) :
    ∀ entry ∈ entries values, entry.1 = .string → ∃ text, entry.2.1 = .string text := by
  induction values with
  | nil => simp [entries]
  | cons value values ih =>
      cases value with
      | dictEntry key value =>
          rw [entries, List.forall_mem_cons]
          refine ⟨fun htype => ⟨key.holder.getString, ?_⟩, ih⟩
          change key.holder.type = .string at htype
          dsimp only
          rw [Holder.getContents, htype]
      | _ => exact ih

theorem Value.named_holder : ∀ value : Value, value.holder.Named
  | basic b contents => by
      intro entry hentry
      cases b <;> cases hentry
  | variant value => by
      rw [holder]
      exact named_holder value
  | array element values => by
      rw [holder]
      split
      · exact named_entries values
      · intro entry hentry
        cases hentry
  | dictEntry _ _ => by
      intro entry hentry
      cases hentry
  | struct _ => by
      intro entry hentry
      cases hentry
  | unixFd _ => by
      intro entry hentry
      cases hentry

/-- `get_dict_string` of a dictionary with names: the property under each. -/
theorem Holder.Named.getDictString {h : Holder} (hnamed : h.Named) :
    ∃ dict, h.getDictString = some dict ∧ ∀ name, dict[name]? = h.property name := by
  rw [Holder.Named] at hnamed
  simp only [Holder.getDictString, Holder.getDict, Holder.property, Holder.lookup]
  generalize h.holderDict = entries at hnamed ⊢
  -- the last entry decides, so the list is taken apart from its end
  induction entries using List.reverseRecOn with
  | nil => exact ⟨∅, rfl, fun name => Std.ExtTreeMap.getElem?_empty⟩
  | append_singleton entries entry ih =>
      obtain ⟨dict, hdict, hlookup⟩ := ih fun e he => hnamed e (List.mem_append_left _ he)
      rw [List.foldlM_append, hdict]
      by_cases htype : entry.1 = .string
      · obtain ⟨text, htext⟩ :=
          hnamed entry (List.mem_append_right _ (List.mem_singleton_self _)) htype
        refine ⟨dict.insert text entry.2.2, ?_, fun name => ?_⟩
        · simp [htype, htext, Any.toText]
        rw [Std.ExtTreeMap.getElem?_insert, lastWrite]
        by_cases hname : text = name
        · rw [lastWriter_concat_of_some (b := entry.2.2) (by simp [htype, htext, hname])]
          simp [htype, htext, hname]
        · rw [lastWriter_concat_of_none (by simp [htext, hname]), if_neg (by simp [hname]), hlookup]
          rfl
      · refine ⟨dict, by simp [htype], fun name => ?_⟩
        rw [lastWrite, lastWriter_concat_of_none (by simp [htype]), hlookup]
        rfl

namespace GattCharacteristic1

variable {s s' : GattCharacteristic1}

/-! ## The loops -/

theorem lastWrite_toList (options : Std.ExtTreeMap Text Holder) (name : Text) :
    lastWrite (Holder.writes name) options.toList = options[name]? := by
  have hlist : (Holder.ofPairs options.toList).toList = options.toList :=
    Holder.toList_ofPairs Std.ExtTreeMap.ordered_keys_toList
  rw [← Holder.getElem?_ofPairs]
  refine Option.ext fun h => ?_
  rw [← Std.ExtTreeMap.mem_toList_iff_getElem?_eq_some, hlist,
    Std.ExtTreeMap.mem_toList_iff_getElem?_eq_some]

/-- The options of a loop decide what is stored under their names. -/
theorem getElem?_foldl_insert {β : Type} (f : Holder → β) (options : Std.ExtTreeMap Text Holder)
    (map : Std.ExtTreeMap Text β) (name : Text) :
    (options.toList.foldl (fun map option => map.insert option.1 (f option.2)) map)[name]? =
      (options[name]?.map f).or map[name]? := by
  have hstep : Written (fun map : Std.ExtTreeMap Text β => map[name]?)
      (fun map option => map.insert option.1 (f option.2))
      (fun option => (Holder.writes name option).map fun h => some (f h)) := by
    intro map option
    dsimp only
    rw [Std.ExtTreeMap.getElem?_insert, Holder.writes]
    by_cases hname : option.1 = name <;> simp [hname]
  rw [hstep.foldl, lastWrite_map, lastWrite_toList]
  cases options[name]? <;> rfl

/-- The two maps are written, and nothing else. -/
theorem takeOver_eq (s : GattCharacteristic1) (options : Std.ExtTreeMap Text Holder) :
    s.takeOver options = { s with
      properties := options.toList.foldl (fun map option => map.insert option.1 option.2)
        s.properties
      propertyValidMap := options.toList.foldl (fun map option => map.insert option.1 true)
        s.propertyValidMap } := by
  rw [takeOver]
  induction options.toList generalizing s with
  | nil => rfl
  | cons option options ih => exact ih _

theorem invalidate_eq (s : GattCharacteristic1) (removedOptions : List Holder) :
    s.invalidate removedOptions = { s with
      propertyValidMap := removedOptions.foldl
        (fun map option => map.insert option.getString false) s.propertyValidMap } := by
  rw [invalidate]
  induction removedOptions generalizing s with
  | nil => rfl
  | cons option options ih => exact ih _

theorem getElem?_invalidate (s : GattCharacteristic1) (removedOptions : List Holder)
    (name : Text) : (s.invalidate removedOptions).propertyValidMap[name]? =
      if name ∈ removedOptions.map Holder.getString then some false
      else s.propertyValidMap[name]? := by
  rw [invalidate_eq]
  generalize s.propertyValidMap = map
  induction removedOptions generalizing map with
  | nil => exact (if_neg List.not_mem_nil).symm
  | cons option options ih =>
      refine (ih _).trans ?_
      rw [Std.ExtTreeMap.getElem?_insert]
      by_cases hname : option.getString = name
      · simp [hname]
      · simp [hname, Ne.symm hname]

/-- What is done about the names that have changed: a value is told once. -/
theorem propertyChanged_foldl {names : List Text} (hnodup : names.Nodup)
    (s : GattCharacteristic1) :
    names.foldl propertyChanged s = { s with
      uuid := if uuidName ∈ names then
        (s.properties.getD uuidName {}).getString else s.uuid
      value := if valueName ∈ names then
        bytes (s.properties.getD valueName {}) else s.value
      told := if valueName ∈ names ∧ s.watched then
        s.told ++ [bytes (s.properties.getD valueName {})] else s.told } := by
  have hne : valueName ≠ uuidName := by decide
  induction names generalizing s with
  | nil => simp
  | cons name names ih =>
      rw [List.nodup_cons] at hnodup
      rw [List.foldl_cons, ih hnodup.2]
      by_cases huuid : name = uuidName
      · subst huuid
        simp [propertyChanged, hnodup.1, hne]
      by_cases hvalue : name = valueName
      · subst hvalue
        have hfirst := hnodup.1
        rw [propertyChanged, if_neg hne, if_pos rfl, onValueChanged]
        cases hwatched : s.watched <;>
          simp [updateValue, hwatched, hfirst, hne.symm]
      · rw [propertyChanged, if_neg huuid, if_neg hvalue]
        simp [Ne.symm huuid, Ne.symm hvalue]

theorem mem_names_iff {options : Std.ExtTreeMap Text Holder} {name : Text} :
    name ∈ options.toList.map Prod.fst ↔ (options[name]?).isSome := by
  rw [List.mem_map, Option.isSome_iff_exists]
  constructor
  · rintro ⟨option, hoption, rfl⟩
    exact ⟨option.2, Std.ExtTreeMap.mem_toList_iff_getElem?_eq_some.mp hoption⟩
  · rintro ⟨h, hh⟩
    exact ⟨(name, h), Std.ExtTreeMap.mem_toList_iff_getElem?_eq_some.mpr hh, rfl⟩

theorem nodup_names (options : Std.ExtTreeMap Text Holder) :
    (options.toList.map Prod.fst).Nodup := by
  rw [List.Nodup, List.pairwise_map]
  refine Std.ExtTreeMap.distinct_keys_toList.imp fun {option option'} hne hsame => ?_
  exact hne (Std.LawfulEqCmp.compare_eq_iff_eq.mpr hsame)

/-- What is done about properties that have been taken over. -/
theorem propertyChanged_names {options : Std.ExtTreeMap Text Holder}
    (htaken : ∀ (name : Text) (h : Holder), options[name]? = some h →
      s.properties[name]? = some h) :
    (options.toList.map Prod.fst).foldl propertyChanged s = { s with
      uuid := (options[uuidName]?.map Holder.getString).getD s.uuid
      value := (options[valueName]?.map bytes).getD s.value
      told := s.told ++
        if s.watched then (options[valueName]?.map bytes).toList else [] } := by
  have hget : ∀ (name : Text) (h : Holder), options[name]? = some h →
      s.properties.getD name {} = h := by
    intro name h hname
    rw [Std.ExtTreeMap.getD_eq_getD_getElem?, htaken name h hname, Option.getD_some]
  rw [propertyChanged_foldl (nodup_names options)]
  simp only [mem_names_iff]
  cases huuid : options[uuidName]? with
  | none =>
      cases hvalue : options[valueName]? with
      | none => cases s.watched <;> simp
      | some value =>
          rw [hget _ _ hvalue]
          cases s.watched <;> simp
  | some uuid =>
      rw [hget _ _ huuid]
      cases hvalue : options[valueName]? with
      | none => cases s.watched <;> simp
      | some value =>
          rw [hget _ _ hvalue]
          cases s.watched <;> simp

/-! ## What is said -/

namespace Event

variable {M W R : Type} {lib : LibDBus M W R} (doc : lib.Documented)

/-- The properties that BlueZ gives. -/
def changed : Event M → Option Holder
  | .load options => some options
  | .signal msg =>
      match doc.arguments msg with
      | interface :: changed :: _ =>
          if interface.holder.getString = interfaceName then some changed.holder else none
      | _ => none
  | _ => none

/-- The names whose validity BlueZ takes away. -/
def invalidated : Event M → List Text
  | .signal msg =>
      match doc.arguments msg with
      | interface :: _ :: invalidated :: _ =>
          if interface.holder.getString = interfaceName then
            invalidated.holder.getArray.map Holder.getString
          else []
      | _ => []
  | _ => []

def property (name : Text) (e : Event M) : Option Holder :=
  (e.changed doc).bind fun changed => changed.property name

def valid (name : Text) (e : Event M) : Option Bool :=
  if name ∈ e.invalidated doc then some false else (e.property doc name).map fun _ => true

def uuid (e : Event M) : Option Text := (e.property doc uuidName).map Holder.getString

/-- The value that the callback is to get. -/
def announced (e : Event M) : Option (List UInt8) := (e.property doc valueName).map bytes

def value : Event M → Option (List UInt8)
  | .reply msg => (doc.arguments msg).head?.map fun value => bytes value.holder
  | e => e.announced doc

def watched : Event M → Option Bool
  | .setOnValueChanged => some true
  | .clearOnValueChanged => some false
  | _ => none

/-- Messages have the arguments that they are documented to have. -/
def Sent (fuel : ℕ) : Event M → Prop
  | .load options => options.Named
  | .signal msg => ∃ interface changed invalidated,
      doc.arguments msg = [interface, changed, invalidated] ∧
        ∀ value ∈ doc.arguments msg, value.Typed ∧ value.rounds ≤ fuel
  | .reply msg => ∃ reply, doc.arguments msg = [reply] ∧ reply.Typed ∧ reply.rounds ≤ fuel
  | _ => True

end Event

variable {M W R : Type} {lib : LibDBus M W R} (doc : lib.Documented)

/-- What one step makes of a characteristic. -/
structure Follows (s : GattCharacteristic1) (e : Event M) (s' : GattCharacteristic1) : Prop where
  properties : ∀ name, s'.properties[name]? = (e.property doc name).or s.properties[name]?
  valid : ∀ name, s'.propertyValidMap[name]? =
    (e.valid doc name).or s.propertyValidMap[name]?
  uuid : s'.uuid = (e.uuid doc).getD s.uuid
  value : s'.value = (e.value doc).getD s.value
  watched : s'.watched = e.watched.getD s.watched
  told : s'.told = s.told ++ if s.watched then (e.announced doc).toList else []

/-! ## One step -/

theorem signalPropertyChanged_follows {e : Event M} {changed : Holder} (invalidated : Holder)
    (hnamed : changed.Named) (hchanged : e.changed doc = some changed)
    (hinvalidated : e.invalidated doc = invalidated.getArray.map Holder.getString)
    (hvalue : e.value doc = e.announced doc) (hwatched : e.watched = none) :
    ∃ s', s.signalPropertyChanged changed invalidated = some s' ∧ Follows doc s e s' := by
  obtain ⟨options, hoptions, hlookup⟩ := hnamed.getDictString
  have hproperty : ∀ name, e.property doc name = options[name]? := by
    intro name
    rw [Event.property, hchanged, Option.bind_some, hlookup]
  have hproperties : ∀ name : Text, (s.takeOver options).properties[name]? =
      options[name]?.or s.properties[name]? := by
    intro name
    rw [takeOver_eq, getElem?_foldl_insert fun h => h, Option.map_id']
  have hvalid : ∀ name : Text, (s.takeOver options).propertyValidMap[name]? =
      (options[name]?.map fun _ => true).or s.propertyValidMap[name]? := by
    intro name
    rw [takeOver_eq, getElem?_foldl_insert fun _ => true]
  have hinvalid := getElem?_invalidate (s.takeOver options) invalidated.getArray
  have hinvalidate := invalidate_eq (s.takeOver options) invalidated.getArray
  rw [signalPropertyChanged, hoptions, Option.map_some]
  generalize (s.takeOver options).invalidate invalidated.getArray = taken at *
  have htaken : ∀ (name : Text) (h : Holder), options[name]? = some h →
      taken.properties[name]? = some h := by
    intro name h hname
    rw [hinvalidate, hproperties, hname, Option.some_or]
  rw [propertyChanged_names htaken]
  refine ⟨_, rfl, ?_⟩
  have huuid : taken.uuid = s.uuid := by rw [hinvalidate, takeOver_eq]
  have hvalue' : taken.value = s.value := by rw [hinvalidate, takeOver_eq]
  have hwatched' : taken.watched = s.watched := by rw [hinvalidate, takeOver_eq]
  have htold : taken.told = s.told := by rw [hinvalidate, takeOver_eq]
  constructor
  case properties =>
    intro name
    rw [hproperty, ← hproperties, hinvalidate]
  case valid =>
    intro name
    rw [hinvalid, Event.valid, hinvalidated, hproperty, hvalid]
    split <;> rfl
  case uuid => rw [Event.uuid, hproperty, huuid]
  case value => rw [hvalue, Event.announced, hproperty, hvalue']
  case watched => rw [hwatched, hwatched']; rfl
  case told => rw [Event.announced, hproperty, hwatched', htold]

theorem load_eq (s : GattCharacteristic1) (options : Holder) :
    s.load options =
      (s.signalPropertyChanged options {}).map fun s' => { s' with loaded := true } := by
  rw [signalPropertyChanged, Option.map_map]
  rfl

/-- Where no property is given, none changes. -/
theorem follows_of_none {e : Event M} (hchanged : e.changed doc = none)
    (hinvalidated : e.invalidated doc = []) (value : List UInt8)
    (hvalue : value = (e.value doc).getD s.value) (loaded watched : Bool)
    (hwatched : watched = e.watched.getD s.watched) :
    Follows doc s e { s with value := value, loaded := loaded, watched := watched } := by
  have hproperty : ∀ name, e.property doc name = none := by
    intro name
    rw [Event.property, hchanged, Option.bind_none]
  constructor
  case properties =>
    intro name
    rw [hproperty, Option.none_or]
  case valid =>
    intro name
    rw [Event.valid, hinvalidated, if_neg List.not_mem_nil, hproperty, Option.map_none,
      Option.none_or]
  case uuid => rw [Event.uuid, hproperty, Option.map_none, Option.getD_none]
  case value => exact hvalue
  case watched => exact hwatched
  case told =>
    rw [Event.announced, hproperty, Option.map_none, Option.toList_none, ite_self,
      List.append_nil]

/-- A step comes to an end and does what is said. -/
theorem step_follows {fuel : ℕ} {e : Event M} (hsent : e.Sent doc fuel) :
    ∃ s', step lib fuel s e = some s' ∧ Follows doc s e s' := by
  cases e with
  | load options =>
      obtain ⟨s', hs', h⟩ := signalPropertyChanged_follows (s := s) doc (e := .load options) {}
        hsent rfl rfl rfl rfl
      refine ⟨{ s' with loaded := true }, ?_, { h with }⟩
      rw [step, load_eq, hs', Option.map_some]
  | unload => exact ⟨_, rfl, follows_of_none doc rfl rfl _ rfl false _ rfl⟩
  | setOnValueChanged => exact ⟨_, rfl, follows_of_none doc rfl rfl _ rfl _ true rfl⟩
  | clearOnValueChanged => exact ⟨_, rfl, follows_of_none doc rfl rfl _ rfl _ false rfl⟩
  | reply msg =>
      obtain ⟨reply, harguments, htyped, hrounds⟩ := hsent
      have hm : Message.At doc (.ofMsg msg) (doc.arguments msg) := Message.at_ofMsg msg
      rw [harguments] at hm
      obtain ⟨m, hextract, -, -⟩ := hm.extract htyped hrounds
      refine ⟨s.updateValue reply.holder, ?_, follows_of_none doc rfl rfl _ ?_ _ _ rfl⟩
      · rw [step, readValue, hextract, Option.map_some]
      · rw [Event.value, harguments]
        rfl
  | signal msg =>
      obtain ⟨interface, changed, invalidated, harguments, hgiven⟩ := hsent
      have hm : Message.At doc (.ofMsg msg) (doc.arguments msg) := Message.at_ofMsg msg
      rw [harguments] at hm hgiven
      simp only [List.forall_mem_cons] at hgiven
      obtain ⟨hinterface, hchanged, hinvalidated, -⟩ := hgiven
      obtain ⟨m, hfirst, hm, hiter⟩ := hm.extract hinterface.1 hinterface.2
      obtain ⟨m', hsecond, hm, hiter'⟩ := (hm.extractNext hiter).extract hchanged.1 hchanged.2
      obtain ⟨m'', hthird, -, -⟩ := (hm.extractNext hiter').extract hinvalidated.1 hinvalidated.2
      rw [step, messageForward, hfirst, Option.bind_some, hsecond, Option.bind_some, hthird,
        Option.bind_some]
      dsimp only
      by_cases hname : interface.holder.getString = interfaceName
      · rw [if_pos hname]
        refine signalPropertyChanged_follows doc _ changed.named_holder ?_ ?_ rfl rfl
        · simp only [Event.changed, harguments, if_pos hname]
        · simp only [Event.invalidated, harguments, if_pos hname]
      · rw [if_neg hname]
        have hnone : (Event.signal msg).changed doc = none := by
          simp only [Event.changed, harguments, if_neg hname]
        refine ⟨s, rfl, follows_of_none doc hnone ?_ s.value ?_ s.loaded s.watched rfl⟩
        · simp only [Event.invalidated, harguments, if_neg hname]
        · change s.value = ((Event.signal msg).announced doc).getD s.value
          rw [Event.announced, Event.property, hnone]
          rfl

/-! ## Every run -/

/-- The values that a callback gets. -/
def heard : Bool → List (Event M) → List (List UInt8)
  | _, [] => []
  | watched, e :: es =>
      (if watched then (e.announced doc).toList else []) ++ heard (e.watched.getD watched) es

/-- What is kept is what was said last, and the callback has got every value, in
order, from when it was set. -/
theorem mirrors_of_run {fuel : ℕ} {es : List (Event M)} (hsent : ∀ e ∈ es, e.Sent doc fuel)
    (s : GattCharacteristic1) : ∃ s', es.foldlM (step lib fuel) s = some s' ∧
      (∀ name, s'.properties[name]? =
        (lastWrite (Event.property doc name) es).or s.properties[name]?) ∧
      (∀ name, s'.propertyValidMap[name]? =
        (lastWrite (Event.valid doc name) es).or s.propertyValidMap[name]?) ∧
      s'.uuid = (lastWrite (Event.uuid doc) es).getD s.uuid ∧
      s'.value = (lastWrite (Event.value doc) es).getD s.value ∧
      s'.told = s.told ++ heard doc s.watched es := by
  induction es generalizing s with
  | nil =>
      refine ⟨s, rfl, fun _ => rfl, fun _ => rfl, rfl, rfl, ?_⟩
      rw [heard, List.append_nil]
  | cons e es ih =>
      rw [List.forall_mem_cons] at hsent
      obtain ⟨s₁, hstep, h⟩ := step_follows (s := s) doc hsent.1
      obtain ⟨s', hrun, hproperties, hvalid, huuid, hvalue, htold⟩ := ih hsent.2 s₁
      rw [List.foldlM_cons, hstep]
      refine ⟨s', hrun, fun name => ?_, fun name => ?_, ?_, ?_, ?_⟩
      · rw [hproperties, h.properties, lastWrite_cons, Option.or_assoc]
      · rw [hvalid, h.valid, lastWrite_cons, Option.or_assoc]
      · rw [huuid, h.uuid, lastWrite_cons, Option.getD_or]
      · rw [hvalue, h.value, lastWrite_cons, Option.getD_or]
      · rw [htold, h.told, h.watched, heard, List.append_assoc]

/-- `PropertiesChanged` with a value of two bytes. -/
def changedValue : List Value :=
  [.basic .string interfaceName,
    .array "{sv}".toList [.dictEntry (.basic .string valueName)
      (.variant (.array ['y'] [.basic .byte 49, .basic .byte 0]))],
    .array ['s'] []]

theorem mirrors_of_run_unloaded :
    ∃ s', [Event.setOnValueChanged, .unload, .signal changedValue].foldlM
        (step LibDBus.lists 12) init = some s' ∧
      s'.value = [49, 0] ∧ s'.told = [[49, 0]] := by
  have hsent : ∀ e ∈ [Event.setOnValueChanged, .unload, .signal changedValue],
      e.Sent LibDBus.listsDocumented 12 := by
    simp only [List.forall_mem_cons, List.not_mem_nil, false_imp_iff, implies_true, and_true]
    refine ⟨trivial, trivial, _, _, _, rfl, ?_⟩
    change ∀ value ∈ changedValue, value.Typed ∧ value.rounds ≤ 12
    simp [changedValue, Value.Typed, Value.AllTyped, Value.signature, Value.rounds,
      Value.allRounds, Basic.code]
  obtain ⟨s', hrun, -, -, -, hvalue, htold⟩ := mirrors_of_run LibDBus.listsDocumented hsent init
  exact ⟨s', hrun, hvalue, htold⟩

end GattCharacteristic1

end BLERCCar.SimpleDBus
