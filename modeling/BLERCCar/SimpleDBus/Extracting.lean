import BLERCCar.SimpleDBus.Message

/-!
# What is extracted

The holder that `_extract_generic` makes of a value, whatever the value is:
variants are seen through, and an array without elements is an array, also
where a dictionary was meant.

## Main results

* `extractGeneric_eq`: what is extracted at an iterator.
* `extractNth_eq`: what is extracted argument by argument.
-/

namespace BLERCCar.SimpleDBus

/-- The holder of a basic value. -/
def Basic.holder : (b : Basic) → b.Contents → Holder
  | byte, contents => .createByte contents
  | boolean, contents => .createBoolean (contents.toUInt8 ≠ 0)
  | int16, contents => .createInt16 contents
  | uint16, contents => .createUint16 contents
  | int32, contents => .createInt32 contents
  | uint32, contents => .createUint32 contents
  | int64, contents => .createInt64 contents
  | uint64, contents => .createUint64 contents
  | double, contents => .createDouble contents
  | string, contents => .createString contents
  | objectPath, contents => .createObjectPath contents
  | signature, contents => .createSignature contents

namespace Value

/-- The values are the entries of a dictionary. -/
def areEntries : List Value → Bool
  | dictEntry _ _ :: _ => true
  | _ => false

mutual

/-- The holder of a value. -/
def holder : Value → Holder
  | basic b contents => b.holder contents
  | variant value => value.holder
  | array _ values =>
      if areEntries values then .ofDict (entries values) else .ofArray (holders values)
  | dictEntry _ _ => {}
  | struct _ => {}
  | unixFd _ => {}

/-- What cannot be extracted is left out. -/
def holders : List Value → List Holder
  | [] => []
  | value :: values =>
      if value.holder.type = .none then holders values else value.holder :: holders values

def entries : List Value → List (HolderType × Any × Holder)
  | [] => []
  | dictEntry key value :: values =>
      (key.holder.type, key.holder.getContents, value.holder) :: entries values
  | _ :: values => entries values

end

mutual

/-- The rounds that it takes to extract a value. -/
def rounds : Value → ℕ
  | variant value => value.rounds + 1
  | array _ values => allRounds values + 1
  | dictEntry key value => key.rounds + value.rounds + 1
  | _ => 1

def allRounds : List Value → ℕ
  | [] => 1
  | value :: values => value.rounds + allRounds values + 1

end

theorem allTyped_iff {values : List Value} :
    AllTyped values ↔ ∀ value ∈ values, value.Typed := by
  induction values with
  | nil => simp [AllTyped]
  | cons value values ih => rw [AllTyped, ih, List.forall_mem_cons]

/-- Where everything can be extracted, nothing is left out. -/
theorem holders_eq {values : List Value} (h : ∀ value ∈ values, value.holder.type ≠ .none) :
    holders values = values.map holder := by
  induction values with
  | nil => rfl
  | cons value values ih =>
      rw [List.forall_mem_cons] at h
      rw [holders, if_neg h.1, ih h.2, List.map_cons]

theorem rounds_pos (value : Value) : 0 < value.rounds := by
  cases value <;> simp [rounds]

theorem allRounds_pos (values : List Value) : 0 < allRounds values := by
  cases values <;> simp [allRounds]

theorem argType_ne_nul (value : Value) : value.argType ≠ '\x00' := by
  cases value with
  | basic b _ => cases b <;> simp [argType, Basic.code]
  | _ => simp [argType]

theorem argType_eq_byte_iff {value : Value} :
    value.argType = 'y' ↔ ∃ byte, value = .basic .byte byte := by
  cases value with
  | basic b _ => cases b <;> simp [argType, Basic.code]
  | _ => simp [argType]

theorem argType_eq_entry_iff {value : Value} :
    value.argType = 'e' ↔ ∃ key value', value = .dictEntry key value' := by
  cases value with
  | basic b _ => cases b <;> simp [argType, Basic.code]
  | _ => simp [argType]

theorem areEntries_cons_iff {value : Value} {values : List Value} :
    areEntries (value :: values) = true ↔ value.argType = 'e' := by
  cases value with
  | basic b _ => cases b <;> simp [areEntries, argType, Basic.code]
  | _ => simp [areEntries, argType]

/-- What an array of bytes has inside. -/
theorem exists_bytes {values : List Value} (h : ∀ value ∈ values, value.signature = ['y']) :
    ∃ bytes : List UInt8, values = bytes.map (.basic .byte) := by
  induction values with
  | nil => exact ⟨[], rfl⟩
  | cons value values ih =>
      obtain ⟨bytes, rfl⟩ := ih (fun value' h' => h value' (List.mem_cons_of_mem _ h'))
      have hbyte : ∃ byte, value = .basic .byte byte := by
        have hsignature := h value List.mem_cons_self
        cases value with
        | basic b contents => cases b <;> simp_all [signature, Basic.code]
        | _ => simp [signature] at hsignature
      obtain ⟨byte, rfl⟩ := hbyte
      exact ⟨byte :: bytes, rfl⟩

/-- A dictionary has only entries inside. -/
theorem exists_entry {value : Value} {rest : Text} (h : value.signature = '{' :: rest) :
    ∃ key value', value = .dictEntry key value' := by
  cases value with
  | dictEntry key value' => exact ⟨key, value', rfl⟩
  | basic b _ => cases b <;> simp [signature, Basic.code] at h
  | _ => simp [signature] at h

theorem holders_bytes (bytes : List UInt8) :
    holders (bytes.map (.basic .byte)) = bytes.map .createByte := by
  induction bytes with
  | nil => rfl
  | cons byte bytes ih =>
      rw [List.map_cons, holders, ih]
      rfl

end Value

namespace Message

open Value

variable {M W R : Type} {lib : LibDBus M W R} (doc : lib.Documented)

theorem extractBytearray_eq {r : R} {bytes : List UInt8}
    (hrest : doc.rest r = bytes.map (.basic .byte)) :
    extractBytearray lib r = .ofArray (bytes.map .createByte) := by
  rw [extractBytearray, doc.getFixedArray_eq r bytes hrest]
  exact Holder.foldl_arrayAppend _ bytes []

theorem extractGeneric_basic {r : R} {b : Basic} {contents : b.Contents} {rest : List Value}
    (fuel : ℕ) (hrest : doc.rest r = .basic b contents :: rest) :
    extractGeneric lib (fuel + 1) r = some (b.holder contents) := by
  have hargType := doc.argType_eq r
  have hcontents := doc.getBasic_eq r b contents rest hrest
  rw [hrest] at hargType
  subst hcontents
  cases b <;>
    simp only [argType, Basic.code] at hargType <;>
    simp [extractGeneric, hargType, Basic.holder]

mutual

/-- `_extract_generic` returns the holder of the value. -/
theorem extractGeneric_eq {r : R} (fuel : ℕ) {rest : List Value} :
    ∀ value : Value, value.Typed → value.rounds ≤ fuel → doc.rest r = value :: rest →
      extractGeneric lib fuel r = some value.holder := by
  intro value htyped hfuel hrest
  obtain ⟨fuel, rfl⟩ := Nat.exists_eq_succ_of_ne_zero (value.rounds_pos.trans_le hfuel).ne'
  have hinside := doc.rest_recurse r value rest hrest
  cases value with
  | basic b contents => exact extractGeneric_basic doc fuel hrest
  | variant value =>
      have hcontent := extractGeneric_eq fuel value htyped (Nat.le_of_succ_le_succ hfuel) hinside
      rw [extractGeneric, doc.argType_eq, hrest]
      exact hcontent
  | array element values =>
      rw [rounds] at hfuel
      have hle : allRounds values ≤ fuel := Nat.le_of_succ_le_succ hfuel
      have hsub := doc.argType_eq (lib.recurse r)
      rw [hinside] at hsub
      rw [extractGeneric, doc.argType_eq, hrest]
      change (if lib.argType (lib.recurse r) = 'e' then extractDict lib fuel (lib.recurse r) {}
        else if lib.argType (lib.recurse r) = 'y' then
          some (extractBytearray lib (lib.recurse r))
        else extractArray lib fuel (lib.recurse r) .createArray) = _
      have harray := extractArray_eq fuel values htyped.2 hle hinside []
      have hdict := fun hentries => extractDict_eq fuel values htyped.2 hentries hle hinside {} []
      rw [holder]
      cases values with
      | nil =>
          change lib.argType (lib.recurse r) = '\x00' at hsub
          rw [hsub, if_neg (by decide), if_neg (by decide)]
          exact harray
      | cons first values =>
          change lib.argType (lib.recurse r) = first.argType at hsub
          rw [hsub]
          by_cases hentry : first.argType = 'e'
          · rw [if_pos hentry, if_pos (areEntries_cons_iff.mpr hentry)]
            obtain ⟨key, value, rfl⟩ := argType_eq_entry_iff.mp hentry
            refine hdict (fun v hv => ?_) (.inr ⟨rfl, rfl, List.cons_ne_nil _ _⟩)
            have hfirst := htyped.1 _ List.mem_cons_self
            have hsame := htyped.1 v hv
            rw [← hfirst] at hsame
            exact argType_eq_entry_iff.mpr (exists_entry hsame)
          have hno : areEntries (first :: values) ≠ true := areEntries_cons_iff.not.mpr hentry
          rw [if_neg hentry, if_neg hno]
          by_cases hbyte : first.argType = 'y'
          · rw [if_pos hbyte]
            obtain ⟨byte, rfl⟩ := argType_eq_byte_iff.mp hbyte
            obtain ⟨bytes, hbytes⟩ := exists_bytes fun v hv => (htyped.1 v hv).trans
              (htyped.1 _ List.mem_cons_self).symm
            rw [hbytes, holders_bytes, extractBytearray_eq doc (hinside.trans hbytes)]
          · rw [if_neg hbyte]
            exact harray
  | dictEntry _ _ =>
      rw [extractGeneric, doc.argType_eq, hrest]
      rfl
  | struct _ =>
      rw [extractGeneric, doc.argType_eq, hrest]
      rfl
  | unixFd _ =>
      rw [extractGeneric, doc.argType_eq, hrest]
      rfl

/-- The loop of `_extract_array` appends the holders of the values. -/
theorem extractArray_eq {r : R} (fuel : ℕ) :
    ∀ values : List Value, AllTyped values → allRounds values ≤ fuel → doc.rest r = values →
      ∀ elements : List Holder, extractArray lib fuel r (.ofArray elements) =
        some (.ofArray (elements ++ holders values)) := by
  intro values htyped hfuel hrest elements
  obtain ⟨fuel, rfl⟩ := Nat.exists_eq_succ_of_ne_zero ((allRounds_pos values).trans_le hfuel).ne'
  cases values with
  | nil => rw [extractArray, doc.argType_eq, hrest, if_pos rfl, holders, List.append_nil]
  | cons value values =>
      rw [allRounds] at hfuel
      have hvalue := extractGeneric_eq fuel value htyped.1 (by omega) hrest
      have hnext : doc.rest (lib.next r) = values := by rw [doc.rest_next, hrest]; rfl
      have hvalues := extractArray_eq fuel values htyped.2 (by omega) hnext
      rw [extractArray, doc.argType_eq, hrest, if_neg value.argType_ne_nul, hvalue,
        Option.bind_eq_bind, Option.bind_some, holders]
      by_cases hnone : value.holder.type = .none
      · rw [if_pos hnone, if_neg (not_not_intro hnone)]
        exact hvalues elements
      · rw [if_neg hnone, if_pos hnone, Holder.arrayAppend_ofArray, hvalues, List.append_assoc,
          List.singleton_append]

/-- The loop of `_extract_dict` appends the entries. -/
theorem extractDict_eq {r : R} (fuel : ℕ) :
    ∀ values : List Value, AllTyped values → (∀ value ∈ values, value.argType = 'e') →
      allRounds values ≤ fuel → doc.rest r = values →
      ∀ (h : Holder) (entries : List (HolderType × Any × Holder)),
        h = .ofDict entries ∨ h = {} ∧ entries = [] ∧ values ≠ [] →
        extractDict lib fuel r h = some (.ofDict (entries ++ Value.entries values)) := by
  intro values htyped hentries hfuel hrest h entries hh
  obtain ⟨fuel, rfl⟩ := Nat.exists_eq_succ_of_ne_zero ((allRounds_pos values).trans_le hfuel).ne'
  cases values with
  | nil =>
      obtain rfl : h = .ofDict entries := hh.resolve_right fun hempty => hempty.2.2 rfl
      rw [extractDict, doc.argType_eq, hrest, if_pos rfl, Value.entries, List.append_nil]
  | cons value values =>
      cases value with
      | dictEntry key value =>
          rw [allRounds, rounds] at hfuel
          have hinside := doc.rest_recurse r _ _ hrest
          have hsecond : doc.rest (lib.next (lib.recurse r)) = [value] := by
            rw [doc.rest_next, hinside]
            rfl
          have hkey := extractGeneric_eq fuel key htyped.1.1 (by omega) hinside
          have hvalue := extractGeneric_eq fuel value htyped.1.2 (by omega) hsecond
          have hnext : doc.rest (lib.next r) = values := by rw [doc.rest_next, hrest]; rfl
          have hvalues := extractDict_eq fuel values htyped.2
            (fun v hv => hentries v (List.mem_cons_of_mem _ hv)) (by omega) hnext
          have hopen : (if h.type = .none then .createDict else h) = Holder.ofDict entries := by
            rcases hh with rfl | ⟨rfl, rfl, -⟩ <;> rfl
          rw [extractDict, doc.argType_eq, hrest, if_neg (argType_ne_nul _)]
          simp only [hkey, hvalue, hopen, Option.bind_eq_bind, Option.bind_some]
          rw [Holder.dictAppend_ofDict, Holder.owned_getContents, hvalues _ _ (.inl rfl),
            List.append_assoc, List.singleton_append, Value.entries]
      | _ =>
          obtain ⟨_, _, hentry⟩ := argType_eq_entry_iff.mp (hentries _ List.mem_cons_self)
          cases hentry

end

/-- The message is read up to some values, of which the first may have been
extracted. -/
structure At (m : Message M R) (values : List Value) : Prop where
  rest : doc.rest (m.iter.getD (lib.init m.msg)) = values
  extracted : ∀ h, m.extracted = some h →
    m.iter.isSome ∧ values.head?.map Value.holder = some h

variable {doc} {m : Message M R} {value value' : Value} {values : List Value} {fuel : ℕ}

theorem at_ofMsg (msg : M) : At doc (ofMsg msg : Message M R) (doc.arguments msg) where
  rest := doc.rest_init msg
  extracted := by
    intro h hextracted
    cases hextracted

theorem At.extract (hm : At doc m (value :: values)) (htyped : value.Typed)
    (hfuel : value.rounds ≤ fuel) : ∃ m' : Message M R,
      m.extract lib fuel = some (value.holder, m') ∧ At doc m' (value :: values) ∧
        m'.iter.isSome := by
  rw [Message.extract]
  cases hextracted : m.extracted with
  | some h =>
      obtain ⟨hiter, hsame⟩ := hm.extracted h hextracted
      obtain rfl : value.holder = h := Option.some.inj hsame
      exact ⟨m, rfl, hm, hiter⟩
  | none =>
      have hgeneric := extractGeneric_eq doc fuel value htyped hfuel hm.rest
      dsimp only
      rw [hgeneric]
      exact ⟨_, rfl, ⟨hm.rest, fun h hh => ⟨rfl, hh⟩⟩, rfl⟩

theorem At.extractNext (hm : At doc m (value :: value' :: values)) (hiter : m.iter.isSome) :
    At doc (m.extractNext lib) (value' :: values) := by
  obtain ⟨iter, hiter⟩ := Option.isSome_iff_exists.mp hiter
  have hrest := hm.rest
  rw [hiter, Option.getD_some] at hrest
  have hnext : lib.hasNext iter = true := by
    rw [doc.hasNext_eq, hrest]
    simp
  rw [Message.extractNext, hiter]
  dsimp only
  rw [if_pos hnext]
  refine ⟨?_, fun h hh => absurd hh (by simp)⟩
  rw [Option.getD_some, doc.rest_next, hrest, List.tail_cons]

/-- One argument after the other is extracted. -/
theorem extractNth_eq (hm : At doc m values) (htyped : ∀ value ∈ values, value.Typed)
    (hfuel : ∀ value ∈ values, value.rounds ≤ fuel) {index : ℕ}
    (hindex : values[index]? = some value) :
    extractNth lib fuel index m = some value.holder := by
  induction index generalizing m values with
  | zero =>
      cases values with
      | nil => cases hindex
      | cons first values =>
          obtain rfl : first = value := Option.some.inj hindex
          obtain ⟨m', hm', -, -⟩ := hm.extract (htyped _ List.mem_cons_self)
            (hfuel _ List.mem_cons_self)
          rw [extractNth, hm']
          rfl
  | succ index ih =>
      cases values with
      | nil => cases hindex
      | cons first values =>
          obtain ⟨m', hextract, hm', hiter⟩ := hm.extract (htyped _ List.mem_cons_self)
            (hfuel _ List.mem_cons_self)
          rw [extractNth, hextract]
          cases values with
          | nil => cases hindex
          | cons second values =>
              exact ih (hm'.extractNext hiter)
                (fun v hv => htyped v (List.mem_cons_of_mem _ hv))
                (fun v hv => hfuel v (List.mem_cons_of_mem _ hv)) hindex

end Message

end BLERCCar.SimpleDBus
