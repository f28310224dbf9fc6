import BLERCCar.SimpleDBus.Path

/-!
# Messages in `libdbus`

`Message.cpp` puts arguments into messages, and takes them out, with the
iterators of `libdbus`.  The library itself is a parameter, `LibDBus`: here
stands what it is documented to do (`LibDBus.Documented`).  A message is a
sequence of values, an iterator that appends stands at the end of such a
sequence, an iterator that reads stands before the rest of one.

Iterators are passed on as they are changed.  `appended` is the message that an
iterator appends to.

An array has the type of its elements with it and may be empty; a dictionary is
an array of entries.
-/

namespace BLERCCar.SimpleDBus

/-! ## Types and values -/

/-- The types that are not containers; file descriptors are left out. -/
inductive Basic
  | byte | boolean | int16 | uint16 | int32 | uint32 | int64 | uint64 | double
  | string | objectPath | signature
  deriving DecidableEq

namespace Basic

/-- `DBUS_TYPE_BYTE` and so on. -/
def code : Basic → Char
  | byte => 'y'
  | boolean => 'b'
  | int16 => 'n'
  | uint16 => 'q'
  | int32 => 'i'
  | uint32 => 'u'
  | int64 => 'x'
  | uint64 => 't'
  | double => 'd'
  | string => 's'
  | objectPath => 'o'
  | signature => 'g'

/-- What a variable holds from which `libdbus` takes a value, or into which it
puts one; `dbus_bool_t` has 32 bits. -/
abbrev Contents : Basic → Type
  | byte => UInt8
  | boolean => UInt32
  | int16 => Int16
  | uint16 => UInt16
  | int32 => Int32
  | uint32 => UInt32
  | int64 => Int64
  | uint64 => UInt64
  | double => UInt64
  | string => Text
  | objectPath => Text
  | signature => Text

end Basic

/-- A single complete type without structures. -/
inductive Signature
  | basic (b : Basic)
  | variant
  | array (element : Signature)
  | dict (key : Basic) (value : Signature)

/-- The type as it is written. -/
def Signature.text : Signature → Text
  | basic b => [b.code]
  | variant => ['v']
  | array element => 'a' :: element.text
  | dict key value => 'a' :: '{' :: key.code :: (value.text ++ ['}'])

/-- A value in a message. -/
inductive Value
  | basic (b : Basic) (contents : b.Contents)
  | variant (value : Value)
  | array (element : Text) (values : List Value)
  | dictEntry (key value : Value)
  | struct (fields : List Value)
  | unixFd (fd : UInt32)

namespace Value

/-- What `dbus_message_iter_get_arg_type` returns before a value. -/
def argType : Value → Char
  | basic b _ => b.code
  | variant _ => 'v'
  | array _ _ => 'a'
  | dictEntry _ _ => 'e'
  | struct _ => 'r'
  | unixFd _ => 'h'

/-- What is inside of a container. -/
def inside : Value → List Value
  | variant value => [value]
  | array _ values => values
  | dictEntry key value => [key, value]
  | struct fields => fields
  | _ => []

mutual

/-- The type of a value as it is written. -/
def signature : Value → Text
  | basic b _ => [b.code]
  | variant _ => ['v']
  | array element _ => 'a' :: element
  | dictEntry key value => '{' :: (key.signature ++ value.signature ++ ['}'])
  | struct fields => '(' :: (signatures fields ++ [')'])
  | unixFd _ => ['h']

def signatures : List Value → Text
  | [] => []
  | value :: values => value.signature ++ signatures values

end

mutual

/-- The elements of every array have the type that the array names. -/
def Typed : Value → Prop
  | basic _ _ => True
  | variant value => value.Typed
  | array element values => (∀ value ∈ values, value.signature = element) ∧ AllTyped values
  | dictEntry key value => key.Typed ∧ value.Typed
  | struct fields => AllTyped fields
  | unixFd _ => True

def AllTyped : List Value → Prop
  | [] => True
  | value :: values => value.Typed ∧ AllTyped values

end

end Value

/-! ## The library -/

/-- What `Message` calls: `M` is `DBusMessage`, `W` an iterator that appends,
`R` one that reads. -/
structure LibDBus (M W R : Type) where
  initAppend : M → W
  appended : W → M
  appendBasic : W → (b : Basic) → b.Contents → W
  /-- the type code, and the signature of what is inside or `NULL` -/
  openContainer : W → Char → Option Text → W
  closeContainer : W → W → W
  init : M → R
  argType : R → Char
  getBasic : R → (b : Basic) → b.Contents
  getFixedArray : R → List UInt8
  recurse : R → R
  hasNext : R → Bool
  next : R → R

/-- Where an iterator that appends stands: in which container, and behind which
values. -/
structure Frame where
  container : Char
  inside : Option Text
  values : List Value

def Frame.add (f : Frame) (value : Value) : Frame :=
  { f with values := f.values ++ [value] }

/-- What `libdbus` is documented to do. -/
structure LibDBus.Documented {M W R : Type} (lib : LibDBus M W R) where
  /-- the arguments of a message -/
  arguments : M → List Value
  /-- where an iterator stands -/
  frame : W → Frame
  /-- what an iterator stands before -/
  rest : R → List Value
  /-- texts must be what they are said to be -/
  Accepts : (b : Basic) → b.Contents → Prop
  /-- the type inside of a container must be complete and not too long -/
  Admits : Text → Prop
  values_initAppend : ∀ m, (frame (lib.initAppend m)).values = arguments m
  arguments_appended : ∀ w, arguments (lib.appended w) = (frame w).values
  frame_appendBasic : ∀ w b c, Accepts b c →
    frame (lib.appendBasic w b c) = (frame w).add (.basic b c)
  frame_openVariant : ∀ w inside, Admits inside →
    frame (lib.openContainer w 'v' (some inside)) = ⟨'v', some inside, []⟩
  frame_openArray : ∀ w inside, Admits inside →
    frame (lib.openContainer w 'a' (some inside)) = ⟨'a', some inside, []⟩
  frame_openDictEntry : ∀ w, frame (lib.openContainer w 'e' none) = ⟨'e', none, []⟩
  frame_closeVariant : ∀ w sub inside value, frame sub = ⟨'v', some inside, [value]⟩ →
    value.signature = inside → frame (lib.closeContainer w sub) = (frame w).add (.variant value)
  frame_closeArray : ∀ w sub inside values, frame sub = ⟨'a', some inside, values⟩ →
    (∀ value ∈ values, value.signature = inside) →
    frame (lib.closeContainer w sub) = (frame w).add (.array inside values)
  frame_closeDictEntry : ∀ w sub b c value, frame sub = ⟨'e', none, [.basic b c, value]⟩ →
    frame (lib.closeContainer w sub) = (frame w).add (.dictEntry (.basic b c) value)
  rest_init : ∀ m, rest (lib.init m) = arguments m
  argType_eq : ∀ r, lib.argType r = match rest r with
    | [] => '\x00'
    | value :: _ => value.argType
  getBasic_eq : ∀ r b c values, rest r = .basic b c :: values → lib.getBasic r b = c
  getFixedArray_eq : ∀ r bytes, rest r = bytes.map (.basic .byte) → lib.getFixedArray r = bytes
  rest_recurse : ∀ r value values, rest r = value :: values →
    rest (lib.recurse r) = value.inside
  hasNext_eq : ∀ r, lib.hasNext r = decide (1 < (rest r).length)
  rest_next : ∀ r, rest (lib.next r) = (rest r).tail

/-! ## An example -/

/-- What a variable holds before anything is put into it. -/
def Basic.zero : (b : Basic) → b.Contents
  | byte => (0 : UInt8)
  | boolean => (0 : UInt32)
  | int16 => (0 : Int16)
  | uint16 => (0 : UInt16)
  | int32 => (0 : Int32)
  | uint32 => (0 : UInt32)
  | int64 => (0 : Int64)
  | uint64 => (0 : UInt64)
  | double => (0 : UInt64)
  | string => ([] : Text)
  | objectPath => ([] : Text)
  | signature => ([] : Text)

/-- The value that a container becomes when it is closed. -/
def Frame.close : Frame → Value
  | ⟨'v', some _, [value]⟩ => .variant value
  | ⟨'e', none, [key, value]⟩ => .dictEntry key value
  | ⟨_, inside, values⟩ => .array (inside.getD []) values

/-- A library that keeps messages as they are. -/
def LibDBus.lists : LibDBus (List Value) Frame (List Value) where
  initAppend values := ⟨'\x00', none, values⟩
  appended f := f.values
  appendBasic f b contents := f.add (.basic b contents)
  openContainer _ container inside := ⟨container, inside, []⟩
  closeContainer f sub := f.add sub.close
  init := id
  argType
    | [] => '\x00'
    | value :: _ => value.argType
  getBasic
    | .basic b' contents :: _, b => if h : b' = b then h ▸ contents else b.zero
    | _, b => b.zero
  getFixedArray values := values.filterMap fun
    | .basic .byte byte => some byte
    | _ => none
  recurse
    | [] => []
    | value :: _ => value.inside
  hasNext values := 1 < values.length
  next := List.tail

def LibDBus.listsDocumented : LibDBus.lists.Documented where
  arguments := id
  frame := id
  rest := id
  Accepts _ _ := True
  Admits _ := True
  values_initAppend _ := rfl
  arguments_appended _ := rfl
  frame_appendBasic _ _ _ _ := rfl
  frame_openVariant _ _ _ := rfl
  frame_openArray _ _ _ := rfl
  frame_openDictEntry _ := rfl
  frame_closeVariant w sub inside value h _ := by
    obtain rfl : sub = ⟨'v', some inside, [value]⟩ := h
    rfl
  frame_closeArray w sub inside values h _ := by
    obtain rfl : sub = ⟨'a', some inside, values⟩ := h
    rfl
  frame_closeDictEntry w sub b c value h := by
    obtain rfl : sub = ⟨'e', none, [.basic b c, value]⟩ := h
    rfl
  rest_init _ := rfl
  argType_eq r := by cases r <;> rfl
  getBasic_eq r b c values h := by
    obtain rfl : r = .basic b c :: values := h
    simp [LibDBus.lists]
  getFixedArray_eq r bytes h := by
    obtain rfl : r = bytes.map (.basic .byte) := h
    simp [LibDBus.lists, List.filterMap_map]
  rest_recurse r value values h := by
    obtain rfl : r = value :: values := h
    rfl
  hasNext_eq _ := rfl
  rest_next _ := rfl

end BLERCCar.SimpleDBus
