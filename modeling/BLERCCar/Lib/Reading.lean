import BLERCCar.Lib.CString

/-!
# Reads behind a bare pointer

A `Reading` is a computation on the memory behind a pointer that keeps track of
the indexes it reads.  `Within last` says that none of them is greater than
`last`; the lemmas about it follow the ways in which computations are built.
-/

namespace BLERCCar.Lib

open BLERCCar.Lib.CString

/-- A value together with the indexes that were read for it. -/
structure Reading (α : Type) where
  value : α
  reads : List Nat

namespace Reading

instance : Monad Reading where
  pure a := ⟨a, []⟩
  bind x f := ⟨(f x.value).value, x.reads ++ (f x.value).reads⟩

/-- Read one byte. -/
def byte (mem : List UInt8) (i : Nat) : Reading UInt8 := ⟨byteAt mem i, [i]⟩

/-- Read the C string at the pointer, up to and including its NUL. -/
def cstring (mem : List UInt8) : Reading (List UInt8) :=
  ⟨cstr mem, List.range ((cstr mem).length + 1)⟩

/-- Copy a fixed number of bytes. -/
def memcpy (mem : List UInt8) (size : Nat) : Reading (List UInt8) :=
  ⟨(List.range size).map (byteAt mem), List.range size⟩

variable {α β : Type}

@[simp] theorem value_pure (a : α) : (pure a : Reading α).value = a := rfl

@[simp] theorem value_bind (x : Reading α) (f : α → Reading β) :
    (x >>= f).value = (f x.value).value := rfl

/-- Nothing is read beyond the index `last`. -/
def Within (last : Nat) (x : Reading α) : Prop := ∀ i ∈ x.reads, i ≤ last

instance (last : Nat) (x : Reading α) : Decidable (x.Within last) :=
  inferInstanceAs (Decidable (∀ i ∈ x.reads, i ≤ last))

variable {last : Nat}

@[simp] theorem within_pure (a : α) : (pure a : Reading α).Within last := by
  intro i hi
  cases hi

@[simp] theorem within_bind_iff {x : Reading α} {f : α → Reading β} :
    (x >>= f).Within last ↔ x.Within last ∧ (f x.value).Within last :=
  List.forall_mem_append

@[simp] theorem within_byte_iff {mem : List UInt8} {i : Nat} :
    (byte mem i).Within last ↔ i ≤ last := by
  simp [Within, byte]

theorem within_cstring_iff {mem : List UInt8} :
    (cstring mem).Within last ↔ (cstr mem).length ≤ last := by
  simp only [Within, cstring, List.mem_range]
  constructor
  · intro h
    exact h _ (Nat.lt_succ_self _)
  · intro h i hi
    omega

theorem within_memcpy_iff {mem : List UInt8} {size : Nat} :
    (memcpy mem (size + 1)).Within last ↔ size ≤ last := by
  simp only [Within, memcpy, List.mem_range]
  constructor
  · intro h
    exact h size (Nat.lt_succ_self size)
  · intro h i hi
    omega

/-- Reading a stored value as a C string stays within the value. -/
theorem within_cstring_stored (value beyond : List UInt8) :
    (cstring (stored value beyond)).Within value.length :=
  within_cstring_iff.mpr (length_cstr_stored_le value beyond)

end Reading

end BLERCCar.Lib
