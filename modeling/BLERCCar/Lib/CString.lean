import Mathlib.Data.List.TakeWhile

/-!
# Byte strings behind a bare pointer

A C string is what lies between a pointer and the first NUL.  `cstr mem` is that
string when the memory from the pointer on holds `mem`; a memory image that ends
without a NUL stands for the bytes up to one.  In the other direction a string
object keeps its value in memory with one NUL behind it, and whatever happens
to follow: `stored value beyond`.

The main result, `byteAt_stored_cstr`, is the codec fact for a sender that
turns a fixed array into a C string and a receiver that indexes the string it
got: every byte up to and including the first NUL survives, whatever memory
lies beyond the array and beyond the received value.
-/

namespace BLERCCar.Lib.CString

/-- The bytes from a pointer up to the first NUL. -/
def cstr (mem : List UInt8) : List UInt8 := mem.takeWhile (· ≠ 0)

/-- The byte at an index from a pointer.  Memory past the image reads as NUL,
which is how an image without a terminator is to be understood. -/
def byteAt (mem : List UInt8) (i : Nat) : UInt8 := mem.getD i 0

/-- Memory from the start of a stored string: its bytes, one NUL, and the
foreign bytes behind it. -/
def stored (value beyond : List UInt8) : List UInt8 := value ++ 0 :: beyond

@[simp] theorem byteAt_zero (a : UInt8) (mem : List UInt8) :
    byteAt (a :: mem) 0 = a := rfl

@[simp] theorem byteAt_succ (a : UInt8) (mem : List UInt8) (i : Nat) :
    byteAt (a :: mem) (i + 1) = byteAt mem i := rfl

theorem cstr_cons_of_ne {a : UInt8} (ha : a ≠ 0) (mem : List UInt8) :
    cstr (a :: mem) = a :: cstr mem := by
  simp [cstr, ha]

@[simp] theorem cstr_nul (mem : List UInt8) : cstr (0 :: mem) = [] := by
  simp [cstr]

/-- The string at a pointer is empty exactly if the first byte is NUL. -/
theorem cstr_eq_nil_iff (mem : List UInt8) : cstr mem = [] ↔ byteAt mem 0 = 0 := by
  cases mem with
  | nil => exact iff_of_true rfl rfl
  | cons a mem =>
      by_cases ha : a = 0
      · simp [ha]
      · simp [cstr_cons_of_ne ha, ha]

/-- The string at the start of a stored value ends at the latest where the value
does. -/
theorem length_cstr_stored_le (value beyond : List UInt8) :
    (cstr (stored value beyond)).length ≤ value.length := by
  induction value with
  | nil => simp [stored]
  | cons a value ih =>
      by_cases ha : a = 0
      · simp [stored, ha]
      · have htail : (cstr (value ++ 0 :: beyond)).length ≤ value.length := ih
        rw [stored, List.cons_append, cstr_cons_of_ne ha]
        simpa using htail

/-- A stored C string reads like the memory it was taken from, up to and
including the first NUL. -/
theorem byteAt_stored_cstr (mem beyond : List UInt8) (i : Nat)
    (h : ∀ j < i, byteAt mem j ≠ 0) :
    byteAt (stored (cstr mem) beyond) i = byteAt mem i := by
  induction mem generalizing i with
  | nil =>
      cases i with
      | zero => rfl
      | succ i => exact absurd rfl (h 0 (Nat.succ_pos i))
  | cons a mem ih =>
      by_cases ha : a = 0
      · subst ha
        cases i with
        | zero => simp [stored]
        | succ i => exact absurd rfl (h 0 (Nat.succ_pos i))
      · rw [cstr_cons_of_ne ha]
        cases i with
        | zero => rfl
        | succ i =>
            have hshift : ∀ j < i, byteAt mem j ≠ 0 := fun j hj => by
              simpa using h (j + 1) (Nat.succ_lt_succ hj)
            simpa [stored] using ih i hshift

end BLERCCar.Lib.CString
