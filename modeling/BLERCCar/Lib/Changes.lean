import Mathlib.Data.List.Destutter

/-!
# The changes in a sequence of readings

Whoever samples a value repeatedly and reports every change reports the
readings with consecutive repeats removed.  That list is `changes`, an instance
of Mathlib's `destutter`.

A reporter works online: it compares a reading with the last one.  So what is
needed is how `changes` grows when one reading is added at the end
(`changes_concat`), which depends on the last reading only.
-/

namespace BLERCCar.Lib

universe u

variable {α : Type u} [DecidableEq α]

/-- A sequence of readings with consecutive repeats removed. -/
def changes (readings : List α) : List α := readings.destutter (· ≠ ·)

@[simp] theorem changes_nil : changes ([] : List α) = [] := rfl

/-- Adding a reading, with the first reading kept apart. -/
private theorem destutter'_concat (a b : α) (l : List α) :
    (l ++ [a]).destutter' (· ≠ ·) b =
      if (b :: l).getLast? = some a then l.destutter' (· ≠ ·) b
      else l.destutter' (· ≠ ·) b ++ [a] := by
  induction l generalizing b with
  | nil =>
      by_cases hab : b = a
      · simp [hab]
      · simp [hab]
  | cons c l ih =>
      rw [List.cons_append, List.getLast?_cons_cons]
      by_cases hbc : b = c
      · subst hbc
        rw [List.destutter'_cons_neg _ (by simp), List.destutter'_cons_neg _ (by simp)]
        exact ih b
      · rw [List.destutter'_cons_pos _ hbc, List.destutter'_cons_pos _ hbc, ih c]
        split <;> rfl

/-- A reading adds a change exactly if it differs from the last one. -/
theorem changes_concat (l : List α) (a : α) :
    changes (l ++ [a]) =
      if l.getLast? = some a then changes l else changes l ++ [a] := by
  cases l with
  | nil => simp [changes]
  | cons b l => exact destutter'_concat a b l

/-- The first reading is the first change. -/
theorem head?_changes (l : List α) : (changes l).head? = l.head? := by
  induction l using List.reverseRecOn with
  | nil => rfl
  | append_singleton l a ih =>
      rw [changes_concat]
      cases l with
      | nil => rfl
      | cons b l =>
          have hfirst : (changes (b :: l)).head? = some b := ih
          split
          · exact hfirst
          · rw [List.head?_append, hfirst]
            rfl

end BLERCCar.Lib
