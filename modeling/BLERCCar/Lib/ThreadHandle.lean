import Mathlib.Data.List.Count

/-!
# Thread objects behind raw pointers

A program that keeps its `std::thread` objects on the heap creates, tests,
joins and deletes them through their pointers.  A trace of these operations is
`WellUsed` when no object is joined or deleted twice and nothing is done to a
deleted one.

The two facts a program's proof needs are `WellUsed.release`, which extends a
trace by the release of an object that has only been created so far, and
`not_wellUsed_of_deleted`, which rules out coming back to a deleted object.
That no thread is left behind is `AllJoined`.
-/

namespace BLERCCar.Lib.ThreadHandle

universe u

variable {ι : Type u}

/-- What a program does to a thread object. -/
inductive Op (ι : Type u) where
  /-- `new std::thread(..)` -/
  | create (object : ι)
  /-- `joinable()` -/
  | joinable (object : ι)
  /-- `join()` -/
  | join (object : ι)
  /-- `delete` -/
  | delete (object : ι)
  deriving DecidableEq

/-- The object an operation is applied to. -/
def Op.object : Op ι → ι
  | create object => object
  | joinable object => object
  | join object => object
  | delete object => object

/-- Wait until an object can be joined, join it and delete it. -/
def release (object : ι) : List (Op ι) :=
  [.joinable object, .join object, .delete object]

theorem object_of_mem_release {a : Op ι} {i : ι} (h : a ∈ release i) :
    a.object = i := by
  simp only [release, List.mem_cons, List.not_mem_nil, or_false] at h
  rcases h with rfl | rfl | rfl <;> rfl

/-- Every thread that was started has been joined. -/
def AllJoined (trace : List (Op ι)) : Prop :=
  ∀ object, .create object ∈ trace → .join object ∈ trace

/-- Nothing has been done to the object since it was created. -/
def Untouched (trace : List (Op ι)) (object : ι) : Prop :=
  ∀ a ∈ trace, a.object = object → a = .create object

/-- Releasing an object leaves the others alone. -/
theorem Untouched.release {trace : List (Op ι)} {i j : ι}
    (h : Untouched trace i) (hne : j ≠ i) :
    Untouched (trace ++ release j) i := by
  intro a ha hobject
  rcases List.mem_append.mp ha with hbefore | hnow
  · exact h a hbefore hobject
  · exact absurd ((object_of_mem_release hnow).symm.trans hobject) hne

variable [DecidableEq ι]

/-- No object is joined twice, deleted twice, or used once it is deleted. -/
structure WellUsed (trace : List (Op ι)) : Prop where
  joinedOnce : ∀ i, trace.count (.join i) ≤ 1
  deletedOnce : ∀ i, trace.count (.delete i) ≤ 1
  deletedLast : ∀ i, trace.Pairwise fun a b => a = .delete i → b.object ≠ i

theorem Untouched.count_eq_zero {trace : List (Op ι)} {i : ι} {a : Op ι}
    (h : Untouched trace i) (hobject : a.object = i) (ha : a ≠ .create i) :
    trace.count a = 0 :=
  List.count_eq_zero.mpr fun hmem => ha (h a hmem hobject)

/-- An object that has only been created may be released. -/
theorem WellUsed.release {trace : List (Op ι)} {i : ι} (h : WellUsed trace)
    (hi : Untouched trace i) : WellUsed (trace ++ release i) := by
  have hjoin := hi.count_eq_zero (a := .join i) rfl (by simp)
  have hdelete := hi.count_eq_zero (a := .delete i) rfl (by simp)
  refine
    { joinedOnce := fun j => ?_
      deletedOnce := fun j => ?_
      deletedLast := fun j => ?_ }
  · rw [List.count_append]
    by_cases hj : j = i
    · subst hj
      simp [ThreadHandle.release, hjoin]
    · have hsame := h.joinedOnce j
      simpa [ThreadHandle.release, List.count_cons, Ne.symm hj] using hsame
  · rw [List.count_append]
    by_cases hj : j = i
    · subst hj
      simp [ThreadHandle.release, hdelete]
    · have hsame := h.deletedOnce j
      simpa [ThreadHandle.release, List.count_cons, Ne.symm hj] using hsame
  · rw [List.pairwise_append]
    refine ⟨h.deletedLast j, by simp [ThreadHandle.release], ?_⟩
    rintro a ha b hb rfl hobject
    -- `b` belongs to the release, so `i` would have been deleted before
    obtain rfl : j = i := hobject.symm.trans (object_of_mem_release hb)
    exact absurd (hi (.delete j) ha rfl) (by simp)

/-- There is no way back to a deleted object. -/
theorem not_wellUsed_of_deleted {trace later : List (Op ι)} {a : Op ι}
    (hdelete : .delete a.object ∈ trace) (ha : a ∈ later) :
    ¬ WellUsed (trace ++ later) := by
  intro h
  have hcross := (List.pairwise_append.mp (h.deletedLast a.object)).2.2
  exact hcross _ hdelete a ha rfl rfl

/-- A trace of creations is well used. -/
theorem wellUsed_of_creates {trace : List (Op ι)}
    (h : ∀ a ∈ trace, ∃ i, a = .create i) : WellUsed trace := by
  have hjoin : ∀ i, Op.join i ∉ trace := fun i hmem =>
    absurd ((h _ hmem).choose_spec) (by simp)
  have hdelete : ∀ i, Op.delete i ∉ trace := fun i hmem =>
    absurd ((h _ hmem).choose_spec) (by simp)
  refine
    { joinedOnce := fun i => by simp [List.count_eq_zero.mpr (hjoin i)]
      deletedOnce := fun i => by simp [List.count_eq_zero.mpr (hdelete i)]
      deletedLast := fun i => ?_ }
  refine List.pairwise_iff_forall_sublist.mpr fun {a b} hsub => ?_
  rintro rfl
  exact absurd (hsub.subset List.mem_cons_self) (hdelete i)

end BLERCCar.Lib.ThreadHandle
