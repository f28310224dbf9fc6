/-!
# Interleavings of two streams of actions

`Interleaved xs ys zs` says that `zs` merges `xs` and `ys` and keeps the order
inside each.  If every action of one stream commutes with every action of the
other, all merges act alike: `foldl_interleaved` reorders them into the first
stream followed by the second, and `foldl_comm` swaps the two.

This module deliberately imports nothing and names no particular program.
-/

namespace BLERCCar.Lib

universe u v

variable {σ : Type u} {α : Type v}

/-- A merge of two lists that keeps the order inside each. -/
inductive Interleaved : List α → List α → List α → Prop
  | nil : Interleaved [] [] []
  | left {xs ys zs : List α} (x : α) :
      Interleaved xs ys zs → Interleaved (x :: xs) ys (x :: zs)
  | right {xs ys zs : List α} (y : α) :
      Interleaved xs ys zs → Interleaved xs (y :: ys) (y :: zs)

theorem interleaved_nil (xs : List α) : Interleaved xs [] xs := by
  induction xs with
  | nil => exact .nil
  | cons x xs ih => exact .left x ih

/-- The second stream in front of the first one is a merge, too. -/
theorem interleaved_append_swap (xs ys : List α) :
    Interleaved xs ys (ys ++ xs) := by
  induction ys with
  | nil => exact interleaved_nil xs
  | cons y ys ih => exact .right y ih

/-- Two actions may be performed in either order. -/
def Commutes (act : σ → α → σ) (x y : α) : Prop :=
  ∀ s, act (act s x) y = act (act s y) x

/-- An action may be moved behind a stream it commutes with. -/
theorem Commutes.foldl {act : σ → α → σ} {x : α} {ys : List α}
    (h : ∀ y ∈ ys, Commutes act x y) (s : σ) :
    ys.foldl act (act s x) = act (ys.foldl act s) x := by
  induction ys generalizing s with
  | nil => rfl
  | cons y ys ih =>
      have hy : act (act s x) y = act (act s y) x := h y List.mem_cons_self s
      rw [List.foldl_cons, List.foldl_cons, hy]
      exact ih (fun z hz => h z (List.mem_cons_of_mem y hz)) (act s y)

/-- Every merge of two commuting streams acts like one stream after the
other. -/
theorem foldl_interleaved {act : σ → α → σ} {xs ys zs : List α}
    (h : Interleaved xs ys zs)
    (hcomm : ∀ x ∈ xs, ∀ y ∈ ys, Commutes act x y) (s : σ) :
    zs.foldl act s = ys.foldl act (xs.foldl act s) := by
  induction h generalizing s with
  | nil => rfl
  | left x _ ih =>
      exact ih (fun x' hx' => hcomm x' (List.mem_cons_of_mem x hx')) (act s x)
  | @right xs ys zs y _ ih =>
      have hy : ∀ x ∈ xs, Commutes act y x := by
        intro x hx s
        exact (hcomm x hx y List.mem_cons_self s).symm
      have htail : zs.foldl act (act s y) =
          ys.foldl act (xs.foldl act (act s y)) := by
        apply ih
        intro x hx y' hy'
        exact hcomm x hx y' (List.mem_cons_of_mem y hy')
      rw [List.foldl_cons, List.foldl_cons, htail, Commutes.foldl hy]

/-- Two commuting streams may follow each other in either order. -/
theorem foldl_comm {act : σ → α → σ} {xs ys : List α}
    (hcomm : ∀ x ∈ xs, ∀ y ∈ ys, Commutes act x y) (s : σ) :
    xs.foldl act (ys.foldl act s) = ys.foldl act (xs.foldl act s) := by
  have h := foldl_interleaved (interleaved_append_swap xs ys) hcomm s
  rwa [List.foldl_append] at h

end BLERCCar.Lib
