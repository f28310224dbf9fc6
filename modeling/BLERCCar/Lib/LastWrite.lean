import Mathlib.Data.List.Induction

/-!
# A component decided by the last operation that writes it

Many state machines have a component that every operation either overwrites
with a value of its own or leaves alone.  After any sequence of operations such
a component is what the last writing operation put there, or its initial value.

`Written view step effect` records the one-step fact, `lastWriter` picks the
deciding operation out of a sequence, and `Written.foldl` is the run fact.
-/

namespace BLERCCar.Lib

universe u v w

variable {σ : Type u} {ω : Type v} {β : Type w}

/-- Every operation sets the component `view` to what `effect` says, and
leaves it alone where `effect` says nothing. -/
def Written (view : σ → β) (step : σ → ω → σ) (effect : ω → Option β) : Prop :=
  ∀ s o, view (step s o) = (effect o).getD (view s)

/-- The last operation that writes the component, if any. -/
def lastWriter (effect : ω → Option β) (ops : List ω) : Option ω :=
  (ops.filter fun o => (effect o).isSome).getLast?

/-- The value that the last writing operation leaves behind, if any. -/
def lastWrite (effect : ω → Option β) (ops : List ω) : Option β :=
  (lastWriter effect ops).bind effect

theorem lastWriter_concat_of_none {effect : ω → Option β} {o : ω}
    (h : effect o = none) (ops : List ω) :
    lastWriter effect (ops ++ [o]) = lastWriter effect ops := by
  simp [lastWriter, List.filter_append, h]

theorem lastWriter_concat_of_some {effect : ω → Option β} {o : ω} {b : β}
    (h : effect o = some b) (ops : List ω) :
    lastWriter effect (ops ++ [o]) = some o := by
  simp [lastWriter, List.filter_append, h]

/-- Two effects that write on the same operations have the same last writer. -/
theorem lastWriter_congr {effect effect' : ω → Option β}
    (h : ∀ o, (effect o).isSome = (effect' o).isSome) (ops : List ω) :
    lastWriter effect ops = lastWriter effect' ops := by
  simp only [lastWriter, h]

/-- The last writer is one of the operations. -/
theorem mem_of_lastWriter {effect : ω → Option β} {ops : List ω} {o : ω}
    (h : lastWriter effect ops = some o) : o ∈ ops := by
  have hmem := List.mem_of_getLast? h
  exact (List.mem_filter.mp hmem).1

/-- The last writer does write. -/
theorem isSome_of_lastWriter {effect : ω → Option β} {ops : List ω} {o : ω}
    (h : lastWriter effect ops = some o) : (effect o).isSome = true := by
  have hmem := List.mem_of_getLast? h
  exact (List.mem_filter.mp hmem).2

/-- The last operation decides if it writes. -/
theorem lastWrite_concat (effect : ω → Option β) (ops : List ω) (o : ω) :
    lastWrite effect (ops ++ [o]) = (effect o).or (lastWrite effect ops) := by
  cases ho : effect o with
  | none =>
      rw [lastWrite, lastWriter_concat_of_none ho]
      rfl
  | some b =>
      rw [lastWrite, lastWriter_concat_of_some ho, Option.bind_some, ho]
      rfl

/-- What is written may be computed later from what is written with. -/
theorem lastWrite_map {γ : Type w} (f : β → γ) (effect : ω → Option β)
    (ops : List ω) :
    lastWrite (fun o => (effect o).map f) ops = (lastWrite effect ops).map f := by
  have hsame : lastWriter (fun o => (effect o).map f) ops =
      lastWriter effect ops := by
    simp only [lastWriter, Option.isSome_map]
  rw [lastWrite, hsame, lastWrite]
  cases lastWriter effect ops <;> rfl

/-- The first operation decides where none after it writes. -/
theorem lastWrite_cons (effect : ω → Option β) (o : ω) (ops : List ω) :
    lastWrite effect (o :: ops) = (lastWrite effect ops).or (effect o) := by
  induction ops using List.reverseRecOn with
  | nil =>
      cases ho : effect o with
      | none => simp [lastWrite, lastWriter, ho]
      | some b => simp [lastWrite, lastWriter, ho]
  | append_singleton ops p ih =>
      rw [← List.cons_append, lastWrite_concat, lastWrite_concat, ih, Option.or_assoc]

/-- Operations may be given by other ones. -/
theorem lastWrite_comp_map {ω' : Type u} (effect : ω → Option β) (f : ω' → ω)
    (ops : List ω') : lastWrite effect (ops.map f) = lastWrite (effect ∘ f) ops := by
  have hfilter : (ops.map f).filter (fun o => (effect o).isSome) =
      (ops.filter fun o => ((effect ∘ f) o).isSome).map f := List.filter_map
  rw [lastWrite, lastWriter, hfilter, List.getLast?_map, lastWrite, lastWriter]
  cases (ops.filter fun o => ((effect ∘ f) o).isSome).getLast? <;> rfl

/-- After a sequence of operations the component is what the last writing
operation put there. -/
theorem Written.foldl {view : σ → β} {step : σ → ω → σ}
    {effect : ω → Option β} (h : Written view step effect) (s : σ)
    (ops : List ω) :
    view (ops.foldl step s) = (lastWrite effect ops).getD (view s) := by
  induction ops using List.reverseRecOn with
  | nil => rfl
  | append_singleton ops o ih =>
      rw [List.foldl_append, List.foldl_cons, List.foldl_nil, h, ih, lastWrite_concat,
        Option.getD_or]

end BLERCCar.Lib
