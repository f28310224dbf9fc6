/-!
# Labelled machines and their runs

A `Machine` is a start state together with a partial, executable step function:
`next s e` is the state after the event `e`, or `none` when `e` cannot happen in
`s`.  The interleavings of several parties are the event lists of one machine,
so a statement about every interleaving is a statement about every `run`.

Two shapes of statement are supported.

* `Reach ok s`: some run whose steps all meet `ok` ends in `s`.  With the
  trivial condition this is plain reachability.
* `Always P` against `EveryStep ok` along one given run: the form in which
  "this run never leaves `P`" can be shown equivalent to a condition on its
  steps (`always_iff_everyStep`).

This module deliberately imports nothing and names no particular program.

## Main results

* `Reach.invariant`, `Reach.invariant_of`: the induction rule, plain and
  relative to an invariant that is already known.
* `reach_iff_run`: the inductive and the executable notion of a run agree.
* `always_iff_everyStep`: a property broken exactly by the steps that violate
  a condition.
* `Simulation.reach`: reachability is transported along a simulation.
* `EveryStep.history`, `history_run`: the induction rule for a state and what was
  put out before it.
* `accounts_run`, `foldl_run`: what comes out of a run is what went in less what
  is still pending, and a view of the state that every output acts on is what
  all outputs make of it.
-/

namespace BLERCCar.Lib

universe u v u' v'

/-- A start state and a partial step function labelled by events. -/
structure Machine (σ : Type u) (ε : Type v) where
  init : σ
  next : σ → ε → Option σ

namespace Machine

variable {σ : Type u} {ε : Type v} (M : Machine σ ε)

/-! ## Executable runs -/

/-- Perform a list of events, failing at the first one that cannot happen. -/
def run (s : σ) : List ε → Option σ
  | [] => some s
  | e :: es => (M.next s e).bind fun s' => run s' es

@[simp] theorem run_nil (s : σ) : M.run s [] = some s := rfl

theorem run_cons (s : σ) (e : ε) (es : List ε) :
    M.run s (e :: es) = (M.next s e).bind fun s' => M.run s' es := rfl

theorem run_cons_of_next {s s' : σ} {e : ε} (h : M.next s e = some s')
    (es : List ε) : M.run s (e :: es) = M.run s' es := by
  rw [run_cons, h]
  rfl

theorem run_append (s : σ) (es fs : List ε) :
    M.run s (es ++ fs) = (M.run s es).bind fun s' => M.run s' fs := by
  induction es generalizing s with
  | nil => rfl
  | cons e es ih =>
      rw [List.cons_append, run_cons, run_cons]
      cases M.next s e with
      | none => rfl
      | some s' => exact ih s'

/-- A run followed by one more event. -/
theorem run_concat {s t t' : σ} {es : List ε} {e : ε}
    (hrun : M.run s es = some t) (hnext : M.next t e = some t') :
    M.run s (es ++ [e]) = some t' := by
  rw [run_append, hrun]
  exact M.run_cons_of_next hnext []

/-! ## Conditions along a run -/

/-- Every step of the run of `es` from `s` meets `ok`, which reads the state
before the step and the event. -/
def EveryStep (ok : σ → ε → Prop) (s : σ) : List ε → Prop
  | [] => True
  | e :: es => ok s e ∧ ∀ s', M.next s e = some s' → EveryStep ok s' es

/-- Every state visited by the run of `es` from `s` satisfies `P`. -/
def Always (P : σ → Prop) (s : σ) : List ε → Prop
  | [] => P s
  | e :: es => P s ∧ ∀ s', M.next s e = some s' → Always P s' es

instance decidableEveryStep (ok : σ → ε → Prop) [∀ s e, Decidable (ok s e)] :
    ∀ es s, Decidable (M.EveryStep ok s es)
  | [], _ => .isTrue trivial
  | e :: es, s =>
      match hnext : M.next s e with
      | none =>
          decidable_of_iff (ok s e)
            ⟨fun h => ⟨h, fun _ hs' => nomatch hnext.symm.trans hs'⟩, And.left⟩
      | some s' =>
          have := decidableEveryStep ok es s'
          decidable_of_iff (ok s e ∧ M.EveryStep ok s' es)
            ⟨fun h => ⟨h.1, fun _ ht =>
                Option.some.inj (hnext.symm.trans ht) ▸ h.2⟩,
              fun h => ⟨h.1, h.2 s' hnext⟩⟩

/-- What every admitted step keeps, an admitted run keeps. -/
theorem EveryStep.keeps {ok : σ → ε → Prop} {I : σ → Prop}
    (hI : ∀ s e s', I s → ok s e → M.next s e = some s' → I s')
    {s t : σ} {es : List ε} (hes : M.EveryStep ok s es) (hs : I s)
    (hrun : M.run s es = some t) : I t := by
  induction es generalizing s with
  | nil =>
      cases hrun
      exact hs
  | cons e es ih =>
      cases hnext : M.next s e with
      | none => simp [run_cons, hnext] at hrun
      | some s' =>
          rw [M.run_cons_of_next hnext] at hrun
          exact ih (hes.2 s' hnext) (hI s e s' hs hes.1 hnext) hrun

theorem everyStep_of_forall {p : ε → Prop} {es : List ε} (h : ∀ e ∈ es, p e)
    (s : σ) : M.EveryStep (fun _ e => p e) s es := by
  induction es generalizing s with
  | nil => trivial
  | cons e es ih =>
      refine ⟨h e List.mem_cons_self, fun s' _ => ih (fun f hf => ?_) s'⟩
      exact h f (List.mem_cons_of_mem e hf)

/-- Two conditions that agree wherever an invariant holds agree along every run
that starts in it. -/
theorem everyStep_congr {I : σ → Prop} {ok ok' : σ → ε → Prop}
    (hI : ∀ s e s', I s → M.next s e = some s' → I s')
    (hok : ∀ s e, I s → (ok s e ↔ ok' s e)) {s : σ} (hs : I s)
    (es : List ε) : M.EveryStep ok s es ↔ M.EveryStep ok' s es := by
  induction es generalizing s with
  | nil => exact Iff.rfl
  | cons e es ih =>
      apply and_congr (hok s e hs)
      apply forall_congr'
      intro s'
      apply imp_congr_right
      intro hnext
      exact ih (hI s e s' hs hnext)

theorem Always.head {P : σ → Prop} {s : σ} {es : List ε}
    (h : M.Always P s es) : P s := by
  cases es with
  | nil => exact h
  | cons e es => exact h.1

/-- What every step into a state with `P` keeps, a run through such states
keeps. -/
theorem Always.keeps {P I : σ → Prop}
    (hI : ∀ s e s', I s → P s' → M.next s e = some s' → I s')
    {s t : σ} {es : List ε} (h : M.Always P s es) (hs : I s)
    (hrun : M.run s es = some t) : I t := by
  induction es generalizing s with
  | nil =>
      cases hrun
      exact hs
  | cons e es ih =>
      cases hnext : M.next s e with
      | none => simp [run_cons, hnext] at hrun
      | some s' =>
          rw [M.run_cons_of_next hnext] at hrun
          have hrest := h.2 s' hnext
          exact ih hrest (hI s e s' hs hrest.head hnext) hrun

theorem everyStep_concat {ok : σ → ε → Prop} {s t : σ} {es : List ε} {e : ε}
    (hrun : M.run s es = some t) (hes : M.EveryStep ok s es) (he : ok t e) :
    M.EveryStep ok s (es ++ [e]) := by
  induction es generalizing s with
  | nil =>
      cases hrun
      exact ⟨he, fun _ _ => trivial⟩
  | cons f es ih =>
      refine ⟨hes.1, fun s' hs' => ih ?_ (hes.2 s' hs')⟩
      rwa [M.run_cons_of_next hs'] at hrun

theorem Always.mono {P Q : σ → Prop} (himp : ∀ s, P s → Q s) {s : σ}
    {es : List ε} (h : M.Always P s es) : M.Always Q s es := by
  induction es generalizing s with
  | nil => exact himp s h
  | cons e es ih => exact ⟨himp s h.1, fun s' hs' => ih (h.2 s' hs')⟩

/--
A property that a step breaks exactly when it violates `ok` holds along a whole
run if and only if every step of that run meets `ok`.  `I` is whatever
invariant the two directions of the step fact rely on.
-/
theorem always_iff_everyStep {I P : σ → Prop} {ok : σ → ε → Prop}
    (hI : ∀ s e s', I s → M.next s e = some s' → I s')
    (hP : ∀ s e s', I s → P s → M.next s e = some s' → (P s' ↔ ok s e))
    {s t : σ} {es : List ε} (hs : I s) (hps : P s)
    (hrun : M.run s es = some t) :
    M.Always P s es ↔ M.EveryStep ok s es := by
  induction es generalizing s with
  | nil => exact ⟨fun _ => trivial, fun _ => hps⟩
  | cons e es ih =>
      cases hnext : M.next s e with
      | none => simp [run_cons, hnext] at hrun
      | some s' =>
          rw [M.run_cons_of_next hnext] at hrun
          have hstep := hP s e s' hs hps hnext
          constructor
          · rintro ⟨-, h⟩
            have hps' : P s' := (h s' hnext).head
            refine ⟨hstep.mp hps', fun s'' hs'' => ?_⟩
            obtain rfl : s' = s'' := Option.some.inj (hnext.symm.trans hs'')
            exact (ih (hI s e s' hs hnext) hps' hrun).mp (h s' hnext)
          · rintro ⟨hok, h⟩
            refine ⟨hps, fun s'' hs'' => ?_⟩
            obtain rfl : s' = s'' := Option.some.inj (hnext.symm.trans hs'')
            exact (ih (hI s e s' hs hnext) (hstep.mpr hok) hrun).mpr
              (h s' hnext)

/-! ## Reachability -/

/-- States ending a run from the start state whose steps all meet `ok`. -/
inductive Reach (ok : σ → ε → Prop) : σ → Prop
  | init : Reach ok M.init
  | step {s s' : σ} {e : ε} :
      Reach ok s → ok s e → M.next s e = some s' → Reach ok s'

/-- States ending any run from the start state. -/
abbrev Reachable : σ → Prop := M.Reach fun _ _ => True

variable {M}

/-- The induction rule: what holds at the start and is kept by every admitted
step holds in every state reached. -/
theorem Reach.invariant {ok : σ → ε → Prop} {I : σ → Prop} (h0 : I M.init)
    (hstep : ∀ s e s', I s → ok s e → M.next s e = some s' → I s')
    {s : σ} (h : M.Reach ok s) : I s := by
  induction h with
  | init => exact h0
  | step _ hok hnext ih => exact hstep _ _ _ ih hok hnext

/-- The induction rule relative to a known invariant `J`. -/
theorem Reach.invariant_of {ok : σ → ε → Prop} {I J : σ → Prop}
    (hJ : ∀ s, M.Reach ok s → J s) (h0 : I M.init)
    (hstep : ∀ s e s', J s → I s → ok s e → M.next s e = some s' → I s')
    {s : σ} (h : M.Reach ok s) : I s := by
  induction h with
  | init => exact h0
  | step hreach hok hnext ih => exact hstep _ _ _ (hJ _ hreach) ih hok hnext

/-- Extending a reached state by a run. -/
theorem Reach.run {ok : σ → ε → Prop} {s t : σ} {es : List ε}
    (h : M.Reach ok s) (hes : M.EveryStep ok s es)
    (hrun : M.run s es = some t) : M.Reach ok t :=
  EveryStep.keeps M (fun _ _ _ hs hok hnext => .step hs hok hnext) hes h hrun

theorem Reachable.of_run {s t : σ} {es : List ε} (h : M.Reachable s)
    (hrun : M.run s es = some t) : M.Reachable t :=
  Reach.run h (M.everyStep_of_forall (fun _ _ => trivial) s) hrun

/-- A state is reached exactly when an explicit event list leads to it. -/
theorem reach_iff_run {ok : σ → ε → Prop} {s : σ} :
    M.Reach ok s ↔
      ∃ es, M.run M.init es = some s ∧ M.EveryStep ok M.init es := by
  constructor
  · intro h
    induction h with
    | init => exact ⟨[], rfl, trivial⟩
    | @step s s' e _ hok hnext ih =>
        obtain ⟨es, hrun, hes⟩ := ih
        exact ⟨es ++ [e], M.run_concat hrun hnext,
          M.everyStep_concat hrun hes hok⟩
  · rintro ⟨es, hrun, hes⟩
    exact Reach.run .init hes hrun

/-- Evaluating one run shows that it passes a test in the end. -/
theorem exists_run_of_any (test : σ → Bool) {s : σ} {es : List ε}
    (h : (M.run s es).any test = true) :
    ∃ t, M.run s es = some t ∧ test t = true :=
  (Option.any_eq_true _ _).mp h

/-- So a state that passes it can be reached. -/
theorem exists_reach_of_any (ok : σ → ε → Prop) (test : σ → Bool)
    (es : List ε) (hes : M.EveryStep ok M.init es)
    (h : (M.run M.init es).any test = true) :
    ∃ s, M.Reach ok s ∧ test s = true := by
  obtain ⟨s, hrun, htest⟩ := exists_run_of_any test h
  exact ⟨s, Reach.run .init hes hrun, htest⟩

theorem exists_reachable_of_any (test : σ → Bool) (es : List ε)
    (h : (M.run M.init es).any test = true) :
    ∃ s, M.Reachable s ∧ test s = true :=
  exists_reach_of_any _ test es (M.everyStep_of_forall (fun _ _ => trivial) _) h

/-! ## Outputs along a run -/

section Outputs

universe w

variable {α : Type w} (M)

/-- What the steps of a run put out, where `out` reads the state before a
step. -/
def outputs (out : σ → ε → List α) (s : σ) : List ε → List α
  | [] => []
  | e :: es => out s e ++ (M.next s e).elim [] fun s' => outputs out s' es

variable {M}

theorem outputs_cons_of_next {out : σ → ε → List α} {s s' : σ} {e : ε}
    (h : M.next s e = some s') (es : List ε) :
    M.outputs out s (e :: es) = out s e ++ M.outputs out s' es := by
  rw [outputs, h]
  rfl

/-- Selecting from each step's outputs is selecting from all of them. -/
theorem outputs_filterMap {β : Type w} (f : α → Option β)
    (out : σ → ε → List α) (s : σ) (es : List ε) :
    M.outputs (fun s e => (out s e).filterMap f) s es =
      (M.outputs out s es).filterMap f := by
  induction es generalizing s with
  | nil => rfl
  | cons e es ih =>
      rw [outputs, outputs, List.filterMap_append]
      cases M.next s e with
      | none => rfl
      | some s' => exact congrArg _ (ih s')

/-- A property of every single output is one of all outputs of a run. -/
theorem forall_mem_outputs {out : σ → ε → List α} {P : α → Prop}
    (h : ∀ s e, ∀ a ∈ out s e, P a) (s : σ) (es : List ε) :
    ∀ a ∈ M.outputs out s es, P a := by
  induction es generalizing s with
  | nil => exact fun a ha => absurd ha List.not_mem_nil
  | cons e es ih =>
      intro a ha
      rcases List.mem_append.mp ha with hnow | hlater
      · exact h s e a hnow
      · cases hnext : M.next s e with
        | none => simp [hnext] at hlater
        | some s' =>
            rw [hnext] at hlater
            exact ih s' a hlater

variable {I : σ → Prop} {out : σ → ε → List α} {s t : σ} {es : List ε}

/-- The induction rule for a state together with all that was put out before
it, along an admitted run. -/
theorem EveryStep.history {ok : σ → ε → Prop} {P : List α → σ → Prop}
    (hstep : ∀ past s e s', P past s → ok s e → M.next s e = some s' →
      P (past ++ out s e) s')
    {past : List α} (hes : M.EveryStep ok s es) (h : P past s)
    (hrun : M.run s es = some t) : P (past ++ M.outputs out s es) t := by
  induction es generalizing past s with
  | nil =>
      cases hrun
      simpa [outputs] using h
  | cons e es ih =>
      cases hnext : M.next s e with
      | none => simp [run_cons, hnext] at hrun
      | some s' =>
          rw [M.run_cons_of_next hnext] at hrun
          rw [outputs_cons_of_next hnext, ← List.append_assoc]
          exact ih (hes.2 s' hnext) (hstep past s e s' h hes.1 hnext) hrun

/-- And along any run. -/
theorem history_run {P : List α → σ → Prop}
    (hstep : ∀ past s e s', P past s → M.next s e = some s' →
      P (past ++ out s e) s')
    {past : List α} (h : P past s) (hrun : M.run s es = some t) :
    P (past ++ M.outputs out s es) t :=
  EveryStep.history (fun past s e s' h _ hnext => hstep past s e s' h hnext)
    (M.everyStep_of_forall (fun _ _ => trivial) s) h hrun

/--
Nothing is lost, duplicated or reordered: if in every step what comes out,
followed by what is pending behind it, is what was pending before it followed by
what comes in, then this is so for a whole run.
-/
theorem accounts_run {pending : σ → List α} {input : ε → List α}
    (hI : ∀ s e s', I s → M.next s e = some s' → I s')
    (hstep : ∀ s e s', I s → M.next s e = some s' →
      out s e ++ pending s' = pending s ++ input e)
    (hs : I s) (hrun : M.run s es = some t) :
    M.outputs out s es ++ pending t = pending s ++ es.flatMap input := by
  induction es generalizing s with
  | nil =>
      cases hrun
      simp [outputs]
  | cons e es ih =>
      cases hnext : M.next s e with
      | none => simp [run_cons, hnext] at hrun
      | some s' =>
          rw [M.run_cons_of_next hnext] at hrun
          have htail := ih (hI s e s' hs hnext) hrun
          rw [outputs_cons_of_next hnext, List.append_assoc, htail,
            ← List.append_assoc, hstep s e s' hs hnext, List.flatMap_cons,
            List.append_assoc]

/-- If every step acts on a view of the state with what it puts out, a run acts
on it with all that it puts out. -/
theorem foldl_run {τ : Type v'} {view : σ → τ} {act : τ → α → τ}
    (hI : ∀ s e s', I s → M.next s e = some s' → I s')
    (hstep : ∀ s e s', I s → M.next s e = some s' →
      view s' = (out s e).foldl act (view s))
    (hs : I s) (hrun : M.run s es = some t) :
    view t = (M.outputs out s es).foldl act (view s) := by
  induction es generalizing s with
  | nil =>
      cases hrun
      rfl
  | cons e es ih =>
      cases hnext : M.next s e with
      | none => simp [run_cons, hnext] at hrun
      | some s' =>
          rw [M.run_cons_of_next hnext] at hrun
          rw [outputs_cons_of_next hnext, List.foldl_append,
            ← hstep s e s' hs hnext]
          exact ih (hI s e s' hs hnext) hrun

end Outputs

/-! ## Simulation -/

/--
`A` is simulated by `B` along `abs`: the start states correspond, and from a
state satisfying the invariant `I` each step of `A` is matched by a run of `B`.
-/
structure Simulation {τ : Type u'} {δ : Type v'} (A : Machine σ ε)
    (B : Machine τ δ) (I : σ → Prop) (abs : σ → τ) : Prop where
  init : abs A.init = B.init
  step : ∀ s e s', I s → A.next s e = some s' →
    ∃ fs, B.run (abs s) fs = some (abs s')

/-- Every state of the simulated machine denotes a reachable state. -/
theorem Simulation.reach {τ : Type u'} {δ : Type v'} {A : Machine σ ε}
    {B : Machine τ δ} {I : σ → Prop} {abs : σ → τ}
    (sim : Simulation A B I abs) {ok : σ → ε → Prop}
    (hI : ∀ s, A.Reach ok s → I s) {s : σ} (h : A.Reach ok s) :
    B.Reachable (abs s) := by
  induction h with
  | init => exact sim.init ▸ Reach.init
  | @step s s' e hreach _ hnext ih =>
      obtain ⟨fs, hfs⟩ := sim.step s e s' (hI s hreach) hnext
      exact Reachable.of_run ih hfs

end Machine

end BLERCCar.Lib
