import BLERCCar.Server.Links

/-!
# Atomic calls and single statements

A controller call as one step, and `onConnect` as one step with the connection,
are simplifications of the interleavings in which every statement is a step.
They leave out interleavings but add no behaviour: a task that is given the
processor for the length of a call does what the atomic call does.

## Main results

* `simulation_statement`: the server with atomic calls is simulated by the
  server with single statements, whenever clients are accepted.
* `reachable_singleStatements`: so what the interleavings of atomic calls reach
  is among what single statements reach with clients coming one at a time.
-/

namespace BLERCCar.Server

open BLERCCar.Lib

/-! ## A task that is left alone -/

section Alone

variable {α σ ε : Type} [Statement α] {M : Machine σ ε} {now : UInt32}
  (put : Thread α → Shared → σ) (e : ε)

/-- A task that takes step after step gets to the end of the call it is in.
`put` is where a machine keeps the task, and `e` is a step of it there. -/
theorem exists_run_call
    (hput : ∀ th sh th' sh', th.step .statement now sh = some (th', sh') →
      M.next (put th sh) e = some (put th' sh'))
    (call : List Instr) (rest : List α) (sh : Shared) :
    ∃ n, M.run (put ⟨call, rest⟩ sh) (List.replicate n e) =
      some (put ⟨[], rest⟩ { sh with world := run call sh.world }) := by
  induction hlength : call.length using Nat.strong_induction_on
    generalizing call sh with
  | _ length ih =>
      cases call with
      | nil => exact ⟨0, rfl⟩
      | cons i call =>
          -- an early return shortens the call, so the induction is on its length
          have hle := (i.after_sublist call sh.world).length_le
          have hlt : (i.after call sh.world).length < length := by
            rw [List.length_cons] at hlength
            omega
          obtain ⟨n, hrun⟩ := ih _ hlt (i.after call sh.world)
            { sh with world := i.exec sh.world } rfl
          have hnext := hput ⟨i :: call, rest⟩ sh _ _ rfl
          refine ⟨n + 1, ?_⟩
          rw [List.replicate_succ, M.run_cons_of_next hnext, hrun,
            ← run_eq_stepCall]

/-- What a step does where calls are atomic, some steps do where they are
not. -/
theorem Thread.Move.exists_run
    (hput : ∀ th sh th' sh', th.step .statement now sh = some (th', sh') →
      M.next (put th sh) e = some (put th' sh'))
    {th th' : Thread α} {sh sh' : Shared}
    (h : Thread.Move .call now th sh th' sh') :
    ∃ es, M.run (put th sh) es = some (put th' sh') := by
  cases h with
  | instr i call rest =>
      exact ⟨[e], M.run_cons_of_next (hput _ _ _ _ rfl) []⟩
  | enter st op rest _ _ hg => cases hg
  | whole st op rest _ hcall =>
      have henter : (Thread.mk [] (st :: rest)).step .statement now sh =
          some (⟨op.body, rest⟩, sh) := by
        simp only [Thread.step, hcall]
      obtain ⟨n, hrun⟩ := exists_run_call put e hput op.body rest sh
      refine ⟨e :: List.replicate n e, ?_⟩
      rw [M.run_cons_of_next (hput _ _ _ _ henter), hrun]
      rfl
  | stmt st rest _ hcall =>
      have hstep : (Thread.mk [] (st :: rest)).step .statement now sh =
          some (⟨[], rest⟩, Statement.exec now st sh) := by
        simp only [Thread.step, hcall]
      exact ⟨[e], M.run_cons_of_next (hput _ _ _ _ hstep) []⟩

end Alone

/-! ## Refinement -/

/-- Between two callbacks the callback task has nothing left to do. -/
def IdleBetween (s : State) : Prop :=
  s.handler = none → s.callback = Thread.done

theorem IdleBetween.move {cfg : Setting} {s s' : State} {e : Event}
    (hidle : IdleBetween s) (hmove : State.Move cfg s e s') : IdleBetween s' := by
  cases hmove with
  | connect | disconnect | write => exact fun hnone => by simp at hnone
  | callback now th sh hth =>
      intro hnone
      rw [hidle hnone] at hth
      cases hth
  | callbackReturns now hdone => exact fun _ => hdone
  | _ => exact hidle

theorem idleBetween_of_reach {cfg : Setting} {ok : State → Event → Prop}
    {s : State} (h : (machine cfg).Reach ok s) : IdleBetween s :=
  h.invariant (fun _ => rfl) fun _ _ _ hidle _ hnext =>
    hidle.move (move_of_next hnext)

/-- The server with atomic calls is simulated by the server with single
statements. -/
theorem simulation_statement (accepts : Ble → Bool) :
    Machine.Simulation (machine ⟨.call, accepts⟩) (machine ⟨.statement, accepts⟩)
      IdleBetween id where
  init := rfl
  step s e s' hidle hnext := by
    have hmove := move_of_next hnext
    cases hmove with
    | constructorReturns =>
        have hsame : s.step ⟨.statement, accepts⟩ .constructorReturns = some _ :=
          hnext
        exact ⟨[.constructorReturns], Machine.run_cons_of_next _ hsame []⟩
    | disconnect =>
        have hsame : s.step ⟨.statement, accepts⟩ .disconnect = some _ := hnext
        exact ⟨[.disconnect], Machine.run_cons_of_next _ hsame []⟩
    | write uuid raw =>
        have hsame : s.step ⟨.statement, accepts⟩ (.write uuid raw) = some _ :=
          hnext
        exact ⟨[.write uuid raw], Machine.run_cons_of_next _ hsame []⟩
    | connect _ _ _ hg => cases hg
    | connected hcon hacc hnone =>
        -- connect, assign the flag, and return from `onConnect`
        refine ⟨[.connect, .callback 0, .callback 0], ?_⟩
        have haccepts : accepts s.ble = true := hacc
        simp [Machine.run, machine, State.step, Thread.step, Statement.asCall,
          Statement.exec, onConnect, hcon, haccepts, hnone, hidle hnone, Thread.done]
    | callback now th sh hth =>
        refine hth.exists_run
          (fun th sh => { s with toShared := sh, callback := th })
          (Event.callback now) fun th sh th' sh' hstep => ?_
        simp only [machine, State.step, hstep]
    | callbackReturns now hdone hbusy =>
        refine ⟨[.callback now], Machine.run_cons_of_next _ ?_ []⟩
        have hnone : s.callback.step .statement now s.toShared = none :=
          Thread.step_eq_none_iff.mpr hdone
        simp only [machine, State.step, id, hnone, if_neg hbusy]
    | task now th sh hth =>
        refine hth.exists_run
          (fun th sh => { s with toShared := sh, task := th })
          (Event.task now) fun th sh th' sh' hstep => ?_
        simp only [machine, State.step, hstep]
    | control now hdone =>
        exact ⟨[.task now], Machine.run_cons_of_next _
          (State.step_task_of_done now hdone) []⟩

/-- The atomic calls of an advertising server are among the single statements
of one that takes clients one at a time. -/
theorem reachable_singleStatements {ok : State → Event → Prop} {s : State}
    (h : (machine atomicCalls).Reach ok s) :
    (machine singleStatements).Reachable s :=
  reachable_oneAtATime
    ((simulation_statement advertised).reach (fun _ => idleBetween_of_reach) h)

end BLERCCar.Server
