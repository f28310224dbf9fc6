import BLERCCar.Client.Threads

/-!
# Connecting to the server

`BLERCCar_client::Connect` up to the point where it starts the RSSI thread: the
choice of an adapter, the search for the server among the devices found, and
the loop around `m_Peripheral->connect()`, which may throw `SendFailed`.

A computation of the client (`Connecting`) records what it does to the outside
and may be left by that exception.

## Main results

* `run_retryLoop`: the loop makes all the attempts it is allowed, one after the
  other, whatever their outcomes are.
* `retriesOnlyAfterFailure_iff`: so it retries only after failures exactly if
  no attempt but the last one allowed succeeds.
* `run_connect`: how far `Connect` gets, in the terms in which `Session` counts
  its outcomes.
-/

namespace BLERCCar.Client

/-! ## Computations of the client -/

/-- `SimpleDBus::Exception::SendFailed`. -/
structure SendFailed where
  deriving DecidableEq

/-- What the client does to the outside while it connects. -/
inductive Act where
  /-- `m_Peripheral->connect()` -/
  | requestConnection (attempt : Nat)
  /-- the log line `Retrying [..]` -/
  | logRetrying (attemptsLeft : Nat)
  /-- `millisecond_delay(ms)` -/
  | delay (ms : Nat)
  deriving DecidableEq

/-- Computations that record what they do and may throw `SendFailed`. -/
abbrev Connecting := ExceptT SendFailed (StateM (List Act))

/-- Run a computation behind what has been done before. -/
def Connecting.run {α : Type} (x : Connecting α) (acts : List Act) :
    Except SendFailed α × List Act :=
  StateT.run (ExceptT.run x) acts

/-- Do something. -/
def perform (act : Act) : Connecting Unit := modify fun acts => acts ++ [act]

/-- How a request for a connection ends. -/
inductive Reply where
  | returns
  | throwsSendFailed
  deriving DecidableEq

/-! ## The retry loop -/

/-- `m_Peripheral->connect()`. -/
def requestConnection (replies : Nat → Reply) (attempt : Nat) :
    Connecting Unit := do
  perform (.requestConnection attempt)
  match replies attempt with
  | .returns => pure ()
  | .throwsSendFailed => throw SendFailed.mk

/-- The body of the loop. -/
def attemptConnection (replies : Nat → Reply) (limit attempt : Nat) :
    Connecting Unit :=
  tryCatch
    (do
      requestConnection replies attempt
      perform (.delay 1000))
    fun _ => do
      perform (.logRetrying (limit - attempt))
      perform (.delay 100)

/-- The loop; `limit` is `m_ConnectionAttempts`. -/
def retryLoop (replies : Nat → Reply) (limit : Nat) : Connecting Unit :=
  forM (List.range limit) (attemptConnection replies limit)

/-- What one attempt does. -/
def actsOf (replies : Nat → Reply) (limit attempt : Nat) : List Act :=
  match replies attempt with
  | .returns => [.requestConnection attempt, .delay 1000]
  | .throwsSendFailed =>
      [.requestConnection attempt, .logRetrying (limit - attempt), .delay 100]

/-- Computations one after the other. -/
theorem run_bind {α β : Type} {x : Connecting α} {f : α → Connecting β}
    {acts acts' : List Act} {a : α} (h : x.run acts = (.ok a, acts')) :
    Connecting.run (x >>= f) acts = (f a).run acts' := by
  simp only [Connecting.run, ExceptT.run_bind, StateT.run_bind] at h ⊢
  rw [h]
  rfl

/-- An attempt never throws, and does one of two things. -/
theorem run_attemptConnection (replies : Nat → Reply) (limit attempt : Nat)
    (acts : List Act) :
    (attemptConnection replies limit attempt).run acts =
      (.ok (), acts ++ actsOf replies limit attempt) := by
  unfold attemptConnection requestConnection actsOf
  cases replies attempt with
  | returns =>
      have hrun : acts ++ [Act.requestConnection attempt, Act.delay 1000] =
          acts ++ [Act.requestConnection attempt] ++ [Act.delay 1000] := by simp
      rw [hrun]
      rfl
  | throwsSendFailed =>
      have hrun : acts ++ [Act.requestConnection attempt,
            Act.logRetrying (limit - attempt), Act.delay 100] =
          acts ++ [Act.requestConnection attempt] ++
            [Act.logRetrying (limit - attempt)] ++ [Act.delay 100] := by simp
      rw [hrun]
      rfl

/-- Nor does a sequence of attempts. -/
theorem run_forM (replies : Nat → Reply) (limit : Nat) (attempts : List Nat)
    (acts : List Act) :
    Connecting.run (forM attempts (attemptConnection replies limit)) acts =
      (.ok (), acts ++ attempts.flatMap (actsOf replies limit)) := by
  induction attempts generalizing acts with
  | nil =>
      rw [List.forM_nil, List.flatMap_nil, List.append_nil]
      rfl
  | cons attempt attempts ih =>
      have hfirst := run_attemptConnection replies limit attempt acts
      rw [List.forM_cons, run_bind hfirst, ih, List.flatMap_cons,
        List.append_assoc]

/-- The loop makes every attempt it is allowed. -/
theorem run_retryLoop (replies : Nat → Reply) (limit : Nat) (acts : List Act) :
    (retryLoop replies limit).run acts =
      (.ok (), acts ++ (List.range limit).flatMap (actsOf replies limit)) :=
  run_forM replies limit (List.range limit) acts

/-! ## Retrying only after failure -/

/-- The attempts for which a connection is requested. -/
def requested (acts : List Act) : List Nat :=
  acts.filterMap fun
    | .requestConnection attempt => some attempt
    | _ => none

/-- Each attempt requests one connection. -/
theorem requested_actsOf (replies : Nat → Reply) (limit : Nat)
    (attempts : List Nat) :
    requested (attempts.flatMap (actsOf replies limit)) = attempts := by
  induction attempts with
  | nil => rfl
  | cons attempt attempts ih =>
      have hfirst : requested (actsOf replies limit attempt) = [attempt] := by
        unfold actsOf
        cases replies attempt <;> rfl
      unfold requested at ih hfirst ⊢
      rw [List.flatMap_cons, List.filterMap_append, hfirst, ih]
      rfl

/-- No `SendFailed` escapes from the loop, and a connection is requested exactly
for the attempts before which every attempt has failed. -/
structure RetriesOnlyAfterFailure (replies : Nat → Reply) (limit : Nat) :
    Prop where
  returns : ((retryLoop replies limit).run []).1 = .ok ()
  requests : requested ((retryLoop replies limit).run []).2 =
    (List.range limit).filter fun attempt =>
      ∀ earlier < attempt, replies earlier = .throwsSendFailed

/--
The loop retries only after failures exactly if every attempt but the last one
allowed fails.
-/
theorem retriesOnlyAfterFailure_iff (replies : Nat → Reply) (limit : Nat) :
    RetriesOnlyAfterFailure replies limit ↔
      ∀ attempt, attempt + 1 < limit → replies attempt = .throwsSendFailed := by
  have hall : requested ((retryLoop replies limit).run []).2 =
      List.range limit := by
    rw [run_retryLoop]
    exact requested_actsOf replies limit (List.range limit)
  constructor
  · intro h attempt hattempt
    have hrequests := h.requests
    rw [hall, eq_comm, List.filter_eq_self] at hrequests
    have hnext := hrequests (attempt + 1) (List.mem_range.mpr hattempt)
    exact (of_decide_eq_true hnext) attempt (Nat.lt_succ_self attempt)
  · intro h
    refine
      { returns := by rw [run_retryLoop]
        requests := ?_ }
    rw [hall, eq_comm, List.filter_eq_self]
    intro attempt hattempt
    apply decide_eq_true
    intro earlier hearlier
    have hlimit := List.mem_range.mp hattempt
    apply h
    omega

/-- The first attempt succeeds, and four more follow. -/
theorem not_retriesOnlyAfterFailure_success :
    ¬ RetriesOnlyAfterFailure (fun _ => .returns) 5 := by
  intro h
  have hrequests := h.requests
  revert hrequests
  decide

/-! ## The whole of `Connect` -/

/-- What `Connect` finds outside the client. -/
structure Scene where
  /-- the number of adapters -/
  adapters : Nat
  /-- what is typed if an adapter has to be selected -/
  typed : Int
  /-- the addresses of `m_Peripherals` after the scan -/
  addresses : List String
  replies : Nat → Reply
  /-- `m_Peripheral->connected()` after the loop -/
  connected : Bool
  /-- `m_Peripheral->services_resolved()` -/
  servicesResolved : Bool

/-- The only adapter, or the one that is typed. -/
def Scene.selection (scene : Scene) : Int :=
  if scene.adapters = 1 then 0 else scene.typed

/-- The selection is the index of an adapter. -/
def Scene.ValidSelection (scene : Scene) : Prop :=
  ¬ (scene.selection < 0 ∨ (scene.adapters : Int) ≤ scene.selection)

instance (scene : Scene) : Decidable scene.ValidSelection :=
  inferInstanceAs (Decidable (¬ (_ ∨ _)))

/-- `server_idx`: the first device with the address of the server. -/
def Scene.serverIdx (scene : Scene) (server : String) : Option Nat :=
  scene.addresses.findIdx? fun address => address = server

/-- `m_ConnectionAttempts`. -/
def connectionAttempts : Nat := 5

/-- `BLERCCar_client::Connect`, up to `initRssiReadThread`. -/
def connect (scene : Scene) (server : String) : Connecting Session.Outcome :=
  if scene.ValidSelection then
    match scene.serverIdx server with
    | none => pure .noDevice
    | some _ => do
        retryLoop scene.replies connectionAttempts
        if !scene.connected || !scene.servicesResolved then pure .notConnected
        else pure .connected
  else pure .noDevice

/-- How far `Connect` gets. -/
def Scene.outcome (scene : Scene) (server : String) : Session.Outcome :=
  if scene.ValidSelection ∧ server ∈ scene.addresses then
    if scene.connected && scene.servicesResolved then .connected
    else .notConnected
  else .noDevice

theorem serverIdx_eq_none_iff (scene : Scene) (server : String) :
    scene.serverIdx server = none ↔ server ∉ scene.addresses := by
  unfold Scene.serverIdx
  rw [List.findIdx?_eq_none_iff]
  constructor
  · intro h hmem
    have hself := h server hmem
    simp at hself
  · intro h address haddress
    by_contra hsame
    have heq : address = server := by simpa using hsame
    exact h (heq ▸ haddress)

theorem outcome_of_serverIdx_none {scene : Scene} {server : String}
    (h : scene.serverIdx server = none) : scene.outcome server = .noDevice :=
  if_neg fun hfound => (serverIdx_eq_none_iff scene server).mp h hfound.2

theorem outcome_of_serverIdx_some {scene : Scene} {server : String} {idx : Nat}
    (hvalid : scene.ValidSelection) (h : scene.serverIdx server = some idx) :
    scene.outcome server =
      if scene.connected && scene.servicesResolved then .connected
      else .notConnected := by
  have hfound : server ∈ scene.addresses := by
    by_contra hmissing
    rw [(serverIdx_eq_none_iff scene server).mpr hmissing] at h
    cases h
  exact if_pos ⟨hvalid, hfound⟩

/-- `Connect` is left by no exception of the loop, and how far it gets is decided
by the selection, the scan and the device. -/
theorem run_connect (scene : Scene) (server : String) (acts : List Act) :
    ((connect scene server).run acts).1 = .ok (scene.outcome server) := by
  unfold connect
  by_cases hvalid : scene.ValidSelection
  · rw [if_pos hvalid]
    cases hidx : scene.serverIdx server with
    | none =>
        rw [outcome_of_serverIdx_none hidx]
        rfl
    | some idx =>
        have hloop := run_retryLoop scene.replies connectionAttempts acts
        rw [outcome_of_serverIdx_some hvalid hidx]
        show (Connecting.run (retryLoop _ _ >>= fun _ => _) acts).1 = _
        rw [run_bind hloop]
        cases scene.connected <;> cases scene.servicesResolved <;> rfl
  · have houtcome : scene.outcome server = .noDevice := if_neg fun h => hvalid h.1
    rw [if_neg hvalid, houtcome]
    rfl

end BLERCCar.Client
