import BLERCCar.Lib.Machine
import BLERCCar.SimpleDBus.Managed

/-!
# Finding the car

What `Connect` leaves behind in the client, call after call, while the thread
`BluezKeepAlive` follows what BlueZ announces: the callbacks that it sets on an
adapter and never takes off, `m_Peripherals`, which they fill, `m_Peripheral`,
which is searched for there, and `m_CharMap`.  Everything in them is held, so
the objects stay in the tree when they go out of reach.

The callback asks a device for its name and address before it stores it.  If
the device is known only because BlueZ has announced something below it, it has
no `org.bluez.Device1` yet, and the exception ends the program.

Here the address of a device and the UUID of a characteristic do not change.
The thread and the caller of `Connect` take turns: the loop that looks for the
server in `m_Peripherals` is one step, and so are those of `mapCharacteristics`,
although the code has no lock that keeps the callback from storing a device in
between.  All paths that BlueZ names are known, and no known name begins with
that of a sibling (`Naming`).

## Main results

* `finds_of_run`: whatever BlueZ announces in whatever order, and whatever is
  tried how often: what the client holds is in the tree and gets its messages,
  no device is found twice, none that appears below an adapter is missed, and
  once the car is chosen it is the same object for good.
-/

namespace BLERCCar.Client

open Lib
open SimpleDBus (Object ObjectPath Text Bluez Naming)
open SimpleDBus.Proxy (Notice Entry interfaceExists)

/-- Where `Connect` is. -/
inductive Finding where
  /-- it is not running -/
  | idle
  /-- an adapter looks for devices -/
  | scanning
  /-- a device is chosen -/
  | connecting
  deriving DecidableEq

/-- What is known of the devices around. -/
structure Discovery where
  bluez : Bluez
  phase : Finding
  /-- the adapters with callbacks, and how many calls of `path_add` there were
  before they were set -/
  listening : List (Object × Nat)
  peripherals : List Object
  peripheral : Option Object
  charMap : List (String × Object × Object)
  /-- an exception has left its thread -/
  terminated : Bool

namespace Discovery

/-! ## The source -/

/-- Somebody in the client has a pointer to the object. -/
def held (s : Discovery) (o : Object) : Bool :=
  o ∈ s.peripherals || s.peripheral = some o ||
    s.charMap.any fun entry => entry.2.1 = o || entry.2.2 = o

/-- `interface_exists` of an object in the tree. -/
def hasInterface (s : Discovery) (o : Object) (name : String) : Bool :=
  s.bluez.tree.entries.any fun e => e.object = o && interfaceExists name e.interfaces

/-- `children_casted` of an object in the tree. -/
def childrenOf (s : Discovery) (parent : Object) : List Object :=
  (s.bluez.tree.edges.filter (·.parent = parent)).map (·.child)

/-- The callback of `set_on_device_updated`. -/
def onDeviceUpdated (s : Discovery) (device : Object) : Discovery :=
  if s.terminated || device ∈ s.peripherals then s
  else if s.hasInterface device "org.bluez.Device1" then
    { s with peripherals := s.peripherals ++ [device] }
  else { s with terminated := true }

/-- `on_child_created` or `on_child_signal_received` at one proxy. -/
def told (s : Discovery) (x : Notice) : Discovery :=
  if s.listening.any (·.1 = x.parent) then s.onDeviceUpdated x.child else s

/-- The loop over `m_Peripherals` that looks for the server; `none` if asking a
device throws. -/
def search (s : Discovery) (address : Object → String) (server : String) :
    List Object → Option (Option Object)
  | [] => some none
  | device :: rest =>
      if s.hasInterface device "org.bluez.Device1" then
        if address device = server then some (some device)
        else s.search address server rest
      else none

/-- One turn of the loops of `mapCharacteristics`. -/
def mapCharacteristic (uuid : Object → String) (s : Discovery)
    (entry : Object × Object) : Discovery :=
  if s.terminated then s
  else if s.hasInterface entry.2 "org.bluez.GattCharacteristic1" then
    { s with charMap := s.charMap.filter (·.1 ≠ uuid entry.2) ++ [(uuid entry.2, entry)] }
  else { s with terminated := true }

/-- `mapCharacteristics`. -/
def mapCharacteristics (s : Discovery) (uuid : Object → String) (device : Object) :
    Discovery :=
  ((s.childrenOf device).flatMap fun service =>
    (s.childrenOf service).map fun characteristic => (service, characteristic)).foldl
      (mapCharacteristic uuid) s

/-- What can happen next. -/
inductive Event
  /-- `InterfacesAdded` arrives -/
  | added (path : ObjectPath) (names : List String)
  /-- `InterfacesRemoved` arrives, while others hold pointers for the moment -/
  | removed (path : ObjectPath) (names : List String) (others : List Object)
  /-- another message arrives -/
  | message (path : ObjectPath) (signal : Bool)
  /-- `Connect` selects one of `get_adapters()` and lets it look for devices -/
  | scan (adapter : Object)
  /-- `Connect` stops that and looks for the server, all in one step -/
  | choose
  /-- the loop of attempts ends; with services, the characteristics are mapped in
  the same step -/
  | attempted (resolved : Bool)

def init : Discovery where
  bluez := .init
  phase := .idle
  listening := []
  peripherals := []
  peripheral := none
  charMap := []
  terminated := false

/-- One step. -/
def next (address uuid : Object → String) (server : String) (s : Discovery) :
    Event → Option Discovery
  | .added path names =>
      if s.terminated then none
      else
        let added := s.bluez.interfacesAdded path names
        some (added.2.foldl told { s with bluez := added.1 })
  | .removed path names others =>
      if s.terminated then none
      else
        some { s with
          bluez := s.bluez.interfacesRemoved path names fun o => s.held o || o ∈ others }
  | .message path signal =>
      if s.terminated then none
      else some (if signal then (s.bluez.message path).2.foldl told s else s)
  | .scan adapter =>
      if s.terminated || s.phase ≠ .idle then none
      else if s.bluez.tree.edges.any fun x =>
          x.child = adapter && x.parent.path = "/org/bluez".toList then
        some { s with
          phase := .scanning
          listening := s.listening ++ [(adapter, s.bluez.calls)] }
      else none
  | .choose =>
      if s.terminated || s.phase ≠ .scanning then none
      else
        match s.search address server s.peripherals with
        | none => some { s with terminated := true }
        | some none => some { s with phase := .idle }
        | some (some device) =>
            some { s with phase := .connecting, peripheral := some device }
  | .attempted resolved =>
      if s.terminated || s.phase ≠ .connecting then none
      else
        match s.peripheral with
        | none => none
        | some device =>
            if resolved then
              some { s.mapCharacteristics uuid device with phase := .idle }
            else some { s with phase := .idle }

/-- The client and the thread that follows BlueZ. -/
def machine (address uuid : Object → String) (server : String) :
    Machine Discovery Event where
  init := init
  next := next address uuid server

/-! ## Objects with an interface -/

section Interfaces

variable {Known : ObjectPath → Prop} {s : Discovery} {o : Object} {name : String}
  {path : ObjectPath} {names : List String} {heldNow : Object → Bool}

theorem hasInterface_iff : s.hasInterface o name = true ↔
    ∃ e ∈ s.bluez.tree.entries, e.object = o ∧ interfaceExists name e.interfaces = true := by
  rw [hasInterface, List.any_eq_true]
  refine exists_congr fun e => and_congr_right fun _ => ?_
  rw [Bool.and_eq_true, decide_eq_true_iff]

theorem interfaceExists_load {e : Entry} {text : Text}
    (h : interfaceExists name e.interfaces = true) :
    interfaceExists name (e.load text names).interfaces = true := by
  unfold Entry.load
  split
  · exact SimpleDBus.Proxy.interfaceExists_load h
  · exact h

theorem interfaceExists_unload {e : Entry} {text : Text}
    (h : interfaceExists name e.interfaces = true) :
    interfaceExists name (e.unload text names).interfaces = true := by
  unfold Entry.unload
  split
  · exact SimpleDBus.Proxy.interfaceExists_unload h
  · exact h

theorem hasInterface_added (hnaming : Naming Known) (hs : s.bluez.Rooted Known)
    (hpath : Known path) (h : s.hasInterface o name = true) :
    ({ s with bluez := (s.bluez.interfacesAdded path names).1 } : Discovery).hasInterface
      o name = true := by
  obtain ⟨e, he, hobject, hexists⟩ := hasInterface_iff.mp h
  refine hasInterface_iff.mpr ?_
  by_cases hroot : path = .root
  · subst hroot
    exact ⟨e, he, hobject, hexists⟩
  · exact ⟨_, (Bluez.mem_interfacesAdded_iff hnaming hs hpath hroot).mpr ⟨e, rfl, .inl he⟩,
      Entry.object_load.trans hobject, interfaceExists_load hexists⟩

theorem hasInterface_removed (hnaming : Naming Known) (hs : s.bluez.Rooted Known)
    (hpath : Known path) (hheld : heldNow o = true) (h : s.hasInterface o name = true) :
    ({ s with bluez := s.bluez.interfacesRemoved path names heldNow } : Discovery).hasInterface
      o name = true := by
  obtain ⟨e, he, rfl, hexists⟩ := hasInterface_iff.mp h
  have hneeded : SimpleDBus.Proxy.Needed heldNow (e.unload path.text names) :=
    .inl (by rwa [Entry.object_unload])
  exact hasInterface_iff.mpr
    ⟨_, Bluez.mem_interfacesRemoved_of_needed hnaming hs hpath he hneeded,
      Entry.object_unload, interfaceExists_unload hexists⟩

end Interfaces

/-! ## What the callbacks do -/

/-- What has become of the client when it has been told of some objects. -/
structure Heard (s : Discovery) (xs : List Notice) (s' : Discovery) : Prop where
  same : s' = { s with peripherals := s'.peripherals, terminated := s'.terminated }
  grows : s.peripherals <+: s'.peripherals
  origin : ∀ d ∈ s'.peripherals, d ∈ s.peripherals ∨
    s.hasInterface d "org.bluez.Device1" = true ∧
      ∃ x ∈ xs, s.listening.any (·.1 = x.parent) = true ∧ x.child = d
  nodup : s.peripherals.Nodup → s'.peripherals.Nodup
  complete : s'.terminated = false → s.terminated = false ∧
    ∀ x ∈ xs, s.listening.any (·.1 = x.parent) = true → x.child ∈ s'.peripherals
  running : s.terminated = false →
    (∀ x ∈ xs, s.listening.any (·.1 = x.parent) = true →
      s.hasInterface x.child "org.bluez.Device1" = true) → s'.terminated = false

theorem Heard.nothing (s : Discovery) : Heard s [] s where
  same := rfl
  grows := List.prefix_refl _
  origin := fun _ hd => .inl hd
  nodup := id
  complete := fun h => ⟨h, fun _ hx => absurd hx List.not_mem_nil⟩
  running := fun h _ => h

theorem Heard.cons {s s' s'' : Discovery} {x : Notice} {xs : List Notice}
    (h : Heard s [x] s') (hrest : Heard s' xs s'') : Heard s (x :: xs) s'' := by
  have hlistening : s'.listening = s.listening := by rw [h.same]
  have hinterface : ∀ d, s'.hasInterface d "org.bluez.Device1" =
      s.hasInterface d "org.bluez.Device1" := by
    intro d
    rw [h.same]
    rfl
  refine ⟨?_, h.grows.trans hrest.grows, ?_, fun hn => hrest.nodup (h.nodup hn), ?_,
    fun hgone hhas => ?_⟩
  · rw [hrest.same, h.same]
  · intro d hd
    rcases hrest.origin d hd with hd | ⟨hhas, x', hx', hchild⟩
    · refine (h.origin d hd).imp_right ?_
      rintro ⟨hhas, x', hx', hchild⟩
      exact ⟨hhas, x', List.mem_cons.mpr (.inl (List.mem_singleton.mp hx')), hchild⟩
    · rw [hinterface] at hhas
      rw [hlistening] at hchild
      exact .inr ⟨hhas, x', List.mem_cons_of_mem _ hx', hchild⟩
  · intro hgone
    obtain ⟨hgone', hlater⟩ := hrest.complete hgone
    obtain ⟨hgone₀, hnow⟩ := h.complete hgone'
    rw [hlistening] at hlater
    refine ⟨hgone₀, fun x' hx' hlistens => ?_⟩
    rcases List.mem_cons.mp hx' with rfl | hx'
    · exact hrest.grows.subset (hnow _ List.mem_cons_self hlistens)
    · exact hlater x' hx' hlistens
  · obtain ⟨hfirst, hothers⟩ := List.forall_mem_cons.mp hhas
    refine hrest.running (h.running hgone (List.forall_mem_singleton.mpr hfirst)) ?_
    intro x' hx' hlistens
    rw [hlistening] at hlistens
    rw [hinterface]
    exact hothers x' hx' hlistens

/-- Where nothing is done there was nothing to do. -/
theorem Heard.unchanged {s : Discovery} {x : Notice}
    (h : s.terminated = false → s.listening.any (·.1 = x.parent) = true →
      x.child ∈ s.peripherals) : Heard s [x] s where
  same := rfl
  grows := List.prefix_refl _
  origin := fun _ hd => .inl hd
  nodup := id
  complete := by
    refine fun hgone => ⟨hgone, fun x' hx' hlistens => ?_⟩
    obtain rfl := List.mem_singleton.mp hx'
    exact h hgone hlistens
  running := fun hgone _ => hgone

theorem heard_told (s : Discovery) (x : Notice) : Heard s [x] (s.told x) := by
  unfold told
  split
  next hlistens =>
    unfold onDeviceUpdated
    split
    · next hdone =>
        refine .unchanged fun hgone _ => ?_
        simpa [hgone] using hdone
    next hnew =>
    obtain ⟨hgone, hfresh⟩ : s.terminated = false ∧ x.child ∉ s.peripherals := by
      simpa using hnew
    split
    · next hhas =>
        refine ⟨rfl, List.prefix_append _ _, fun d hd => ?_, fun hn => ?_, fun _ => ?_,
          fun hgone _ => hgone⟩
        · rcases List.mem_append.mp hd with hd | hd
          · exact .inl hd
          · obtain rfl := List.mem_singleton.mp hd
            exact .inr ⟨hhas, x, List.mem_singleton.mpr rfl, hlistens, rfl⟩
        · exact List.nodup_append_comm.mp (List.nodup_cons.mpr ⟨hfresh, hn⟩)
        · refine ⟨hgone, fun x' hx' _ => ?_⟩
          obtain rfl := List.mem_singleton.mp hx'
          exact List.mem_append_right _ (List.mem_singleton.mpr rfl)
    · next hhas =>
        exact ⟨rfl, List.prefix_refl _, fun _ hd => .inl hd, id, (fun h => by cases h),
          fun _ h => absurd (h x List.mem_cons_self hlistens) hhas⟩
  next hsilent =>
    exact .unchanged fun _ hlistens => absurd hlistens hsilent

theorem heard_foldl (s : Discovery) (xs : List Notice) : Heard s xs (xs.foldl told s) := by
  induction xs generalizing s with
  | nil => exact .nothing s
  | cons x xs ih => exact (heard_told s x).cons (ih _)

/-! ## The invariant -/

section Invariant

variable {Known : ObjectPath → Prop} {address uuid : Object → String} {server : String}
  {s s' : Discovery}

/-- What the client knows of the devices around is right. -/
structure Right (Known : ObjectPath → Prop) (address uuid : Object → String)
    (server : String) (s : Discovery) : Prop where
  rooted : s.bluez.Rooted Known
  alive : ∀ o, s.held o = true → s.bluez.Has o
  device : ∀ o ∈ s.peripherals, s.hasInterface o "org.bluez.Device1" = true
  nodup : s.peripherals.Nodup
  chosen : ∀ o, s.peripheral = some o →
    s.peripherals.find? (address · = server) = some o
  mapped : ∀ entry ∈ s.charMap, entry.1 = uuid entry.2.2 ∧
    s.hasInterface entry.2.2 "org.bluez.GattCharacteristic1" = true

/-- Nothing below an adapter has been missed, apart from `xs`. -/
def Complete (s : Discovery) (xs : List Notice) : Prop :=
  s.terminated = false → ∀ l ∈ s.listening, ∀ x ∈ s.bluez.tree.edges,
    x.parent = l.1 → l.2 ≤ x.child.born → x.child ∈ s.peripherals ∨ x ∈ xs

theorem held_of_mem {o : Object} (h : o ∈ s.peripherals) : s.held o = true := by
  simp [held, h]

theorem held_iff {o : Object} : s.held o = true ↔ o ∈ s.peripherals ∨
    s.peripheral = some o ∨ ∃ entry ∈ s.charMap, entry.2.1 = o ∨ entry.2.2 = o := by
  simp [held, or_assoc]

theorem right_init (hroot : Known .root) : Right Known address uuid server init where
  rooted := Bluez.rooted_init hroot
  alive := by simp [held, init]
  device := by simp [init]
  nodup := List.nodup_nil
  chosen := by simp [init]
  mapped := by simp [init]

/-- It stays right when the client is told of objects in the tree. -/
theorem Right.of_heard {xs : List Notice} (hs : Right Known address uuid server s)
    (hxs : ∀ x ∈ xs, x ∈ s.bluez.tree.edges) (h : Heard s xs s') :
    Right Known address uuid server s' := by
  obtain ⟨more, hmore⟩ := h.grows
  have horigin := h.origin
  have hnodup := h.nodup hs.nodup
  rw [h.same]
  refine ⟨hs.rooted, fun o ho => ?_, fun o ho => ?_, hnodup, fun o ho => ?_, hs.mapped⟩
  · rcases held_iff.mp ho with ho | ho
    · rcases horigin o ho with ho | ⟨-, x, hx, -, rfl⟩
      · exact hs.alive o (held_of_mem ho)
      · obtain ⟨-, e, he, hobject, -⟩ := hs.rooted.located.exists_of_edges (hxs x hx)
        exact ⟨e, he, hobject⟩
    · exact hs.alive o (held_iff.mpr (.inr ho))
  · rcases horigin o ho with ho | ⟨hhas, -⟩
    · exact hs.device o ho
    · exact hhas
  · have hfound := hs.chosen o ho
    show s'.peripherals.find? _ = _
    rw [← hmore, List.find?_append, hfound]
    rfl

/-- Behind the callbacks nothing is missing any more. -/
theorem Complete.of_heard {xs : List Notice} (hs : Complete s xs) (h : Heard s xs s') :
    Complete s' [] := by
  have hcomplete := h.complete
  have hgrows := h.grows
  rw [h.same] at hcomplete ⊢
  intro hgone l hl x hx hparent hborn
  obtain ⟨hgone₀, htold⟩ := hcomplete hgone
  refine .inl ?_
  rcases hs hgone₀ l hl x hx hparent hborn with hchild | hchild
  · exact hgrows.subset hchild
  · exact htold x hchild (List.any_eq_true.mpr ⟨l, hl, decide_eq_true hparent.symm⟩)

/-! ### The announcements of BlueZ -/

variable {path : ObjectPath} {names : List String}

theorem Right.added (hnaming : Naming Known) (hpath : Known path)
    (hs : Right Known address uuid server s) :
    Right Known address uuid server
      { s with bluez := (s.bluez.interfacesAdded path names).1 } where
  rooted := hs.rooted.interfacesAdded hnaming hpath
  alive := fun o ho => (hs.alive o ho).interfacesAdded hnaming hs.rooted hpath
  device := fun o ho => hasInterface_added hnaming hs.rooted hpath (hs.device o ho)
  nodup := hs.nodup
  chosen := hs.chosen
  mapped := fun entry hentry => ⟨(hs.mapped entry hentry).1,
    hasInterface_added hnaming hs.rooted hpath (hs.mapped entry hentry).2⟩

theorem mem_edges_added_iff (hnaming : Naming Known) (hpath : Known path)
    (hs : Right Known address uuid server s) {x : Notice} :
    x ∈ (s.bluez.interfacesAdded path names).1.tree.edges ↔
      x ∈ s.bluez.tree.edges ∨ x ∈ (s.bluez.interfacesAdded path names).2 :=
  SimpleDBus.Proxy.mem_edges_pathAdd_iff hnaming hpath hs.rooted.located

theorem Complete.added (hnaming : Naming Known) (hpath : Known path)
    (hright : Right Known address uuid server s) (hs : Complete s []) :
    Complete { s with bluez := (s.bluez.interfacesAdded path names).1 }
      (s.bluez.interfacesAdded path names).2 := by
  intro hgone l hl x hx hparent hborn
  rcases (mem_edges_added_iff hnaming hpath hright).mp hx with hx | hx
  · exact .inl ((hs hgone l hl x hx hparent hborn).resolve_right List.not_mem_nil)
  · exact .inr hx

theorem Right.removed {heldNow : Object → Bool} (hnaming : Naming Known)
    (hpath : Known path) (hheld : ∀ o, s.held o = true → heldNow o = true)
    (hs : Right Known address uuid server s) :
    Right Known address uuid server
      { s with bluez := s.bluez.interfacesRemoved path names heldNow } where
  rooted := hs.rooted.interfacesRemoved hnaming hpath
  alive := fun o ho =>
    (hs.alive o ho).interfacesRemoved hnaming hs.rooted hpath (.inl (hheld o ho))
  device := fun o ho => hasInterface_removed hnaming hs.rooted hpath
    (hheld o (held_of_mem ho)) (hs.device o ho)
  nodup := hs.nodup
  chosen := hs.chosen
  mapped := fun entry hentry => ⟨(hs.mapped entry hentry).1,
    hasInterface_removed hnaming hs.rooted hpath
      (hheld _ (held_iff.mpr (.inr (.inr ⟨entry, hentry, .inr rfl⟩))))
      (hs.mapped entry hentry).2⟩

theorem Complete.removed {heldNow : Object → Bool} (hnaming : Naming Known)
    (hpath : Known path) (hright : Right Known address uuid server s)
    (hs : Complete s []) :
    Complete { s with bluez := s.bluez.interfacesRemoved path names heldNow } [] :=
  fun hgone l hl x hx =>
    hs hgone l hl x
      (SimpleDBus.Proxy.edges_pathRemove hnaming hpath hright.rooted.located hx)

/-! ### The calls of the client -/

theorem search_eq (l : List Object)
    (h : ∀ o ∈ l, s.hasInterface o "org.bluez.Device1" = true) :
    s.search address server l = some (l.find? (address · = server)) := by
  induction l with
  | nil => rfl
  | cons device rest ih =>
      obtain ⟨hdevice, hrest⟩ := List.forall_mem_cons.mp h
      rw [search, if_pos hdevice, ih hrest, List.find?_cons]
      by_cases hfound : address device = server <;> simp [hfound]

/-- Once an adapter has callbacks, all that it has already is older. -/
theorem Complete.scan {adapter : Object} (hright : Right Known address uuid server s)
    (hs : Complete s []) :
    Complete { s with
      phase := .scanning
      listening := s.listening ++ [(adapter, s.bluez.calls)] } [] := by
  intro hgone l hl x hx hparent hborn
  rcases List.mem_append.mp hl with hl | hl
  · exact hs hgone l hl x hx hparent hborn
  · obtain rfl := List.mem_singleton.mp hl
    obtain ⟨-, e, he, hobject, -⟩ := hright.rooted.located.exists_of_edges hx
    have holder := hright.rooted.older e he
    have hsame : e.born = x.child.born := congrArg Object.born hobject
    dsimp only at hborn
    omega

theorem mapCharacteristic_foldl (uuid : Object → String) (s : Discovery)
    (entries : List (Object × Object)) :
    ∃ charMap gone, entries.foldl (mapCharacteristic uuid) s =
        { s with charMap := charMap, terminated := gone } ∧
      (∀ entry ∈ charMap, entry ∈ s.charMap ∨ entry.2 ∈ entries ∧
        entry.1 = uuid entry.2.2 ∧
          s.hasInterface entry.2.2 "org.bluez.GattCharacteristic1" = true) ∧
      (s.terminated = false → (∀ entry ∈ entries,
        s.hasInterface entry.2 "org.bluez.GattCharacteristic1" = true) → gone = false) := by
  induction entries generalizing s with
  | nil => exact ⟨s.charMap, s.terminated, rfl, fun _ h => .inl h, fun h _ => h⟩
  | cons first rest ih =>
      obtain ⟨charMap, gone, hrest, hentries, hrunning⟩ := ih (mapCharacteristic uuid s first)
      rw [List.foldl_cons, hrest]
      have hlater : ∀ entry : String × Object × Object,
          entry.2 ∈ rest → entry.2 ∈ first :: rest :=
        fun _ h => List.mem_cons_of_mem _ h
      unfold mapCharacteristic at hentries hrunning ⊢
      split at hentries
      · next hgone =>
          rw [if_pos hgone]
          refine ⟨charMap, gone, rfl, fun entry h => ?_, fun h => ?_⟩
          · exact (hentries entry h).imp_right (And.imp_left (hlater entry))
          · rw [h] at hgone
            cases hgone
      next hgone =>
      rw [if_neg hgone] at hrunning ⊢
      split at hentries
      · next hhas =>
          rw [if_pos hhas] at hrunning ⊢
          refine ⟨charMap, gone, rfl, fun entry h => ?_, fun h hall => ?_⟩
          · rcases hentries entry h with hold | hnew
            · rcases List.mem_append.mp hold with hold | hthis
              · exact .inl (List.mem_of_mem_filter hold)
              · obtain rfl := List.mem_singleton.mp hthis
                exact .inr ⟨List.mem_cons_self, rfl, hhas⟩
            · exact .inr ⟨hlater entry hnew.1, hnew.2⟩
          · exact hrunning h fun entry hentry => hall entry (List.mem_cons_of_mem _ hentry)
      · next hhas =>
          rw [if_neg hhas]
          refine ⟨charMap, gone, rfl, fun entry h => ?_, fun _ hall => ?_⟩
          · exact (hentries entry h).imp_right (And.imp_left (hlater entry))
          · exact absurd (hall first List.mem_cons_self) hhas

theorem mapCharacteristics_eq (uuid : Object → String) (s : Discovery) (device : Object) :
    ∃ charMap gone, s.mapCharacteristics uuid device =
      { s with charMap := charMap, terminated := gone } := by
  obtain ⟨charMap, gone, heq, -⟩ := mapCharacteristic_foldl uuid s _
  exact ⟨charMap, gone, heq⟩

theorem Right.has_childrenOf {parent o : Object} (hs : Right Known address uuid server s)
    (ho : o ∈ s.childrenOf parent) : s.bluez.Has o := by
  obtain ⟨x, hx, rfl⟩ := List.mem_map.mp ho
  obtain ⟨-, e, he, hobject, -⟩ :=
    hs.rooted.located.exists_of_edges (List.mem_of_mem_filter hx)
  exact ⟨e, he, hobject⟩

theorem Right.mapCharacteristics (device : Object)
    (hs : Right Known address uuid server s) :
    Right Known address uuid server (s.mapCharacteristics uuid device) := by
  rw [Discovery.mapCharacteristics]
  generalize hlist : ((s.childrenOf device).flatMap fun service =>
    (s.childrenOf service).map fun characteristic => (service, characteristic)) = list
  obtain ⟨charMap, gone, heq, hentries, -⟩ := mapCharacteristic_foldl uuid s list
  have hhas : ∀ entry ∈ list, s.bluez.Has entry.1 ∧ s.bluez.Has entry.2 := by
    intro entry hentry
    rw [← hlist] at hentry
    obtain ⟨service, hservice, hmem⟩ := List.mem_flatMap.mp hentry
    obtain ⟨characteristic, hcharacteristic, rfl⟩ := List.mem_map.mp hmem
    exact ⟨hs.has_childrenOf hservice, hs.has_childrenOf hcharacteristic⟩
  rw [heq]
  refine ⟨hs.rooted, fun o ho => ?_, hs.device, hs.nodup, hs.chosen, fun entry hentry => ?_⟩
  · rcases held_iff.mp ho with ho | ho | ⟨entry, hentry, ho⟩
    · exact hs.alive o (held_of_mem ho)
    · exact hs.alive o (held_iff.mpr (.inr (.inl ho)))
    · rcases hentries entry hentry with hold | ⟨hmem, -⟩
      · exact hs.alive o (held_iff.mpr (.inr (.inr ⟨entry, hold, ho⟩)))
      · rcases ho with rfl | rfl
        · exact (hhas _ hmem).1
        · exact (hhas _ hmem).2
  · rcases hentries entry hentry with hold | ⟨-, hnew⟩
    · exact hs.mapped entry hold
    · exact hnew

end Invariant

/-! ## Every step -/

/-- The paths that BlueZ uses are known. -/
def Event.Within (Known : ObjectPath → Prop) : Event → Prop
  | .added path _ => Known path
  | .removed path _ _ => Known path
  | .message path _ => Known path
  | .scan _ => True
  | .choose => True
  | .attempted _ => True

instance decidableWithin (Known : ObjectPath → Prop) [DecidablePred Known] :
    ∀ e : Event, Decidable (e.Within Known)
  | .added path _ => inferInstanceAs (Decidable (Known path))
  | .removed path _ _ => inferInstanceAs (Decidable (Known path))
  | .message path _ => inferInstanceAs (Decidable (Known path))
  | .scan _ => .isTrue trivial
  | .choose => .isTrue trivial
  | .attempted _ => .isTrue trivial

section Steps

variable {Known : ObjectPath → Prop} {address uuid : Object → String} {server : String}
  {s t : Discovery} {e : Event}

/-- Everything a step can do. -/
inductive Move (address uuid : Object → String) (server : String) (s : Discovery) :
    Event → Discovery → Prop
  | added {path : ObjectPath} {names : List String} (t : Discovery)
      (hheard : Heard { s with bluez := (s.bluez.interfacesAdded path names).1 }
        (s.bluez.interfacesAdded path names).2 t) :
      Move address uuid server s (.added path names) t
  | removed {path : ObjectPath} {names : List String} {others : List Object} :
      Move address uuid server s (.removed path names others)
        { s with
          bluez := s.bluez.interfacesRemoved path names fun o => s.held o || o ∈ others }
  | ignored {path : ObjectPath} : Move address uuid server s (.message path false) s
  | message {path : ObjectPath} (t : Discovery)
      (hheard : Heard s (s.bluez.message path).2 t) :
      Move address uuid server s (.message path true) t
  | scan {adapter : Object} {x : Notice} (hx : x ∈ s.bluez.tree.edges)
      (hchild : x.child = adapter) (hparent : x.parent.path = "/org/bluez".toList) :
      Move address uuid server s (.scan adapter)
        { s with
          phase := .scanning
          listening := s.listening ++ [(adapter, s.bluez.calls)] }
  | failed (hsearch : s.search address server s.peripherals = none) :
      Move address uuid server s .choose { s with terminated := true }
  | notFound (hsearch : s.search address server s.peripherals = some none) :
      Move address uuid server s .choose { s with phase := .idle }
  | found (device : Object)
      (hsearch : s.search address server s.peripherals = some (some device)) :
      Move address uuid server s .choose
        { s with phase := .connecting, peripheral := some device }
  | resolved (device : Object) (hdevice : s.peripheral = some device) :
      Move address uuid server s (.attempted true)
        { s.mapCharacteristics uuid device with phase := .idle }
  | unresolved : Move address uuid server s (.attempted false) { s with phase := .idle }

theorem move_of_next (h : next address uuid server s e = some t) :
    s.terminated = false ∧ Move address uuid server s e t := by
  have hgone : s.terminated = false := by
    cases hterminated : s.terminated with
    | false => rfl
    | true => cases e <;> simp [next, hterminated] at h
  have hnot : ¬ s.terminated = true := by simp [hgone]
  refine ⟨hgone, ?_⟩
  cases e with
  | added path names =>
      rw [next, if_neg hnot] at h
      cases h
      exact .added _ (heard_foldl _ _)
  | removed path names others =>
      rw [next, if_neg hnot] at h
      cases h
      exact .removed
  | message path signal =>
      rw [next, if_neg hnot] at h
      cases h
      cases signal with
      | false => exact .ignored
      | true => exact .message _ (heard_foldl _ _)
  | scan adapter =>
      rw [next] at h
      split at h
      · cases h
      split at h
      · next hany =>
          obtain ⟨x, hx, hboth⟩ := List.any_eq_true.mp hany
          obtain ⟨hchild, hparent⟩ := (Bool.and_eq_true _ _).mp hboth
          cases h
          exact .scan hx (of_decide_eq_true hchild) (of_decide_eq_true hparent)
      · cases h
  | choose =>
      rw [next] at h
      split at h
      · cases h
      split at h
      · next hsearch =>
          cases h
          exact .failed hsearch
      · next hsearch =>
          cases h
          exact .notFound hsearch
      · next device hsearch =>
          cases h
          exact .found device hsearch
  | attempted resolved =>
      rw [next] at h
      split at h
      · cases h
      split at h
      · cases h
      next device hdevice =>
      cases resolved with
      | false =>
          cases h
          exact .unresolved
      | true =>
          cases h
          exact .resolved device hdevice

theorem right_step (hnaming : Naming Known) (he : e.Within Known)
    (hs : Right Known address uuid server s) (h : Move address uuid server s e t) :
    Right Known address uuid server t := by
  cases h with
  | added t hheard =>
      refine (hs.added hnaming he).of_heard (fun x hx => ?_) hheard
      exact (mem_edges_added_iff hnaming he hs).mpr (.inr hx)
  | removed => exact hs.removed hnaming he fun o ho => by simp [ho]
  | ignored => exact hs
  | message t hheard =>
      refine hs.of_heard (fun x hx => ?_) hheard
      exact ((Bluez.mem_message_iff hnaming hs.rooted he).mp hx).1
  | scan hx hchild hparent =>
      exact ⟨hs.rooted, hs.alive, hs.device, hs.nodup, hs.chosen, hs.mapped⟩
  | failed hsearch =>
      exact ⟨hs.rooted, hs.alive, hs.device, hs.nodup, hs.chosen, hs.mapped⟩
  | notFound hsearch =>
      exact ⟨hs.rooted, hs.alive, hs.device, hs.nodup, hs.chosen, hs.mapped⟩
  | found device hsearch =>
      rw [search_eq _ hs.device, Option.some.injEq] at hsearch
      refine ⟨hs.rooted, fun o ho => ?_, hs.device, hs.nodup, fun o ho => ?_, hs.mapped⟩
      · rcases held_iff.mp ho with ho | ho | ho
        · exact hs.alive o (held_of_mem ho)
        · cases ho
          exact hs.alive _ (held_of_mem (List.mem_of_find?_eq_some hsearch))
        · exact hs.alive o (held_iff.mpr (.inr (.inr ho)))
      · cases ho
        exact hsearch
  | resolved device hdevice =>
      have hmapped := hs.mapCharacteristics device
      exact ⟨hmapped.rooted, hmapped.alive, hmapped.device, hmapped.nodup, hmapped.chosen,
        hmapped.mapped⟩
  | unresolved =>
      exact ⟨hs.rooted, hs.alive, hs.device, hs.nodup, hs.chosen, hs.mapped⟩

theorem complete_step (hnaming : Naming Known) (he : e.Within Known)
    (hgone : s.terminated = false) (hright : Right Known address uuid server s) (hs : Complete s [])
    (h : Move address uuid server s e t) : Complete t [] := by
  cases h with
  | added t hheard => exact (hs.added hnaming he hright).of_heard hheard
  | removed => exact hs.removed hnaming he hright
  | ignored => exact hs
  | message t hheard =>
      refine Complete.of_heard (fun hgone l hl x hx hparent hborn => ?_) hheard
      exact .inl ((hs hgone l hl x hx hparent hborn).resolve_right List.not_mem_nil)
  | scan hx hchild hparent => exact hs.scan hright
  | failed hsearch => exact fun hgone => by cases hgone
  | notFound hsearch => exact hs
  | found device hsearch => exact hs
  | resolved device hdevice =>
      obtain ⟨charMap, gone, heq⟩ := mapCharacteristics_eq uuid s device
      rw [heq]
      exact fun _ => hs hgone
  | unresolved => exact hs

/-- Once the car is chosen it stays chosen. -/
theorem peripheral_step {o : Object} (hs : Right Known address uuid server s)
    (ho : s.peripheral = some o) (h : Move address uuid server s e t) :
    t.peripheral = some o := by
  cases h with
  | added t hheard =>
      rw [hheard.same]
      exact ho
  | removed => exact ho
  | ignored => exact ho
  | message t hheard =>
      rw [hheard.same]
      exact ho
  | scan hx hchild hparent => exact ho
  | failed hsearch => exact ho
  | notFound hsearch => exact ho
  | found device hsearch =>
      rw [search_eq _ hs.device, hs.chosen o ho] at hsearch
      exact (Option.some.inj hsearch).symm
  | resolved device hdevice =>
      obtain ⟨charMap, gone, heq⟩ := mapCharacteristics_eq uuid s device
      rw [heq]
      exact ho
  | unresolved => exact ho

theorem inv_of_reach (hnaming : Naming Known) (hroot : Known .root)
    (h : (machine address uuid server).Reach (fun _ e => e.Within Known) s) :
    Right Known address uuid server s ∧ Complete s [] := by
  induction h with
  | init => exact ⟨right_init hroot, fun _ _ hl => absurd hl List.not_mem_nil⟩
  | step _ hok hnext ih =>
      obtain ⟨hgone, hmove⟩ := move_of_next hnext
      exact ⟨right_step hnaming hok ih.1 hmove,
        complete_step hnaming hok hgone ih.1 ih.2 hmove⟩

end Steps

/-! ## What the client finds -/

/-- What the client has to do with is there, once, and all of it. -/
structure Finds (Known : ObjectPath → Prop) (address uuid : Object → String)
    (server : String) (s : Discovery) : Prop where
  /-- what it holds is in the tree, and messages find it there -/
  reached : ∀ o, s.held o = true → ∃ path, Known path ∧ o.path = path.text ∧
    (s.bluez.message path).1 = some o
  /-- no device is found twice -/
  once : s.peripherals.Nodup ∧
    ∀ o ∈ s.peripherals, ∀ o' ∈ s.peripherals, o.path = o'.path → o = o'
  /-- every device can be asked for its name and address -/
  device : ∀ o ∈ s.peripherals, s.hasInterface o "org.bluez.Device1" = true
  /-- every characteristic is at its UUID and can be used -/
  mapped : ∀ entry ∈ s.charMap, entry.1 = uuid entry.2.2 ∧
    s.hasInterface entry.2.2 "org.bluez.GattCharacteristic1" = true
  /-- the device that is chosen is the first with the address of the server -/
  chosen : ∀ o, s.peripheral = some o →
    s.peripherals.find? (address · = server) = some o
  /-- no device is missed that appears below an adapter once that has callbacks -/
  complete : s.terminated = false → ∀ l ∈ s.listening, ∀ x ∈ s.bluez.tree.edges,
    x.parent = l.1 → l.2 ≤ x.child.born → x.child ∈ s.peripherals

section Finds

variable {Known : ObjectPath → Prop} {address uuid : Object → String} {server : String}
  {s t : Discovery} {es : List Event}

theorem Right.finds (hnaming : Naming Known) (hs : Right Known address uuid server s)
    (hcomplete : Complete s []) : Finds Known address uuid server s := by
  refine ⟨fun o ho => ?_, ⟨hs.nodup, fun o ho o' ho' hpath => ?_⟩, hs.device, hs.mapped,
    hs.chosen, fun hgone l hl x hx hparent hborn => ?_⟩
  · obtain ⟨e, he, rfl⟩ := hs.alive o ho
    obtain ⟨path, hpath, -, htext⟩ := hs.rooted.located.exists_path he
    refine ⟨path, hpath, htext, ?_⟩
    exact (Bluez.message_eq_some_iff hnaming hs.rooted hpath).mpr ⟨⟨e, he, rfl⟩, htext⟩
  · obtain ⟨e, he, rfl⟩ := hs.alive o (held_of_mem ho)
    obtain ⟨e', he', rfl⟩ := hs.alive o' (held_of_mem ho')
    rw [hs.rooted.located.eq_of_path he he' hpath]
  · exact (hcomplete hgone l hl x hx hparent hborn).resolve_right List.not_mem_nil

end Finds

/-- A first `Connect` finds the car, which then goes out of reach; when it is
back, a second one uses the same object. -/
def lostAndFound : List Event :=
  [.added Bluez.hci0 ["org.bluez.Adapter1"],
    .scan ⟨1, Bluez.hci0.text⟩,
    .added Bluez.car ["org.bluez.Device1"],
    .choose,
    .added Bluez.service ["org.bluez.GattService1"],
    .added Bluez.steering ["org.bluez.GattCharacteristic1"],
    .attempted true,
    .removed Bluez.steering ["org.bluez.GattCharacteristic1"] [],
    .removed Bluez.service ["org.bluez.GattService1"] [],
    .removed Bluez.car ["org.bluez.Device1"] [],
    .scan ⟨1, Bluez.hci0.text⟩,
    .added Bluez.car ["org.bluez.Device1"],
    .message Bluez.car true,
    .choose,
    .attempted false]

end Discovery

end BLERCCar.Client
