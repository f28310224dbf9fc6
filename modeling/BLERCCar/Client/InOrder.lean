import BLERCCar.Client.Discovery

/-!
# Announcements in the order of the tree

The callback that stores devices, the search for the server and the loops of
`mapCharacteristics` all ask objects for interfaces, and where there is none an
exception ends the program.  An object without interfaces is in the tree only
where BlueZ has announced something below it first.

## Main results

* `running_of_reach`: as long as BlueZ announces each object behind those above
  it, and with its interface, and all its paths are known, no such exception is
  thrown.
-/

namespace BLERCCar.Client.Discovery

open Lib
open SimpleDBus (Object ObjectPath Text Bluez Naming)
open SimpleDBus.Proxy (Notice Entry interfaceExists interfacesLoad)

/-- The interface without which an object of some depth is of no use to the
client. -/
def interfaceAt : Nat → Option String
  | 4 => some "org.bluez.Device1"
  | 6 => some "org.bluez.GattCharacteristic1"
  | _ => none

/-- BlueZ announces an object with that interface, and behind the objects above it
that have one, too. -/
def Event.InOrder (s : Discovery) : Event → Prop
  | .added path names =>
      (∀ name, interfaceAt path.elements.length = some name → name ∈ names) ∧
        ∀ count < path.elements.length, (interfaceAt count).isSome = true →
          ∃ e ∈ s.bluez.tree.entries, e.path = (path.take count).text
  | _ => True

/-- All objects can be used where they are. -/
def Outfitted (b : Bluez) : Prop :=
  ∀ e ∈ b.tree.entries, ∀ q : ObjectPath, e.path = q.text →
    ∀ name, interfaceAt q.elements.length = some name →
      interfaceExists name e.interfaces = true

/-- Everything is at the depth at which the client looks for it, and can be used
there. -/
structure Ordered (s : Discovery) : Prop where
  outfitted : Outfitted s.bluez
  listening : ∀ l ∈ s.listening, ∃ q : ObjectPath, l.1.path = q.text ∧ q.elements.length = 3
  peripherals : ∀ o ∈ s.peripherals,
    ∃ q : ObjectPath, o.path = q.text ∧ q.elements.length = 4
  running : s.terminated = false

section InOrder

variable {Known : ObjectPath → Prop} {address uuid : Object → String} {server : String}
  {s t : Discovery} {e : Event} {x : Notice}

theorem depth_child {n : Nat} (hrooted : s.bluez.Rooted Known)
    (hx : x ∈ s.bluez.tree.edges)
    (hparent : ∃ q : ObjectPath, x.parent.path = q.text ∧ q.elements.length = n) :
    ∃ r : ObjectPath, x.child.path = r.text ∧ r.elements.length = n + 1 := by
  obtain ⟨q, r, last, hr, hq, hchild⟩ := hrooted.located.exists_paths_of_edges hx
  obtain ⟨q', hq', hlength⟩ := hparent
  obtain rfl : q = q' := SimpleDBus.Path.text_injective (hq.symm.trans hq')
  exact ⟨r, hchild, by simp [hr, hlength]⟩

/-- A child at a depth at which the client looks for something can be used. -/
theorem hasInterface_child {n : Nat} {name : String} (hrooted : s.bluez.Rooted Known)
    (hs : Ordered s) (hx : x ∈ s.bluez.tree.edges) (hname : interfaceAt n = some name)
    (hchild : ∃ r : ObjectPath, x.child.path = r.text ∧ r.elements.length = n) :
    s.hasInterface x.child name = true := by
  obtain ⟨r, hr, rfl⟩ := hchild
  obtain ⟨-, e, he, hobject, -⟩ := hrooted.located.exists_of_edges hx
  have hpath : e.path = r.text := (congrArg Object.path hobject).trans hr
  exact hasInterface_iff.mpr ⟨e, he, hobject, hs.outfitted e he r hpath name hname⟩

theorem interfaceExists_of_mem {name : String} {names : List String}
    {interfaces : List (String × Bool)} (h : name ∈ names) :
    interfaceExists name (interfacesLoad names interfaces) = true :=
  SimpleDBus.Proxy.interfaceExists_iff.mpr
    ⟨true, SimpleDBus.Proxy.mem_interfacesLoad.mpr (.inl h)⟩

theorem outfitted_added {path : ObjectPath} {names : List String} (hnaming : Naming Known)
    (hpath : Known path) (hrooted : s.bluez.Rooted Known)
    (horder : Event.InOrder s (.added path names)) (h : Outfitted s.bluez) :
    Outfitted (s.bluez.interfacesAdded path names).1 := by
  by_cases hroot : path = .root
  · subst hroot
    exact h
  intro e he q hq name hname
  obtain ⟨e₀, rfl, he₀⟩ := (Bluez.mem_interfacesAdded_iff hnaming hrooted hpath hroot).mp he
  rw [Entry.path_load] at hq
  rcases he₀ with he₀ | ⟨r, hr, hmissing, rfl⟩
  · exact interfaceExists_load (h e₀ he₀ q hq name hname)
  · -- of what must have an interface, nothing but the path was missing
    obtain rfl : r = q := SimpleDBus.Path.text_injective hq
    have hsame : r = path := by
      by_contra hne
      have hlength : r.elements.length < path.elements.length := by
        refine lt_of_le_of_ne hr.length_le fun hsame => hne ?_
        exact ObjectPath.ext (hr.eq_of_length hsame)
      obtain ⟨e, he, hthere⟩ := horder.2 _ hlength (by rw [hname]; rfl)
      rw [← ObjectPath.eq_take_of_prefix hr rfl] at hthere
      exact hmissing e he hthere
    subst hsame
    rw [Entry.load, if_pos rfl]
    exact interfaceExists_of_mem (horder.1 name hname)

theorem outfitted_removed {path : ObjectPath} {names : List String}
    {heldNow : Object → Bool} (hnaming : Naming Known) (hpath : Known path)
    (hrooted : s.bluez.Rooted Known) (h : Outfitted s.bluez) :
    Outfitted (s.bluez.interfacesRemoved path names heldNow) := by
  intro e he q hq name hname
  obtain ⟨e₀, he₀, rfl, -⟩ := (Bluez.mem_interfacesRemoved_iff hnaming hrooted hpath).mp he
  rw [Entry.path_unload] at hq
  exact interfaceExists_unload (h e₀ he₀ q hq name hname)

/-! ## Every step -/

theorem Ordered.of_heard {xs : List Notice} (hrooted : s.bluez.Rooted Known)
    (hs : Ordered s) (hxs : ∀ x ∈ xs, x ∈ s.bluez.tree.edges) (h : Heard s xs t) :
    Ordered t := by
  -- the callbacks are those of adapters, so what they are told of is a device
  have hdevice : ∀ x ∈ xs, s.listening.any (·.1 = x.parent) = true →
      (∃ r : ObjectPath, x.child.path = r.text ∧ r.elements.length = 4) ∧
        s.hasInterface x.child "org.bluez.Device1" = true := by
    intro x hx hlistens
    obtain ⟨l, hl, hparent⟩ := List.any_eq_true.mp hlistens
    obtain ⟨q, hq, hlength⟩ := hs.listening l hl
    rw [of_decide_eq_true hparent] at hq
    have hdepth := depth_child hrooted (hxs x hx) ⟨q, hq, hlength⟩
    exact ⟨hdepth, hasInterface_child hrooted hs (hxs x hx) rfl hdepth⟩
  have horigin := h.origin
  have hrunning := h.running hs.running fun x hx hlistens => (hdevice x hx hlistens).2
  rw [h.same]
  refine ⟨hs.outfitted, hs.listening, fun o ho => ?_, hrunning⟩
  rcases horigin o ho with ho | ⟨-, x, hx, hlistens, rfl⟩
  · exact hs.peripherals o ho
  · exact (hdevice x hx hlistens).1

theorem Ordered.scan {adapter : Object} (hrooted : s.bluez.Rooted Known) (hs : Ordered s)
    (hx : x ∈ s.bluez.tree.edges) (hchild : x.child = adapter)
    (hparent : x.parent.path = "/org/bluez".toList) :
    Ordered { s with
      phase := .scanning
      listening := s.listening ++ [(adapter, s.bluez.calls)] } := by
  refine ⟨hs.outfitted, fun l hl => ?_, hs.peripherals, hs.running⟩
  rcases List.mem_append.mp hl with hl | hl
  · exact hs.listening l hl
  obtain rfl := List.mem_singleton.mp hl
  obtain ⟨q, r, name, hr, hq, hpath⟩ := hrooted.located.exists_paths_of_edges hx
  have hbluez : "/org/bluez".toList =
      (⟨["org".toList, "bluez".toList], by decide⟩ : ObjectPath).text := by decide
  have hsame := SimpleDBus.Path.text_injective (hq.symm.trans (hparent.trans hbluez))
  exact ⟨r, hchild ▸ hpath, by simp [hr, hsame]⟩

theorem Ordered.mapCharacteristics {device : Object} (hrooted : s.bluez.Rooted Known)
    (hs : Ordered s) (hdevice : device ∈ s.peripherals) :
    Ordered (s.mapCharacteristics uuid device) := by
  rw [Discovery.mapCharacteristics]
  generalize hlist : ((s.childrenOf device).flatMap fun service =>
    (s.childrenOf service).map fun characteristic => (service, characteristic)) = list
  obtain ⟨charMap, gone, heq, -, hrunning⟩ := mapCharacteristic_foldl uuid s list
  have hall : ∀ entry ∈ list,
      s.hasInterface entry.2 "org.bluez.GattCharacteristic1" = true := by
    intro entry hentry
    rw [← hlist] at hentry
    obtain ⟨service, hservice, hmem⟩ := List.mem_flatMap.mp hentry
    obtain ⟨characteristic, hcharacteristic, rfl⟩ := List.mem_map.mp hmem
    obtain ⟨x, hx, rfl⟩ := List.mem_map.mp hservice
    obtain ⟨y, hy, rfl⟩ := List.mem_map.mp hcharacteristic
    obtain ⟨hx, hdevice'⟩ := List.mem_filter.mp hx
    obtain ⟨hy, hservice'⟩ := List.mem_filter.mp hy
    obtain ⟨q, hq, hlength⟩ := hs.peripherals device hdevice
    rw [← of_decide_eq_true hdevice'] at hq
    have hdepth := depth_child hrooted hx ⟨q, hq, hlength⟩
    rw [← of_decide_eq_true hservice'] at hdepth
    exact hasInterface_child hrooted hs hy rfl (depth_child hrooted hy hdepth)
  rw [heq]
  exact ⟨hs.outfitted, hs.listening, hs.peripherals, hrunning hs.running hall⟩

theorem ordered_step (hnaming : Naming Known) (he : e.Within Known) (ho : e.InOrder s)
    (hright : Right Known address uuid server s) (hs : Ordered s)
    (h : Move address uuid server s e t) : Ordered t := by
  cases h with
  | @added path names t hheard =>
      have hadded : Right Known address uuid server
          { s with bluez := (s.bluez.interfacesAdded path names).1 } :=
        hright.added hnaming he
      refine Ordered.of_heard hadded.rooted ?_ (fun x hx => ?_) hheard
      · exact ⟨outfitted_added hnaming he hright.rooted ho hs.outfitted, hs.listening,
          hs.peripherals, hs.running⟩
      · exact (mem_edges_added_iff hnaming he hright).mpr (.inr hx)
  | removed =>
      exact ⟨outfitted_removed hnaming he hright.rooted hs.outfitted, hs.listening,
        hs.peripherals, hs.running⟩
  | ignored => exact hs
  | message t hheard =>
      refine hs.of_heard hright.rooted (fun x hx => ?_) hheard
      exact ((Bluez.mem_message_iff hnaming hright.rooted he).mp hx).1
  | scan hx hchild hparent => exact hs.scan hright.rooted hx hchild hparent
  | failed hsearch =>
      rw [search_eq _ hright.device] at hsearch
      cases hsearch
  | notFound hsearch => exact ⟨hs.outfitted, hs.listening, hs.peripherals, hs.running⟩
  | found device hsearch => exact ⟨hs.outfitted, hs.listening, hs.peripherals, hs.running⟩
  | resolved device hdevice =>
      have hmem := List.mem_of_find?_eq_some (hright.chosen device hdevice)
      have hmapped : Ordered (s.mapCharacteristics uuid device) :=
        hs.mapCharacteristics hright.rooted hmem
      exact ⟨hmapped.outfitted, hmapped.listening, hmapped.peripherals, hmapped.running⟩
  | unresolved => exact ⟨hs.outfitted, hs.listening, hs.peripherals, hs.running⟩

theorem ordered_init : Ordered init := by
  refine ⟨fun e he q hq name hname => ?_, fun _ hl => absurd hl List.not_mem_nil,
    fun _ ho => absurd ho List.not_mem_nil, rfl⟩
  rcases SimpleDBus.Proxy.mem_entries_mk.mp he with rfl | ⟨c, hc, -⟩
  · obtain rfl : .root = q := SimpleDBus.Path.text_injective hq
    cases hname
  · exact absurd hc List.not_mem_nil

/-- No exception ends the program while BlueZ keeps to the order of the tree. -/
theorem running_of_reach (hnaming : Naming Known) (hroot : Known .root)
    (h : (machine address uuid server).Reach
      (fun s e => e.Within Known ∧ e.InOrder s) s) : s.terminated = false := by
  have hboth : Right Known address uuid server s ∧ Ordered s := by
    induction h with
    | init => exact ⟨right_init hroot, ordered_init⟩
    | step _ hok hnext ih =>
        obtain ⟨-, hmove⟩ := move_of_next hnext
        exact ⟨right_step hnaming hok.1 ih.1 hmove,
          ordered_step hnaming hok.1 hok.2 ih.1 ih.2 hmove⟩
  exact hboth.2.running

end InOrder

instance decidableInOrder (s : Discovery) : ∀ e : Event, Decidable (e.InOrder s)
  | .added path names => inferInstanceAs (Decidable
      ((∀ name, interfaceAt path.elements.length = some name → name ∈ names) ∧
        ∀ count < path.elements.length, (interfaceAt count).isSome = true →
          ∃ e ∈ s.bluez.tree.entries, e.path = (path.take count).text))
  | .removed _ _ _ => .isTrue trivial
  | .message _ _ => .isTrue trivial
  | .scan _ => .isTrue trivial
  | .choose => .isTrue trivial
  | .attempted _ => .isTrue trivial

theorem running_of_reach_lostAndFound :
    ∃ s, (machine (fun _ => "E0:E2:E6:0C:4A:8A") (fun _ => "steering")
        "E0:E2:E6:0C:4A:8A").Reach
          (fun s e => e.Within SimpleDBus.Named ∧ e.InOrder s) s ∧
      s.peripheral = some ⟨2, Bluez.car.text⟩ ∧ s.terminated = false := by
  have hsteps : (machine (fun _ => "E0:E2:E6:0C:4A:8A") (fun _ => "steering")
      "E0:E2:E6:0C:4A:8A").EveryStep
        (fun s e => e.Within SimpleDBus.Named ∧ e.InOrder s) init lostAndFound := by
    decide +kernel
  have hany : ((machine (fun _ => "E0:E2:E6:0C:4A:8A") (fun _ => "steering")
      "E0:E2:E6:0C:4A:8A").run init lostAndFound).any
        (·.peripheral = some ⟨2, Bluez.car.text⟩) = true := by
    decide +kernel
  obtain ⟨s, hreach, htest⟩ := Machine.exists_reach_of_any _ _ lostAndFound hsteps hany
  exact ⟨s, hreach, of_decide_eq_true htest,
    running_of_reach SimpleDBus.naming_named (by decide) hreach⟩

/-- Something below the car is announced before the car. -/
example : ((machine (fun _ => "") (fun _ => "") "").run init
    [.added Bluez.hci0 ["org.bluez.Adapter1"], .scan ⟨1, Bluez.hci0.text⟩,
      .added Bluez.service ["org.bluez.GattService1"]]).any (·.terminated) = true := by
  decide +kernel

end BLERCCar.Client.Discovery
