import BLERCCar.Lib.LastWrite
import BLERCCar.SimpleDBus.Adding
import BLERCCar.SimpleDBus.Forwarding
import BLERCCar.SimpleDBus.Removing

/-!
# The objects that BlueZ manages

`Bluez` is the root of the tree of proxies.  It hands `path_add` and
`path_remove` what BlueZ announces with `InterfacesAdded` and
`InterfacesRemoved`, and `message_forward` all other messages.  (The objects
that `GetManagedObjects` lists when it starts are added in the same way.)

What the tree is for is told by `announced`: an interface of an object is there
if the last announcement that names the two together added it.  This is so while
all paths that BlueZ names are known, and no known name begins with that of a
sibling (`Naming`); else an object may be taken for one below another.

## Main results

* `Bluez.manages_behind`: after any announcements of known paths the tree shows
  what is announced, has one object for each path, and hands a message to the
  object of its path; an object lives on as long as somebody holds it or one of
  its interfaces is announced; and what a removal leaves behind is needed.
-/

namespace BLERCCar.SimpleDBus

open Lib (lastWrite)
open BLERCCar.SimpleDBus.Path (Under under_text)
open Proxy (Entry Notice Needed Located interfacesLoad interfacesUnload interfacesLoaded
  interfaceExists)

/-! ## The source -/

/-- `Bluez`, the root of the tree; `calls` numbers the calls of `path_add`. -/
structure Bluez where
  tree : Proxy
  calls : Nat

namespace Bluez

/-- `Bluez::Bluez`: an interface is loaded when it is constructed. -/
def init : Bluez := ⟨.mk 0 ['/'] [("org.freedesktop.DBus.ObjectManager", true)] [], 1⟩

/-- The handler of `InterfacesAdded`. -/
def interfacesAdded (s : Bluez) (path : ObjectPath) (names : List String) :
    Bluez × List Notice :=
  let added := s.tree.pathAdd s.calls path.text names path.elements.length
  (⟨added.1, s.calls + 1⟩, added.2)

/-- The handler of `InterfacesRemoved`. -/
def interfacesRemoved (s : Bluez) (path : ObjectPath) (names : List String)
    (held : Object → Bool) : Bluez :=
  ⟨(s.tree.pathRemove held path.text names (path.elements.length + 1)).2, s.calls⟩

/-- What `run_async` does with any other message. -/
def message (s : Bluez) (path : ObjectPath) : Option Object × List Notice :=
  s.tree.messageForward path.text (path.elements.length + 1)

/-- What BlueZ announces, and what is held when an object may have to go. -/
inductive Event
  | interfacesAdded (path : ObjectPath) (names : List String)
  | interfacesRemoved (path : ObjectPath) (names : List String) (held : Object → Bool)

def Event.path : Event → ObjectPath
  | .interfacesAdded path _ => path
  | .interfacesRemoved path _ _ => path

def step (s : Bluez) : Event → Bluez
  | .interfacesAdded path names => (s.interfacesAdded path names).1
  | .interfacesRemoved path names held => s.interfacesRemoved path names held

/-! ## What is announced -/

/-- What an announcement says about one interface of one object.  `path_add`
takes no announcement about the root. -/
def Event.effect (path : ObjectPath) (name : String) : Event → Option Bool
  | .interfacesAdded p names =>
      if p = path ∧ name ∈ names ∧ p ≠ .root then some true else none
  | .interfacesRemoved p names _ => if p = path ∧ name ∈ names then some false else none

/-- The last announcement about an interface of an object added it. -/
def announced (es : List Event) (path : ObjectPath) (name : String) : Bool :=
  (lastWrite (Event.effect path name) es).getD
    (path = .root ∧ name = "org.freedesktop.DBus.ObjectManager")

theorem announced_concat (es : List Event) (e : Event) (path : ObjectPath) (name : String) :
    announced (es ++ [e]) path name =
      (e.effect path name).getD (announced es path name) := by
  have hwritten : Lib.Written (fun b : Bool => b)
      (fun b e => (Event.effect path name e).getD b) (Event.effect path name) :=
    fun _ _ => rfl
  rw [announced, announced, ← hwritten.foldl, ← hwritten.foldl, List.foldl_append]
  rfl

/-! ## What the tree has -/

/-- The object is in the tree. -/
def Has (s : Bluez) (o : Object) : Prop := ∃ e ∈ s.tree.entries, e.object = o

/-- The object has the interface, and it is loaded. -/
def Shows (s : Bluez) (path : Text) (name : String) : Prop :=
  ∃ e ∈ s.tree.entries, e.path = path ∧ (name, true) ∈ e.interfaces

variable {Known : ObjectPath → Prop} {s : Bluez} {p q : ObjectPath} {names : List String}
  {name : String} {held : Object → Bool} {o : Object} {e e' : Entry} {x : Notice}

/-- The tree is that of the root, and its objects are older than the next call. -/
structure Rooted (Known : ObjectPath → Prop) (s : Bluez) : Prop where
  located : Located Known .root s.tree
  older : ∀ e ∈ s.tree.entries, e.born < s.calls

theorem mem_load {path : Text} : (name, true) ∈ (e.load path names).interfaces ↔
    (e.path = path ∧ name ∈ names) ∨ (name, true) ∈ e.interfaces := by
  unfold Entry.load
  split
  · next h => simp [h, Proxy.mem_interfacesLoad]
  · next h => simp [h]

theorem mem_unload {path : Text} : (name, true) ∈ (e.unload path names).interfaces ↔
    ¬ (e.path = path ∧ name ∈ names) ∧ (name, true) ∈ e.interfaces := by
  unfold Entry.unload
  split
  · next h => simp [h, Proxy.mem_interfacesUnload]
  · next h => simp [h]

/-! ### Adding -/

theorem interfacesAdded_root : (s.interfacesAdded .root names).1.tree = s.tree := rfl

theorem mem_interfacesAdded_iff (hnaming : Naming Known) (hs : Rooted Known s)
    (hp : Known p) (hne : p ≠ .root) :
    e ∈ (s.interfacesAdded p names).1.tree.entries ↔
      ∃ e₀, e = e₀.load p.text names ∧ (e₀ ∈ s.tree.entries ∨
        ∃ r : ObjectPath, r.elements <+: p.elements ∧
          (∀ e ∈ s.tree.entries, e.path ≠ r.text) ∧ e₀ = ⟨s.calls, r.text, []⟩) := by
  have hgrown : Proxy.Grown s.calls p names .root (· ∈ s.tree.entries)
      (· ∈ (s.interfacesAdded p names).1.tree.entries) :=
    Proxy.grown_pathAdd hnaming hp List.nil_prefix (Ne.symm hne) (Nat.le_add_left ..)
      hs.located
  refine (hgrown e).trans ?_
  simp [ObjectPath.root]

theorem Rooted.interfacesAdded (hnaming : Naming Known) (hs : Rooted Known s)
    (hp : Known p) : Rooted Known (s.interfacesAdded p names).1 := by
  refine ⟨hs.located.pathAdd hnaming hp, fun e he => ?_⟩
  by_cases hroot : p = .root
  · rw [hroot, interfacesAdded_root] at he
    exact Nat.lt_succ_of_lt (hs.older e he)
  · obtain ⟨e₀, rfl, he₀ | ⟨r, -, -, rfl⟩⟩ := (mem_interfacesAdded_iff hnaming hs hp hroot).mp he
    · have hborn : (e₀.load p.text names).born = e₀.born :=
        congrArg Object.born Entry.object_load
      rw [hborn]
      exact Nat.lt_succ_of_lt (hs.older e₀ he₀)
    · have hborn : ((⟨s.calls, r.text, []⟩ : Entry).load p.text names).born = s.calls :=
        congrArg Object.born Entry.object_load
      rw [hborn]
      exact Nat.lt_succ_self s.calls

/-- All objects stay. -/
theorem Has.interfacesAdded (hnaming : Naming Known) (hs : Rooted Known s) (hp : Known p)
    (h : s.Has o) : (s.interfacesAdded p names).1.Has o := by
  by_cases hroot : p = .root
  · rw [hroot]
    exact h
  · obtain ⟨e, he, rfl⟩ := h
    exact ⟨_, (mem_interfacesAdded_iff hnaming hs hp hroot).mpr ⟨e, rfl, .inl he⟩,
      Entry.object_load⟩

theorem shows_interfacesAdded_iff (hnaming : Naming Known) (hs : Rooted Known s)
    (hp : Known p) : (s.interfacesAdded p names).1.Shows q.text name ↔
      (p = q ∧ name ∈ names ∧ p ≠ .root) ∨ s.Shows q.text name := by
  by_cases hroot : p = .root
  · rw [hroot]
    exact (or_iff_right fun h => h.2.2 rfl).symm
  constructor
  · rintro ⟨e, he, hpath, hmem⟩
    obtain ⟨e₀, rfl, he₀⟩ := (mem_interfacesAdded_iff hnaming hs hp hroot).mp he
    rw [Entry.path_load] at hpath
    rcases mem_load.mp hmem with ⟨hsame, hname⟩ | hmem
    · exact .inl ⟨Path.text_injective (hsame.symm.trans hpath), hname, hroot⟩
    · rcases he₀ with he₀ | ⟨r, -, -, rfl⟩
      · exact .inr ⟨e₀, he₀, hpath, hmem⟩
      · exact absurd hmem List.not_mem_nil
  · rintro (⟨rfl, hname, -⟩ | ⟨e, he, hpath, hmem⟩)
    · -- the object of the path is there, or it is made up
      have hexists : ∃ e₀ : Entry, e₀.path = p.text ∧ (e₀ ∈ s.tree.entries ∨
          ∃ r : ObjectPath, r.elements <+: p.elements ∧
            (∀ e ∈ s.tree.entries, e.path ≠ r.text) ∧ e₀ = ⟨s.calls, r.text, []⟩) := by
        by_cases hthere : ∃ e ∈ s.tree.entries, e.path = p.text
        · obtain ⟨e, he, hpath⟩ := hthere
          exact ⟨e, hpath, .inl he⟩
        · exact ⟨_, rfl, .inr ⟨p, List.prefix_refl _,
            fun e he hpath => hthere ⟨e, he, hpath⟩, rfl⟩⟩
      obtain ⟨e₀, hpath, he₀⟩ := hexists
      exact ⟨_, (mem_interfacesAdded_iff hnaming hs hp hroot).mpr ⟨e₀, rfl, he₀⟩,
        Entry.path_load.trans hpath, mem_load.mpr (.inl ⟨hpath, hname⟩)⟩
    · exact ⟨_, (mem_interfacesAdded_iff hnaming hs hp hroot).mpr ⟨e, rfl, .inl he⟩,
        Entry.path_load.trans hpath, mem_load.mpr (.inr hmem)⟩

/-! ### Removing -/

theorem mem_interfacesRemoved_iff (hnaming : Naming Known) (hs : Rooted Known s)
    (hp : Known p) : e' ∈ (s.interfacesRemoved p names held).tree.entries ↔
      ∃ e ∈ s.tree.entries, e' = e.unload p.text names ∧ (Under p.text e.path →
        e.path = ['/'] ∨ ∃ e₂ ∈ s.tree.entries, Under e.path e₂.path ∧
          Needed held (e₂.unload p.text names)) := by
  by_cases hroot : p = .root
  · subst hroot
    refine (Proxy.mem_pathRemove_self_iff (Nat.succ_pos _) hs.located).trans ?_
    refine exists_congr fun e => and_congr_right fun he => and_congr_right fun _ => ?_
    exact ⟨fun h _ => h, fun h => h (hs.located.under he)⟩
  · have hshrunk : Proxy.Shrunk held p names (· ∈ s.tree.entries)
        (· ∈ (s.interfacesRemoved p names held).tree.entries) :=
      Proxy.shrunk_pathRemove hnaming hp List.nil_prefix (Ne.symm hroot) (by omega) hs.located
    refine (hshrunk e').trans (exists_congr fun e => ?_)
    refine and_congr_right fun _ => and_congr_right fun _ => forall_congr' fun hunder => ?_
    refine (or_iff_right fun hslash => ?_).symm
    rw [hslash, ← ObjectPath.text_root, under_text] at hunder
    exact hroot (ObjectPath.eq_root_of_prefix hunder)

theorem Rooted.interfacesRemoved (hnaming : Naming Known) (hs : Rooted Known s)
    (hp : Known p) : Rooted Known (s.interfacesRemoved p names held) := by
  refine ⟨hs.located.pathRemove hnaming hp, fun e he => ?_⟩
  obtain ⟨e₀, he₀, rfl, -⟩ := (mem_interfacesRemoved_iff hnaming hs hp).mp he
  have hborn : (e₀.unload p.text names).born = e₀.born := congrArg Object.born Entry.object_unload
  rw [hborn]
  exact hs.older e₀ he₀

/-- What is needed stays. -/
theorem mem_interfacesRemoved_of_needed (hnaming : Naming Known) (hs : Rooted Known s)
    (hp : Known p) (he : e ∈ s.tree.entries) (h : Needed held (e.unload p.text names)) :
    e.unload p.text names ∈ (s.interfacesRemoved p names held).tree.entries :=
  (mem_interfacesRemoved_iff hnaming hs hp).mpr
    ⟨e, he, rfl, fun _ => .inr ⟨e, he, Under.refl _, h⟩⟩

theorem shows_interfacesRemoved_iff (hnaming : Naming Known) (hs : Rooted Known s)
    (hp : Known p) : (s.interfacesRemoved p names held).Shows q.text name ↔
      ¬ (p = q ∧ name ∈ names) ∧ s.Shows q.text name := by
  constructor
  · rintro ⟨e', he', hpath, hmem⟩
    obtain ⟨e, he, rfl, -⟩ := (mem_interfacesRemoved_iff hnaming hs hp).mp he'
    rw [Entry.path_unload] at hpath
    obtain ⟨hnot, hmem⟩ := mem_unload.mp hmem
    refine ⟨?_, e, he, hpath, hmem⟩
    rintro ⟨rfl, hname⟩
    exact hnot ⟨hpath, hname⟩
  · rintro ⟨hnot, e, he, hpath, hmem⟩
    have hstill : (name, true) ∈ (e.unload p.text names).interfaces := by
      refine mem_unload.mpr ⟨?_, hmem⟩
      rintro ⟨hsame, hname⟩
      exact hnot ⟨Path.text_injective (hsame.symm.trans hpath), hname⟩
    have hneeded : Needed held (e.unload p.text names) :=
      .inr (Proxy.interfacesLoaded_iff.mpr ⟨name, hstill⟩)
    exact ⟨_, mem_interfacesRemoved_of_needed hnaming hs hp he hneeded,
      Entry.path_unload.trans hpath, hstill⟩

/-- What is held, or still has an interface, stays. -/
theorem Has.interfacesRemoved (hnaming : Naming Known) (hs : Rooted Known s) (hp : Known p)
    (h : s.Has o) (hkeep : held o = true ∨
      ∃ name, (s.interfacesRemoved p names held).Shows o.path name) :
    (s.interfacesRemoved p names held).Has o := by
  obtain ⟨e, he, rfl⟩ := h
  rcases hkeep with hheld | ⟨name, e', he', hpath, -⟩
  · refine ⟨_, mem_interfacesRemoved_of_needed hnaming hs hp he (.inl ?_),
      Entry.object_unload⟩
    rwa [Entry.object_unload]
  · -- there is one object for each path
    obtain ⟨e₀, he₀, rfl, -⟩ := (mem_interfacesRemoved_iff hnaming hs hp).mp he'
    rw [Entry.path_unload] at hpath
    have hsame : e₀ = e := hs.located.eq_of_path he₀ he hpath
    exact ⟨_, he', by rw [hsame, Entry.object_unload]⟩

/-! ### Messages -/

theorem message_eq_some_iff (hnaming : Naming Known) (hs : Rooted Known s) (hp : Known p) :
    (s.message p).1 = some o ↔ s.Has o ∧ o.path = p.text := by
  rw [message, Proxy.messageForward_eq_some_iff hnaming hp List.nil_prefix (by omega)
    hs.located]
  constructor
  · rintro ⟨e, he, hpath, rfl⟩
    exact ⟨⟨e, he, rfl⟩, hpath⟩
  · rintro ⟨⟨e, he, rfl⟩, hpath⟩
    exact ⟨e, he, hpath, rfl⟩

theorem mem_message_iff (hnaming : Naming Known) (hs : Rooted Known s) (hp : Known p) :
    x ∈ (s.message p).2 ↔ x ∈ s.tree.edges ∧ x.child.path = p.text :=
  Proxy.mem_messageForward_iff hnaming hp List.nil_prefix (by omega) hs.located

/-! ## Runs -/

/-- The tree behind some announcements. -/
def behind (es : List Event) : Bluez := es.foldl step init

theorem behind_concat (es : List Event) (e : Event) :
    behind (es ++ [e]) = (behind es).step e := by
  rw [behind, List.foldl_append]
  rfl

/-- The announcement does not make the object go. -/
def Event.holds (o : Object) : Event → Prop
  | .interfacesAdded _ _ => True
  | .interfacesRemoved _ _ held => held o = true

/-- An interface of the object with the path is announced. -/
def Present (Known : ObjectPath → Prop) (es : List Event) (path : Text) : Prop :=
  ∃ p name, Known p ∧ path = p.text ∧ announced es p name = true

/-- What the tree behind some announcements is. -/
structure Manages (Known : ObjectPath → Prop) (es : List Event) : Prop where
  /-- there is one object for each path -/
  unique : ∀ o o', (behind es).Has o → (behind es).Has o' → o.path = o'.path → o = o'
  /-- what is loaded is what is announced -/
  shows_iff : ∀ path name, Known path →
    ((behind es).Shows path.text name ↔ announced es path name = true)
  /-- a message reaches the object of its path -/
  reached_iff : ∀ path o, Known path →
    (((behind es).message path).1 = some o ↔ (behind es).Has o ∧ o.path = path.text)
  /-- an object lives on as long as it is held or has an interface -/
  lives : ∀ es₁ es₂ o, es = es₁ ++ es₂ → (behind es₁).Has o →
    (∀ es₃ e es₄, es₂ = es₃ ++ e :: es₄ →
      e.holds o ∨ Present Known (es₁ ++ es₃ ++ [e]) o.path) → (behind es).Has o
  /-- what a removal leaves behind is needed, or something below it is -/
  needed : ∀ es' path names held o, es = es' ++ [.interfacesRemoved path names held] →
    (behind es).Has o → Under path.text o.path → o.path = ['/'] ∨
      ∃ o', (behind es).Has o' ∧ Under o.path o'.path ∧
        (held o' = true ∨ Present Known es o'.path)

section Runs

variable {es : List Event}

theorem rooted_init (hroot : Known .root) : Rooted Known init := by
  refine ⟨.leaf hroot, fun e he => ?_⟩
  rcases Proxy.mem_entries_mk.mp he with rfl | ⟨c, hc, -⟩
  · exact Nat.zero_lt_one
  · exact absurd hc List.not_mem_nil

theorem Rooted.step (hnaming : Naming Known) (hs : Rooted Known s) {e : Event}
    (he : Known e.path) : Rooted Known (s.step e) := by
  cases e with
  | interfacesAdded path names => exact hs.interfacesAdded hnaming he
  | interfacesRemoved path names held => exact hs.interfacesRemoved hnaming he

theorem shows_concat_iff (hnaming : Naming Known) (hs : Rooted Known (behind es))
    (hshows : (behind es).Shows q.text name ↔ announced es q name = true) {e : Event}
    (he : Known e.path) :
    (behind (es ++ [e])).Shows q.text name ↔ announced (es ++ [e]) q name = true := by
  rw [behind_concat, announced_concat]
  cases e with
  | interfacesAdded path names =>
      have hp : Known path := he
      refine (shows_interfacesAdded_iff hnaming hs hp).trans ?_
      rw [hshows, Event.effect]
      by_cases hsays : path = q ∧ name ∈ names ∧ path ≠ .root
      · rw [if_pos hsays]
        exact iff_of_true (.inl hsays) rfl
      · rw [if_neg hsays]
        exact or_iff_right hsays
  | interfacesRemoved path names held =>
      have hp : Known path := he
      refine (shows_interfacesRemoved_iff hnaming hs hp).trans ?_
      rw [hshows, Event.effect]
      by_cases hsays : path = q ∧ name ∈ names
      · rw [if_pos hsays]
        exact iff_of_false (fun h => h.1 hsays) Bool.false_ne_true
      · rw [if_neg hsays]
        exact and_iff_right hsays

theorem shows_init_iff : init.Shows q.text name ↔ announced [] q name = true := by
  have hslash : (['/'] : Text) = q.text ↔ q = .root := by
    rw [← ObjectPath.text_root]
    exact ⟨fun h => (Path.text_injective h).symm, fun h => by rw [h]⟩
  have hnone : announced [] q name =
      decide (q = .root ∧ name = "org.freedesktop.DBus.ObjectManager") := rfl
  rw [hnone, decide_eq_true_iff, ← hslash]
  constructor
  · rintro ⟨e, he, hpath, hmem⟩
    rcases Proxy.mem_entries_mk.mp he with rfl | ⟨c, hc, -⟩
    · exact ⟨hpath, congrArg Prod.fst (List.mem_singleton.mp hmem)⟩
    · exact absurd hc List.not_mem_nil
  · rintro ⟨hpath, rfl⟩
    exact ⟨_, Proxy.mem_entries_mk.mpr (.inl rfl), hpath, List.mem_singleton.mpr rfl⟩

variable (hnaming : Naming Known) (hroot : Known .root)

include hnaming hroot

/-- What holds of the tree behind every list of announcements. -/
theorem rooted_behind (hes : ∀ e ∈ es, Known e.path) :
    Rooted Known (behind es) ∧
      ∀ q name, (behind es).Shows q.text name ↔ announced es q name = true := by
  induction es using List.reverseRecOn with
  | nil => exact ⟨rooted_init hroot, fun _ _ => shows_init_iff⟩
  | append_singleton es e ih =>
      obtain ⟨hrooted, hshows⟩ := ih fun e he => hes e (List.mem_append_left _ he)
      have he : Known e.path := hes e (by simp)
      refine ⟨?_, fun q name => shows_concat_iff hnaming hrooted (hshows q name) he⟩
      rw [behind_concat]
      exact hrooted.step hnaming he

theorem lives_behind {es₁ es₂ : List Event} (hes : ∀ e ∈ es₁ ++ es₂, Known e.path)
    (ho : (behind es₁).Has o)
    (hkeep : ∀ es₃ e es₄, es₂ = es₃ ++ e :: es₄ →
      e.holds o ∨ Present Known (es₁ ++ es₃ ++ [e]) o.path) :
    (behind (es₁ ++ es₂)).Has o := by
  induction es₂ using List.reverseRecOn with
  | nil => simpa using ho
  | append_singleton es₂ e ih =>
      rw [← List.append_assoc] at hes ⊢
      have hbefore : ∀ e ∈ es₁ ++ es₂, Known e.path :=
        fun e he => hes e (List.mem_append_left _ he)
      have he : Known e.path := hes e (by simp)
      have hhas := ih hbefore fun es₃ e' es₄ heq =>
        hkeep es₃ e' (es₄ ++ [e]) (by simp [heq])
      obtain ⟨hrooted, -⟩ := rooted_behind hnaming hroot hbefore
      obtain ⟨-, hshows⟩ := rooted_behind hnaming hroot hes
      have hlast := hkeep es₂ e [] rfl
      rw [behind_concat] at hshows ⊢
      cases e with
      | interfacesAdded path names => exact hhas.interfacesAdded hnaming hrooted he
      | interfacesRemoved path names held =>
          refine hhas.interfacesRemoved hnaming hrooted he (hlast.imp_right ?_)
          rintro ⟨p, name, -, hpath, hannounced⟩
          exact ⟨name, hpath ▸ (hshows p name).mpr hannounced⟩

theorem needed_behind {es' : List Event} {path : ObjectPath}
    (hes : ∀ e ∈ es' ++ [.interfacesRemoved path names held], Known e.path)
    (ho : (behind (es' ++ [.interfacesRemoved path names held])).Has o)
    (hunder : Under path.text o.path) :
    o.path = ['/'] ∨ ∃ o', (behind (es' ++ [.interfacesRemoved path names held])).Has o' ∧
      Under o.path o'.path ∧ (held o' = true ∨
        Present Known (es' ++ [.interfacesRemoved path names held]) o'.path) := by
  obtain ⟨hrooted, -⟩ := rooted_behind hnaming hroot
    fun e he => hes e (List.mem_append_left _ he)
  obtain ⟨-, hshows⟩ := rooted_behind hnaming hroot hes
  have he : Known path := hes (.interfacesRemoved path names held) (by simp)
  rw [behind_concat] at ho hshows ⊢
  obtain ⟨e', he', rfl⟩ := ho
  obtain ⟨e, hmem, rfl, hreason⟩ := (mem_interfacesRemoved_iff hnaming hrooted he).mp he'
  rw [Entry.object_unload] at hunder ⊢
  refine (hreason hunder).imp_right ?_
  rintro ⟨e₂, he₂, hbelow, hneeded⟩
  have hafter := mem_interfacesRemoved_of_needed hnaming hrooted he he₂ hneeded
  refine ⟨e₂.object, ⟨_, hafter, Entry.object_unload⟩, hbelow, ?_⟩
  rcases hneeded with hheld | hloaded
  · rw [Entry.object_unload] at hheld
    exact .inl hheld
  · obtain ⟨name, hname⟩ := Proxy.interfacesLoaded_iff.mp hloaded
    obtain ⟨q, hq, -, hpath⟩ := hrooted.located.exists_path he₂
    refine .inr ⟨q, name, hq, hpath, (hshows q name).mp ?_⟩
    exact ⟨_, hafter, Entry.path_unload.trans hpath, hname⟩

/-- The tree is what BlueZ announces about known paths. -/
theorem manages_behind (hes : ∀ e ∈ es, Known e.path) : Manages Known es := by
  obtain ⟨hrooted, hshows⟩ := rooted_behind hnaming hroot hes
  refine ⟨?_, fun q name _ => hshows q name, ?_, ?_, ?_⟩
  · rintro o o' ⟨e, he, rfl⟩ ⟨e', he', rfl⟩ hpath
    rw [hrooted.located.eq_of_path he he' hpath]
  · exact fun p o hp => message_eq_some_iff hnaming hrooted hp
  · rintro es₁ es₂ o rfl ho hkeep
    exact lives_behind hnaming hroot hes ho hkeep
  · rintro es' path names held o rfl ho hunder
    exact needed_behind hnaming hroot hes ho hunder

end Runs

/-- An adapter and what is below it. -/
def hci0 : ObjectPath := ⟨["org".toList, "bluez".toList, "hci0".toList], by decide⟩

def car : ObjectPath :=
  ⟨hci0.elements ++ ["dev_E0_E2_E6_0C_4A_8A".toList], by decide⟩

def service : ObjectPath := ⟨car.elements ++ ["service0028".toList], by decide⟩

def steering : ObjectPath := ⟨service.elements ++ ["char0029".toList], by decide⟩

/-- The car goes out of reach while the client holds it, and comes back. -/
def outOfReach : List Event :=
  [.interfacesAdded hci0 ["org.bluez.Adapter1"],
    .interfacesAdded car ["org.bluez.Device1"],
    .interfacesAdded steering ["org.bluez.GattCharacteristic1"],
    .interfacesRemoved steering ["org.bluez.GattCharacteristic1"] fun _ => false,
    .interfacesRemoved car ["org.bluez.Device1"] fun o => o.path = car.text,
    .interfacesAdded car ["org.bluez.Device1"]]

/-- It is the same object then. -/
theorem manages_behind_outOfReach :
    Manages Named outOfReach ∧
      ((behind outOfReach).message car).1 = some ⟨2, car.text⟩ ∧
      ((behind outOfReach).message steering).1 = none :=
  ⟨manages_behind naming_named (by decide) (by decide), by decide +kernel,
    by decide +kernel⟩

end Bluez

end BLERCCar.SimpleDBus
