import BLERCCar.SimpleDBus.Path
import Mathlib.Data.List.Nodup

/-!
# The tree of bus objects

`Proxy.cpp` of the vendored `simpledbus`.  A proxy stands for an object of the
bus; it owns the proxies of the objects below it in a map keyed by their paths.
`path_add` and `path_remove` follow what the bus announces, and messages find
their proxy by walking down the tree.

C++ objects have an identity: two proxies of the same path that existed at
different times are different objects.  Here an object is told by its path and
by the number of the call that created it.  A proxy is erased from its map only
if nobody else holds it (`use_count() == 1`), so what is held is a parameter.

Children are looked up by `Path::is_descendant`, so all this is right only for
paths on which that is the order of the tree (`Naming`).

## Main results

* `Located.eq_of_path`: where each proxy is where its path says, there is one
  for each path.
* `Located.mem_replace_iff`, `mem_insert_iff`, `mem_filter_iff`: what happens to
  one child leaves alone all that is not below its path.
-/

namespace BLERCCar.SimpleDBus

/-! ## The source -/

/-- A `Proxy`: when it was created, `_path`, the names of `_interfaces` with
whether they are loaded, and `_children` in the order of their paths. -/
inductive Proxy where
  | mk (born : Nat) (path : Text) (interfaces : List (String × Bool))
      (children : List Proxy)

/-- What tells a proxy from all others that ever exist. -/
structure Object where
  born : Nat
  path : Text
  deriving DecidableEq

namespace Proxy

def born : Proxy → Nat
  | mk born _ _ _ => born

def path : Proxy → Text
  | mk _ path _ _ => path

def children : Proxy → List Proxy
  | mk _ _ _ children => children

def object (n : Proxy) : Object := ⟨n.born, n.path⟩

/-- `Proxy::interface_exists`. -/
def interfaceExists (name : String) (interfaces : List (String × Bool)) : Bool :=
  interfaces.any (·.1 = name)

/-- `Proxy::interfaces_load`. -/
def interfacesLoad (names : List String) (interfaces : List (String × Bool)) :
    List (String × Bool) :=
  names.foldl
    (fun interfaces name =>
      if interfaceExists name interfaces then
        interfaces.map fun i => if i.1 = name then (name, true) else i
      else interfaces ++ [(name, true)])
    interfaces

/-- `Proxy::interfaces_unload`. -/
def interfacesUnload (names : List String) (interfaces : List (String × Bool)) :
    List (String × Bool) :=
  interfaces.map fun i => if i.1 ∈ names then (i.1, false) else i

/-- `Proxy::interfaces_loaded`. -/
def interfacesLoaded (interfaces : List (String × Bool)) : Bool :=
  interfaces.any (·.2)

/-- Load interfaces of a proxy. -/
def load (names : List String) : Proxy → Proxy
  | mk born path interfaces children =>
      mk born path (interfacesLoad names interfaces) children

/-- `_children[path] = ..` where the path is a key. -/
def replace (path : Text) (f : Proxy → Proxy) (children : List Proxy) : List Proxy :=
  children.map fun c => if c.path = path then f c else c

/-- Put a proxy in its place among the others. -/
def insert (child : Proxy) : List Proxy → List Proxy
  | [] => [child]
  | c :: rest => if child.path < c.path then child :: c :: rest else c :: insert child rest

/-- `_children.emplace(path, child)`: a key that exists keeps its value. -/
def emplace (child : Proxy) (children : List Proxy) : List Proxy :=
  if children.any (·.path = child.path) then children else insert child children

/-- What `on_child_created` and `on_child_signal_received` tell at the proxy
`parent`: the object that `path_get` has for the path there. -/
structure Notice where
  parent : Object
  child : Object
  deriving DecidableEq

/-- `on_child_created(path)` at a proxy with these children. -/
def onChildCreated (parent : Object) (path : Text) (children : List Proxy) : List Notice :=
  match children.find? (·.path = path) with
  | some c => [⟨parent, c.object⟩]
  | none => []

/-- `Proxy::path_add`; `stamp` is the number of the call, and `fuel` bounds how
deep it goes. -/
def pathAdd (stamp : Nat) (path : Text) (names : List String) :
    Nat → Proxy → Proxy × List Notice
  | 0, n => (n, [])
  | fuel + 1, mk born here interfaces children =>
      if Path.isDescendant here path = false then (mk born here interfaces children, [])
      else if children.any (·.path = path) then
        (mk born here interfaces (replace path (load names) children), [])
      else if Path.isChild here path then
        let children' := emplace (mk stamp path (interfacesLoad names []) []) children
        (mk born here interfaces children', onChildCreated ⟨born, here⟩ path children')
      else
        match children.find? fun c => Path.isDescendant c.path path with
        | some c =>
            let added := pathAdd stamp path names fuel c
            (mk born here interfaces (replace c.path (fun _ => added.1) children), added.2)
        | none =>
            let childPath := Path.nextChild here path
            let added := pathAdd stamp path names fuel (mk stamp childPath [] [])
            let children' := emplace added.1 children
            (mk born here interfaces children',
              added.2 ++ onChildCreated ⟨born, here⟩ childPath children')

mutual

/-- `Proxy::path_prune`: whether the proxy can go, and what is left of it. -/
def pathPrune (held : Object → Bool) : Proxy → Bool × Proxy
  | mk born path interfaces children =>
      ((pruneAll held children).isEmpty && !interfacesLoaded interfaces,
        mk born path interfaces (pruneAll held children))

/-- Its loops over the children. -/
def pruneAll (held : Object → Bool) : List Proxy → List Proxy
  | [] => []
  | c :: rest =>
      if (pathPrune held c).1 && !held c.object then pruneAll held rest
      else (pathPrune held c).2 :: pruneAll held rest

end

/-- `Proxy::path_remove`: whether the proxy can go, and what is left of it. -/
def pathRemove (held : Object → Bool) (path : Text) (names : List String) :
    Nat → Proxy → Bool × Proxy
  | 0, n => (false, n)
  | fuel + 1, mk born here interfaces children =>
      if path = here then
        pathPrune held (mk born here (interfacesUnload names interfaces) children)
      else if Path.isDescendant here path = false then
        (false, mk born here interfaces children)
      else
        let childPath := Path.nextChild here path
        match children.find? (·.path = childPath) with
        | none => (false, mk born here interfaces children)
        | some c =>
            let removed := pathRemove held path names fuel c
            (false, mk born here interfaces
              (if removed.1 && !held c.object then children.filter (·.path ≠ childPath)
              else replace childPath (fun _ => removed.2) children))

/-- `Proxy::message_forward`: the object that handles a message, and where
`on_child_signal_received` is called with which object if it is a signal. -/
def messageForward (path : Text) : Nat → Proxy → Option Object × List Notice
  | 0, _ => (none, [])
  | fuel + 1, mk born here _ children =>
      if path = here then (some ⟨born, here⟩, [])
      else
        match children.find? fun c => c.path = path || Path.isDescendant c.path path with
        | none => (none, [])
        | some c =>
            let forwarded := messageForward path fuel c
            (forwarded.1,
              if c.path = path then forwarded.2 ++ [⟨⟨born, here⟩, c.object⟩] else forwarded.2)

/-! ## Interfaces -/

section Interfaces

variable {names : List String} {interfaces : List (String × Bool)} {name : String}

theorem interfacesLoad_cons (name : String) : interfacesLoad (name :: names) interfaces =
    interfacesLoad names (interfacesLoad [name] interfaces) := rfl

theorem mem_interfacesLoad_singleton {other : String} {loaded : Bool} :
    (other, loaded) ∈ interfacesLoad [name] interfaces ↔
      (other = name ∧ loaded = true) ∨ other ≠ name ∧ (other, loaded) ∈ interfaces := by
  rw [interfacesLoad, List.foldl_cons, List.foldl_nil]
  split
  · next hany =>
      obtain ⟨i, hi, hname⟩ := List.any_eq_true.mp hany
      rw [List.mem_map]
      constructor
      · rintro ⟨j, hj, heq⟩
        by_cases h : j.1 = name
        · rw [if_pos h, Prod.mk.injEq] at heq
          exact .inl ⟨heq.1.symm, heq.2.symm⟩
        · rw [if_neg h] at heq
          subst heq
          exact .inr ⟨h, hj⟩
      · rintro (⟨rfl, rfl⟩ | ⟨hne, hmem⟩)
        · exact ⟨i, hi, if_pos (of_decide_eq_true hname)⟩
        · exact ⟨_, hmem, if_neg hne⟩
  · next hany =>
      have hne : ∀ i ∈ interfaces, i.1 ≠ name := fun i hi hname =>
        hany (List.any_eq_true.mpr ⟨i, hi, by simpa using hname⟩)
      rw [List.mem_append, List.mem_singleton, Prod.mk.injEq, or_comm]
      refine or_congr_right ?_
      exact ⟨fun hmem => ⟨hne _ hmem, hmem⟩, And.right⟩

theorem mem_interfacesLoad : (name, true) ∈ interfacesLoad names interfaces ↔
    name ∈ names ∨ (name, true) ∈ interfaces := by
  induction names generalizing interfaces with
  | nil => simp [interfacesLoad]
  | cons first rest ih =>
      rw [interfacesLoad_cons, ih, mem_interfacesLoad_singleton, List.mem_cons]
      by_cases h : name = first <;> simp [h]

theorem mem_interfacesUnload : (name, true) ∈ interfacesUnload names interfaces ↔
    name ∉ names ∧ (name, true) ∈ interfaces := by
  rw [interfacesUnload, List.mem_map]
  constructor
  · rintro ⟨i, hi, heq⟩
    by_cases h : i.1 ∈ names
    · simp [h] at heq
    · rw [if_neg h] at heq
      subst heq
      exact ⟨h, hi⟩
  · rintro ⟨hname, hmem⟩
    exact ⟨_, hmem, if_neg hname⟩

theorem interfacesLoaded_iff :
    interfacesLoaded interfaces = true ↔ ∃ name, (name, true) ∈ interfaces := by
  rw [interfacesLoaded, List.any_eq_true]
  constructor
  · rintro ⟨⟨name, loaded⟩, hmem, hloaded⟩
    exact ⟨name, by rwa [show loaded = true from hloaded] at hmem⟩
  · rintro ⟨name, hmem⟩
    exact ⟨_, hmem, rfl⟩

theorem interfaceExists_iff :
    interfaceExists name interfaces = true ↔ ∃ loaded, (name, loaded) ∈ interfaces := by
  rw [interfaceExists, List.any_eq_true]
  constructor
  · rintro ⟨⟨other, loaded⟩, hmem, hname⟩
    exact ⟨loaded, by rwa [show other = name from of_decide_eq_true hname] at hmem⟩
  · rintro ⟨loaded, hmem⟩
    exact ⟨_, hmem, by simp⟩

/-- No interface is forgotten. -/
theorem interfaceExists_load (h : interfaceExists name interfaces = true) :
    interfaceExists name (interfacesLoad names interfaces) = true := by
  rw [interfaceExists_iff] at h ⊢
  induction names generalizing interfaces with
  | nil => exact h
  | cons first rest ih =>
      obtain ⟨loaded, hmem⟩ := h
      rw [interfacesLoad_cons]
      refine ih ?_
      by_cases hfirst : name = first
      · exact ⟨true, mem_interfacesLoad_singleton.mpr (.inl ⟨hfirst, rfl⟩)⟩
      · exact ⟨loaded, mem_interfacesLoad_singleton.mpr (.inr ⟨hfirst, hmem⟩)⟩

theorem interfaceExists_unload (h : interfaceExists name interfaces = true) :
    interfaceExists name (interfacesUnload names interfaces) = true := by
  rw [interfaceExists_iff] at h ⊢
  obtain ⟨loaded, hmem⟩ := h
  by_cases hname : name ∈ names
  · exact ⟨false, List.mem_map.mpr ⟨_, hmem, if_pos hname⟩⟩
  · exact ⟨loaded, List.mem_map.mpr ⟨_, hmem, if_neg hname⟩⟩

end Interfaces

/-! ## Children by their keys -/

section Children

variable {child c c' : Proxy} {children : List Proxy} {key : Text} {f : Proxy → Proxy}

theorem mem_insert : c ∈ insert child children ↔ c = child ∨ c ∈ children := by
  induction children with
  | nil => simp [insert]
  | cons head rest ih =>
      rw [insert]
      split
      · exact List.mem_cons
      · rw [List.mem_cons, ih, List.mem_cons]
        exact or_left_comm

theorem perm_insert : (insert child children).Perm (child :: children) := by
  induction children with
  | nil => exact .refl _
  | cons head rest ih =>
      rw [insert]
      split
      · exact .refl _
      · exact (ih.cons head).trans (.swap child head rest)

theorem find?_insert (h : ∀ c ∈ children, c.path ≠ child.path) :
    (insert child children).find? (·.path = child.path) = some child := by
  induction children with
  | nil => simp [insert]
  | cons head rest ih =>
      obtain ⟨hhead, hrest⟩ := List.forall_mem_cons.mp h
      rw [insert]
      split
      · simp
      · rw [List.find?_cons_of_neg (by simpa using hhead)]
        exact ih hrest

/-- Where the key is new, the proxy is put among the others. -/
theorem emplace_of_new (child : Proxy) (h : ∀ c ∈ children, c.path ≠ child.path) :
    emplace child children = insert child children := by
  have hnone : ¬ children.any (·.path = child.path) = true := by simpa using h
  exact if_neg hnone

theorem onChildCreated_insert (child : Proxy) (h : ∀ c ∈ children, c.path ≠ child.path)
    (parent : Object) :
    onChildCreated parent child.path (insert child children) =
      [⟨parent, child.object⟩] := by
  rw [onChildCreated, find?_insert h]

theorem exists_of_find? {p : Proxy → Bool} (h : children.find? p = some c) :
    c ∈ children ∧ p c = true :=
  ⟨List.mem_of_find?_eq_some h, List.find?_some h⟩

/-- The paths of the children are different. -/
def Keyed (children : List Proxy) : Prop := (children.map path).Nodup

theorem Keyed.eq (h : Keyed children) (hc : c ∈ children) (hc' : c' ∈ children)
    (hpath : c.path = c'.path) : c = c' :=
  List.inj_on_of_nodup_map h hc hc' hpath

theorem Keyed.insert (h : Keyed children) (hnew : ∀ c ∈ children, c.path ≠ child.path) :
    Keyed (insert child children) := by
  have hperm : ((Proxy.insert child children).map path).Perm
      (child.path :: children.map path) := perm_insert.map path
  refine hperm.nodup_iff.mpr (List.nodup_cons.mpr ⟨?_, h⟩)
  intro hmem
  obtain ⟨c, hc, hpath⟩ := List.mem_map.mp hmem
  exact hnew c hc hpath

theorem Keyed.replace (h : Keyed children) (hpath : c'.path = key) :
    Keyed (replace key (fun _ => c') children) := by
  have hsame : (Proxy.replace key (fun _ => c') children).map path = children.map path := by
    rw [Proxy.replace, List.map_map]
    refine List.map_congr_left fun c _ => ?_
    by_cases hkey : c.path = key <;> simp [hkey, hpath]
  rw [Keyed, hsame]
  exact h

theorem Keyed.filter (h : Keyed children) (p : Proxy → Bool) : Keyed (children.filter p) :=
  h.sublist (List.filter_sublist.map path)

/-- Replacing at a key replaces the one child that has it. -/
theorem Keyed.replace_eq (h : Keyed children) (hc : c ∈ children) (hpath : c.path = key) :
    Proxy.replace key f children = Proxy.replace key (fun _ => f c) children := by
  refine List.map_congr_left fun d hd => ?_
  by_cases hkey : d.path = key
  · rw [h.eq hd hc (hkey.trans hpath.symm)]
  · rw [if_neg hkey, if_neg hkey]

theorem mem_replace (hc : c ∈ children) (hpath : c.path = key) {d : Proxy} :
    d ∈ replace key (fun _ => c') children ↔ d = c' ∨ d ∈ children ∧ d.path ≠ key := by
  rw [replace, List.mem_map]
  constructor
  · rintro ⟨d', hd', rfl⟩
    by_cases hkey : d'.path = key
    · exact .inl (if_pos hkey)
    · exact .inr (by simp [hkey, hd'])
  · rintro (rfl | ⟨hd, hkey⟩)
    · exact ⟨c, hc, if_pos hpath⟩
    · exact ⟨d, hd, if_neg hkey⟩

end Children

/-! ## What is in a tree -/

/-- One object and its interfaces. -/
structure Entry where
  born : Nat
  path : Text
  interfaces : List (String × Bool)

namespace Entry

def object (e : Entry) : Object := ⟨e.born, e.path⟩

/-- The interfaces are loaded if the entry is that of the path. -/
def load (path : Text) (names : List String) (e : Entry) : Entry :=
  if e.path = path then { e with interfaces := interfacesLoad names e.interfaces } else e

def unload (path : Text) (names : List String) (e : Entry) : Entry :=
  if e.path = path then { e with interfaces := interfacesUnload names e.interfaces } else e

variable {e : Entry} {path' : Text} {names : List String}

@[simp] theorem path_load : (e.load path' names).path = e.path := by
  unfold load
  split <;> rfl

@[simp] theorem object_load : (e.load path' names).object = e.object := by
  unfold load
  split <;> rfl

theorem load_of_ne (h : e.path ≠ path') : e.load path' names = e := if_neg h

@[simp] theorem path_unload : (e.unload path' names).path = e.path := by
  unfold unload
  split <;> rfl

@[simp] theorem object_unload : (e.unload path' names).object = e.object := by
  unfold unload
  split <;> rfl

theorem unload_of_ne (h : e.path ≠ path') : e.unload path' names = e := if_neg h

end Entry

mutual

/-- All objects of a tree. -/
def entries : Proxy → List Entry
  | mk born path interfaces children => ⟨born, path, interfaces⟩ :: entriesAll children

def entriesAll : List Proxy → List Entry
  | [] => []
  | c :: rest => entries c ++ entriesAll rest

end

mutual

/-- Which proxy of a tree is whose child. -/
def edges : Proxy → List Notice
  | mk born path _ children => edgesAll ⟨born, path⟩ children

def edgesAll (parent : Object) : List Proxy → List Notice
  | [] => []
  | c :: rest => ⟨parent, c.object⟩ :: (edges c ++ edgesAll parent rest)

end

section Entries

variable {born : Nat} {here : Text} {interfaces : List (String × Bool)}
  {children : List Proxy} {e : Entry} {x : Notice}

theorem mem_entriesAll : e ∈ entriesAll children ↔ ∃ c ∈ children, e ∈ c.entries := by
  induction children with
  | nil => simp [entriesAll]
  | cons c rest ih => rw [entriesAll, List.mem_append, ih, List.exists_mem_cons_iff]

@[simp] theorem mem_entries_mk :
    e ∈ (mk born here interfaces children).entries ↔
      e = ⟨born, here, interfaces⟩ ∨ ∃ c ∈ children, e ∈ c.entries := by
  rw [entries, List.mem_cons, mem_entriesAll]

theorem forall_mem_entries_mk {P : Entry → Prop} :
    (∀ e ∈ (mk born here interfaces children).entries, P e) ↔
      P ⟨born, here, interfaces⟩ ∧ ∀ c ∈ children, ∀ e ∈ c.entries, P e := by
  simp only [mem_entries_mk, forall_eq_or_imp, forall_exists_index, and_imp]
  exact and_congr_right fun _ => ⟨fun h c hc e he => h e c hc he, fun h e c hc he => h c hc e he⟩

theorem mem_edgesAll {parent : Object} : x ∈ edgesAll parent children ↔
    ∃ c ∈ children, x = ⟨parent, c.object⟩ ∨ x ∈ c.edges := by
  induction children with
  | nil => simp [edgesAll]
  | cons c rest ih =>
      rw [edgesAll, List.mem_cons, List.mem_append, ih, List.exists_mem_cons_iff, or_assoc]

@[simp] theorem mem_edges_mk :
    x ∈ (mk born here interfaces children).edges ↔
      ∃ c ∈ children, x = ⟨⟨born, here⟩, c.object⟩ ∨ x ∈ c.edges := by
  rw [edges, mem_edgesAll]

@[simp] theorem edges_leaf : (mk born here interfaces []).edges = [] := rfl

theorem mem_edges_of_mem {c : Proxy} (hc : c ∈ children) (hx : x ∈ c.edges) :
    x ∈ (mk born here interfaces children).edges :=
  mem_edges_mk.mpr ⟨c, hc, .inr hx⟩

/-- Replacing a child by one of the same identity moves no edge to another parent. -/
theorem of_mem_edges_replace {c c' : Proxy} {key : Text} (hc : c ∈ children)
    (hpath : c.path = key) (hobject : c'.object = c.object)
    (hx : x ∈ (mk born here interfaces (replace key (fun _ => c') children)).edges) :
    x ∈ (mk born here interfaces children).edges ∨ x ∈ c'.edges := by
  obtain ⟨d, hd, hedge⟩ := mem_edges_mk.mp hx
  rcases (mem_replace hc hpath).mp hd with rfl | ⟨hmem, -⟩
  · exact hedge.imp_left fun hedge => mem_edges_mk.mpr ⟨c, hc, .inl (hobject ▸ hedge)⟩
  · exact .inl (mem_edges_mk.mpr ⟨d, hmem, hedge⟩)

theorem exists_mem_entries (n : Proxy) : ∃ e ∈ n.entries, e.object = n.object := by
  obtain ⟨born, here, interfaces, children⟩ := n
  exact ⟨_, mem_entries_mk.mpr (.inl rfl), rfl⟩

end Entries

/-! ## Trees in which each proxy is where its path says -/

/-- The proxy stands for the object with the path `p`, and each of its children
for one that is one element below. -/
inductive Located (Known : ObjectPath → Prop) : ObjectPath → Proxy → Prop
  | mk {p : ObjectPath} {born : Nat} {interfaces : List (String × Bool)}
      {children : List Proxy} (known : Known p)
      (keys : ∀ c ∈ children, ∃ (q : ObjectPath) (name : Text),
        q.elements = p.elements ++ [name] ∧ c.path = q.text)
      (below : ∀ c ∈ children, ∀ q, c.path = q.text → Located Known q c)
      (keyed : Keyed children) :
      Located Known p (.mk born p.text interfaces children)

namespace Located

open BLERCCar.SimpleDBus.Path (Under under_text)

variable {Known : ObjectPath → Prop} {p q : ObjectPath} {name : Text} {born : Nat}
  {here : Text} {interfaces interfaces' : List (String × Bool)} {children : List Proxy}
  {n c c' : Proxy} {e e' : Entry}

theorem path_eq (h : Located Known p n) : n.path = p.text := by
  cases h
  rfl

theorem known (h : Located Known p n) : Known p := by
  cases h
  assumption

theorem keyed (h : Located Known p (.mk born here interfaces children)) :
    Keyed children := by
  cases h
  assumption

theorem of_mem (h : Located Known p (.mk born here interfaces children))
    (hc : c ∈ children) :
    ∃ (q : ObjectPath) (name : Text),
      q.elements = p.elements ++ [name] ∧ Located Known q c := by
  cases h with
  | mk _ keys below _ =>
      obtain ⟨q, name, hq, hpath⟩ := keys c hc
      exact ⟨q, name, hq, below c hc q hpath⟩

theorem child (h : Located Known p (.mk born here interfaces children))
    (hc : c ∈ children) (hpath : c.path = q.text) : Located Known q c := by
  cases h with
  | mk _ _ below _ => exact below c hc q hpath

theorem intro (known : Known p)
    (h : ∀ c ∈ children, ∃ (q : ObjectPath) (name : Text),
      q.elements = p.elements ++ [name] ∧ Located Known q c) (keyed : Keyed children) :
    Located Known p (.mk born p.text interfaces children) := by
  refine .mk known (fun c hc => ?_) (fun c hc r hr => ?_) keyed
  · obtain ⟨q, name, hq, hlocated⟩ := h c hc
    exact ⟨q, name, hq, hlocated.path_eq⟩
  · obtain ⟨q, name, hq, hlocated⟩ := h c hc
    have hsame : r = q := Path.text_injective (hr.symm.trans hlocated.path_eq)
    exact hsame ▸ hlocated

theorem leaf (known : Known p) : Located Known p (.mk born p.text interfaces []) :=
  .intro known (fun _ hc => absurd hc List.not_mem_nil) List.nodup_nil

/-- Interfaces come and go without moving anything. -/
theorem with_interfaces (h : Located Known p (.mk born p.text interfaces children)) :
    Located Known p (.mk born p.text interfaces' children) :=
  .intro h.known (fun _ hc => h.of_mem hc) h.keyed

theorem load (h : Located Known p n) (names : List String) :
    Located Known p (Proxy.load names n) := by
  cases h with
  | mk known keys below keyed => exact .mk known keys below keyed

theorem replace (h : Located Known p (.mk born p.text interfaces children))
    (hq : q.elements = p.elements ++ [name]) (hc : c ∈ children) (hpath : c.path = q.text)
    (hc' : Located Known q c') :
    Located Known p
      (.mk born p.text interfaces (Proxy.replace q.text (fun _ => c') children)) := by
  refine .intro h.known (fun d hd => ?_) (h.keyed.replace hc'.path_eq)
  rcases (mem_replace hc hpath).mp hd with rfl | ⟨hmem, -⟩
  · exact ⟨q, name, hq, hc'⟩
  · exact h.of_mem hmem

theorem insert (h : Located Known p (.mk born p.text interfaces children))
    (hq : q.elements = p.elements ++ [name]) (hnew : ∀ c ∈ children, c.path ≠ q.text)
    (hc' : Located Known q c') :
    Located Known p (.mk born p.text interfaces (Proxy.insert c' children)) := by
  refine .intro h.known (fun d hd => ?_) (h.keyed.insert (by rwa [hc'.path_eq]))
  rcases mem_insert.mp hd with rfl | hmem
  · exact ⟨q, name, hq, hc'⟩
  · exact h.of_mem hmem

theorem filter (h : Located Known p (.mk born p.text interfaces children))
    (keep : Proxy → Bool) :
    Located Known p (.mk born p.text interfaces (children.filter keep)) :=
  .intro h.known (fun _ hd => h.of_mem (List.mem_of_mem_filter hd)) (h.keyed.filter keep)

/-! ### Where the objects are -/

/-- All objects of the tree lie below its root, at known paths. -/
theorem exists_path (h : Located Known p n) (he : e ∈ n.entries) :
    ∃ q, Known q ∧ p.elements <+: q.elements ∧ e.path = q.text := by
  induction h with
  | @mk p born interfaces children known keys below keyed ih =>
      rcases mem_entries_mk.mp he with rfl | ⟨c, hc, he⟩
      · exact ⟨p, known, List.prefix_refl _, rfl⟩
      · obtain ⟨q, name, hq, hpath⟩ := keys c hc
        obtain ⟨r, hr, hle, hpath⟩ := ih c hc q hpath he
        rw [hq] at hle
        exact ⟨r, hr, (List.prefix_append _ _).trans hle, hpath⟩

theorem under (h : Located Known p n) (he : e ∈ n.entries) : Under p.text e.path := by
  obtain ⟨q, -, hle, hpath⟩ := h.exists_path he
  rw [hpath]
  exact under_text.mpr hle

theorem not_under_root (hq : q.elements = p.elements ++ [name]) :
    ¬ Under q.text p.text := by
  intro hunder
  have hlength := (under_text.mp hunder).length_le
  rw [hq, List.length_append, List.length_singleton] at hlength
  omega

/-- What lies below the path of a child lies in that child. -/
theorem path_eq_of_under (h : Located Known p (.mk born here interfaces children))
    (hq : q.elements = p.elements ++ [name]) (hc : c ∈ children) (he : e ∈ c.entries)
    (hunder : Under q.text e.path) : c.path = q.text := by
  obtain ⟨q', name', hq', hlocated⟩ := h.of_mem hc
  obtain ⟨r, -, hle, hpath⟩ := hlocated.exists_path he
  rw [hpath, under_text] at hunder
  have hlength : q'.elements.length = q.elements.length := by simp [hq, hq']
  have hbegins := List.prefix_of_prefix_length_le hle hunder hlength.le
  rw [hlocated.path_eq, ObjectPath.ext (hbegins.eq_of_length hlength)]

/-- There is one object for each path. -/
theorem eq_of_path (h : Located Known p n) (he : e ∈ n.entries) (he' : e' ∈ n.entries)
    (hpath : e.path = e'.path) : e = e' := by
  induction h with
  | @mk p born interfaces children known keys below keyed ih =>
      have h : Located Known p (.mk born p.text interfaces children) :=
        .mk known keys below keyed
      have hroot : ∀ c ∈ children, ∀ e ∈ c.entries, e.path ≠ p.text := by
        intro c hc e he hsame
        obtain ⟨q, name, hq, hlocated⟩ := h.of_mem hc
        exact not_under_root hq (hsame ▸ hlocated.under he)
      rcases mem_entries_mk.mp he with rfl | ⟨c, hc, he⟩ <;>
        rcases mem_entries_mk.mp he' with rfl | ⟨c', hc', he'⟩
      · rfl
      · exact absurd hpath.symm (hroot c' hc' e' he')
      · exact absurd hpath (hroot c hc e he)
      · obtain ⟨q, name, hq, hlocated⟩ := h.of_mem hc
        have hkey := h.path_eq_of_under hq hc' he' (hpath ▸ hlocated.under he)
        have hsame : c = c' := keyed.eq hc hc' (hlocated.path_eq.trans hkey.symm)
        subst hsame
        exact ih c hc q hkey he he'

/-- Parents and children are in the tree, and only the root is nobody's child. -/
theorem exists_of_edges {x : Notice} (h : Located Known p n) (hx : x ∈ n.edges) :
    (∃ e ∈ n.entries, e.object = x.parent) ∧
      ∃ e ∈ n.entries, e.object = x.child ∧ e.path ≠ p.text := by
  induction h with
  | @mk p born interfaces children known keys below keyed ih =>
      obtain ⟨c, hc, hx⟩ := mem_edges_mk.mp hx
      obtain ⟨q, name, hq, hpath⟩ := keys c hc
      have hlocated := below c hc q hpath
      have hinside : ∀ e ∈ c.entries,
          e ∈ (Proxy.mk born p.text interfaces children).entries ∧ e.path ≠ p.text := by
        intro e he
        refine ⟨mem_entries_mk.mpr (.inr ⟨c, hc, he⟩), fun hsame => ?_⟩
        exact not_under_root hq (hsame ▸ hlocated.under he)
      rcases hx with rfl | hx
      · obtain ⟨e, he, hobject⟩ := exists_mem_entries c
        obtain ⟨hmem, hne⟩ := hinside e he
        exact ⟨⟨_, mem_entries_mk.mpr (.inl rfl), rfl⟩, e, hmem, hobject, hne⟩
      · obtain ⟨⟨e, he, hparent⟩, e', he', hchild, -⟩ := ih c hc q hpath hx
        obtain ⟨hmem', hne'⟩ := hinside e' he'
        exact ⟨⟨e, (hinside e he).1, hparent⟩, e', hmem', hchild, hne'⟩

/-- A child is one element below its parent. -/
theorem exists_paths_of_edges {x : Notice} (h : Located Known p n) (hx : x ∈ n.edges) :
    ∃ (q r : ObjectPath) (name : Text), r.elements = q.elements ++ [name] ∧
      x.parent.path = q.text ∧ x.child.path = r.text := by
  induction h with
  | @mk p born interfaces children known keys below keyed ih =>
      obtain ⟨c, hc, hx⟩ := mem_edges_mk.mp hx
      obtain ⟨q, name, hq, hpath⟩ := keys c hc
      rcases hx with rfl | hx
      · exact ⟨p, q, name, hq, rfl, hpath⟩
      · exact ih c hc q hpath hx

/-! ### Below one child and elsewhere -/

section Child

variable (h : Located Known p (.mk born p.text interfaces children))
  (hq : q.elements = p.elements ++ [name])

include h hq

theorem mem_inside_iff (hc : c ∈ children) (hpath : c.path = q.text) :
    e ∈ (Proxy.mk born p.text interfaces children).entries ∧ Under q.text e.path ↔
      e ∈ c.entries := by
  constructor
  · rintro ⟨he, hunder⟩
    rcases mem_entries_mk.mp he with rfl | ⟨d, hd, he⟩
    · exact absurd hunder (not_under_root hq)
    · have hkey := h.path_eq_of_under hq hd he hunder
      rwa [h.keyed.eq hc hd (hpath.trans hkey.symm)]
  · intro he
    exact ⟨mem_entries_mk.mpr (.inr ⟨c, hc, he⟩), (h.child hc hpath).under he⟩

/-- Of what lies below the path of a child, only the child has another parent. -/
theorem mem_edges_inside {x : Notice} (hc : c ∈ children) (hpath : c.path = q.text)
    (hx : x ∈ (Proxy.mk born p.text interfaces children).edges)
    (hunder : Under q.text x.child.path) :
    x = ⟨⟨born, p.text⟩, c.object⟩ ∨ x ∈ c.edges := by
  obtain ⟨d, hd, hedge⟩ := mem_edges_mk.mp hx
  have hinside : ∃ e ∈ d.entries, e.object = x.child := by
    rcases hedge with rfl | hedge
    · exact exists_mem_entries d
    · obtain ⟨q', name', -, hlocated⟩ := h.of_mem hd
      obtain ⟨-, e, he, hobject, -⟩ := hlocated.exists_of_edges hedge
      exact ⟨e, he, hobject⟩
  obtain ⟨e, he, hobject⟩ := hinside
  rw [← hobject] at hunder
  have hkey := h.path_eq_of_under hq hd he hunder
  rwa [h.keyed.eq hc hd (hpath.trans hkey.symm)]

theorem not_inside (hnew : ∀ c ∈ children, c.path ≠ q.text)
    (he : e ∈ (Proxy.mk born p.text interfaces children).entries) :
    ¬ Under q.text e.path := by
  intro hunder
  rcases mem_entries_mk.mp he with rfl | ⟨d, hd, he⟩
  · exact not_under_root hq hunder
  · exact hnew d hd (h.path_eq_of_under hq hd he hunder)

theorem mem_outside_iff :
    e ∈ (Proxy.mk born p.text interfaces children).entries ∧ ¬ Under q.text e.path ↔
      e = ⟨born, p.text, interfaces⟩ ∨ ∃ d ∈ children, d.path ≠ q.text ∧ e ∈ d.entries := by
  constructor
  · rintro ⟨he, houtside⟩
    rcases mem_entries_mk.mp he with rfl | ⟨d, hd, he⟩
    · exact .inl rfl
    · refine .inr ⟨d, hd, fun hkey => houtside ?_, he⟩
      exact (h.child hd hkey).under he
  · rintro (rfl | ⟨d, hd, hkey, he⟩)
    · exact ⟨mem_entries_mk.mpr (.inl rfl), not_under_root hq⟩
    · refine ⟨mem_entries_mk.mpr (.inr ⟨d, hd, he⟩), fun hunder => hkey ?_⟩
      exact h.path_eq_of_under hq hd he hunder

theorem mem_replace_iff (hc : c ∈ children) (hpath : c.path = q.text) :
    e ∈ (Proxy.mk born p.text interfaces
        (Proxy.replace q.text (fun _ => c') children)).entries ↔
      (e ∈ (Proxy.mk born p.text interfaces children).entries ∧ ¬ Under q.text e.path) ∨
        e ∈ c'.entries := by
  rw [h.mem_outside_iff hq, mem_entries_mk, or_assoc]
  refine or_congr_right ?_
  constructor
  · rintro ⟨d, hd, he⟩
    rcases (mem_replace hc hpath).mp hd with rfl | ⟨hmem, hkey⟩
    · exact .inr he
    · exact .inl ⟨d, hmem, hkey, he⟩
  · rintro (⟨d, hd, hkey, he⟩ | he)
    · exact ⟨d, (mem_replace hc hpath).mpr (.inr ⟨hd, hkey⟩), he⟩
    · exact ⟨c', (mem_replace hc hpath).mpr (.inl rfl), he⟩

theorem mem_insert_iff (hnew : ∀ c ∈ children, c.path ≠ q.text) :
    e ∈ (Proxy.mk born p.text interfaces (Proxy.insert c' children)).entries ↔
      (e ∈ (Proxy.mk born p.text interfaces children).entries ∧ ¬ Under q.text e.path) ∨
        e ∈ c'.entries := by
  rw [h.mem_outside_iff hq, mem_entries_mk, or_assoc]
  refine or_congr_right ?_
  constructor
  · rintro ⟨d, hd, he⟩
    rcases mem_insert.mp hd with rfl | hmem
    · exact .inr he
    · exact .inl ⟨d, hmem, hnew d hmem, he⟩
  · rintro (⟨d, hd, -, he⟩ | he)
    · exact ⟨d, mem_insert.mpr (.inr hd), he⟩
    · exact ⟨c', mem_insert.mpr (.inl rfl), he⟩

theorem mem_filter_iff :
    e ∈ (Proxy.mk born p.text interfaces (children.filter (·.path ≠ q.text))).entries ↔
      e ∈ (Proxy.mk born p.text interfaces children).entries ∧ ¬ Under q.text e.path := by
  rw [h.mem_outside_iff hq, mem_entries_mk]
  refine or_congr_right (exists_congr fun d => ?_)
  rw [List.mem_filter, decide_eq_true_iff, and_assoc]

end Child

end Located

end Proxy

end BLERCCar.SimpleDBus
