import BLERCCar.SimpleDBus.Proxy

/-!
# Removing a path

What `path_remove` does to a tree.  It unloads interfaces of the proxy of the
path and then throws out, at and below it, every proxy that nobody needs: it and
all below it have no loaded interface, and nobody else holds it.

## Main results

* `mem_pathPrune_iff`: what `path_prune` leaves.
* `Located.pathRemove`: each proxy stays where its path says.
* `shrunk_pathRemove`: the interfaces are unloaded, and at and below the path all
  that is needed by itself or by something below it stays, and nothing else.
-/

namespace BLERCCar.SimpleDBus.Proxy

open BLERCCar.SimpleDBus.Path (Under under_text)

variable {Known : ObjectPath → Prop} {held : Object → Bool} {p q t : ObjectPath}
  {name : Text} {born fuel : Nat} {interfaces : List (String × Bool)}
  {names : List String} {children : List Proxy} {n c : Proxy} {e : Entry} {x : Notice}

/-! ## Pruning -/

/-- An entry that must stay: somebody holds the object or it has an interface. -/
def Needed (held : Object → Bool) (e : Entry) : Prop :=
  held e.object = true ∨ interfacesLoaded e.interfaces = true

/-- A child that `path_prune` erases. -/
def prunes (held : Object → Bool) (c : Proxy) : Bool :=
  (pathPrune held c).1 && !held c.object

theorem mem_pruneAll : n ∈ pruneAll held children ↔
    ∃ c ∈ children, prunes held c = false ∧ n = (pathPrune held c).2 := by
  induction children with
  | nil => simp [pruneAll]
  | cons head rest ih =>
      rw [pruneAll, ← prunes]
      cases hhead : prunes held head <;> simp [hhead, ih]

theorem object_pathPrune (held : Object → Bool) (n : Proxy) :
    (pathPrune held n).2.object = n.object := by
  cases n
  rw [pathPrune]
  rfl

theorem sublist_pruneAll :
    ((pruneAll held children).map path).Sublist (children.map path) := by
  induction children with
  | nil => exact List.Sublist.refl _
  | cons head rest ih =>
      rw [pruneAll]
      split
      · exact ih.cons _
      · have hpath : (pathPrune held head).2.path = head.path :=
          congrArg Object.path (object_pathPrune held head)
        rw [List.map_cons, List.map_cons, hpath]
        exact ih.cons_cons _

/-- A proxy is erased with all below it if none of that is needed. -/
theorem prunes_iff (h : Located Known p n) :
    prunes held n = true ↔ ∀ e ∈ n.entries, ¬ Needed held e := by
  induction h with
  | @mk p born interfaces children known keys below keyed ih =>
      have hchildren : pruneAll held children = [] ↔
          ∀ c ∈ children, ∀ e ∈ c.entries, ¬ Needed held e := by
        rw [List.eq_nil_iff_forall_not_mem]
        constructor
        · intro hnil c hc
          obtain ⟨q, name, -, hpath⟩ := keys c hc
          rw [← ih c hc q hpath]
          cases hprunes : prunes held c with
          | true => rfl
          | false => exact absurd (mem_pruneAll.mpr ⟨c, hc, hprunes, rfl⟩) (hnil _)
        · rintro hnone n hn
          obtain ⟨c, hc, hprunes, -⟩ := mem_pruneAll.mp hn
          obtain ⟨q, name, -, hpath⟩ := keys c hc
          rw [(ih c hc q hpath).mpr (hnone c hc)] at hprunes
          cases hprunes
      have hroot : ¬ Needed held ⟨born, p.text, interfaces⟩ ↔
          held (Proxy.mk born p.text interfaces children).object = false ∧
            interfacesLoaded interfaces = false := by
        rw [Needed, not_or, Bool.not_eq_true, Bool.not_eq_true]
        rfl
      rw [prunes, pathPrune, Bool.and_eq_true, Bool.and_eq_true, List.isEmpty_iff, hchildren,
        Bool.not_eq_true', Bool.not_eq_true', forall_mem_entries_mk, hroot, and_assoc,
        and_comm, and_comm (a := interfacesLoaded interfaces = false)]

theorem prunes_eq_false_iff (h : Located Known p n) :
    prunes held n = false ↔ ∃ e ∈ n.entries, Needed held e := by
  rw [← Bool.not_eq_true, prunes_iff h]
  simp only [not_forall, not_not, exists_prop]

theorem Located.pathPrune (h : Located Known p n) :
    Located Known p (pathPrune held n).2 := by
  induction h with
  | @mk p born interfaces children known keys below keyed ih =>
      rw [Proxy.pathPrune]
      refine .intro known (fun d hd => ?_) (keyed.sublist sublist_pruneAll)
      obtain ⟨c, hc, -, rfl⟩ := mem_pruneAll.mp hd
      obtain ⟨q, name, hq, hpath⟩ := keys c hc
      exact ⟨q, name, hq, ih c hc q hpath⟩

/-- What `path_prune` leaves of a tree. -/
theorem mem_pathPrune_iff (h : Located Known p n) :
    e ∈ (pathPrune held n).2.entries ↔ e ∈ n.entries ∧
      (e.path = p.text ∨ ∃ e' ∈ n.entries, Under e.path e'.path ∧ Needed held e') := by
  induction h with
  | @mk p born interfaces children known keys below keyed ih =>
      have h : Located Known p (.mk born p.text interfaces children) :=
        .mk known keys below keyed
      rw [Proxy.pathPrune, mem_entries_mk]
      constructor
      · rintro (rfl | ⟨d, hd, he⟩)
        · exact ⟨mem_entries_mk.mpr (.inl rfl), .inl rfl⟩
        obtain ⟨c, hc, hstays, rfl⟩ := mem_pruneAll.mp hd
        obtain ⟨q, name, hq, hpath⟩ := keys c hc
        have hlocated := below c hc q hpath
        obtain ⟨he, hreason⟩ := (ih c hc q hpath).mp he
        refine ⟨mem_entries_mk.mpr (.inr ⟨c, hc, he⟩), .inr ?_⟩
        rcases hreason with hroot | ⟨e', he', hunder, hneeded⟩
        · -- the child itself stays for something in it
          obtain ⟨e', he', hneeded⟩ := (prunes_eq_false_iff hlocated).mp hstays
          refine ⟨e', mem_entries_mk.mpr (.inr ⟨c, hc, he'⟩), ?_, hneeded⟩
          exact hroot ▸ hlocated.under he'
        · exact ⟨e', mem_entries_mk.mpr (.inr ⟨c, hc, he'⟩), hunder, hneeded⟩
      · rintro ⟨he, hreason⟩
        rcases mem_entries_mk.mp he with rfl | ⟨c, hc, he⟩
        · exact .inl rfl
        obtain ⟨q, name, hq, hpath⟩ := keys c hc
        have hlocated := below c hc q hpath
        rcases hreason with hroot | ⟨e', he', hunder, hneeded⟩
        · exact absurd (hroot ▸ hlocated.under he) (Located.not_under_root hq)
        have he' := (h.mem_inside_iff hq hc hpath).mp
          ⟨he', (hlocated.under he).trans hunder⟩
        have hstays := (prunes_eq_false_iff hlocated).mpr ⟨e', he', hneeded⟩
        refine .inr ⟨_, mem_pruneAll.mpr ⟨c, hc, hstays, rfl⟩, ?_⟩
        exact (ih c hc q hpath).mpr ⟨he, .inr ⟨e', he', hunder, hneeded⟩⟩

theorem edges_pathPrune (h : Located Known p n) (hx : x ∈ (pathPrune held n).2.edges) :
    x ∈ n.edges := by
  induction h with
  | @mk p born interfaces children known keys below keyed ih =>
      rw [Proxy.pathPrune, mem_edges_mk] at hx
      obtain ⟨d, hd, hx⟩ := hx
      obtain ⟨c, hc, -, rfl⟩ := mem_pruneAll.mp hd
      obtain ⟨q, name, -, hpath⟩ := keys c hc
      rw [object_pathPrune] at hx
      exact mem_edges_mk.mpr ⟨c, hc, hx.imp_right (ih c hc q hpath)⟩

/-! ## One call -/

/-- Everything `path_remove` can do at a proxy. -/
inductive Removed (held : Object → Bool) (t : ObjectPath) (names : List String)
    (fuel : Nat) (p : ObjectPath) (born : Nat) (interfaces : List (String × Bool))
    (children : List Proxy) : Bool × Proxy → Prop
  /-- the path is that of the proxy -/
  | here (hsame : t = p) :
      Removed held t names fuel p born interfaces children
        (pathPrune held (mk born p.text (interfacesUnload names interfaces) children))
  /-- the path is not below the proxy -/
  | elsewhere (hnot : ¬ p.elements <+: t.elements) :
      Removed held t names fuel p born interfaces children
        (false, mk born p.text interfaces children)
  /-- there is no child on the way -/
  | missing (q : ObjectPath) (name : Text) (hq : q.elements = p.elements ++ [name])
      (hle : q.elements <+: t.elements) (hnew : ∀ c ∈ children, c.path ≠ q.text) :
      Removed held t names fuel p born interfaces children
        (false, mk born p.text interfaces children)
  /-- the child on the way is no longer needed -/
  | erased (q : ObjectPath) (name : Text) (hq : q.elements = p.elements ++ [name])
      (hle : q.elements <+: t.elements) (c : Proxy) (hc : c ∈ children)
      (hpath : c.path = q.text)
      (hgone : ((pathRemove held t.text names fuel c).1 && !held c.object) = true) :
      Removed held t names fuel p born interfaces children
        (false, mk born p.text interfaces (children.filter (·.path ≠ q.text)))
  /-- the child on the way stays -/
  | through (q : ObjectPath) (name : Text) (hq : q.elements = p.elements ++ [name])
      (hle : q.elements <+: t.elements) (c : Proxy) (hc : c ∈ children)
      (hpath : c.path = q.text)
      (hstays : ((pathRemove held t.text names fuel c).1 && !held c.object) = false) :
      Removed held t names fuel p born interfaces children
        (false, mk born p.text interfaces
          (replace q.text (fun _ => (pathRemove held t.text names fuel c).2) children))

theorem removed_pathRemove (held : Object → Bool) (names : List String) (fuel : Nat)
    (hnaming : Naming Known) (ht : Known t)
    (h : Located Known p (mk born p.text interfaces children)) :
    Removed held t names fuel p born interfaces children
      (pathRemove held t.text names (fuel + 1) (mk born p.text interfaces children)) := by
  have hp := h.known
  rw [pathRemove]
  split
  · next hsame => exact .here (Path.text_injective hsame)
  next hother =>
  have hne : p ≠ t := fun hsame => hother (by rw [hsame])
  split
  · next hnot =>
      refine .elsewhere fun hle => ?_
      rw [(hnaming.isDescendant_iff hp ht).mpr ⟨hle, hne⟩] at hnot
      cases hnot
  next hbelow =>
  obtain ⟨hle, -⟩ := (hnaming.isDescendant_iff hp ht).mp (by simpa using hbelow)
  obtain ⟨name, hname⟩ := ObjectPath.exists_take_succ hle hne
  have hqle : (t.take (p.elements.length + 1)).elements <+: t.elements :=
    List.take_prefix _ _
  have hlength : p.elements.length < t.elements.length := by
    have hle' := hqle.length_le
    rw [hname, List.length_append, List.length_singleton] at hle'
    omega
  rw [Path.nextChild_text hlength]
  generalize t.take (p.elements.length + 1) = q at *
  dsimp only
  split
  · next hnone =>
      exact .missing q name hname hqle (by simpa using hnone)
  · next c hfind =>
      obtain ⟨hc, hkey⟩ := exists_of_find? hfind
      have hpath : c.path = q.text := of_decide_eq_true hkey
      split
      · next hgone => exact .erased q name hname hqle c hc hpath hgone
      · next hstays =>
          exact .through q name hname hqle c hc hpath ((Bool.not_eq_true _).mp hstays)

theorem Located.pathRemove (hnaming : Naming Known) (ht : Known t) (h : Located Known p n) :
    Located Known p (pathRemove held t.text names fuel n).2 := by
  induction fuel generalizing p n with
  | zero => exact h
  | succ fuel ih =>
      obtain ⟨born, here, interfaces, children⟩ := n
      obtain rfl : here = p.text := h.path_eq
      have hremoved := removed_pathRemove held names fuel hnaming ht h
      generalize Proxy.pathRemove held t.text names (fuel + 1) _ = after at hremoved ⊢
      cases hremoved with
      | here hsame => exact h.with_interfaces.pathPrune
      | elsewhere hnot => exact h
      | missing q name hq hle hnew => exact h
      | erased q name hq hle c hc hpath hgone => exact h.filter _
      | through q name hq hle c hc hpath hstays =>
          exact h.replace hq hc hpath (ih (h.child hc hpath))

/-! ## What is in the tree afterwards -/

/-- What becomes of some entries: the interfaces of `t` are unloaded, and at and
below `t` only what is needed by itself or by something below it stays. -/
def Shrunk (held : Object → Bool) (t : ObjectPath) (names : List String)
    (before after : Entry → Prop) : Prop :=
  ∀ e', after e' ↔ ∃ e, before e ∧ e' = e.unload t.text names ∧
    (Under t.text e.path → ∃ e₂, before e₂ ∧ Under e.path e₂.path ∧
      Needed held (e₂.unload t.text names))

theorem shrunk_nothing : Shrunk held t names (fun _ => False) (fun _ => False) := by
  intro e'
  simp

/-- From the child on the way to the tree around it. -/
theorem Shrunk.of_child {n' : Proxy} (hle : q.elements <+: t.elements)
    {inside inside' : Entry → Prop}
    (hinside : ∀ e, e ∈ n.entries ∧ Under q.text e.path ↔ inside e)
    (hafter : ∀ e, e ∈ n'.entries ↔
      (e ∈ n.entries ∧ ¬ Under q.text e.path) ∨ inside' e)
    (h : Shrunk held t names inside inside') :
    Shrunk held t names (· ∈ n.entries) (· ∈ n'.entries) := by
  have hqt : Under q.text t.text := under_text.mpr hle
  -- outside, nothing is at or below the path
  have hsame : ∀ e : Entry, ¬ Under q.text e.path → e.unload t.text names = e := by
    intro e houtside
    exact Entry.unload_of_ne fun hpath => houtside (hpath ▸ hqt)
  intro e'
  refine (hafter e').trans ?_
  rw [h e']
  constructor
  · rintro (⟨he, houtside⟩ | ⟨e, he, rfl, hneeded⟩)
    · exact ⟨e', he, (hsame e' houtside).symm,
        fun hunder => absurd (hqt.trans hunder) houtside⟩
    · refine ⟨e, ((hinside e).mpr he).1, rfl, fun hunder => ?_⟩
      obtain ⟨e₂, he₂, hle₂, hneeded⟩ := hneeded hunder
      exact ⟨e₂, ((hinside e₂).mpr he₂).1, hle₂, hneeded⟩
  · rintro ⟨e, he, rfl, hneeded⟩
    by_cases hunder : Under q.text e.path
    · refine .inr ⟨e, (hinside e).mp ⟨he, hunder⟩, rfl, fun hbelow => ?_⟩
      obtain ⟨e₂, he₂, hle₂, hneeded⟩ := hneeded hbelow
      exact ⟨e₂, (hinside e₂).mp ⟨he₂, hunder.trans hle₂⟩, hle₂, hneeded⟩
    · rw [hsame e hunder]
      exact .inl ⟨he, hunder⟩

theorem mem_unload_iff {e' : Entry}
    (h : Located Known t (mk born t.text interfaces children)) :
    e' ∈ (mk born t.text (interfacesUnload names interfaces) children).entries ↔
      ∃ e ∈ (mk born t.text interfaces children).entries, e' = e.unload t.text names := by
  have hchild : ∀ c ∈ children, ∀ e ∈ c.entries, e.unload t.text names = e := by
    intro c hc e he
    obtain ⟨q, name, hq, hlocated⟩ := h.of_mem hc
    refine Entry.unload_of_ne fun hsame => Located.not_under_root hq ?_
    exact hsame ▸ hlocated.under he
  rw [mem_entries_mk]
  constructor
  · rintro (rfl | ⟨c, hc, he⟩)
    · exact ⟨_, mem_entries_mk.mpr (.inl rfl), (if_pos rfl).symm⟩
    · exact ⟨e', mem_entries_mk.mpr (.inr ⟨c, hc, he⟩), (hchild c hc e' he).symm⟩
  · rintro ⟨e, he, rfl⟩
    rcases mem_entries_mk.mp he with rfl | ⟨c, hc, he⟩
    · exact .inl (if_pos rfl)
    · rw [hchild c hc e he]
      exact .inr ⟨c, hc, he⟩

theorem pathRemove_self (hfuel : 0 < fuel) :
    pathRemove held t.text names fuel (mk born t.text interfaces children) =
      pathPrune held (mk born t.text (interfacesUnload names interfaces) children) := by
  cases fuel with
  | zero => cases hfuel
  | succ fuel => rw [pathRemove, if_pos rfl]

/-- At the proxy of the path itself. -/
theorem mem_pathRemove_self_iff {e' : Entry} (hfuel : 0 < fuel) (h : Located Known t n) :
    e' ∈ (pathRemove held t.text names fuel n).2.entries ↔
      ∃ e ∈ n.entries, e' = e.unload t.text names ∧ (e.path = t.text ∨
        ∃ e₂ ∈ n.entries, Under e.path e₂.path ∧ Needed held (e₂.unload t.text names)) := by
  obtain ⟨born, here, interfaces, children⟩ := n
  obtain rfl : here = t.text := h.path_eq
  rw [pathRemove_self hfuel, mem_pathPrune_iff h.with_interfaces, mem_unload_iff h]
  constructor
  · rintro ⟨⟨e, he, rfl⟩, hroot | ⟨e₂, he₂, hunder, hneeded⟩⟩
    · exact ⟨e, he, rfl, .inl (by simpa using hroot)⟩
    · obtain ⟨e₃, he₃, rfl⟩ := (mem_unload_iff h).mp he₂
      exact ⟨e, he, rfl, .inr ⟨e₃, he₃, by simpa using hunder, hneeded⟩⟩
  · rintro ⟨e, he, rfl, hroot | ⟨e₂, he₂, hunder, hneeded⟩⟩
    · exact ⟨⟨e, he, rfl⟩, .inl (by simpa using hroot)⟩
    · exact ⟨⟨e, he, rfl⟩, .inr ⟨_, (mem_unload_iff h).mpr ⟨e₂, he₂, rfl⟩,
        by simpa using hunder, hneeded⟩⟩

theorem pathRemove_self_eq_false_iff (hfuel : 0 < fuel) (h : Located Known t n) :
    ((pathRemove held t.text names fuel n).1 && !held n.object) = false ↔
      ∃ e ∈ n.entries, Needed held (e.unload t.text names) := by
  obtain ⟨born, here, interfaces, children⟩ := n
  obtain rfl : here = t.text := h.path_eq
  rw [pathRemove_self hfuel]
  refine (prunes_eq_false_iff h.with_interfaces).trans ?_
  constructor
  · rintro ⟨e', he', hneeded⟩
    obtain ⟨e, he, rfl⟩ := (mem_unload_iff h).mp he'
    exact ⟨e, he, hneeded⟩
  · rintro ⟨e, he, hneeded⟩
    exact ⟨_, (mem_unload_iff h).mpr ⟨e, he, rfl⟩, hneeded⟩

/-- Only the proxy of the path can answer that it is no longer needed. -/
theorem pathRemove_of_ne (hnaming : Naming Known) (ht : Known t) (h : Located Known p n)
    (hne : p ≠ t) : (pathRemove held t.text names fuel n).1 = false := by
  cases fuel with
  | zero => rfl
  | succ fuel =>
      obtain ⟨born, here, interfaces, children⟩ := n
      obtain rfl : here = p.text := h.path_eq
      have hremoved := removed_pathRemove held names fuel hnaming ht h
      generalize Proxy.pathRemove held t.text names (fuel + 1) _ = after at hremoved ⊢
      cases hremoved with
      | here hsame => exact absurd hsame.symm hne
      | elsewhere hnot => rfl
      | missing q name hq hle hnew => rfl
      | erased q name hq hle c hc hpath hgone => rfl
      | through q name hq hle c hc hpath hstays => rfl

/-- Where the child of the path stays, the entries at and below it are shrunk. -/
theorem shrunk_of_stays (hfuel : 0 < fuel) (h : Located Known t c)
    (hstays : ((pathRemove held t.text names fuel c).1 && !held c.object) = false) :
    Shrunk held t names (· ∈ c.entries)
      (· ∈ (pathRemove held t.text names fuel c).2.entries) := by
  intro e'
  refine (mem_pathRemove_self_iff hfuel h).trans (exists_congr fun e => ?_)
  refine and_congr_right fun he => and_congr_right fun _ => ?_
  constructor
  · rintro (hroot | hneeded) -
    · obtain ⟨e₂, he₂, hneeded⟩ := (pathRemove_self_eq_false_iff hfuel h).mp hstays
      exact ⟨e₂, he₂, hroot ▸ h.under he₂, hneeded⟩
    · exact hneeded
  · exact fun hneeded => .inr (hneeded (h.under he))

/-- Where it goes, none of them was needed. -/
theorem shrunk_of_gone (hfuel : 0 < fuel) (h : Located Known t c)
    (hgone : ((pathRemove held t.text names fuel c).1 && !held c.object) = true) :
    Shrunk held t names (· ∈ c.entries) (fun _ => False) := by
  intro e'
  refine iff_of_false id ?_
  rintro ⟨e, he, -, hneeded⟩
  obtain ⟨e₂, he₂, -, hneeded⟩ := hneeded (h.under he)
  rw [(pathRemove_self_eq_false_iff hfuel h).mpr ⟨e₂, he₂, hneeded⟩] at hgone
  cases hgone

/-- A proxy keeps its identity when something is removed below it. -/
theorem object_pathRemove (hnaming : Naming Known) (ht : Known t) (h : Located Known p n) :
    (pathRemove held t.text names fuel n).2.object = n.object := by
  cases fuel with
  | zero => rfl
  | succ fuel =>
      obtain ⟨born, here, interfaces, children⟩ := n
      obtain rfl : here = p.text := h.path_eq
      have hremoved := removed_pathRemove held names fuel hnaming ht h
      generalize Proxy.pathRemove held t.text names (fuel + 1) _ = after at hremoved ⊢
      cases hremoved with
      | here hsame => exact object_pathPrune held _
      | elsewhere hnot => rfl
      | missing q name hq hle hnew => rfl
      | erased q name hq hle c hc hpath hgone => rfl
      | through q name hq hle c hc hpath hstays => rfl

/-- No child gets another parent. -/
theorem edges_pathRemove (hnaming : Naming Known) (ht : Known t) (h : Located Known p n)
    (hx : x ∈ (pathRemove held t.text names fuel n).2.edges) : x ∈ n.edges := by
  induction fuel generalizing p n with
  | zero => exact hx
  | succ fuel ih =>
      obtain ⟨born, here, interfaces, children⟩ := n
      obtain rfl : here = p.text := h.path_eq
      have hremoved := removed_pathRemove held names fuel hnaming ht h
      generalize Proxy.pathRemove held t.text names (fuel + 1) _ = after at hremoved hx
      cases hremoved with
      | here hsame =>
          have hpruned := edges_pathPrune h.with_interfaces hx
          rwa [mem_edges_mk] at hpruned ⊢
      | elsewhere hnot => exact hx
      | missing q name hq hle hnew => exact hx
      | erased q name hq hle c hc hpath hgone =>
          obtain ⟨d, hd, hx⟩ := mem_edges_mk.mp hx
          exact mem_edges_mk.mpr ⟨d, List.mem_of_mem_filter hd, hx⟩
      | through q name hq hle c hc hpath hstays =>
          have hchild := h.child hc hpath
          rcases of_mem_edges_replace hc hpath (object_pathRemove hnaming ht hchild) hx
            with hx | hx
          · exact hx
          · exact mem_edges_of_mem hc (ih hchild hx)

/-- The interfaces are unloaded, and at and below the path all that is needed by
itself or by something below it stays, and nothing else. -/
theorem shrunk_pathRemove (hnaming : Naming Known) (ht : Known t)
    (hle : p.elements <+: t.elements) (hne : p ≠ t)
    (hfuel : t.elements.length < p.elements.length + fuel) (h : Located Known p n) :
    Shrunk held t names (· ∈ n.entries)
      (· ∈ (pathRemove held t.text names fuel n).2.entries) := by
  induction fuel generalizing p n with
  | zero => exact absurd hle.length_le (by omega)
  | succ fuel ih =>
      obtain ⟨born, here, interfaces, children⟩ := n
      obtain rfl : here = p.text := h.path_eq
      have hfuel' : ∀ (q : ObjectPath) (name : Text), q.elements = p.elements ++ [name] →
          t.elements.length < q.elements.length + fuel := by
        intro q name hq
        rw [hq, List.length_append, List.length_singleton]
        omega
      have hremoved := removed_pathRemove held names fuel hnaming ht h
      generalize Proxy.pathRemove held t.text names (fuel + 1) _ = after at hremoved ⊢
      cases hremoved with
      | here hsame => exact absurd hsame.symm hne
      | elsewhere hnot => exact absurd hle hnot
      | missing q name hq hqt hnew =>
          have hnone : ∀ e ∈ (mk born p.text interfaces children).entries,
              ¬ Under q.text e.path := fun e he => h.not_inside hq hnew he
          refine .of_child hqt (fun e => iff_false_intro fun he => hnone e he.1 he.2)
            (fun e => ?_) shrunk_nothing
          rw [or_false]
          exact ⟨fun he => ⟨he, hnone e he⟩, And.left⟩
      | erased q name hq hqt c hc hpath hgone =>
          have hchild := h.child hc hpath
          have hsame : q = t := by
            by_contra hne'
            rw [pathRemove_of_ne hnaming ht hchild hne', Bool.false_and] at hgone
            cases hgone
          subst hsame
          have hpos : 0 < fuel := by simpa using hfuel' q name hq
          refine .of_child hqt (fun _ => h.mem_inside_iff hq hc hpath) (fun _ => ?_)
            (shrunk_of_gone hpos hchild hgone)
          rw [or_false]
          exact h.mem_filter_iff hq
      | through q name hq hqt c hc hpath hstays =>
          have hchild := h.child hc hpath
          refine .of_child hqt (fun _ => h.mem_inside_iff hq hc hpath)
            (fun _ => h.mem_replace_iff hq hc hpath) ?_
          by_cases hsame : q = t
          · subst hsame
            exact shrunk_of_stays (by simpa using hfuel' q name hq) hchild hstays
          · exact ih hqt hsame (hfuel' q name hq) hchild

end BLERCCar.SimpleDBus.Proxy
