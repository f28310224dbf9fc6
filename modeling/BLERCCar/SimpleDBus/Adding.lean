import BLERCCar.SimpleDBus.Proxy

/-!
# Adding a path

What `path_add` does to a tree.  It walks down from the proxy it is called at;
where the next proxy on the way is missing it is made up, with no interfaces.

The recursion is read once (`added_pathAdd`); what a call does to the child on
the way carries over to the tree around it by a lemma about sets of entries
alone (`Grown.step`).

## Main results

* `Located.pathAdd`: each proxy stays where its path says.
* `grown_pathAdd`: all that was there stays, the interfaces of the path are
  loaded, and what is missing on the way is there.
* `mem_edges_pathAdd_iff`: `on_child_created` tells of the new children and of no
  others.
-/

namespace BLERCCar.SimpleDBus.Proxy

open BLERCCar.SimpleDBus.Path (Under under_text)

variable {Known : ObjectPath → Prop} {p q t : ObjectPath} {name : Text}
  {born stamp fuel : Nat} {interfaces : List (String × Bool)} {names : List String}
  {children : List Proxy} {n c : Proxy}

/-- A proxy keeps its identity when something is added below it. -/
theorem object_pathAdd (stamp : Nat) (path : Text) (names : List String) (fuel : Nat)
    (n : Proxy) : (pathAdd stamp path names fuel n).1.object = n.object := by
  obtain ⟨born, here, interfaces, children⟩ := n
  cases fuel with
  | zero => rfl
  | succ fuel =>
      rw [pathAdd]
      split
      · rfl
      split
      · rfl
      split
      · rfl
      split <;> rfl

/-! ## One call -/

/-- Everything `path_add` can do at a proxy. -/
inductive Added (stamp : Nat) (t : ObjectPath) (names : List String) (fuel : Nat)
    (p : ObjectPath) (born : Nat) (interfaces : List (String × Bool))
    (children : List Proxy) : Proxy × List Notice → Prop
  /-- the path is not below the proxy -/
  | elsewhere (hnot : ¬ (p.elements <+: t.elements ∧ p ≠ t)) :
      Added stamp t names fuel p born interfaces children
        (mk born p.text interfaces children, [])
  /-- the path is that of a child -/
  | reloaded (name : Text) (hname : t.elements = p.elements ++ [name]) (c : Proxy)
      (hc : c ∈ children) (hpath : c.path = t.text) :
      Added stamp t names fuel p born interfaces children
        (mk born p.text interfaces (replace t.text (fun _ => load names c) children), [])
  /-- a new child -/
  | created (name : Text) (hname : t.elements = p.elements ++ [name])
      (hnew : ∀ c ∈ children, c.path ≠ t.text) :
      Added stamp t names fuel p born interfaces children
        (mk born p.text interfaces
            (insert (mk stamp t.text (interfacesLoad names []) []) children),
          [⟨⟨born, p.text⟩, ⟨stamp, t.text⟩⟩])
  /-- the child on the way is handed the path -/
  | through (q : ObjectPath) (name : Text) (hq : q.elements = p.elements ++ [name])
      (hle : q.elements <+: t.elements) (hne : q ≠ t) (c : Proxy) (hc : c ∈ children)
      (hpath : c.path = q.text) :
      Added stamp t names fuel p born interfaces children
        (mk born p.text interfaces
            (replace q.text (fun _ => (pathAdd stamp t.text names fuel c).1) children),
          (pathAdd stamp t.text names fuel c).2)
  /-- a new child on the way is handed the path -/
  | opened (q : ObjectPath) (name : Text) (hq : q.elements = p.elements ++ [name])
      (hle : q.elements <+: t.elements) (hne : q ≠ t)
      (hnew : ∀ c ∈ children, c.path ≠ q.text) :
      Added stamp t names fuel p born interfaces children
        (mk born p.text interfaces
            (insert (pathAdd stamp t.text names fuel (mk stamp q.text [] [])).1 children),
          (pathAdd stamp t.text names fuel (mk stamp q.text [] [])).2 ++
            [⟨⟨born, p.text⟩, ⟨stamp, q.text⟩⟩])

theorem added_pathAdd (stamp : Nat) (names : List String) (fuel : Nat)
    (hnaming : Naming Known) (ht : Known t)
    (h : Located Known p (mk born p.text interfaces children)) :
    Added stamp t names fuel p born interfaces children
      (pathAdd stamp t.text names (fuel + 1) (mk born p.text interfaces children)) := by
  have hp := h.known
  rw [pathAdd]
  split
  · next hnot =>
      refine .elsewhere fun hbelow => ?_
      rw [(hnaming.isDescendant_iff hp ht).mpr hbelow] at hnot
      cases hnot
  next hbelow =>
  obtain ⟨hle, hne⟩ := (hnaming.isDescendant_iff hp ht).mp (by simpa using hbelow)
  split
  · next hany =>
      obtain ⟨c, hc, hkey⟩ := List.any_eq_true.mp hany
      have hpath : c.path = t.text := of_decide_eq_true hkey
      obtain ⟨q, name, hq, hlocated⟩ := h.of_mem hc
      have hsame : t = q := Path.text_injective (hpath.symm.trans hlocated.path_eq)
      rw [h.keyed.replace_eq hc hpath]
      exact .reloaded name (hsame ▸ hq) c hc hpath
  next hany =>
  have hnew : ∀ c ∈ children, c.path ≠ t.text := by simpa using hany
  split
  · next hchild =>
      obtain ⟨name, hname⟩ := (hnaming.isChild_iff hp ht).mp hchild
      have hemplace := emplace_of_new (mk stamp t.text (interfacesLoad names []) []) hnew
      have hcreated := onChildCreated_insert (mk stamp t.text (interfacesLoad names []) [])
        hnew ⟨born, p.text⟩
      dsimp only
      rw [hemplace, show onChildCreated ⟨born, p.text⟩ t.text _ = _ from hcreated]
      exact .created name hname hnew
  next hchild =>
  -- the path is at least two elements below, and `q` is on the way
  obtain ⟨name, hname⟩ := ObjectPath.exists_take_succ hle hne
  have hqle : (t.take (p.elements.length + 1)).elements <+: t.elements :=
    List.take_prefix _ _
  have hqt : t.take (p.elements.length + 1) ≠ t := by
    intro hsame
    rw [hsame] at hname
    exact hchild ((hnaming.isChild_iff hp ht).mpr ⟨name, hname⟩)
  have hlength : p.elements.length < t.elements.length := by
    have hle' := hqle.length_le
    rw [hname, List.length_append, List.length_singleton] at hle'
    omega
  have hchildren : ∀ c ∈ children, Path.isDescendant c.path t.text = true ↔
      c.path = (t.take (p.elements.length + 1)).text := by
    intro c hc
    obtain ⟨q, name', hq, hlocated⟩ := h.of_mem hc
    rw [hlocated.path_eq, hnaming.isDescendant_iff hlocated.known ht]
    constructor
    · rintro ⟨hle', -⟩
      have hcount : q.elements.length = p.elements.length + 1 := by simp [hq]
      rw [ObjectPath.eq_take_of_prefix hle' hcount]
    · intro hsame
      rw [Path.text_injective hsame]
      exact ⟨hqle, hqt⟩
  rw [Path.nextChild_text hlength]
  generalize t.take (p.elements.length + 1) = q at *
  split
  · next c hfind =>
      obtain ⟨hc, hdescendant⟩ := exists_of_find? hfind
      have hpath := (hchildren c hc).mp hdescendant
      rw [hpath]
      exact .through q name hname hqle hqt c hc hpath
  · next hnone =>
      have hfree : ∀ c ∈ children, c.path ≠ q.text := by
        intro c hc hpath
        exact List.find?_eq_none.mp hnone c hc ((hchildren c hc).mpr hpath)
      have hobject := object_pathAdd stamp t.text names fuel (mk stamp q.text [] [])
      have hpath : (pathAdd stamp t.text names fuel (mk stamp q.text [] [])).1.path = q.text :=
        congrArg Object.path hobject
      have hcreated := onChildCreated_insert
        (pathAdd stamp t.text names fuel (mk stamp q.text [] [])).1 (by rwa [hpath])
        ⟨born, p.text⟩
      rw [hpath, hobject] at hcreated
      dsimp only
      rw [emplace_of_new _ (by rwa [hpath]), hcreated]
      exact .opened q name hname hqle hqt hfree

theorem Located.pathAdd (hnaming : Naming Known) (ht : Known t) (h : Located Known p n) :
    Located Known p (pathAdd stamp t.text names fuel n).1 := by
  induction fuel generalizing p n with
  | zero => exact h
  | succ fuel ih =>
      obtain ⟨born, here, interfaces, children⟩ := n
      obtain rfl : here = p.text := h.path_eq
      have hadded := added_pathAdd stamp names fuel hnaming ht h
      generalize Proxy.pathAdd stamp t.text names (fuel + 1) _ = after at hadded ⊢
      cases hadded with
      | elsewhere hnot => exact h
      | reloaded name hname c hc hpath =>
          exact h.replace hname hc hpath ((h.child hc hpath).load names)
      | created name hname hnew => exact h.insert hname hnew (.leaf ht)
      | through q name hq hle hne c hc hpath =>
          exact h.replace hq hc hpath (ih (h.child hc hpath))
      | opened q name hq hle hne hnew =>
          exact h.insert hq hnew (ih (.leaf (hnaming.of_prefix ht hle)))

/-! ## What is in the tree afterwards -/

/-- What becomes of the entries at and below `p`: they stay, those of `t` get
their interfaces loaded, and what is missing on the way to `t` is made up. -/
def Grown (stamp : Nat) (t : ObjectPath) (names : List String) (p : ObjectPath)
    (before after : Entry → Prop) : Prop :=
  ∀ e, after e ↔ ∃ e₀, e = e₀.load t.text names ∧
    (before e₀ ∨ ∃ r : ObjectPath, p.elements <+: r.elements ∧ r.elements <+: t.elements ∧
      (∀ e, before e → e.path ≠ r.text) ∧ e₀ = ⟨stamp, r.text, []⟩)

/-- From the child on the way to the tree around it. -/
theorem Grown.step (hq : q.elements = p.elements ++ [name]) (hle : q.elements <+: t.elements)
    {outside inside inside' : Entry → Prop} {root : Entry}
    (houtside : ∀ e, outside e → ¬ Under q.text e.path)
    (hroot : outside root) (hpath : root.path = p.text)
    (h : Grown stamp t names q inside inside') :
    Grown stamp t names p (fun e => outside e ∨ inside e) (fun e => outside e ∨ inside' e) := by
  have hpq : p.elements <+: q.elements := hq ▸ List.prefix_append _ _
  -- outside, nothing is at a path on the way behind `p`
  have hmissing : ∀ r : ObjectPath, q.elements <+: r.elements →
      ∀ e, outside e → e.path ≠ r.text := by
    intro r hr e he hsame
    exact houtside e he (hsame ▸ under_text.mpr hr)
  have hload : ∀ e, outside e → e.load t.text names = e :=
    fun e he => Entry.load_of_ne (hmissing t hle e he)
  intro e
  constructor
  · rintro (he | he)
    · exact ⟨e, (hload e he).symm, .inl (.inl he)⟩
    · obtain ⟨e₀, rfl, he₀ | ⟨r, hqr, hrt, hnone, rfl⟩⟩ := (h e).mp he
      · exact ⟨e₀, rfl, .inl (.inr he₀)⟩
      · refine ⟨_, rfl, .inr ⟨r, hpq.trans hqr, hrt, ?_, rfl⟩⟩
        rintro e (he | he)
        · exact hmissing r hqr e he
        · exact hnone e he
  · rintro ⟨e₀, rfl, (he₀ | he₀) | ⟨r, hpr, hrt, hnone, rfl⟩⟩
    · rw [hload e₀ he₀]
      exact .inl he₀
    · exact .inr ((h _).mpr ⟨e₀, rfl, .inl he₀⟩)
    · have hne : p ≠ r := by
        rintro rfl
        exact hnone root (.inl hroot) hpath
      obtain ⟨name', hname'⟩ := ObjectPath.exists_take_succ hpr hne
      have hlength : q.elements.length ≤ r.elements.length := by
        have htake := congrArg List.length hname'
        rw [ObjectPath.take, List.length_take, List.length_append] at htake
        simp only [hq, List.length_append, List.length_singleton] at htake ⊢
        omega
      have hqr := List.prefix_of_prefix_length_le hle hrt hlength
      exact .inr ((h _).mpr ⟨_, rfl, .inr ⟨r, hqr, hrt, fun e he => hnone e (.inr he), rfl⟩⟩)

/-- The same, with the entries around the child told by their paths. -/
theorem Grown.of_child {n' : Proxy} (h : Located Known p n)
    (hq : q.elements = p.elements ++ [name]) (hle : q.elements <+: t.elements)
    {inside inside' : Entry → Prop}
    (hinside : ∀ e, e ∈ n.entries ∧ Under q.text e.path ↔ inside e)
    (hafter : ∀ e, e ∈ n'.entries ↔
      (e ∈ n.entries ∧ ¬ Under q.text e.path) ∨ inside' e)
    (hgrown : Grown stamp t names q inside inside') :
    Grown stamp t names p (· ∈ n.entries) (· ∈ n'.entries) := by
  obtain ⟨root, hroot, hobject⟩ := exists_mem_entries n
  have hpath : root.path = p.text := (congrArg Object.path hobject).trans h.path_eq
  have hstep : Grown stamp t names p
      (fun e => (e ∈ n.entries ∧ ¬ Under q.text e.path) ∨ inside e)
      (fun e => (e ∈ n.entries ∧ ¬ Under q.text e.path) ∨ inside' e) :=
    hgrown.step hq hle (fun _ he => he.2) ⟨hroot, hpath ▸ Located.not_under_root hq⟩ hpath
  have hbefore : (fun e => (e ∈ n.entries ∧ ¬ Under q.text e.path) ∨ inside e) =
      (· ∈ n.entries) := by
    funext e
    rw [← hinside, ← and_or_left, or_comm, and_iff_left (em _)]
  rw [hbefore] at hstep
  intro e
  exact (hafter e).trans (hstep e)

theorem grown_load (h : Located Known t c) :
    Grown stamp t names t (· ∈ c.entries) (· ∈ (load names c).entries) := by
  obtain ⟨born, here, interfaces, children⟩ := c
  obtain rfl : here = t.text := h.path_eq
  have hchild : ∀ c ∈ children, ∀ e ∈ c.entries, e.load t.text names = e := by
    intro c hc e he
    obtain ⟨q, name, hq, hlocated⟩ := h.of_mem hc
    refine Entry.load_of_ne fun hsame => Located.not_under_root hq ?_
    exact hsame ▸ hlocated.under he
  intro e
  refine mem_entries_mk.trans ?_
  constructor
  · rintro (rfl | ⟨c, hc, he⟩)
    · exact ⟨_, (if_pos rfl).symm, .inl (mem_entries_mk.mpr (.inl rfl))⟩
    · exact ⟨e, (hchild c hc e he).symm, .inl (mem_entries_mk.mpr (.inr ⟨c, hc, he⟩))⟩
  · rintro ⟨e₀, rfl, he₀ | ⟨r, hpr, hrt, hnone, rfl⟩⟩
    · rcases mem_entries_mk.mp he₀ with rfl | ⟨c, hc, he⟩
      · exact .inl (if_pos rfl)
      · rw [hchild c hc e₀ he]
        exact .inr ⟨c, hc, he⟩
    · have hsame : t = r := ObjectPath.ext (hpr.eq_of_length_le hrt.length_le)
      exact absurd (congrArg ObjectPath.text hsame)
        (hnone _ (mem_entries_mk.mpr (.inl rfl)))

theorem grown_created : Grown stamp t names t (fun _ => False)
    (· ∈ (mk stamp t.text (interfacesLoad names []) []).entries) := by
  have hnew : (⟨stamp, t.text, []⟩ : Entry).load t.text names =
      ⟨stamp, t.text, interfacesLoad names []⟩ := if_pos rfl
  intro e
  refine mem_entries_mk.trans ?_
  constructor
  · rintro (rfl | ⟨c, hc, -⟩)
    · exact ⟨_, hnew.symm, .inr ⟨t, List.prefix_refl _, List.prefix_refl _, by simp, rfl⟩⟩
    · exact absurd hc List.not_mem_nil
  · rintro ⟨e₀, rfl, he₀ | ⟨r, hpr, hrt, -, rfl⟩⟩
    · exact he₀.elim
    · obtain rfl : t = r := ObjectPath.ext (hpr.eq_of_length_le hrt.length_le)
      exact .inl hnew

/-- A proxy that is made up on the way counts among what was missing. -/
theorem Grown.of_opened {after : Entry → Prop} (hle : q.elements <+: t.elements)
    (h : Grown stamp t names q (· ∈ (mk stamp q.text [] []).entries) after) :
    Grown stamp t names q (fun _ => False) after := by
  have hleaf : ∀ e, e ∈ (mk stamp q.text [] []).entries ↔ e = ⟨stamp, q.text, []⟩ := by
    simp
  intro e
  rw [h e]
  refine exists_congr fun e₀ => and_congr_right fun _ => ?_
  constructor
  · rintro (he₀ | ⟨r, hqr, hrt, -, rfl⟩)
    · obtain rfl := (hleaf e₀).mp he₀
      exact .inr ⟨q, List.prefix_refl _, hle, fun _ h => h.elim, rfl⟩
    · exact .inr ⟨r, hqr, hrt, fun _ h => h.elim, rfl⟩
  · rintro (he₀ | ⟨r, hqr, hrt, -, rfl⟩)
    · exact he₀.elim
    by_cases hsame : q = r
    · exact .inl ((hleaf _).mpr (by rw [hsame]))
    · refine .inr ⟨r, hqr, hrt, fun e he => ?_, rfl⟩
      obtain rfl := (hleaf e).mp he
      exact fun hpath => hsame (Path.text_injective hpath)

/-- All that was there stays, the interfaces of the path are loaded, and what is
missing on the way is there. -/
theorem grown_pathAdd (hnaming : Naming Known) (ht : Known t)
    (hle : p.elements <+: t.elements) (hne : p ≠ t)
    (hfuel : t.elements.length ≤ p.elements.length + fuel) (h : Located Known p n) :
    Grown stamp t names p (· ∈ n.entries)
      (· ∈ (pathAdd stamp t.text names fuel n).1.entries) := by
  induction fuel generalizing p n with
  | zero => exact absurd (ObjectPath.ext (hle.eq_of_length_le hfuel)) hne
  | succ fuel ih =>
      obtain ⟨born, here, interfaces, children⟩ := n
      obtain rfl : here = p.text := h.path_eq
      have hfuel' : ∀ (q : ObjectPath) (name : Text), q.elements = p.elements ++ [name] →
          t.elements.length ≤ q.elements.length + fuel := by
        intro q name hq
        rw [hq, List.length_append, List.length_singleton]
        omega
      have hadded := added_pathAdd stamp names fuel hnaming ht h
      generalize Proxy.pathAdd stamp t.text names (fuel + 1) _ = after at hadded ⊢
      cases hadded with
      | elsewhere hnot => exact absurd ⟨hle, hne⟩ hnot
      | reloaded name hname c hc hpath =>
          exact .of_child h hname (List.prefix_refl _)
            (fun _ => h.mem_inside_iff hname hc hpath)
            (fun _ => h.mem_replace_iff hname hc hpath) (grown_load (h.child hc hpath))
      | created name hname hnew =>
          exact .of_child h hname (List.prefix_refl _)
            (fun _ => iff_false_intro fun he => h.not_inside hname hnew he.1 he.2)
            (fun _ => h.mem_insert_iff hname hnew) grown_created
      | through q name hq hqt hqne c hc hpath =>
          exact .of_child h hq hqt (fun _ => h.mem_inside_iff hq hc hpath)
            (fun _ => h.mem_replace_iff hq hc hpath)
            (ih hqt hqne (hfuel' q name hq) (h.child hc hpath))
      | opened q name hq hqt hqne hnew =>
          have hleaf : Located Known q (mk stamp q.text [] []) :=
            .leaf (hnaming.of_prefix ht hqt)
          exact .of_child h hq hqt
            (fun _ => iff_false_intro fun he => h.not_inside hq hnew he.1 he.2)
            (fun _ => h.mem_insert_iff hq hnew)
            ((ih hqt hqne (hfuel' q name hq) hleaf).of_opened hqt)

/-! ## Who is told -/

section Edges

variable {x : Notice}

theorem object_load (names : List String) (c : Proxy) : (load names c).object = c.object := by
  cases c
  rfl

theorem edges_load (c : Proxy) : (load names c).edges = c.edges := by
  obtain ⟨born, here, interfaces, children⟩ := c
  rw [load, edges, edges]

theorem mem_edges_replace (hc : c ∈ children) (hkeyed : Keyed children) {c' : Proxy}
    {key : Text} (hpath : c.path = key) (hobject : c'.object = c.object)
    (hedges : ∀ x ∈ c.edges, x ∈ c'.edges) :
    x ∈ (mk born p.text interfaces (replace key (fun _ => c') children)).edges ↔
      x ∈ (mk born p.text interfaces children).edges ∨ x ∈ c'.edges := by
  refine ⟨of_mem_edges_replace hc hpath hobject, ?_⟩
  rw [mem_edges_mk, mem_edges_mk]
  rintro (⟨d, hd, hx⟩ | hx)
  · by_cases hkey : d.path = key
    · obtain rfl := hkeyed.eq hd hc (hkey.trans hpath.symm)
      exact ⟨c', (mem_replace hd hpath).mpr (.inl rfl),
        hx.imp (fun hx => hobject ▸ hx) (hedges x)⟩
    · exact ⟨d, (mem_replace hc hpath).mpr (.inr ⟨hd, hkey⟩), hx⟩
  · exact ⟨c', (mem_replace hc hpath).mpr (.inl rfl), .inr hx⟩

theorem mem_edges_insert :
    x ∈ (mk born p.text interfaces (insert c children)).edges ↔
      x ∈ (mk born p.text interfaces children).edges ∨
        x = ⟨⟨born, p.text⟩, c.object⟩ ∨ x ∈ c.edges := by
  rw [mem_edges_mk, mem_edges_mk]
  constructor
  · rintro ⟨d, hd, hx⟩
    rcases mem_insert.mp hd with rfl | hmem
    · exact .inr hx
    · exact .inl ⟨d, hmem, hx⟩
  · rintro (⟨d, hd, hx⟩ | hx)
    · exact ⟨d, mem_insert.mpr (.inr hd), hx⟩
    · exact ⟨c, mem_insert.mpr (.inl rfl), hx⟩

/-- `on_child_created` tells of the new children and of no others. -/
theorem mem_edges_pathAdd_iff (hnaming : Naming Known) (ht : Known t)
    (h : Located Known p n) :
    x ∈ (pathAdd stamp t.text names fuel n).1.edges ↔
      x ∈ n.edges ∨ x ∈ (pathAdd stamp t.text names fuel n).2 := by
  induction fuel generalizing p n x with
  | zero => simp [Proxy.pathAdd]
  | succ fuel ih =>
      obtain ⟨born, here, interfaces, children⟩ := n
      obtain rfl : here = p.text := h.path_eq
      have hadded := added_pathAdd stamp names fuel hnaming ht h
      generalize Proxy.pathAdd stamp t.text names (fuel + 1) _ = after at hadded ⊢
      cases hadded with
      | elsewhere hnot => simp
      | reloaded name hname c hc hpath =>
          rw [mem_edges_replace hc h.keyed hpath (object_load names c)
            fun x hx => (edges_load c).symm ▸ hx, edges_load]
          refine (or_iff_left_of_imp fun hx => mem_edges_of_mem hc hx).trans ?_
          simp
      | created name hname hnew =>
          rw [mem_edges_insert]
          simp [object, Proxy.born, Proxy.path]
      | through q name hq hqt hqne c hc hpath =>
          have hchild := fun x => ih (x := x) (h.child hc hpath)
          rw [mem_edges_replace hc h.keyed hpath (object_pathAdd ..)
            fun x hx => (hchild x).mpr (.inl hx), hchild x, ← or_assoc]
          refine or_congr_left (or_iff_left_of_imp fun hx => ?_)
          exact mem_edges_of_mem hc hx
      | opened q name hq hqt hqne hnew =>
          have hleaf : Located Known q (mk stamp q.text [] []) :=
            .leaf (hnaming.of_prefix ht hqt)
          rw [mem_edges_insert, ih hleaf, object_pathAdd, List.mem_append,
            List.mem_singleton]
          refine or_congr_right ?_
          simp [object, Proxy.born, Proxy.path, or_comm]

end Edges

end BLERCCar.SimpleDBus.Proxy
