import BLERCCar.Lib.Words

/-!
# Object paths

`Path.cpp` of the vendored `simpledbus`: the client's objects for adapters,
devices, services and characteristics hang in a tree by the paths that BlueZ
gives them, and these functions tell which path lies below which, as strings.

`libdbus` delivers no path with an empty element (`ObjectPath`).

`is_descendant` compares strings, not elements, and asks `rfind` for the last
occurrence.  So `/a/bc` counts as lying below `/a/b`, and `/a/a` does not count
as lying below `/a`.

## Main results

* `isDescendant_iff`: what `is_descendant` computes, in terms of elements.
* `Naming.isDescendant_iff`: where names are given in a way that keeps the two
  slips apart, it is the order of the tree.
* `naming_named`: the names that BlueZ gives are such.
* `reads_text`: all that the functions on strings make of two paths.
-/

namespace BLERCCar.SimpleDBus

open BLERCCar.Lib.Words

/-- `std::string`. -/
abbrev Text := List Char

namespace Path

/-! ## The source -/

/-- `Path::count_elements`. -/
def countElements (path : Text) : Nat :=
  if path = [] ∨ path = ['/'] then 0 else path.count '/'

/-- `Path::split_elements`; the first character is skipped unread. -/
def splitElements (path : Text) : List Text :=
  if path = [] ∨ path = ['/'] then []
  else
    match path.drop 1 with
    | [] => []
    | c :: rest => split '/' [] (c :: rest)

/-- `Path::fetch_elements`. -/
def fetchElements (path : Text) (count : Nat) : Text :=
  if count = 0 then ['/']
  else if countElements path < count then path
  else render '/' ((splitElements path).take count)

/-- `Path::is_descendant`. -/
def isDescendant (base path : Text) : Bool :=
  if base = [] ∨ path = [] then false
  else if base = path then false
  else if base = ['/'] then true
  else rfind base path = some 0

/-- `Path::is_child`. -/
def isChild (base path : Text) : Bool :=
  if base = [] ∨ path = [] then false
  else if base = path then false
  else if isDescendant base path = false then false
  else countElements base + 1 = countElements path

/-- `Path::next_child`. -/
def nextChild (base path : Text) : Text :=
  fetchElements path (countElements base + 1)

end Path

/-! ## Paths of objects -/

/-- A path as D-Bus admits it. -/
@[ext]
structure ObjectPath where
  elements : List Text
  valid : ∀ element ∈ elements, element ≠ [] ∧ '/' ∉ element
  deriving DecidableEq

namespace ObjectPath

/-- The path of the root is a slash of its own. -/
def text (p : ObjectPath) : Text :=
  if p.elements = [] then ['/'] else render '/' p.elements

def root : ObjectPath := ⟨[], fun _ h => absurd h List.not_mem_nil⟩

/-- The first elements of a path. -/
def take (p : ObjectPath) (count : Nat) : ObjectPath :=
  ⟨p.elements.take count, fun element h => p.valid element (List.mem_of_mem_take h)⟩

theorem eq_root_of_prefix {p : ObjectPath} (h : p.elements <+: root.elements) : p = root :=
  ObjectPath.ext (List.prefix_nil.mp h)

theorem clean (p : ObjectPath) : Clean '/' p.elements :=
  fun element h => (p.valid element h).2

theorem text_of_ne {p : ObjectPath} (h : p.elements ≠ []) :
    p.text = render '/' p.elements :=
  if_neg h

@[simp] theorem text_root : root.text = ['/'] := rfl

theorem text_ne_nil (p : ObjectPath) : p.text ≠ [] := by
  unfold text
  split
  · simp
  · next h => simpa [render_eq_nil_iff] using h

theorem text_eq_slash_iff {p : ObjectPath} : p.text = ['/'] ↔ p.elements = [] := by
  constructor
  · intro h
    by_contra hne
    rw [text_of_ne hne] at h
    obtain ⟨element, rest, hcons⟩ := List.exists_cons_of_ne_nil hne
    rw [hcons, render_cons, List.cons.injEq, List.append_eq_nil_iff] at h
    have hvalid := p.valid element (by rw [hcons]; exact List.mem_cons_self)
    exact hvalid.1 h.2.1
  · exact fun h => if_pos h

/-- One element further on the way to a path below. -/
theorem exists_take_succ {p q : ObjectPath} (hle : p.elements <+: q.elements)
    (hne : p ≠ q) :
    ∃ name, (q.take (p.elements.length + 1)).elements = p.elements ++ [name] := by
  obtain ⟨below, hbelow⟩ := hle
  cases below with
  | nil => exact absurd (ObjectPath.ext (by simpa using hbelow)) hne
  | cons name more =>
      refine ⟨name, ?_⟩
      show q.elements.take (p.elements.length + 1) = p.elements ++ [name]
      rw [← hbelow, List.take_length_add_append]
      rfl

/-- The only path of its length on the way. -/
theorem eq_take_of_prefix {p q : ObjectPath} (hle : p.elements <+: q.elements) {count : Nat}
    (hlength : p.elements.length = count) : p = q.take count :=
  ObjectPath.ext (by rw [← hlength]; exact List.prefix_iff_eq_take.mp hle)

end ObjectPath

namespace Path

variable (p : ObjectPath)

@[simp] theorem countElements_text : countElements p.text = p.elements.length := by
  unfold countElements
  by_cases h : p.elements = []
  · rw [if_pos (.inr (ObjectPath.text_eq_slash_iff.mpr h)), h]
    rfl
  · have hslash := mt ObjectPath.text_eq_slash_iff.mp h
    rw [if_neg (not_or.mpr ⟨p.text_ne_nil, hslash⟩), ObjectPath.text_of_ne h,
      count_render p.clean]

@[simp] theorem splitElements_text : splitElements p.text = p.elements := by
  unfold splitElements
  by_cases h : p.elements = []
  · rw [if_pos (.inr (ObjectPath.text_eq_slash_iff.mpr h)), h]
  · have hslash := mt ObjectPath.text_eq_slash_iff.mp h
    rw [if_neg (not_or.mpr ⟨p.text_ne_nil, hslash⟩), ObjectPath.text_of_ne h]
    have hclean := p.clean
    have hvalid := p.valid
    generalize p.elements = elements at *
    cases elements with
    | nil => exact absurd rfl h
    | cons element rest =>
        have hsplit := split_render hclean fun word hword =>
          (hvalid word (List.mem_cons_of_mem _ hword)).1
        have hfirst := (hvalid element List.mem_cons_self).1
        obtain ⟨c, more, hcons⟩ := List.exists_cons_of_ne_nil hfirst
        rw [hcons] at hsplit ⊢
        exact hsplit

/-- Different paths are different strings. -/
theorem text_injective : Function.Injective ObjectPath.text := by
  intro p q h
  have hsplit := congrArg splitElements h
  rw [splitElements_text, splitElements_text] at hsplit
  exact ObjectPath.ext hsplit

@[simp] theorem fetchElements_text {count : Nat} (h : count ≤ p.elements.length) :
    fetchElements p.text count = (p.take count).text := by
  unfold fetchElements
  rw [countElements_text, splitElements_text]
  by_cases hzero : count = 0
  · rw [if_pos hzero, hzero]
    rfl
  · rw [if_neg hzero, if_neg (Nat.not_lt.mpr h)]
    refine (ObjectPath.text_of_ne (p := p.take count) ?_).symm
    intro hnil
    have hlength := congrArg List.length hnil
    rw [ObjectPath.take, List.length_take, List.length_nil] at hlength
    omega

/-- The path one element below `base` on the way to `path`. -/
theorem nextChild_text {base path : ObjectPath}
    (h : base.elements.length < path.elements.length) :
    nextChild base.text path.text = (path.take (base.elements.length + 1)).text := by
  rw [nextChild, countElements_text, fetchElements_text path h]

/-- The elements of `base` begin `path`. -/
def Under (base path : Text) : Prop := splitElements base <+: splitElements path

@[simp] theorem under_text {p q : ObjectPath} :
    Under p.text q.text ↔ p.elements <+: q.elements := by
  rw [Under, splitElements_text, splitElements_text]

theorem Under.refl (path : Text) : Under path path := List.prefix_refl _

theorem Under.trans {a b c : Text} (h : Under a b) (h' : Under b c) : Under a c :=
  List.IsPrefix.trans h h'

/-! ## What `is_descendant` computes -/

/-- All elements of `base` but the last are elements of `path`, the last begins
the one in its place, and that is so nowhere later in `path`. -/
def Below (base path : ObjectPath) : Prop :=
  BeginsWith base.elements path.elements ∧
    ∀ k, ¬ BeginsWith base.elements (path.elements.drop (k + 1))

theorem rfind_text_iff {base path : ObjectPath} (hbase : base.elements ≠ [])
    (hpath : path.elements ≠ []) :
    rfind base.text path.text = some 0 ↔ Below base path := by
  obtain ⟨element, rest, hcons⟩ := List.exists_cons_of_ne_nil hbase
  obtain ⟨element', rest', hcons'⟩ := List.exists_cons_of_ne_nil hpath
  have hclean := base.clean
  have hclean' := path.clean
  have htext : render '/' base.elements = '/' :: (element ++ render '/' rest) := by
    rw [hcons, render_cons]
  rw [hcons'] at hclean'
  obtain ⟨helement', hrest'⟩ := clean_cons.mp hclean'
  have hlater : '/' :: (element ++ render '/' rest) <:+: element' ++ render '/' rest' ↔
      ∃ k, BeginsWith base.elements (rest'.drop k) := by
    rw [infix_append_iff helement', render_infix_iff hrest', ← htext]
    exact exists_congr fun k => render_prefix_iff hclean (hrest'.drop k)
  rw [ObjectPath.text_of_ne hbase, ObjectPath.text_of_ne hpath, hcons', render_cons,
    rfind_eq_zero_iff, ← render_cons, render_prefix_iff hclean hclean', htext, hlater,
    not_exists, Below, hcons']
  simp only [List.drop_succ_cons]

/-- `is_descendant`, in terms of elements. -/
theorem isDescendant_iff (base path : ObjectPath) :
    isDescendant base.text path.text = true ↔
      base ≠ path ∧ (base.elements = [] ∨ path.elements ≠ [] ∧ Below base path) := by
  unfold isDescendant
  rw [if_neg (not_or.mpr ⟨base.text_ne_nil, path.text_ne_nil⟩)]
  by_cases hsame : base = path
  · simp [hsame]
  rw [if_neg (mt (fun h => text_injective h) hsame)]
  by_cases hbase : base.elements = []
  · rw [if_pos (ObjectPath.text_eq_slash_iff.mpr hbase)]
    exact iff_of_true rfl ⟨hsame, .inl hbase⟩
  rw [if_neg (mt ObjectPath.text_eq_slash_iff.mp hbase), decide_eq_true_iff]
  by_cases hpath : path.elements = []
  · refine iff_of_false ?_ (by simp [hbase, hpath])
    rw [ObjectPath.text_eq_slash_iff.mpr hpath, rfind_eq_zero_iff]
    rintro ⟨hle, -⟩
    rcases List.prefix_cons_iff.mp hle with hnil | ⟨rest, hcons, hrest⟩
    · exact base.text_ne_nil hnil
    · rw [List.prefix_nil.mp hrest] at hcons
      exact hbase (ObjectPath.text_eq_slash_iff.mp hcons)
  · rw [rfind_text_iff hbase hpath]
    simp [hsame, hbase, hpath]

/-- `is_child` is `is_descendant` one level down. -/
theorem isChild_iff (base path : ObjectPath) :
    isChild base.text path.text = true ↔ isDescendant base.text path.text = true ∧
      base.elements.length + 1 = path.elements.length := by
  unfold isChild
  rw [if_neg (not_or.mpr ⟨base.text_ne_nil, path.text_ne_nil⟩)]
  by_cases hsame : base.text = path.text
  · simp [isDescendant, hsame]
  · rw [if_neg hsame]
    cases isDescendant base.text path.text <;> simp

end Path

/-! ## Names that keep the slips apart -/

/--
Names given to objects such that no name begins with that of a sibling, and
none with that of the first element above it.  BlueZ's names of one level have
the same length, and none of them begins with `org`.
-/
structure Naming (Known : ObjectPath → Prop) : Prop where
  parents : ∀ p, Known p → ∀ count, Known (p.take count)
  siblings : ∀ p q, Known p → Known q → ∀ above name name',
    p.elements = above ++ [name] → q.elements = above ++ [name'] → name <+: name' → p = q
  first : ∀ p, Known p → ∀ name below, p.elements = name :: below →
    ∀ name' ∈ below, ¬ name <+: name'

namespace Naming

variable {Known : ObjectPath → Prop} {base path : ObjectPath}

theorem of_prefix (h : Naming Known) (hpath : Known path)
    (hle : base.elements <+: path.elements) : Known base := by
  rw [ObjectPath.eq_take_of_prefix hle rfl]
  exact h.parents path hpath _

/-- Among such names `is_descendant` is the order of the tree. -/
theorem isDescendant_iff (h : Naming Known) (hbase : Known base) (hpath : Known path) :
    Path.isDescendant base.text path.text = true ↔
      base.elements <+: path.elements ∧ base ≠ path := by
  rw [Path.isDescendant_iff, and_comm]
  refine and_congr_left fun _ => ?_
  constructor
  · rintro (hroot | ⟨-, hbegins, -⟩)
    · rw [hroot]
      exact List.nil_prefix
    · rcases List.eq_nil_or_concat base.elements with hroot | ⟨above, name, hconcat⟩
      · rw [hroot]
        exact List.nil_prefix
      · rw [List.concat_eq_append] at hconcat
        rw [hconcat] at hbegins
        obtain ⟨name', below, helements, hle⟩ := hbegins.last
        have htake : (path.take (above.length + 1)).elements = above ++ [name'] := by
          simp [ObjectPath.take, helements, List.take_append]
        have hsame := h.siblings base (path.take (above.length + 1)) hbase
          (h.parents path hpath _) above name name' hconcat htake hle
        rw [hsame]
        exact List.take_prefix _ _
  · intro hle
    by_cases hroot : base.elements = []
    · exact .inl hroot
    · obtain ⟨name, rest, hcons⟩ := List.exists_cons_of_ne_nil hroot
      obtain ⟨below, hbelow⟩ := hle
      rw [hcons, List.cons_append] at hbelow
      refine .inr ⟨by simp [← hbelow], beginsWith_of_prefix ?_, ?_⟩
      · rw [hcons, ← hbelow]
        exact List.prefix_append (name :: rest) below
      · intro k hlater
        rw [hcons, ← hbelow, List.drop_succ_cons] at hlater
        obtain ⟨name', more, hdrop, hbegins⟩ := hlater.head
        have hmem : name' ∈ rest ++ below :=
          List.mem_of_mem_drop (by rw [hdrop]; exact List.mem_cons_self)
        exact h.first path hpath name _ hbelow.symm name' hmem hbegins

theorem isChild_iff (h : Naming Known) (hbase : Known base) (hpath : Known path) :
    Path.isChild base.text path.text = true ↔
      ∃ name, path.elements = base.elements ++ [name] := by
  rw [Path.isChild_iff, h.isDescendant_iff hbase hpath]
  constructor
  · rintro ⟨⟨⟨below, hbelow⟩, -⟩, hlength⟩
    rw [← hbelow, List.length_append] at hlength
    obtain ⟨name, rfl⟩ := List.length_eq_one_iff.mp (by omega : below.length = 1)
    exact ⟨name, hbelow.symm⟩
  · rintro ⟨name, hname⟩
    refine ⟨⟨⟨[name], hname.symm⟩, ?_⟩, by simp [hname]⟩
    rintro rfl
    simpa using congrArg List.length hname

end Naming

/-! ## The names that BlueZ gives -/

/-- How long the names of each level are: those in
`/org/bluez/hci0/dev_00_00_00_00_00_00/service0000/char0000/desc0000`. -/
def nameLengths : List Nat := [3, 5, 4, 21, 11, 8, 8]

/-- A path as BlueZ gives them while there are no more than ten adapters. -/
def Named (p : ObjectPath) : Prop :=
  ∀ i, ∀ h : i < p.elements.length, nameLengths[i]? = some p.elements[i].length ∧
    ("org".toList <+: p.elements[i] ↔ i = 0)

instance (p : ObjectPath) : Decidable (Named p) :=
  inferInstanceAs (Decidable (∀ i, ∀ h : i < p.elements.length,
    nameLengths[i]? = some p.elements[i].length ∧ ("org".toList <+: p.elements[i] ↔ i = 0)))

/-- They keep the slips apart. -/
theorem naming_named : Naming Named := by
  refine ⟨?_, ?_, ?_⟩
  · intro p hp count i h
    have hi : i < p.elements.length := by
      rw [ObjectPath.take, List.length_take] at h
      omega
    have hsame : (p.take count).elements[i] = p.elements[i] := List.getElem_take
    rw [hsame]
    exact hp i hi
  · intro p q hp hq above name name' hname hname' hle
    have hlength : nameLengths[above.length]? = some name.length := by
      have h := (hp above.length (by simp [hname])).1
      simpa [hname] using h
    have hlength' : nameLengths[above.length]? = some name'.length := by
      have h := (hq above.length (by simp [hname'])).1
      simpa [hname'] using h
    have hsame := hle.eq_of_length (Option.some.inj (hlength.symm.trans hlength'))
    exact ObjectPath.ext (by rw [hname, hname', hsame])
  · intro p hp name below hcons name' hname' hle
    obtain ⟨i, hi, rfl⟩ := List.getElem_of_mem hname'
    have hfirst : "org".toList <+: name := by
      have h := (hp 0 (by simp [hcons])).2
      simpa [hcons] using h
    have hlater : ¬ "org".toList <+: below[i] := by
      have h := (hp (i + 1) (by simpa [hcons] using hi)).2
      simpa [hcons] using h
    exact hlater (hfirst.trans hle)

/-! ## All of it -/

/-- What the functions on strings make of the texts of two paths. -/
structure Reads (base path : ObjectPath) : Prop where
  /-- the elements can be read back, and counted -/
  elements : Path.splitElements path.text = path.elements ∧
    Path.countElements path.text = path.elements.length
  /-- the first path on the way to another one -/
  next : base.elements <+: path.elements → base ≠ path →
    ∃ (q : ObjectPath) (name : Text), q.elements = base.elements ++ [name] ∧
      q.elements <+: path.elements ∧ Path.nextChild base.text path.text = q.text
  /-- what lies below another path, and directly below it -/
  descendant : Path.isDescendant base.text path.text = true ↔
    base ≠ path ∧ (base.elements = [] ∨ path.elements ≠ [] ∧ Path.Below base path)
  child : Path.isChild base.text path.text = true ↔
    Path.isDescendant base.text path.text = true ∧
      base.elements.length + 1 = path.elements.length
  /-- the same among names that keep the slips apart -/
  naming : ∀ Known, Naming Known → Known base → Known path →
    (Path.isDescendant base.text path.text = true ↔
      base.elements <+: path.elements ∧ base ≠ path) ∧
    (Path.isChild base.text path.text = true ↔ ∃ name, path.elements = base.elements ++ [name])

theorem reads_text (base path : ObjectPath) : Reads base path where
  elements := ⟨Path.splitElements_text path, Path.countElements_text path⟩
  next := by
    intro hle hne
    obtain ⟨name, hname⟩ := ObjectPath.exists_take_succ hle hne
    have hlength : base.elements.length < path.elements.length := by
      refine lt_of_le_of_ne hle.length_le fun hsame => hne ?_
      exact ObjectPath.ext (hle.eq_of_length hsame)
    exact ⟨_, name, hname, List.take_prefix _ _, Path.nextChild_text hlength⟩
  descendant := Path.isDescendant_iff base path
  child := Path.isChild_iff base path
  naming := fun _ hnaming hbase hpath =>
    ⟨hnaming.isDescendant_iff hbase hpath, hnaming.isChild_iff hbase hpath⟩

/-- A name that begins with another one counts as lying below it. -/
example : Path.isDescendant "/org/bluez/hci1".toList "/org/bluez/hci10".toList = true := by
  decide

/-- A path that occurs again in one below it is not seen above it. -/
example : Path.isDescendant "/a".toList "/a/a".toList = false := by decide

end BLERCCar.SimpleDBus
