import BLERCCar.SimpleDBus.Proxy

/-!
# Forwarding a message

`message_forward` walks down the tree like `path_add`, but opens no proxies.

## Main results

* `messageForward_eq_some_iff`: a message reaches the object of its path, if it
  is in the tree, and no other.
* `mem_messageForward_iff`: `on_child_signal_received` tells of that object, at
  its parent.
-/

namespace BLERCCar.SimpleDBus.Proxy

open BLERCCar.SimpleDBus.Path (Under under_text)

variable {Known : ObjectPath → Prop} {p t : ObjectPath} {born fuel : Nat}
  {interfaces : List (String × Bool)} {children : List Proxy} {n : Proxy} {o : Object}
  {x : Notice}

/-- Everything `message_forward` can do at a proxy. -/
inductive Forwarded (t : ObjectPath) (fuel : Nat) (p : ObjectPath) (born : Nat)
    (children : List Proxy) : Option Object × List Notice → Prop
  /-- the message is for the proxy -/
  | here (hsame : t = p) : Forwarded t fuel p born children (some ⟨born, p.text⟩, [])
  /-- no child is on the way -/
  | nobody (hne : t ≠ p)
      (hnone : ∀ c ∈ children, ∀ q : ObjectPath, c.path = q.text → ¬ q.elements <+: t.elements) :
      Forwarded t fuel p born children (none, [])
  /-- the message is for a child -/
  | child (c : Proxy) (hc : c ∈ children) (hpath : c.path = t.text) :
      Forwarded t fuel p born children
        ((messageForward t.text fuel c).1,
          (messageForward t.text fuel c).2 ++ [⟨⟨born, p.text⟩, c.object⟩])
  /-- the message is for something below a child -/
  | through (q : ObjectPath) (name : Text) (hq : q.elements = p.elements ++ [name])
      (hle : q.elements <+: t.elements) (hne : q ≠ t) (c : Proxy) (hc : c ∈ children)
      (hpath : c.path = q.text) :
      Forwarded t fuel p born children (messageForward t.text fuel c)

theorem forwarded_messageForward (fuel : Nat) (hnaming : Naming Known) (ht : Known t)
    (h : Located Known p (mk born p.text interfaces children)) :
    Forwarded t fuel p born children
      (messageForward t.text (fuel + 1) (mk born p.text interfaces children)) := by
  rw [messageForward]
  split
  · next hsame => exact .here (Path.text_injective hsame)
  next hother =>
  -- `find?` asks each child whether it is on the way
  have hasked : ∀ c ∈ children, ∀ q : ObjectPath, c.path = q.text →
      ((decide (c.path = t.text) || Path.isDescendant c.path t.text) = true ↔
        q.elements <+: t.elements) := by
    intro c hc q hpath
    rw [Bool.or_eq_true, decide_eq_true_iff, hpath,
      hnaming.isDescendant_iff (h.child hc hpath).known ht]
    constructor
    · rintro (hsame | hbelow)
      · rw [Path.text_injective hsame]
      · exact hbelow.1
    · intro hle
      by_cases hsame : q = t
      · exact .inl (by rw [hsame])
      · exact .inr ⟨hle, hsame⟩
  split
  · next hnone =>
      refine .nobody (fun hsame => hother (by rw [hsame])) fun c hc q hpath hle => ?_
      exact List.find?_eq_none.mp hnone c hc ((hasked c hc q hpath).mpr hle)
  · next c hfind =>
      obtain ⟨hc, hfound⟩ := exists_of_find? hfind
      obtain ⟨q, name, hq, hlocated⟩ := h.of_mem hc
      have hpath := hlocated.path_eq
      have hle := (hasked c hc q hpath).mp hfound
      by_cases hsame : c.path = t.text
      · dsimp only
        rw [if_pos hsame]
        exact .child c hc hsame
      · dsimp only
        rw [if_neg hsame]
        exact .through q name hq hle (fun hqt => hsame (by rw [hpath, hqt])) c hc hpath

/-- Where no child is on the way, nothing in the tree has the path. -/
theorem not_mem_of_nobody {e : Entry}
    (h : Located Known p (mk born p.text interfaces children)) (hne : t ≠ p)
    (hnone : ∀ c ∈ children, ∀ q : ObjectPath, c.path = q.text →
      ¬ q.elements <+: t.elements)
    (he : e ∈ (mk born p.text interfaces children).entries) : e.path ≠ t.text := by
  intro hpath
  rcases mem_entries_mk.mp he with rfl | ⟨c, hc, he⟩
  · exact hne (Path.text_injective hpath.symm)
  · obtain ⟨q, name, hq, hlocated⟩ := h.of_mem hc
    have hunder := hlocated.under he
    rw [hpath, under_text] at hunder
    exact hnone c hc q hlocated.path_eq hunder

/-- A message for an object in the tree reaches it. -/
theorem messageForward_eq_some_iff (hnaming : Naming Known) (ht : Known t)
    (hle : p.elements <+: t.elements)
    (hfuel : t.elements.length < p.elements.length + fuel) (h : Located Known p n) :
    (messageForward t.text fuel n).1 = some o ↔
      ∃ e ∈ n.entries, e.path = t.text ∧ e.object = o := by
  induction fuel generalizing p n with
  | zero => exact absurd hle.length_le (by omega)
  | succ fuel ih =>
      obtain ⟨born, here, interfaces, children⟩ := n
      obtain rfl : here = p.text := h.path_eq
      have hfuel' : ∀ (q : ObjectPath) (name : Text), q.elements = p.elements ++ [name] →
          t.elements.length < q.elements.length + fuel := by
        intro q name hq
        rw [hq, List.length_append, List.length_singleton]
        omega
      -- below the child on the way everything is decided in that child
      have hbelow : ∀ (q : ObjectPath) (name : Text), q.elements = p.elements ++ [name] →
          q.elements <+: t.elements → ∀ c ∈ children, c.path = q.text →
          ((messageForward t.text fuel c).1 = some o ↔
            ∃ e ∈ (mk born p.text interfaces children).entries,
              e.path = t.text ∧ e.object = o) := by
        intro q name hq hqt c hc hpath
        rw [ih hqt (hfuel' q name hq) (h.child hc hpath)]
        refine exists_congr fun e => ?_
        rw [← h.mem_inside_iff hq hc hpath, and_assoc]
        refine and_congr_right fun _ => and_iff_right_of_imp fun he => ?_
        rw [he.1]
        exact under_text.mpr hqt
      have hforwarded := forwarded_messageForward fuel hnaming ht h
      generalize messageForward t.text (fuel + 1) _ = forwarded at hforwarded ⊢
      cases hforwarded with
      | here hsame =>
          subst hsame
          rw [Option.some.injEq]
          constructor
          · rintro rfl
            exact ⟨_, mem_entries_mk.mpr (.inl rfl), rfl, rfl⟩
          · rintro ⟨e, he, hpath, rfl⟩
            rw [h.eq_of_path he (mem_entries_mk.mpr (.inl rfl)) hpath]
            rfl
      | nobody hne hnone =>
          refine iff_of_false (by simp) ?_
          rintro ⟨e, he, hpath, -⟩
          exact not_mem_of_nobody h hne hnone he hpath
      | child c hc hpath =>
          obtain ⟨q, name, hq, hlocated⟩ := h.of_mem hc
          have hsame : q = t := Path.text_injective (hlocated.path_eq.symm.trans hpath)
          subst hsame
          exact hbelow q name hq (List.prefix_refl _) c hc hpath
      | through q name hq hqt hne c hc hpath => exact hbelow q name hq hqt c hc hpath

/-- `on_child_signal_received` tells of the object of the message, at its parent. -/
theorem mem_messageForward_iff (hnaming : Naming Known) (ht : Known t)
    (hle : p.elements <+: t.elements)
    (hfuel : t.elements.length < p.elements.length + fuel) (h : Located Known p n) :
    x ∈ (messageForward t.text fuel n).2 ↔ x ∈ n.edges ∧ x.child.path = t.text := by
  induction fuel generalizing p n with
  | zero => exact absurd hle.length_le (by omega)
  | succ fuel ih =>
      obtain ⟨born, here, interfaces, children⟩ := n
      obtain rfl : here = p.text := h.path_eq
      have hfuel' : ∀ (q : ObjectPath) (name : Text), q.elements = p.elements ++ [name] →
          t.elements.length < q.elements.length + fuel := by
        intro q name hq
        rw [hq, List.length_append, List.length_singleton]
        omega
      have hforwarded := forwarded_messageForward fuel hnaming ht h
      generalize messageForward t.text (fuel + 1) _ = forwarded at hforwarded ⊢
      cases hforwarded with
      | here hsame =>
          subst hsame
          refine iff_of_false List.not_mem_nil ?_
          rintro ⟨hx, hpath⟩
          obtain ⟨-, e, -, hobject, hne⟩ := h.exists_of_edges hx
          exact hne ((congrArg Object.path hobject).trans hpath)
      | nobody hne hnone =>
          refine iff_of_false List.not_mem_nil ?_
          rintro ⟨hx, hpath⟩
          obtain ⟨-, e, he, hobject, -⟩ := h.exists_of_edges hx
          have hat : e.path = t.text := (congrArg Object.path hobject).trans hpath
          exact not_mem_of_nobody h hne hnone he hat
      | child c hc hpath =>
          obtain ⟨q, name, hq, hlocated⟩ := h.of_mem hc
          have hsame : q = t := Path.text_injective (hlocated.path_eq.symm.trans hpath)
          subst hsame
          rw [List.mem_append, List.mem_singleton,
            ih (List.prefix_refl _) (hfuel' q name hq) hlocated]
          constructor
          · rintro (⟨hx, hat⟩ | rfl)
            · exact ⟨mem_edges_of_mem hc hx, hat⟩
            · exact ⟨mem_edges_mk.mpr ⟨c, hc, .inl rfl⟩, hpath⟩
          · rintro ⟨hx, hat⟩
            rcases h.mem_edges_inside hq hc hpath hx (hat ▸ Under.refl _) with hx | hx
            · exact .inr hx
            · exact .inl ⟨hx, hat⟩
      | through q name hq hqt hne c hc hpath =>
          rw [ih hqt (hfuel' q name hq) (h.child hc hpath)]
          constructor
          · rintro ⟨hx, hat⟩
            exact ⟨mem_edges_of_mem hc hx, hat⟩
          · rintro ⟨hx, hat⟩
            refine ⟨?_, hat⟩
            rcases h.mem_edges_inside hq hc hpath hx (hat ▸ under_text.mpr hqt) with rfl | hx
            · exact absurd (Path.text_injective (hpath.symm.trans hat)) hne
            · exact hx

end BLERCCar.SimpleDBus.Proxy
