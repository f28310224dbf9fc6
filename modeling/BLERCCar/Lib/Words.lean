import Mathlib.Data.List.Infix

/-!
# Words behind a separator

A list of words is written down by putting a separator in front of each.  Where
no word contains the separator, what one such text is to another can be read off
the words.

This module names no particular program.

## Main results

* `split_render`: the words of a text can be read back.
* `render_prefix_iff`: one text begins with another if all words of that but the
  last are words of it and the last begins one.
* `render_infix_iff`: a text occurs in another where that begins with it behind
  some of its words.
* `rfind_eq_zero_iff`: where the last occurrence of a text is the first.
-/

namespace BLERCCar.Lib.Words

universe u

variable {α : Type u}

/-! ## Texts -/

/-- Words, each behind a separator. -/
def render (sep : α) (words : List (List α)) : List α :=
  words.flatMap fun word => sep :: word

/-- No word contains the separator. -/
def Clean (sep : α) (words : List (List α)) : Prop := ∀ word ∈ words, sep ∉ word

variable {sep : α} {words words' : List (List α)} {word word' : List α}

@[simp] theorem render_nil : render sep [] = [] := rfl

@[simp] theorem render_cons :
    render sep (word :: words) = sep :: (word ++ render sep words) := rfl

theorem render_eq_nil_iff : render sep words = [] ↔ words = [] := by
  cases words <;> simp

theorem clean_cons :
    Clean sep (word :: words) ↔ sep ∉ word ∧ Clean sep words :=
  List.forall_mem_cons

theorem Clean.drop (h : Clean sep words) (k : Nat) : Clean sep (words.drop k) :=
  fun word hword => h word (List.mem_of_mem_drop hword)

theorem count_render [DecidableEq α] (h : Clean sep words) :
    (render sep words).count sep = words.length := by
  induction words with
  | nil => rfl
  | cons word words ih =>
      obtain ⟨hword, hwords⟩ := clean_cons.mp h
      rw [render_cons, List.count_cons_self, List.count_append, ih hwords,
        List.count_eq_zero.mpr hword, List.length_cons]
      omega

/-! ## Reading the words back -/

/-- Cut at the separators; `word` is what has been read of the current word.  A
separator at the very end opens no word. -/
def split [DecidableEq α] (sep : α) (word : List α) : List α → List (List α)
  | [] => [word]
  | c :: rest =>
      if c = sep then if rest = [] then [word] else word :: split sep [] rest
      else split sep (word ++ [c]) rest

theorem split_append [DecidableEq α] (h : sep ∉ word') (word rest : List α) :
    split sep word (word' ++ rest) = split sep (word ++ word') rest := by
  induction word' generalizing word with
  | nil => simp
  | cons c word' ih =>
      obtain ⟨hc, hrest⟩ := not_or.mp (mt List.mem_cons.mpr h)
      rw [List.cons_append, split, if_neg (Ne.symm hc), ih hrest]
      simp

/-- Behind the first separator, a text is cut into its words. -/
theorem split_render [DecidableEq α] (hclean : Clean sep (word :: words))
    (hne : ∀ word ∈ words, word ≠ []) :
    split sep [] (word ++ render sep words) = word :: words := by
  induction words generalizing word with
  | nil =>
      rw [split_append (clean_cons.mp hclean).1]
      simp [split]
  | cons word' words ih =>
      obtain ⟨hword, hwords⟩ := clean_cons.mp hclean
      have hword' : word' ++ render sep words ≠ [] := by
        simp [hne word' List.mem_cons_self]
      rw [split_append hword, render_cons, split, if_pos rfl, if_neg hword',
        ih hwords fun w hw => hne w (List.mem_cons_of_mem _ hw)]
      rfl

/-! ## Beginnings -/

/-- All words but the last agree, and the last begins the one in its place. -/
def BeginsWith : List (List α) → List (List α) → Prop
  | [], _ => True
  | _ :: _, [] => False
  | [word], word' :: _ => word <+: word'
  | word :: w :: words, word' :: words' => word = word' ∧ BeginsWith (w :: words) words'

/-- A text that may follow a word: empty or behind a separator. -/
def Follows (sep : α) (rest : List α) : Prop := rest = [] ∨ ∃ more, rest = sep :: more

theorem follows_render (words : List (List α)) : Follows sep (render sep words) := by
  cases words with
  | nil => exact .inl rfl
  | cons word words => exact .inr ⟨_, rfl⟩

theorem prefix_append_iff (h : sep ∉ word) {rest : List α} (hrest : Follows sep rest) :
    word <+: word' ++ rest ↔ word <+: word' := by
  constructor
  · intro hle
    induction word generalizing word' with
    | nil => exact List.nil_prefix
    | cons c word ih =>
        obtain ⟨hc, hword⟩ := not_or.mp (mt List.mem_cons.mpr h)
        cases word' with
        | nil =>
            rcases hrest with rfl | ⟨more, rfl⟩
            · exact hle
            · exact absurd (List.cons_prefix_cons.mp hle).1.symm hc
        | cons c' word' =>
            obtain ⟨hsame, hle⟩ := List.cons_prefix_cons.mp hle
            exact List.cons_prefix_cons.mpr ⟨hsame, ih hword hle⟩
  · exact fun hle => hle.trans (List.prefix_append word' rest)

theorem append_sep_prefix_iff (h : sep ∉ word) (h' : sep ∉ word') {more rest : List α}
    (hrest : Follows sep rest) :
    word ++ sep :: more <+: word' ++ rest ↔ word = word' ∧ sep :: more <+: rest := by
  induction word generalizing word' with
  | nil =>
      cases word' with
      | nil => simp
      | cons c' word' =>
          have hc := (not_or.mp (mt List.mem_cons.mpr h')).1
          simp [List.cons_prefix_cons, hc]
  | cons c word ih =>
      obtain ⟨hc, hword⟩ := not_or.mp (mt List.mem_cons.mpr h)
      cases word' with
      | nil =>
          rcases hrest with rfl | ⟨rest, rfl⟩
          · simp
          · simp [List.cons_prefix_cons, Ne.symm hc]
      | cons c' word' =>
          have hword' := (not_or.mp (mt List.mem_cons.mpr h')).2
          rw [List.cons_append, List.cons_append, List.cons_prefix_cons, ih hword hword',
            List.cons.injEq, and_assoc]

theorem render_prefix_iff (h : Clean sep words) (h' : Clean sep words') :
    render sep words <+: render sep words' ↔ BeginsWith words words' := by
  induction words generalizing words' with
  | nil => simp [BeginsWith]
  | cons word words ih =>
      obtain ⟨hword, hwords⟩ := clean_cons.mp h
      cases words' with
      | nil => simp [BeginsWith]
      | cons word' words' =>
          obtain ⟨hword', hwords'⟩ := clean_cons.mp h'
          have hrest : Follows sep (render sep words') := follows_render words'
          rw [render_cons, render_cons, List.cons_prefix_cons, and_iff_right rfl]
          cases words with
          | nil =>
              rw [render_nil, List.append_nil, prefix_append_iff hword hrest]
              rfl
          | cons w words =>
              rw [render_cons, append_sep_prefix_iff hword hword' hrest, ← render_cons,
                ih hwords hwords']
              rfl

theorem beginsWith_of_prefix (h : words <+: words') : BeginsWith words words' := by
  induction words generalizing words' with
  | nil => trivial
  | cons word words ih =>
      cases words' with
      | nil => simp at h
      | cons word' words' =>
          obtain ⟨rfl, hrest⟩ := List.cons_prefix_cons.mp h
          cases words with
          | nil => exact List.prefix_refl word
          | cons w words => exact ⟨rfl, ih hrest⟩

theorem BeginsWith.head (h : BeginsWith (word :: words) words') :
    ∃ word' rest, words' = word' :: rest ∧ word <+: word' := by
  cases words' with
  | nil => exact h.elim
  | cons word' words' =>
      cases words with
      | nil => exact ⟨word', words', rfl, h⟩
      | cons w words => exact ⟨word', words', rfl, h.1 ▸ List.prefix_refl word⟩

theorem BeginsWith.last (h : BeginsWith (words ++ [word]) words') :
    ∃ word' rest, words' = words ++ word' :: rest ∧ word <+: word' := by
  induction words generalizing words' with
  | nil => exact h.head
  | cons w words ih =>
      cases words' with
      | nil => exact h.elim
      | cons w' words' =>
          have hstep : w = w' ∧ BeginsWith (words ++ [word]) words' := by
            cases words with
            | nil => exact h
            | cons _ _ => exact h
          obtain ⟨rfl, hrest⟩ := hstep
          obtain ⟨word', rest, rfl, hle⟩ := ih hrest
          exact ⟨word', rest, rfl, hle⟩

/-! ## Occurrences -/

theorem infix_append_iff (h : sep ∉ word) {text rest : List α} :
    sep :: text <:+: word ++ rest ↔ sep :: text <:+: rest := by
  induction word with
  | nil => rfl
  | cons c word ih =>
      obtain ⟨hc, hword⟩ := not_or.mp (mt List.mem_cons.mpr h)
      have hne : ¬ sep :: text <+: c :: (word ++ rest) :=
        fun hle => hc (List.cons_prefix_cons.mp hle).1
      rw [List.cons_append, List.infix_cons_iff, ih hword]
      exact or_iff_right hne

theorem render_infix_iff (h : Clean sep words') {text : List α} :
    sep :: text <:+: render sep words' ↔
      ∃ k, sep :: text <+: render sep (words'.drop k) := by
  induction words' with
  | nil => simp
  | cons word words' ih =>
      obtain ⟨hword, hwords⟩ := clean_cons.mp h
      rw [render_cons, List.infix_cons_iff, infix_append_iff hword, ih hwords]
      constructor
      · rintro (hle | ⟨k, hle⟩)
        · exact ⟨0, hle⟩
        · exact ⟨k + 1, hle⟩
      · rintro ⟨k, hle⟩
        cases k with
        | zero => exact .inl hle
        | succ k => exact .inr ⟨k, hle⟩

/-- The position of the last occurrence of a text. -/
def rfind [DecidableEq α] (text : List α) : List α → Option Nat
  | [] => if text = [] then some 0 else none
  | c :: rest =>
      match rfind text rest with
      | some i => some (i + 1)
      | none => if text.isPrefixOf (c :: rest) then some 0 else none

theorem rfind_eq_none_iff [DecidableEq α] {text rest : List α} :
    rfind text rest = none ↔ ¬ text <:+: rest := by
  induction rest with
  | nil => simp [rfind, List.infix_nil]
  | cons c rest ih =>
      rw [rfind, List.infix_cons_iff]
      cases hrest : rfind text rest with
      | some i =>
          rw [hrest] at ih
          simpa using fun _ => ih
      | none =>
          have hnot := ih.mp hrest
          simp [hnot]

theorem rfind_eq_zero_iff [DecidableEq α] {text rest : List α} {c : α} :
    rfind text (c :: rest) = some 0 ↔ text <+: c :: rest ∧ ¬ text <:+: rest := by
  rw [rfind, ← rfind_eq_none_iff]
  cases rfind text rest with
  | some i => simp
  | none => simp

end BLERCCar.Lib.Words
