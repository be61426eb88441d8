import GoSplice.Proofs.TypeWords

/-!
# Names in spellings

The separators of a spelling can be told from the name where they have no character in common with it:
a spelling is the parts of the name in lower case, which have a separator between each two of them and
none at either end.  Without its separators it is the name in lower case, so that only case is lost:

    withoutMark mark 0 (mark.intercalate ws) = ws.flatten          (withoutMark_intercalate)
    without (spell name separator) separator = lower name          (spell_keepsLetters)
-/

namespace GoSplice.TypeName

open Text

/-! ## Words with marks between them -/

/-- A text without a mark wherever it is met, from left to right, where `rest` characters of the last one are still to
come. -/
def withoutMark (mark : List Char) : Nat → List Char → List Char
  | _, [] => []
  | rest + 1, _ :: text => withoutMark mark rest text
  | 0, c :: text =>
    if mark.isPrefixOf (c :: text) then withoutMark mark (mark.length - 1) text else c :: withoutMark mark 0 text

/-- A text without the occurrences of a mark. -/
def without (text mark : String) : String := String.ofList (withoutMark mark.toList 0 text.toList)

/-- Whether words are there and have no character of a mark. -/
def Apart (mark : List Char) (ws : List (List Char)) : Prop := ∀ w ∈ ws, w ≠ [] ∧ ∀ c ∈ w, c ∉ mark

section Marks

variable {mark m w t : List Char} {ws : List (List Char)}

theorem withoutMark_length (w t : List Char) : withoutMark mark w.length (w ++ t) = withoutMark mark 0 t := by
  induction w with
  | nil => rfl
  | cons c w ih => exact ih

theorem withoutMark_mark (hmark : mark ≠ []) (t : List Char) : withoutMark mark 0 (mark ++ t) = withoutMark mark 0 t := by
  obtain ⟨c, m, rfl⟩ := List.exists_cons_of_ne_nil hmark
  have hprefix : (c :: m).isPrefixOf (c :: (m ++ t)) := List.isPrefixOf_iff_prefix.mpr (List.prefix_append (c :: m) t)
  rw [List.cons_append, withoutMark, if_pos hprefix]
  exact withoutMark_length m t

theorem withoutMark_word (hmark : mark ≠ []) (hw : ∀ c ∈ w, c ∉ mark) (t : List Char) :
    withoutMark mark 0 (w ++ t) = w ++ withoutMark mark 0 t := by
  induction w with
  | nil => rfl
  | cons c w ih =>
    obtain ⟨hc, hw⟩ := List.forall_mem_cons.mp hw
    have hprefix : ¬ mark.isPrefixOf (c :: (w ++ t)) := by
      rw [List.isPrefixOf_iff_prefix]
      rintro ⟨r, hr⟩
      obtain ⟨d, m, rfl⟩ := List.exists_cons_of_ne_nil hmark
      obtain ⟨rfl, -⟩ := List.cons.inj hr
      exact hc List.mem_cons_self
    rw [List.cons_append, withoutMark, if_neg hprefix, ih hw]
    rfl

/-- Without the marks between them words are what they were. -/
theorem withoutMark_intercalate (hmark : mark ≠ []) (hws : Apart mark ws) :
    withoutMark mark 0 (mark.intercalate ws) = ws.flatten := by
  induction ws with
  | nil => rfl
  | cons w ws ih =>
    obtain ⟨hw, hws⟩ := List.forall_mem_cons.mp hws
    cases ws with
    | nil =>
      have hword := withoutMark_word hmark hw.2 []
      rw [List.append_nil] at hword
      rw [List.intercalate_singleton, hword]
      rfl
    | cons v ws =>
      rw [List.intercalate_cons_cons, List.append_assoc, withoutMark_word hmark hw.2, withoutMark_mark hmark, ih hws]
      rfl

/-- Words with marks between them begin with one of the words. -/
theorem exists_intercalate (hne : ws ≠ []) (hws : Apart mark ws) :
    ∃ c t, mark.intercalate ws = c :: t ∧ c ∉ mark := by
  obtain ⟨w, ws, rfl⟩ := List.exists_cons_of_ne_nil hne
  obtain ⟨⟨hw, hchars⟩, -⟩ := List.forall_mem_cons.mp hws
  obtain ⟨c, w, rfl⟩ := List.exists_cons_of_ne_nil hw
  cases ws with
  | nil => exact ⟨c, w, List.intercalate_singleton, hchars c List.mem_cons_self⟩
  | cons v ws =>
    refine ⟨c, w ++ mark ++ mark.intercalate (v :: ws), ?_, hchars c List.mem_cons_self⟩
    rw [List.intercalate_cons_cons]
    rfl

theorem not_prefix_intercalate (hmark : mark ≠ []) (hws : Apart mark ws) : ¬ mark <+: mark.intercalate ws := by
  intro hprefix
  by_cases hnil : ws = []
  · subst hnil
    exact hmark (List.prefix_nil.mp hprefix)
  · obtain ⟨c, t, htext, hc⟩ := exists_intercalate hnil hws
    obtain ⟨d, m, rfl⟩ := List.exists_cons_of_ne_nil hmark
    rw [htext] at hprefix
    obtain ⟨rfl, -⟩ := List.cons_prefix_cons.mp hprefix
    exact hc List.mem_cons_self

theorem not_suffix_intercalate (hmark : mark ≠ []) (hws : Apart mark ws) : ¬ mark <:+ mark.intercalate ws := by
  obtain ⟨d, hd⟩ := List.exists_mem_of_ne_nil mark hmark
  induction ws with
  | nil => exact fun hsuffix => hmark (List.suffix_nil.mp hsuffix)
  | cons w ws ih =>
    obtain ⟨hw, hws⟩ := List.forall_mem_cons.mp hws
    cases ws with
    | nil =>
      rw [List.intercalate_singleton]
      exact fun hsuffix => hw.2 d (hsuffix.subset hd) hd
    | cons v ws =>
      intro hsuffix
      rw [List.intercalate_cons_cons] at hsuffix
      rcases List.suffix_or_suffix_of_suffix hsuffix (List.suffix_append _ _) with hrest | hrest
      · exact ih hws hrest
      · -- what is behind the last mark is no part of a mark
        obtain ⟨c, t, htext, hc⟩ := exists_intercalate (List.cons_ne_nil v ws) hws
        rw [htext] at hrest
        exact hc (hrest.subset List.mem_cons_self)

theorem infix_of_word (hm : m ≠ []) (hw : ∀ c ∈ w, c ∉ m) (h : m <:+: w ++ t) : m <:+: t := by
  induction w with
  | nil => exact h
  | cons c w ih =>
    obtain ⟨hc, hw⟩ := List.forall_mem_cons.mp hw
    rcases List.infix_cons_iff.mp h with hprefix | hinfix
    · obtain ⟨d, n, rfl⟩ := List.exists_cons_of_ne_nil hm
      obtain ⟨rfl, -⟩ := List.cons_prefix_cons.mp hprefix
      exact absurd List.mem_cons_self hc
    · exact ih hw hinfix

/-- What is longer than a text, and has not the character behind it, does not begin in the text. -/
theorem infix_of_longer {c : Char} (hlong : w.length < m.length) (hc : c ∉ m) (h : m <:+: w ++ c :: t) : m <:+: c :: t := by
  induction w with
  | nil => exact h
  | cons d w ih =>
    rcases List.infix_cons_iff.mp h with hprefix | hinfix
    · have hfront : d :: w ++ [c] <+: d :: w ++ c :: t := by
        rw [List.prefix_append_right_inj]
        exact ⟨t, rfl⟩
      have hin := List.prefix_of_prefix_length_le hfront hprefix (by rw [List.length_append]; exact hlong)
      exact absurd (hin.subset (List.mem_append_right _ List.mem_cons_self)) hc
    · exact ih (Nat.lt_of_succ_lt hlong) hinfix

/-- More than one mark in a row is not between words. -/
theorem not_infix_intercalate (hm : ∀ c ∈ m, c ∈ mark) (hlong : mark.length < m.length) (hws : Apart mark ws) :
    ¬ m <:+: mark.intercalate ws := by
  have hne : m ≠ [] := List.ne_nil_of_length_pos (Nat.zero_lt_of_lt hlong)
  induction ws with
  | nil => exact fun hinfix => hne (List.infix_nil.mp hinfix)
  | cons w ws ih =>
    obtain ⟨⟨-, hw⟩, hws⟩ := List.forall_mem_cons.mp hws
    have hword : ∀ c ∈ w, c ∉ m := fun c hc hmem => hw c hc (hm c hmem)
    cases ws with
    | nil =>
      intro hinfix
      rw [List.intercalate_singleton, ← List.append_nil w] at hinfix
      exact hne (List.infix_nil.mp (infix_of_word hne hword hinfix))
    | cons v ws =>
      intro hinfix
      obtain ⟨c, t, htext, hc⟩ := exists_intercalate (List.cons_ne_nil v ws) hws
      have ih := ih hws
      rw [List.intercalate_cons_cons, List.append_assoc] at hinfix
      rw [htext] at hinfix ih
      exact ih (infix_of_longer hlong (fun hmem => hc (hm c hmem)) (infix_of_word hne hword hinfix))

end Marks

/-! ## Spellings of names -/

/-- Whether a character is an ASCII letter, a digit or an underscore. -/
def isNameChar (c : Char) : Bool := c.isAlphanum || c == '_'

/-- Whether a type name consists of ASCII letters, digits and underscores. -/
def IsPlainName (name : String) : Prop := ∀ c ∈ name.toList, isNameChar c

/-- Whether a separator is there, and has no character that a plain name may have. -/
structure IsApart (separator : String) : Prop where
  ne_empty : separator ≠ ""
  noNameChar : ∀ c ∈ separator.toList, isNameChar c = false

instance (name : String) : Decidable (IsPlainName name) :=
  decidable_of_iff (name.toList.all isNameChar) List.all_eq_true

instance (separator : String) : Decidable (IsApart separator) :=
  decidable_of_iff (separator ≠ "" ∧ separator.toList.all (isNameChar · = false)) <| by
    rw [List.all_eq_true]
    simp only [decide_eq_true_eq]
    exact ⟨fun ⟨hne, hapart⟩ => ⟨hne, hapart⟩, fun h => ⟨h.ne_empty, h.noNameChar⟩⟩

theorem IsApart.toList_ne_nil {separator : String} (h : IsApart separator) : separator.toList ≠ [] :=
  fun hnil => h.ne_empty (String.toList_eq_nil_iff.mp hnil)

theorem toNat_lt_of_isNameChar {c : Char} (h : isNameChar c) : c.toNat < 128 := by
  unfold isNameChar at h
  rw [Bool.or_eq_true, beq_iff_eq] at h
  rcases h with h | rfl
  · exact toNat_lt_of_isAlphanum ((Bool.or_eq_true _ _).mp h)
  · decide

/-- The characters of plain names are such in lower case, too. -/
theorem isNameChar_of_mem_lowerChar {c x : Char} (h : isNameChar c) (hx : x ∈ lowerChar c) : isNameChar x := by
  have hall : ∀ n, n < 128 → isNameChar (Char.ofNat n) → isNameChar (Char.ofNat n).toLower := by decide +kernel
  have hascii := toNat_lt_of_isNameChar h
  unfold lowerChar at hx
  rw [if_pos hascii, List.mem_singleton] at hx
  rw [hx]
  simpa only [Char.ofNat_toNat, h, true_implies] using hall c.toNat hascii

theorem lowerFrom_of_isNameChar {s : List Char} (h : ∀ c ∈ s, isNameChar c) (before : List Char) :
    lowerFrom before s = s.flatMap lowerChar := by
  induction s generalizing before with
  | nil => rfl
  | cons c r ih =>
    obtain ⟨hc, hr⟩ := List.forall_mem_cons.mp h
    have hsigma : c ≠ '\u03A3' := by
      rintro rfl
      exact absurd (toNat_lt_of_isNameChar hc) (by decide)
    rw [lowerFrom_cons, lowerAt, if_neg hsigma, ih hr, List.flatMap_cons]

theorem lower_of_isPlainName {name : String} (h : IsPlainName name) :
    lower name = String.ofList (name.toList.flatMap lowerChar) :=
  congrArg String.ofList (lowerFrom_of_isNameChar h [])

/-- The parts of a name are not empty. -/
theorem ne_nil_of_mem_cut {begins : Char → Char → Option Char → Bool} {name w : List Char} (h : w ∈ cut begins name) :
    w ≠ [] := by
  induction name generalizing w with
  | nil => cases h
  | cons c r ih =>
    cases r with
    | nil =>
      rw [List.mem_singleton.mp h]
      exact List.cons_ne_nil c []
    | cons d r =>
      obtain ⟨v, ws, hrest, hcut⟩ := @cut_cons begins c d r
      rw [hcut] at h
      rw [hrest] at ih
      split at h
      · rcases List.mem_cons.mp h with rfl | h
        · exact List.cons_ne_nil c []
        · exact ih h
      · rcases List.mem_cons.mp h with rfl | h
        · exact List.cons_ne_nil c v
        · exact ih (List.mem_cons_of_mem v h)

section Names

variable {name other separator : String}

/-- The parts of a plain name in lower case. -/
def lowerParts (name : String) : List (List Char) := (markedParts name.toList).map fun w => w.flatMap lowerChar

theorem flatten_lowerParts (name : String) : (lowerParts name).flatten = name.toList.flatMap lowerChar := by
  have hparts : (markedParts name.toList).flatten = name.toList := flatten_cut _ _
  conv => rhs; rw [← hparts]
  rw [lowerParts, ← List.flatMap_def, List.flatten_eq_flatMap, List.flatMap_assoc]
  rfl

theorem apart_lowerParts (hname : IsPlainName name) (hseparator : IsApart separator) :
    Apart separator.toList (lowerParts name) := by
  intro w hw
  obtain ⟨part, hpart, rfl⟩ := List.mem_map.mp hw
  constructor
  · obtain ⟨c, r, rfl⟩ := List.exists_cons_of_ne_nil (ne_nil_of_mem_cut hpart)
    rw [List.flatMap_cons]
    exact List.append_ne_nil_of_left_ne_nil (lowerChar_ne_nil c) _
  · intro x hx hmem
    obtain ⟨c, hc, hx⟩ := List.mem_flatMap.mp hx
    have hin : c ∈ name.toList := by
      rw [← flatten_cut (fun _ => isMarked) name.toList]
      exact List.mem_flatten.mpr ⟨part, hpart, hc⟩
    have hchar := isNameChar_of_mem_lowerChar (hname c hin) hx
    rw [hseparator.noNameChar x hmem] at hchar
    cases hchar

/-- A plain name is spelled in its parts, with the separator between them. -/
theorem toList_spell (hname : IsPlainName name) (hseparator : IsApart separator) :
    (spell name separator).toList = separator.toList.intercalate (lowerParts name) := by
  have hfront := not_prefix_intercalate hseparator.toList_ne_nil (apart_lowerParts hname hseparator)
  rw [spell, String.toList_ofList, spellChars_eq, if_pos (.inr hfront)]
  rfl

theorem without_spell (hname : IsPlainName name) (hseparator : IsApart separator) :
    without (spell name separator) separator = lower name := by
  have hparts := apart_lowerParts hname hseparator
  rw [without, toList_spell hname hseparator, withoutMark_intercalate hseparator.toList_ne_nil hparts,
    flatten_lowerParts, lower_of_isPlainName hname]

/-- A spelling of a plain name with a separator that is apart from it has separators inside only, never two of them in
a row, and without them it is the name in lower case.  Two names of one spelling are the same but for case. -/
theorem spell_keepsLetters (hname : IsPlainName name) (hother : IsPlainName other) (hseparator : IsApart separator) :
    ¬ separator.toList <+: (spell name separator).toList ∧
    ¬ separator.toList <:+ (spell name separator).toList ∧
    ¬ separator.toList ++ separator.toList <:+: (spell name separator).toList ∧
    without (spell name separator) separator = lower name ∧
    (spell name separator = spell other separator → lower name = lower other) := by
  have hne := hseparator.toList_ne_nil
  have hparts := apart_lowerParts hname hseparator
  rw [toList_spell hname hseparator]
  refine ⟨not_prefix_intercalate hne hparts, not_suffix_intercalate hne hparts, ?_, without_spell hname hseparator,
    fun hsame => ?_⟩
  · refine not_infix_intercalate (fun c hc => (List.mem_append.mp hc).elim id id) ?_ hparts
    rw [List.length_append]
    exact Nat.lt_add_of_pos_left (List.length_pos_iff.mpr hne)
  · rw [← without_spell hname hseparator, hsame, without_spell hother hseparator]

/-- Two names of one spelling, with a separator of two characters. -/
theorem spell_keepsLetters_things :
    spell "HTTPThing_2" "-." = "http-.thing_2" ∧ ¬ "-.".toList <:+ (spell "HTTPThing_2" "-.").toList ∧
    without (spell "HTTPThing_2" "-.") "-." = "httpthing_2" ∧ lower "HTTPThing_2" = lower "hTTPThing_2" := by
  obtain ⟨-, hend, -, hwithout, hsame⟩ := @spell_keepsLetters "HTTPThing_2" "hTTPThing_2" "-." (by decide) (by decide)
    (by decide)
  exact ⟨by decide, hend, hwithout, hsame (by decide)⟩

end Names

end GoSplice.TypeName
