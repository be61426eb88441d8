import GoSplice.Module
import Mathlib.Data.List.TakeWhile

/-!
# Module directives

A directive is the word `module` at the start of a line, blank space before it allowed, and behind it
blank space and text.  The text of a module file gives a module path if a directive begins one of its lines:

    directive? s = some v ↔ s begins with a directive of the value v          (directive?_eq_some)
    modulePath? text = none ↔ no directive begins a line of the text          (modulePath?_eq_none)
-/

namespace GoSplice.ModuleFile

open Text (isBlank)

variable {s v r : List Char} {c : Char}

/-! ## Values -/

theorem quoted?_ne_nil {quote : Char} (h : quoted? quote s = some v) : v ≠ [] := by
  unfold quoted? at h
  dsimp only at h
  split at h
  · cases h
  · next hne =>
    rw [Bool.or_eq_true, not_or] at hne
    rw [← Option.some.inj h]
    exact fun hnil => hne.1 (List.isEmpty_iff.mpr hnil)

/-- A text that does not begin with a blank has a value. -/
theorem value_ne_nil (hc : isBlank c = false) : value (c :: r) ≠ [] := by
  have hword : (c :: r).takeWhile (fun c => !isBlank c) ≠ [] := by
    rw [List.takeWhile_cons, if_pos (by rw [hc]; rfl)]
    exact List.cons_ne_nil c _
  have hquoted : ∀ quote t, (quoted? quote t).getD ((c :: r).takeWhile fun c => !isBlank c) ≠ [] := by
    intro quote t
    cases hv : quoted? quote t with
    | none => exact hword
    | some v => exact quoted?_ne_nil hv
  unfold value
  dsimp only
  split
  · next heq =>
    cases heq
    exact hquoted _ _
  · next heq =>
    cases heq
    exact hquoted _ _
  · exact hword

/-! ## Directives -/

/-- Whether a text begins with a directive, and what its value is. -/
def IsDirective (s v : List Char) : Prop :=
  ∃ blanks gap c rest, s = blanks ++ (keyword ++ (gap ++ c :: rest)) ∧ (∀ b ∈ blanks, isBlank b) ∧
    gap ≠ [] ∧ (∀ b ∈ gap, isBlank b) ∧ isBlank c = false ∧ v = value (c :: rest)

/-- Whether a directive begins a line of a text. -/
def HasDirective (text : List Char) : Prop :=
  ∃ before s v, text = before ++ s ∧ (before = [] ∨ before.getLast? = some '\n') ∧ IsDirective s v

theorem dropWhile_blanks {blanks : List Char} (h : ∀ b ∈ blanks, isBlank b) (hc : isBlank c = false) :
    (blanks ++ c :: r).dropWhile isBlank = c :: r := by
  rw [List.dropWhile_append_of_pos h, List.dropWhile_cons_of_neg (by rw [hc]; exact Bool.false_ne_true)]

theorem exists_blanks (s : List Char) : ∃ blanks, (∀ b ∈ blanks, isBlank b) ∧ s = blanks ++ s.dropWhile isBlank :=
  ⟨s.takeWhile isBlank, fun _ => List.mem_takeWhile_imp, List.takeWhile_append_dropWhile.symm⟩

theorem directive?_eq_some : directive? s = some v ↔ IsDirective s v := by
  unfold directive?
  dsimp only
  constructor
  · intro h
    obtain ⟨blanks, hblanks, hs⟩ := exists_blanks s
    split at h
    · next hkeyword =>
      obtain ⟨r, hr⟩ := List.isPrefixOf_iff_prefix.mp hkeyword
      rw [← hr, List.drop_left] at h
      rw [← hr] at hs
      obtain ⟨gap, hgap, hrest⟩ := exists_blanks r
      split at h
      · next hvalue =>
        rw [Bool.and_eq_true] at hvalue
        cases hdrop : r.dropWhile isBlank with
        | nil =>
          rw [hdrop] at hvalue
          exact absurd hvalue.2 Bool.false_ne_true
        | cons c rest =>
          have hc : isBlank c = false := by
            have hhead := List.head?_dropWhile_not isBlank r
            rw [hdrop] at hhead
            exact hhead
          refine ⟨blanks, gap, c, rest, by rw [hs, ← hdrop, ← hrest], hblanks, ?_, hgap, hc, ?_⟩
          · rintro rfl
            rw [hrest, hdrop, List.nil_append, List.head?_cons, Option.map_some, Option.getD_some, hc] at hvalue
            exact absurd hvalue.1 Bool.false_ne_true
          · rw [← hdrop]
            exact (Option.some.inj h).symm
      · cases h
    · cases h
  · rintro ⟨blanks, gap, c, rest, rfl, hblanks, hgap, hall, hc, rfl⟩
    have hkeyword : (blanks ++ (keyword ++ (gap ++ c :: rest))).dropWhile isBlank = keyword ++ (gap ++ c :: rest) :=
      dropWhile_blanks hblanks (by decide +kernel)
    obtain ⟨b, gap, rfl⟩ := List.exists_cons_of_ne_nil hgap
    have hvalue := value_ne_nil (r := rest) hc
    rw [hkeyword, if_pos (List.isPrefixOf_iff_prefix.mpr (List.prefix_append _ _)), List.drop_left,
      dropWhile_blanks hall hc, if_pos]
    rw [List.cons_append, List.head?_cons, Option.map_some, Option.getD_some, hall b List.mem_cons_self,
      Bool.true_and, Bool.not_eq_true', List.isEmpty_eq_false_iff]
    exact hvalue

theorem not_isDirective_nil (v : List Char) : ¬ IsDirective [] v := by
  rintro ⟨blanks, gap, c, rest, hs, -⟩
  simp [keyword] at hs

/-- The search finds a directive exactly where one begins a line; the induction is on the text, of which some
may have been passed. -/
theorem firstDirective?_eq_none (lineStart : Bool) : firstDirective? lineStart s = none ↔
    ∀ before t v, s = before ++ t → (before = [] ∧ lineStart ∨ before.getLast? = some '\n') → ¬ IsDirective t v := by
  induction s generalizing lineStart with
  | nil =>
    refine ⟨fun _ before t v hs _ => ?_, fun _ => rfl⟩
    rw [(List.append_eq_nil_iff.mp hs.symm).2]
    exact not_isDirective_nil v
  | cons c s ih =>
    rw [firstDirective?, Option.or_eq_none_iff, ih]
    constructor
    · rintro ⟨hhere, hlater⟩ before t v hs hstart hdirective
      cases before with
      | nil =>
        obtain ⟨-, hstart⟩ | hstart := hstart
        · rw [if_pos hstart, Option.eq_none_iff_forall_ne_some] at hhere
          rw [List.nil_append] at hs
          rw [hs] at hhere
          exact hhere v (directive?_eq_some.mpr hdirective)
        · cases hstart
      | cons d before =>
        rw [List.cons_append, List.cons.injEq] at hs
        obtain ⟨rfl, hs⟩ := hs
        refine hlater before t v hs ?_ hdirective
        obtain ⟨hnil, -⟩ | hstart := hstart
        · cases hnil
        · cases before with
          | nil => exact .inl ⟨rfl, by simpa using hstart⟩
          | cons e before => exact .inr hstart
    · intro h
      constructor
      · split
        · next hstart =>
          rw [Option.eq_none_iff_forall_ne_some]
          exact fun v hv => h [] _ v rfl (.inl ⟨rfl, hstart⟩) (directive?_eq_some.mp hv)
        · rfl
      · intro before t v hs hstart
        refine h (c :: before) t v (by rw [hs]; rfl) (.inr ?_)
        obtain ⟨rfl, hstart⟩ | hstart := hstart
        · rw [List.getLast?_singleton, of_decide_eq_true hstart]
        · rw [List.getLast?_cons, hstart]
          rfl

theorem modulePath?_eq_none {text : List Char} : modulePath? text = none ↔ ¬ HasDirective text := by
  unfold modulePath?
  rw [Option.map_eq_none_iff, firstDirective?_eq_none]
  constructor
  · rintro h ⟨before, s, v, hs, hstart, hv⟩
    exact h before s v hs (hstart.imp_left fun hnil => ⟨hnil, rfl⟩) hv
  · intro h before s v hs hstart hv
    exact h ⟨before, s, v, hs, hstart.imp_left And.left, hv⟩

end GoSplice.ModuleFile
