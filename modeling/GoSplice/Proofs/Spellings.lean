import GoSplice.TypeName
import Mathlib.Data.List.Basic
import Mathlib.Tactic.Common

/-!
# Lower case and spellings

Lower case leaves a text as it is when it consists of settled characters, those that are lower case on their own.
It makes no others, and neither do spellings of type names with a settled separator:

    x ∈ lowerChar c → IsSettled x                                               (isSettled_of_mem_lowerChar)
    lower s = s ↔ ∀ c ∈ s, IsSettled c                                                   (lower_eq_self_iff)
    lower (lower s) = lower s                                                                  (lower_lower)
    lower separator = separator → lower (spell name separator) = spell name separator          (lower_spell)
-/

namespace GoSplice

namespace Text

/-! ## Images of capitals -/

/-- First, last, step and distance of a run of capitals. -/
abbrev LowerRun := Nat × Nat × Nat × Int

namespace LowerRun

/-- Whether a run has the character of a number. -/
def holds (r : LowerRun) (n : Nat) : Bool := r.1 ≤ n && n ≤ r.2.1 && (n - r.1) % r.2.2.1 == 0

/-- The number of the image of a character. -/
def image (r : LowerRun) (n : Nat) : Nat := Int.toNat (n + r.2.2.2)

/-- The numbers of the characters of a run. -/
def numbers (r : LowerRun) : List Nat := (List.range ((r.2.1 - r.1) / r.2.2.1 + 1)).map fun i => r.1 + r.2.2.1 * i

/-- Whether the images of a run are characters that are neither ASCII capitals nor U+0130. -/
def isPlain (r : LowerRun) : Bool :=
  90 < r.image r.1 && (r.image r.2.1 < 0x130 || 0x130 < r.image r.1) &&
    (r.image r.2.1 < 0xD800 || 0xDFFF < r.image r.1) && r.image r.2.1 < 0x110000

variable {r : LowerRun} {n : Nat}

theorem image_bounds (h : r.holds n) : r.image r.1 ≤ r.image n ∧ r.image n ≤ r.image r.2.1 := by
  simp only [holds, Bool.and_eq_true, decide_eq_true_eq] at h
  unfold image
  omega

theorem mem_numbers (h : r.holds n) : n ∈ r.numbers := by
  simp only [holds, Bool.and_eq_true, decide_eq_true_eq, beq_iff_eq] at h
  obtain ⟨⟨hfirst, hlast⟩, hstep⟩ := h
  have hplace : r.1 + r.2.2.1 * ((n - r.1) / r.2.2.1) = n := by
    have hdivides := Nat.div_add_mod (n - r.1) r.2.2.1
    omega
  refine List.mem_map.mpr ⟨(n - r.1) / r.2.2.1, List.mem_range.mpr (Nat.lt_succ_of_le ?_), hplace⟩
  exact Nat.div_le_div_right (Nat.sub_le_sub_right hlast r.1)

end LowerRun

/-- A set of numbers as the bits of one. -/
def bits (ns : List Nat) : Nat := ns.foldr (fun n s => 1 <<< n ||| s) 0

theorem testBit_bits (ns : List Nat) (n : Nat) : (bits ns).testBit n ↔ n ∈ ns := by
  induction ns with
  | nil => simp [bits]
  | cons m ns ih =>
    have hcons : bits (m :: ns) = 1 <<< m ||| bits ns := rfl
    rw [hcons, Nat.testBit_or, Nat.one_shiftLeft, Nat.testBit_two_pow, Bool.or_eq_true, decide_eq_true_iff, ih,
      List.mem_cons, eq_comm]

theorem notMem_of_bits {ns : List Nat} {n : Nat} (h : !(bits ns).testBit n) : n ∉ ns := by
  intro hmem
  rw [(testBit_bits ns n).mpr hmem] at h
  cases h

/-- The numbers of all capitals above ASCII. -/
def capitals : List Nat := lowerRuns.toList.flatMap LowerRun.numbers

theorem mem_capitals {r : LowerRun} (hr : r ∈ lowerRuns.toList) {n : Nat} (hn : r.holds n) : n ∈ capitals :=
  List.mem_flatMap.mpr ⟨r, hr, LowerRun.mem_numbers hn⟩

theorem find?_lowerRuns_eq_none {n : Nat} (h : n ∉ capitals) : lowerRuns.find? (LowerRun.holds · n) = none := by
  rw [Array.find?_eq_none]
  intro r hr hn
  exact h (mem_capitals (Array.mem_toList_iff.mpr hr) hn)

/-- The images of the capitals are no capitals. -/
theorem lowerRuns_apart : ∀ r ∈ lowerRuns.toList,
    LowerRun.isPlain r ∧ ∀ n, LowerRun.holds r n → LowerRun.image r n ∉ capitals := by
  -- as lists, the images and the capitals would take too many comparisons
  have hall : lowerRuns.toList.all (fun r => LowerRun.isPlain r &&
      (LowerRun.numbers r).all fun n => !(bits capitals).testBit (LowerRun.image r n)) := by
    decide +kernel
  intro r hr
  obtain ⟨hplain, himages⟩ := Bool.and_eq_true_iff.mp (List.all_eq_true.mp hall r hr)
  exact ⟨hplain, fun n hn => notMem_of_bits (List.all_eq_true.mp himages n (LowerRun.mem_numbers hn))⟩

/-! ## Settled characters -/

/-- Whether lower case leaves a character as it is, wherever it stands. -/
def IsSettled (c : Char) : Prop := c ≠ '\u03A3' ∧ lowerChar c = [c]

instance (c : Char) : Decidable (IsSettled c) := inferInstanceAs (Decidable (_ ∧ _))

theorem toNat_lt_of_isAlphanum {c : Char} (h : c.isAlpha ∨ c.isDigit) : c.toNat < 128 := by
  have hbound : ∀ a b : UInt32, b.toNat < 128 → c.val ≥ a ∧ c.val ≤ b → c.toNat < 128 :=
    fun a b hb hc => Nat.lt_of_le_of_lt (UInt32.le_iff_toNat_le.mp hc.2) hb
  have hspan : ∀ a b : UInt32, (decide (c.val ≥ a) && decide (c.val ≤ b)) = true → c.val ≥ a ∧ c.val ≤ b := by
    intro a b hc
    rwa [Bool.and_eq_true, decide_eq_true_eq, decide_eq_true_eq] at hc
  rcases h with h | h
  · rcases (Bool.or_eq_true _ _).mp h with h | h
    · exact hbound _ _ (by decide) (of_decide_eq_true h)
    · exact hbound 97 122 (by decide) (hspan _ _ h)
  · exact hbound 48 57 (by decide) (hspan _ _ h)

/-- An ASCII character is settled in lower case, and is so by itself behind the capitals. -/
theorem isSettled_ascii {c : Char} (h : c.toNat < 128) : IsSettled c.toLower ∧ (90 < c.toNat → IsSettled c) := by
  have hall : ∀ n, n < 128 → IsSettled (Char.ofNat n).toLower ∧ (90 < n → IsSettled (Char.ofNat n)) := by
    decide +kernel
  simpa only [Char.ofNat_toNat] using hall c.toNat h

theorem lowerChar_of_none {c : Char} (hascii : ¬ c.toNat < 128) (hdotted : c.toNat ≠ 0x130)
    (h : lowerRuns.find? (LowerRun.holds · c.toNat) = none) : lowerChar c = [c] := by
  unfold lowerChar
  rw [if_neg hascii, if_neg hdotted]
  -- the table itself must not be opened
  generalize lowerRuns = runs at h ⊢
  change (match runs.find? (LowerRun.holds · c.toNat) with | some (_, _, _, d) => _ | none => _) = _
  rw [h]

theorem lowerChar_of_some {c : Char} {r : LowerRun} (hascii : ¬ c.toNat < 128) (hdotted : c.toNat ≠ 0x130)
    (h : lowerRuns.find? (LowerRun.holds · c.toNat) = some r) : lowerChar c = [Char.ofNat (r.image c.toNat)] := by
  unfold lowerChar
  rw [if_neg hascii, if_neg hdotted]
  generalize lowerRuns = runs at h ⊢
  change (match runs.find? (LowerRun.holds · c.toNat) with | some (_, _, _, d) => _ | none => _) = _
  rw [h]
  rfl

/-- A character above ASCII that is in no run is settled, other than U+0130. -/
theorem isSettled_of_none {c : Char} (hascii : ¬ c.toNat < 128) (hdotted : c.toNat ≠ 0x130)
    (h : lowerRuns.find? (LowerRun.holds · c.toNat) = none) : IsSettled c := by
  refine ⟨?_, lowerChar_of_none hascii hdotted h⟩
  rintro rfl
  have hsigma : lowerRuns.toList.any (LowerRun.holds · 0x3A3) := by decide +kernel
  obtain ⟨r, hr, hholds⟩ := List.any_eq_true.mp hsigma
  exact Array.find?_eq_none.mp h r (Array.mem_toList_iff.mp hr) hholds

/-- The dot above and both small forms of sigma are settled. -/
theorem isSettled_marks : IsSettled '\u0307' ∧ IsSettled '\u03C2' ∧ IsSettled '\u03C3' := by
  have hall : [0x307, 0x3C2, 0x3C3].all fun n => !(bits capitals).testBit n := by decide +kernel
  have hsettled : ∀ c : Char, c.toNat ∈ [0x307, 0x3C2, 0x3C3] → IsSettled c := by
    intro c hc
    have hlarge : ¬ c.toNat < 128 ∧ c.toNat ≠ 0x130 := by
      simp only [List.mem_cons, List.not_mem_nil, or_false] at hc
      omega
    have hnone := notMem_of_bits (List.all_eq_true.mp hall c.toNat hc)
    exact isSettled_of_none hlarge.1 hlarge.2 (find?_lowerRuns_eq_none hnone)
  exact ⟨hsettled _ (by decide), hsettled _ (by decide), hsettled _ (by decide)⟩

/-- The images of capitals are settled. -/
theorem isSettled_image {r : LowerRun} (hr : r ∈ lowerRuns.toList) {n : Nat} (hn : r.holds n) :
    IsSettled (Char.ofNat (r.image n)) := by
  obtain ⟨hplain, hcapitals⟩ := lowerRuns_apart r hr
  obtain ⟨hfirst, hlast⟩ := LowerRun.image_bounds hn
  simp only [LowerRun.isPlain, Bool.and_eq_true, Bool.or_eq_true, decide_eq_true_eq] at hplain
  have hscalar : (r.image n).isValidChar := by
    unfold Nat.isValidChar
    omega
  have hnumber : (Char.ofNat (r.image n)).toNat = r.image n := by
    rw [Char.ofNat, dif_pos hscalar]
    rfl
  by_cases hascii : (Char.ofNat (r.image n)).toNat < 128
  · exact (isSettled_ascii hascii).2 (by omega)
  · refine isSettled_of_none hascii (by omega) (find?_lowerRuns_eq_none ?_)
    rw [hnumber]
    exact hcapitals n hn

/-- Lower case consists of settled characters. -/
theorem isSettled_of_mem_lowerChar {c x : Char} (h : x ∈ lowerChar c) : IsSettled x := by
  by_cases hascii : c.toNat < 128
  · unfold lowerChar at h
    rw [if_pos hascii, List.mem_singleton] at h
    exact h ▸ (isSettled_ascii hascii).1
  by_cases hdotted : c.toNat = 0x130
  · unfold lowerChar at h
    rw [if_neg hascii, if_pos hdotted, List.mem_pair] at h
    rcases h with rfl | rfl
    · exact (isSettled_ascii (by decide)).2 (by decide)
    · exact isSettled_marks.1
  cases hfind : lowerRuns.find? (LowerRun.holds · c.toNat) with
  | none =>
    rw [lowerChar_of_none hascii hdotted hfind, List.mem_singleton] at h
    exact h ▸ isSettled_of_none hascii hdotted hfind
  | some r =>
    rw [lowerChar_of_some hascii hdotted hfind, List.mem_singleton] at h
    have hr : r ∈ lowerRuns.toList := Array.mem_toList_iff.mpr (Array.mem_of_find?_eq_some hfind)
    have hholds : r.holds c.toNat := by simpa only using Array.find?_some hfind
    exact h ▸ isSettled_image hr hholds

theorem lowerChar_ne_nil (c : Char) : lowerChar c ≠ [] := by
  unfold lowerChar
  generalize lowerRuns = runs
  repeat' split
  all_goals exact List.cons_ne_nil _ _

/-! ## Texts in lower case -/

/-- What one character of a text becomes, between what is before it, nearest first, and what is behind it. -/
def lowerAt (before : List Char) (c : Char) (r : List Char) : List Char :=
  if c = '\u03A3' then (if touchesCased before && !touchesCased r then ['\u03C2'] else ['\u03C3']) else lowerChar c

theorem lowerFrom_cons (before : List Char) (c : Char) (r : List Char) :
    lowerFrom before (c :: r) = lowerAt before c r ++ lowerFrom (c :: before) r := rfl

theorem isSettled_of_mem_lowerAt {before r : List Char} {c x : Char} (h : x ∈ lowerAt before c r) : IsSettled x := by
  unfold lowerAt at h
  repeat' split at h
  · exact List.mem_singleton.mp h ▸ isSettled_marks.2.1
  · exact List.mem_singleton.mp h ▸ isSettled_marks.2.2
  · exact isSettled_of_mem_lowerChar h

theorem lowerAt_of_isSettled {c : Char} (h : IsSettled c) (before r : List Char) : lowerAt before c r = [c] := by
  rw [lowerAt, if_neg h.1, h.2]

theorem isSettled_of_mem_lowerFrom {before s : List Char} {x : Char} (h : x ∈ lowerFrom before s) : IsSettled x := by
  induction s generalizing before with
  | nil => cases h
  | cons c r ih =>
    rw [lowerFrom_cons, List.mem_append] at h
    exact h.elim isSettled_of_mem_lowerAt ih

theorem lowerFrom_of_isSettled {s : List Char} (h : ∀ c ∈ s, IsSettled c) (before : List Char) :
    lowerFrom before s = s := by
  induction s generalizing before with
  | nil => rfl
  | cons c r ih =>
    obtain ⟨hc, hr⟩ := List.forall_mem_cons.mp h
    rw [lowerFrom_cons, lowerAt_of_isSettled hc, ih hr]
    rfl

/-- A text is in lower case if it consists of settled characters. -/
theorem lower_of_isSettled {s : String} (h : ∀ c ∈ s.toList, IsSettled c) : lower s = s := by
  rw [lower, lowerFrom_of_isSettled h, String.ofList_toList]

theorem isSettled_of_mem_lower {s : String} {c : Char} (h : c ∈ (lower s).toList) : IsSettled c := by
  rw [lower, String.toList_ofList] at h
  exact isSettled_of_mem_lowerFrom h

theorem lower_eq_self_iff {s : String} : lower s = s ↔ ∀ c ∈ s.toList, IsSettled c :=
  ⟨fun h _ hc => isSettled_of_mem_lower (h.symm ▸ hc), lower_of_isSettled⟩

theorem lower_lower (s : String) : lower (lower s) = lower s :=
  lower_of_isSettled fun _ => isSettled_of_mem_lower

end Text

/-! ## Spellings of type names -/

namespace TypeName

open Text

variable {separator : List Char}

/-- Whether all that was spelled so far is settled. -/
def Spelling.IsSettled (s : Spelling) : Prop := ∀ piece ∈ s.pieces, ∀ c ∈ piece, Text.IsSettled c

theorem Spelling.IsSettled.step {s : Spelling} (h : s.IsSettled) (hseparator : ∀ c ∈ separator, Text.IsSettled c)
    (c : Char) : (TypeName.step separator s c).IsSettled := by
  have hmarks : ∀ piece ∈ (separator.map fun x => [x]).reverse, ∀ c ∈ piece, Text.IsSettled c := by
    intro piece hpiece
    obtain ⟨x, hx, rfl⟩ := List.mem_map.mp (List.mem_reverse.mp hpiece)
    exact List.forall_mem_singleton.mpr (hseparator x hx)
  refine List.forall_mem_cons.mpr ⟨fun x => isSettled_of_mem_lowerChar, ?_⟩
  split_ifs
  · unfold Spelling.IsSettled at h
    cases hpieces : s.pieces with
    | nil => exact List.forall_mem_nil _
    | cons prior before =>
      rw [hpieces, List.forall_mem_cons] at h
      exact List.forall_mem_cons.mpr ⟨h.1, List.forall_mem_append.mpr ⟨hmarks, h.2⟩⟩
  · exact h

theorem Spelling.IsSettled.foldl {s : Spelling} (h : s.IsSettled) (hseparator : ∀ c ∈ separator, Text.IsSettled c)
    (name : List Char) : (name.foldl (TypeName.step separator) s).IsSettled := by
  induction name generalizing s with
  | nil => exact h
  | cons c r ih => exact ih (h.step hseparator c)

theorem isSettled_of_mem_spellChars {name : List Char} (hseparator : ∀ c ∈ separator, Text.IsSettled c) {c : Char}
    (h : c ∈ spellChars name separator) : Text.IsSettled c := by
  have hstart : Spelling.IsSettled ⟨[], none⟩ := List.forall_mem_nil _
  have htext : ∀ c ∈ (name.foldl (step separator) ⟨[], none⟩).pieces.reverse.flatten, Text.IsSettled c := by
    intro c hc
    obtain ⟨piece, hpiece, hc⟩ := List.mem_flatten.mp hc
    exact hstart.foldl hseparator name piece (List.mem_reverse.mp hpiece) c hc
  unfold spellChars at h
  dsimp only at h
  split at h
  · exact htext c (List.mem_of_mem_drop h)
  · exact htext c h

/-- Lower case leaves a spelling as it is, if it does so with the separator. -/
theorem lower_spell {separator : String} (h : lower separator = separator) (name : String) :
    lower (spell name separator) = spell name separator := by
  refine lower_of_isSettled fun c hc => ?_
  rw [spell, String.toList_ofList] at hc
  exact isSettled_of_mem_spellChars (lower_eq_self_iff.mp h) hc

end TypeName

end GoSplice
