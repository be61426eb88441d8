import GoSplice.Json.Reader
import GoSplice.Proofs.CommonBlocks

/-!
# Unified diffs as patches

A reader of unified diffs, apart from their writer.  It takes a text apart at its line feeds and
reads hunk by hunk: a header with two ranges, and as many marked lines as these count.  A hunk is put
in the place of the lines that it shows, which must stand where it says:

    before ≠ after, all lines end with a line feed  →  patch? (text path before after) before = some after
                                                                                (patch?_text)

Lines with another end, or without one, are not told apart in what is written.
-/

namespace GoSplice.UnifiedDiff

open LineEdit

/-! ## Reading -/

/-- The lines of a text, taken apart at line feeds alone, which they keep. -/
def feedLines : List Char → List Line
  | [] => []
  | c :: r => if c = '\n' then ['\n'] :: feedLines r else Lines.consFirst c (feedLines r)

/-- A hunk that was read: some lines in the place of others, and how many stand before both. -/
structure Replacement where
  left : Nat
  right : Nat
  before : List Line
  after : List Line

/-- A number and what is behind it. -/
def number? (s : List Char) : Option (Nat × List Char) :=
  if (s.takeWhile Char.isDigit).isEmpty then none
  else some (Nat.ofDigitChars 10 (s.takeWhile Char.isDigit) 0, s.dropWhile Char.isDigit)

/-- A range and what is behind it: how many lines stand before the range, and how many are in it. -/
def range? (s : List Char) : Option ((Nat × Nat) × List Char) :=
  match number? s with
  | none => none
  | some (n, ',' :: r) => (number? r).map fun (length, r) => ((if length = 0 then n else n - 1, length), r)
  | some (n, r) => some ((n - 1, 1), r)

/-- The two ranges of the header of a hunk. -/
def header? (l : Line) : Option ((Nat × Nat) × (Nat × Nat)) := do
  let r ← Json.after? "@@ -".toList l
  let (left, r) ← range? r
  let r ← Json.after? " +".toList r
  let (right, r) ← range? r
  if r = " @@\n".toList then some (left, right) else none

/-- The next `n` lines before and `m` lines after a change, by their marks, and the lines behind these. -/
def body? : Nat → Nat → List Line → Option ((List Line × List Line) × List Line)
  | 0, 0, ls => some (([], []), ls)
  | n + 1, m + 1, (' ' :: l) :: ls => (body? n m ls).map fun x => ((l :: x.1.1, l :: x.1.2), x.2)
  | n + 1, m, ('-' :: l) :: ls => (body? n m ls).map fun x => ((l :: x.1.1, x.1.2), x.2)
  | n, m + 1, ('+' :: l) :: ls => (body? n m ls).map fun x => ((x.1.1, l :: x.1.2), x.2)
  | _, _, _ => none

/-- All hunks of some lines, `fuel` at most. -/
def replacements? : Nat → List Line → Option (List Replacement)
  | _, [] => some []
  | 0, _ :: _ => none
  | fuel + 1, l :: ls => do
    let (left, right) ← header? l
    let ((before, after), ls) ← body? left.2 right.2 ls
    let hs ← replacements? fuel ls
    return ⟨left.1, right.1, before, after⟩ :: hs

/-- The lines that hunks make of those behind the first `i`, which became `j`. -/
def replace? : Nat → Nat → List Line → List Replacement → Option (List Line)
  | _, _, ls, [] => some ls
  | i, j, ls, h :: hs =>
    let kept := h.left - i
    if i ≤ h.left ∧ h.right = j + kept ∧ kept ≤ ls.length ∧ h.before.isPrefixOf (ls.drop kept) then
      (replace? (h.left + h.before.length) (h.right + h.after.length) (ls.drop (kept + h.before.length)) hs).map
        fun rest => ls.take kept ++ (h.after ++ rest)
    else none

/-- What a unified diff makes of a text. -/
def patch? (diff old : List Char) : Option (List Char) :=
  match feedLines diff with
  | source :: target :: ls =>
    if "--- ".toList.isPrefixOf source ∧ "+++ ".toList.isPrefixOf target then
      (replacements? ls.length ls).bind fun hs => (replace? 0 0 (feedLines old) hs).map List.flatten
    else none
  | _ => none

/-! ## Hunks in their place -/

/-- A hunk as it is read back. -/
def Shown (h : Hunk Line) : Replacement := ⟨h.left, h.right, allBefore h.edits, allAfter h.edits⟩

theorem replace?_cons {i j : Nat} {ls new : List Line} {h : Replacement} {hs : List Replacement} :
    replace? i j ls (h :: hs) = some new ↔
      i ≤ h.left ∧ h.right = j + (h.left - i) ∧ ∃ kept behind rest, ls = kept ++ (h.before ++ behind) ∧
        kept.length = h.left - i ∧ new = kept ++ (h.after ++ rest) ∧
        replace? (h.left + h.before.length) (h.right + h.after.length) behind hs = some rest := by
  rw [replace?]
  constructor
  · intro hnew
    split at hnew
    · next hcond =>
      obtain ⟨hle, hright, hlength, hprefix⟩ := hcond
      obtain ⟨behind, hbehind⟩ := List.isPrefixOf_iff_prefix.mp hprefix
      obtain ⟨rest, hrest, rfl⟩ := Option.map_eq_some_iff.mp hnew
      refine ⟨hle, hright, ls.take (h.left - i), behind, rest, ?_, ?_, rfl, ?_⟩
      · rw [hbehind, List.take_append_drop]
      · rw [List.length_take, Nat.min_eq_left hlength]
      · rwa [← List.drop_drop, ← hbehind, List.drop_left] at hrest
    · cases hnew
  · rintro ⟨hle, hright, kept, behind, rest, rfl, hlength, rfl, hrest⟩
    rw [← hlength, List.drop_left, List.take_left, ← List.drop_drop, List.drop_left, List.drop_left, hrest, if_pos]
    · rfl
    · exact ⟨hle, by rw [hright, hlength], by rw [List.length_append]; omega,
        List.isPrefixOf_iff_prefix.mpr (List.prefix_append _ _)⟩

/-- Lines before the first hunk stay. -/
theorem replace?_skip {i j : Nat} {kept ls new : List Line} {hs : List Replacement}
    (h : replace? (i + kept.length) (j + kept.length) ls hs = some new) :
    replace? i j (kept ++ ls) hs = some (kept ++ new) := by
  cases hs with
  | nil =>
    cases h
    rfl
  | cons r hs =>
    obtain ⟨hle, hright, more, behind, rest, rfl, hlength, rfl, hrest⟩ := replace?_cons.mp h
    refine replace?_cons.mpr ⟨by omega, by omega, kept ++ more, behind, rest, ?_, ?_, ?_, hrest⟩
    · rw [List.append_assoc]
    · rw [List.length_append]
      omega
    · rw [List.append_assoc]

/-- Hunks that change nothing can be left out. -/
theorem replace?_filter {i j : Nat} {ls new : List Line} {p : Hunk Line → Bool} {hs : List (Hunk Line)}
    (hp : ∀ h, p h = false → allBefore h.edits = allAfter h.edits) (h : replace? i j ls (hs.map Shown) = some new) :
    replace? i j ls ((hs.filter p).map Shown) = some new := by
  induction hs generalizing i j ls new with
  | nil => exact h
  | cons r hs ih =>
    obtain ⟨hle, hright, kept, behind, rest, rfl, hlength, rfl, hrest⟩ := replace?_cons.mp h
    have hfiltered := ih hrest
    cases hpr : p r with
    | true =>
      rw [List.filter_cons_of_pos hpr]
      exact replace?_cons.mpr ⟨hle, hright, kept, behind, rest, rfl, hlength, rfl, hfiltered⟩
    | false =>
      have hsame : (Shown r).before = (Shown r).after := hp r hpr
      rw [← hsame] at hfiltered ⊢
      rw [List.filter_cons_of_neg (by rw [hpr]; exact Bool.false_ne_true), ← List.append_assoc, ← List.append_assoc]
      refine replace?_skip ?_
      rwa [List.length_append, hlength, ← Nat.add_assoc, ← Nat.add_assoc, Nat.add_sub_cancel' hle, ← hright]

/-- A hunk that begins where the lines begin. -/
theorem replace?_here (h : Replacement) {ls new : List Line} {hs : List Replacement} :
    replace? h.left h.right ls (h :: hs) = some new ↔ ∃ behind rest, ls = h.before ++ behind ∧ new = h.after ++ rest ∧
      replace? (h.left + h.before.length) (h.right + h.after.length) behind hs = some rest := by
  rw [replace?_cons]
  constructor
  · rintro ⟨-, -, kept, behind, rest, rfl, hlength, rfl, hrest⟩
    obtain rfl := List.eq_nil_of_length_eq_zero (hlength.trans (Nat.sub_self _))
    exact ⟨behind, rest, rfl, rfl, hrest⟩
  · rintro ⟨behind, rest, rfl, rfl, hrest⟩
    exact ⟨Nat.le_refl _, by rw [Nat.sub_self, Nat.add_zero], [], behind, rest, rfl, (Nat.sub_self _).symm, rfl, hrest⟩

/-- An edit more at the front of a hunk. -/
theorem replace?_consEdit {e : LineEdit Line} {h : Hunk Line} {hs : List Replacement} {i j : Nat} {ls new : List Line}
    (hleft : h.left = i + e.before.length) (hright : h.right = j + e.after.length)
    (hnew : replace? h.left h.right ls (Shown h :: hs) = some new) :
    replace? i j (e.before ++ ls) (Shown (Hunk.cons i j e h) :: hs) = some (e.after ++ new) := by
  obtain ⟨behind, rest, rfl, rfl, hrest⟩ := (replace?_here (Shown h)).mp hnew
  refine (replace?_here (Shown (Hunk.cons i j e h))).mpr ⟨behind, rest, (List.append_assoc _ _ _).symm, (List.append_assoc _ _ _).symm, ?_⟩
  show replace? (i + (e.before ++ (Shown h).before).length) (j + (e.after ++ (Shown h).after).length) behind hs = _
  rw [List.length_append, List.length_append, ← Nat.add_assoc, ← Nat.add_assoc, ← hleft, ← hright]
  exact hrest

/-! ## Hunks of edits -/

/-- Hunks that begin at given positions and make of some lines what some edits make of them. -/
def Performs (i j : Nat) (es : List (LineEdit Line)) (hs : List (Hunk Line)) : Prop :=
  replace? i j (allBefore es) (hs.map Shown) = some (allAfter es) ∧ ∃ h rest, hs = h :: rest ∧ h.left = i ∧ h.right = j

theorem Performs.cons {i j : Nat} {e : LineEdit Line} {es : List (LineEdit Line)} {h : Hunk Line} {hs : List (Hunk Line)}
    (hrest : Performs (i + e.before.length) (j + e.after.length) es (h :: hs)) :
    Performs i j (e :: es) (Hunk.cons i j e h :: hs) := by
  obtain ⟨hnew, _, _, heq, hleft, hright⟩ := hrest
  obtain ⟨rfl, rfl⟩ := List.cons.inj heq
  refine ⟨?_, _, _, rfl, rfl, rfl⟩
  rw [← hleft, ← hright] at hnew
  exact replace?_consEdit hleft hright hnew

theorem length_lastLines {ls : List α} (h : Hunk.context ≤ ls.length) :
    (Hunk.lastLines Hunk.context ls).length = Hunk.context := by
  rw [Hunk.lastLines, List.length_drop]
  omega

/-- A long stretch that stays is shown at its two ends only. -/
theorem Performs.gap {i j : Nat} {ls : List Line} {es : List (LineEdit Line)} {h : Hunk Line} {hs : List (Hunk Line)}
    (hlong : 2 * Hunk.context < ls.length) (hrest : Performs (i + ls.length) (j + ls.length) es (h :: hs)) :
    Performs i j (.keep ls :: es) (⟨i, j, [.keep (ls.take Hunk.context)]⟩ ::
      Hunk.cons (i + (ls.length - Hunk.context)) (j + (ls.length - Hunk.context))
        (.keep (Hunk.lastLines Hunk.context ls)) h :: hs) := by
  have hlast : (Hunk.lastLines Hunk.context ls).length = Hunk.context := length_lastLines (by omega)
  obtain ⟨middle, hls⟩ : ∃ middle, ls = ls.take Hunk.context ++ (middle ++ Hunk.lastLines Hunk.context ls) := by
    refine ⟨(ls.drop Hunk.context).take (ls.length - 2 * Hunk.context), ?_⟩
    rw [Hunk.lastLines, show ls.length - Hunk.context = Hunk.context + (ls.length - 2 * Hunk.context) by omega,
      ← List.drop_drop, List.take_append_drop, List.take_append_drop]
  have hfirst : (ls.take Hunk.context).length = Hunk.context := by
    rw [List.length_take]
    omega
  have hmiddle : ls.length - Hunk.context = Hunk.context + middle.length := by
    have hlength := congrArg List.length hls
    rw [List.length_append, List.length_append, hfirst, hlast] at hlength
    omega
  have hend : ∀ k, k + (ls.length - Hunk.context) + Hunk.context = k + ls.length := fun k => by omega
  have hshown : Performs (i + (ls.length - Hunk.context)) (j + (ls.length - Hunk.context))
      (.keep (Hunk.lastLines Hunk.context ls) :: es) (Hunk.cons (i + (ls.length - Hunk.context))
        (j + (ls.length - Hunk.context)) (.keep (Hunk.lastLines Hunk.context ls)) h :: hs) := by
    refine Performs.cons ?_
    show Performs (_ + (Hunk.lastLines Hunk.context ls).length) (_ + (Hunk.lastLines Hunk.context ls).length) es _
    rw [hlast, hend, hend]
    exact hrest
  refine ⟨?_, _, _, rfl, rfl, rfl⟩
  have hsplit : ∀ rest, ls ++ rest = allBefore [.keep (ls.take Hunk.context)] ++
      (middle ++ (Hunk.lastLines Hunk.context ls ++ rest)) := fun rest => by
    show _ = ls.take Hunk.context ++ [] ++ _
    rw [List.append_nil, ← List.append_assoc middle, ← List.append_assoc, ← hls]
  refine (replace?_here ⟨i, j, _, _⟩).mpr ⟨_, _, hsplit (allBefore es), hsplit (allAfter es), ?_⟩
  refine replace?_skip ?_
  show replace? (i + (ls.take Hunk.context ++ []).length + middle.length) (j + (ls.take Hunk.context ++ []).length + middle.length) _ _ = _
  rw [List.append_nil, hfirst, Nat.add_assoc, Nat.add_assoc, ← hmiddle]
  exact hshown.1

theorem performs_last (i j : Nat) (ls : List Line) :
    Performs i j [.keep ls] [⟨i, j, [.keep (ls.take Hunk.context)]⟩] := by
  have hsplit : allBefore [.keep ls] = (ls.take Hunk.context ++ []) ++ ls.drop Hunk.context := by
    rw [List.append_nil, List.take_append_drop]
    exact List.append_nil ls
  exact ⟨(replace?_here ⟨i, j, _, _⟩).mpr ⟨_, _, hsplit, hsplit, rfl⟩, _, _, rfl, rfl, rfl⟩

/-- Grouped edits make of the lines what the edits make of them. -/
theorem performs_group (i j : Nat) (es : List (LineEdit Line)) : Performs i j es (Hunk.group i j es) := by
  induction es generalizing i j with
  | nil => exact ⟨(replace?_here ⟨i, j, [], []⟩).mpr ⟨[], [], rfl, rfl, rfl⟩, _, _, rfl, rfl, rfl⟩
  | cons e es ih =>
    have hrest := ih (i + e.before.length) (j + e.after.length)
    obtain ⟨h, hs, hgroup, -, -⟩ := hrest.2
    rw [hgroup] at hrest
    cases e with
    | change removed added =>
      rw [Hunk.group, hgroup]
      exact hrest.cons
    | keep ls =>
      rw [Hunk.group, hgroup]
      dsimp only
      split
      · next hes =>
        obtain rfl := List.isEmpty_iff.mp hes
        exact performs_last i j ls
      · split
        · next hlong => exact hrest.gap hlong
        · exact hrest.cons

theorem allBefore_eq_allAfter {es : List (LineEdit Line)} (h : ∀ e ∈ es, e.isKeep) : allBefore es = allAfter es := by
  induction es with
  | nil => rfl
  | cons e es ih =>
    obtain ⟨he, hes⟩ := List.forall_mem_cons.mp h
    cases e with
    | keep ls => exact congrArg (ls ++ ·) (ih hes)
    | change removed added => cases he

/-- The hunks of some edits make of the lines before them the lines after. -/
theorem replace?_ofEdits (es : List (LineEdit Line)) :
    replace? 0 0 (allBefore es) ((Hunk.ofEdits es).map Shown) = some (allAfter es) := by
  have hkeeps : ∀ h : Hunk Line, (h.edits.any fun e => !e.isKeep) = false → allBefore h.edits = allAfter h.edits :=
    fun h hnone => allBefore_eq_allAfter fun e he => by simpa using List.any_eq_false.mp hnone e he
  unfold Hunk.ofEdits
  refine replace?_filter hkeeps ?_
  cases es with
  | nil => exact (performs_group 0 0 []).1
  | cons e es =>
    cases e with
    | change removed added => exact (performs_group 0 0 _).1
    | keep ls =>
      have hsplit : ∀ rest, ls ++ rest = ls.take (ls.length - Hunk.context) ++ (Hunk.lastLines Hunk.context ls ++ rest) :=
        fun rest => by rw [← List.append_assoc, Hunk.lastLines, List.take_append_drop]
      show replace? 0 0 (ls ++ allBefore es) _ = some (ls ++ allAfter es)
      rw [hsplit, hsplit]
      refine replace?_skip ?_
      rw [List.length_take, Nat.min_eq_left (Nat.sub_le _ _), Nat.zero_add]
      exact (performs_group _ _ (.keep (Hunk.lastLines Hunk.context ls) :: es)).1

/-! ## Lines -/

/-- A line that ends with its only line feed. -/
def IsLine (l : Line) : Prop := ∃ s, '\n' ∉ s ∧ l = s ++ ['\n']

theorem IsLine.cons {l : Line} (h : IsLine l) {c : Char} (hc : c ≠ '\n') : IsLine (c :: l) := by
  obtain ⟨s, hs, rfl⟩ := h
  refine ⟨c :: s, ?_, rfl⟩
  rw [List.mem_cons]
  rintro (rfl | h)
  · exact hc rfl
  · exact hs h

theorem feedLines_append {l : Line} (h : IsLine l) (r : List Char) : feedLines (l ++ r) = l :: feedLines r := by
  obtain ⟨s, hs, rfl⟩ := h
  induction s with
  | nil => rfl
  | cons c s ih =>
    rw [List.mem_cons, not_or] at hs
    rw [List.cons_append, List.cons_append, feedLines, if_neg (Ne.symm hs.1), ih hs.2]
    rfl

theorem feedLines_flatten {ls : List Line} (h : ∀ l ∈ ls, IsLine l) : feedLines ls.flatten = ls := by
  induction ls with
  | nil => rfl
  | cons l ls ih =>
    obtain ⟨hl, hls⟩ := List.forall_mem_cons.mp h
    rw [List.flatten_cons, feedLines_append hl, ih hls]

theorem flatten_consFirst (c : Char) (ls : List (List Char)) : (Lines.consFirst c ls).flatten = c :: ls.flatten := by
  cases ls <;> rfl

/-- The lines of a text joined are the text. -/
theorem flatten_split (s : List Char) : (Lines.split s).flatten = s := by
  fun_induction Lines.split s with
  | case1 => rfl
  | case2 r ih => rw [List.flatten_cons, ih]; rfl
  | case3 c r _ _ ih => rw [List.flatten_cons, ih]; rfl
  | case4 c r _ _ ih => rw [flatten_consFirst, ih]

/-- Only the last character of a line can be a line feed. -/
theorem mem_split {s : List Char} {l : Line} (h : l ∈ Lines.split s) : ∃ t c, l = t ++ [c] ∧ '\n' ∉ t := by
  fun_induction Lines.split s generalizing l with
  | case1 => cases h
  | case2 r ih =>
    rcases List.mem_cons.mp h with rfl | h
    · exact ⟨['\r'], '\n', rfl, by decide⟩
    · exact ih h
  | case3 c r _ _ ih =>
    rcases List.mem_cons.mp h with rfl | h
    · exact ⟨[], c, rfl, List.not_mem_nil⟩
    · exact ih h
  | case4 c r _ hc ih =>
    have hfeed : c ≠ '\n' := by
      rintro rfl
      exact hc (by decide)
    cases hsplit : Lines.split r with
    | nil =>
      rw [hsplit] at h
      obtain rfl := List.mem_singleton.mp h
      exact ⟨[], c, rfl, List.not_mem_nil⟩
    | cons m ms =>
      rw [hsplit] at h ih
      rcases List.mem_cons.mp h with rfl | h
      · obtain ⟨t, d, rfl, ht⟩ := ih List.mem_cons_self
        refine ⟨c :: t, d, rfl, ?_⟩
        rw [List.mem_cons, not_or]
        exact ⟨Ne.symm hfeed, ht⟩
      · exact ih (List.mem_cons_of_mem _ h)

/-- Whether every line of a text ends with a line feed: none is unfinished, and none has another end. -/
def EndsLines (s : List Char) : Prop := ∀ l ∈ Lines.split s, l.getLast? = some '\n'

instance (s : List Char) : Decidable (EndsLines s) := inferInstanceAs (Decidable (∀ l ∈ Lines.split s, _))

theorem EndsLines.isLine {s : List Char} (h : EndsLines s) {l : Line} (hl : l ∈ Lines.split s) : IsLine l := by
  obtain ⟨t, c, rfl, ht⟩ := mem_split hl
  have hc := h _ hl
  rw [List.getLast?_append] at hc
  obtain rfl : c = '\n' := Option.some.inj hc
  exact ⟨t, ht, rfl⟩

theorem EndsLines.feedLines {s : List Char} (h : EndsLines s) : feedLines s = Lines.split s := by
  rw [← flatten_split s, feedLines_flatten fun l hl => h.isLine hl, flatten_split]

/-! ## Headers -/

theorem toString_chars (n : Nat) : (toString n).toList = Nat.toDigits 10 n := by
  show n.repr.toList = _
  rw [Nat.repr_eq_ofList_toDigits, String.toList_ofList]

theorem number?_toString (n : Nat) {c : Char} (hc : c.isDigit = false) (r : List Char) :
    number? ((toString n).toList ++ c :: r) = some (n, c :: r) := by
  have hdigits : ∀ d ∈ Nat.toDigits 10 n, d.isDigit := fun d hd =>
    Nat.isDigit_of_mem_toDigits (by decide) (by decide) hd
  have htake : ((toString n).toList ++ c :: r).takeWhile Char.isDigit = Nat.toDigits 10 n := by
    rw [toString_chars, List.takeWhile_append_of_pos hdigits, List.takeWhile_cons, hc]
    exact List.append_nil _
  have hdrop : ((toString n).toList ++ c :: r).dropWhile Char.isDigit = c :: r := by
    rw [toString_chars, List.dropWhile_append_of_pos hdigits, List.dropWhile_cons, hc]
    rfl
  rw [number?, htake, hdrop, Nat.ofDigitChars_ten_toDigits, if_neg]
  rw [List.isEmpty_iff]
  exact Nat.toDigits_ne_nil

theorem range?_two (n length : Nat) (r : List Char) :
    range? ((toString n).toList ++ ',' :: ((toString length).toList ++ ' ' :: r)) =
      some ((if length = 0 then n else n - 1, length), ' ' :: r) := by
  rw [range?, number?_toString n (by decide)]
  show (number? ((toString length).toList ++ ' ' :: r)).map _ = _
  rw [number?_toString length (by decide)]
  rfl

theorem range?_rangeText (start length : Nat) (r : List Char) :
    range? ((rangeText start length).toList ++ ' ' :: r) = some ((start, length), ' ' :: r) := by
  unfold rangeText
  split
  · next hlength =>
    rw [range?, number?_toString (start + 1) (by decide), hlength]
    rfl
  · split
    · next hlength =>
      have htext := range?_two start 0 r
      rw [if_pos rfl] at htext
      rw [hlength, String.toList_append, List.append_assoc]
      exact htext
    · next hlength =>
      have htext := range?_two (start + 1) length r
      rw [if_neg hlength, Nat.add_sub_cancel] at htext
      rw [String.toList_append, String.toList_append, List.append_assoc, List.append_assoc]
      exact htext

theorem feed_not_mem_rangeText (start length : Nat) : '\n' ∉ (rangeText start length).toList := by
  have hnumber : ∀ n : Nat, '\n' ∉ (toString n).toList := fun n h => by
    rw [toString_chars] at h
    exact absurd (Nat.isDigit_of_mem_toDigits (by decide) (by decide) h) (by decide)
  unfold rangeText
  split
  · exact hnumber _
  · split
    · rw [String.toList_append, List.mem_append, not_or]
      exact ⟨hnumber _, by decide⟩
    · rw [String.toList_append, String.toList_append, List.mem_append, List.mem_append, not_or, not_or]
      exact ⟨⟨hnumber _, by decide⟩, hnumber _⟩

theorem headerText_chars (h : Hunk Line) : (headerText h).toList =
    "@@ -".toList ++ ((rangeText h.left h.leftLength).toList ++ (' ' :: '+' :: ((rangeText h.right h.rightLength).toList ++
      " @@\n".toList))) := by
  unfold headerText
  simp

theorem isLine_headerText (h : Hunk Line) : IsLine (headerText h).toList := by
  refine ⟨"@@ -".toList ++ ((rangeText h.left h.leftLength).toList ++ (' ' :: '+' ::
    ((rangeText h.right h.rightLength).toList ++ " @@".toList))), ?_, ?_⟩
  · have hleft := feed_not_mem_rangeText h.left h.leftLength
    have hright := feed_not_mem_rangeText h.right h.rightLength
    simp [hleft, hright]
  · rw [headerText_chars]
    simp

theorem after?_append (w s : List Char) : Json.after? w (w ++ s) = some s := by
  induction w with
  | nil => cases s <;> rfl
  | cons c w ih => rw [List.cons_append, Json.after?, if_pos rfl, ih]

theorem header?_headerText (h : Hunk Line) :
    header? (headerText h).toList = some ((h.left, h.leftLength), (h.right, h.rightLength)) := by
  rw [headerText_chars, header?, after?_append]
  show (range? ((rangeText h.left h.leftLength).toList ++ ' ' :: '+' :: ((rangeText h.right h.rightLength).toList ++ " @@\n".toList)) >>= _) = _
  rw [range?_rangeText]
  show (range? ((rangeText h.right h.rightLength).toList ++ ' ' :: ['@', '@', '\n']) >>= _) = _
  rw [range?_rangeText]
  rfl

/-! ## Bodies -/

/-- The lines that an edit is written in. -/
def editLines : LineEdit Line → List Line
  | .keep ls => ls.map (' ' :: ·)
  | .change removed added => removed.map ('-' :: ·) ++ added.map ('+' :: ·)

theorem flatten_editLines (e : LineEdit Line) : (editLines e).flatten = editText e := by
  have hmarked : ∀ (mark : Char) (ls : List Line), (ls.map (mark :: ·)).flatten = marked mark ls := fun mark ls =>
    (List.flatMap_def).symm
  cases e with
  | keep ls => exact hmarked ' ' ls
  | change removed added => rw [editLines, List.flatten_append, hmarked, hmarked, editText]

theorem body?_keep (ls : List Line) (n m : Nat) (rest : List Line) :
    body? (ls.length + n) (ls.length + m) (ls.map (' ' :: ·) ++ rest) =
      (body? n m rest).map fun x => ((ls ++ x.1.1, ls ++ x.1.2), x.2) := by
  induction ls with
  | nil =>
    rw [List.length_nil, Nat.zero_add, Nat.zero_add]
    exact Option.map_id'.symm
  | cons l ls ih =>
    rw [List.length_cons, Nat.succ_add_eq_add_succ, Nat.succ_add_eq_add_succ, List.map_cons, List.cons_append]
    show body? (ls.length + n + 1) (ls.length + m + 1) _ = _
    rw [body?, ih, Option.map_map]
    rfl

theorem body?_removed (ls : List Line) (n m : Nat) (rest : List Line) :
    body? (ls.length + n) m (ls.map ('-' :: ·) ++ rest) =
      (body? n m rest).map fun x => ((ls ++ x.1.1, x.1.2), x.2) := by
  induction ls with
  | nil =>
    rw [List.length_nil, Nat.zero_add]
    exact Option.map_id'.symm
  | cons l ls ih =>
    rw [List.length_cons, Nat.succ_add_eq_add_succ, List.map_cons, List.cons_append]
    show body? (ls.length + n + 1) m _ = _
    rw [body?, ih, Option.map_map]
    rfl

theorem body?_added (ls : List Line) (n m : Nat) (rest : List Line) :
    body? n (ls.length + m) (ls.map ('+' :: ·) ++ rest) =
      (body? n m rest).map fun x => ((x.1.1, ls ++ x.1.2), x.2) := by
  induction ls with
  | nil =>
    rw [List.length_nil, Nat.zero_add]
    exact Option.map_id'.symm
  | cons l ls ih =>
    rw [List.length_cons, Nat.succ_add_eq_add_succ, List.map_cons, List.cons_append]
    show body? n (ls.length + m + 1) _ = _
    rw [body?, ih, Option.map_map]
    rfl

/-- The lines of edits are read back up to their end. -/
theorem body?_editLines (es : List (LineEdit Line)) (rest : List Line) :
    body? (allBefore es).length (allAfter es).length (es.flatMap editLines ++ rest) =
      some ((allBefore es, allAfter es), rest) := by
  induction es with
  | nil =>
    show body? 0 0 rest = _
    rw [body?]
    rfl
  | cons e es ih =>
    have hbefore : allBefore (e :: es) = e.before ++ allBefore es := rfl
    have hafter : allAfter (e :: es) = e.after ++ allAfter es := rfl
    rw [hbefore, hafter, List.length_append, List.length_append, List.flatMap_cons, List.append_assoc]
    cases e with
    | keep ls =>
      rw [before, after, editLines, body?_keep, ih]
      rfl
    | change removed added =>
      rw [before, after, editLines, List.append_assoc, body?_removed, body?_added, ih]
      rfl

/-! ## Hunks as text -/

/-- The lines that a hunk is written in. -/
def hunkLines (h : Hunk Line) : List Line := (headerText h).toList :: h.edits.flatMap editLines

theorem flatten_flatMap_editLines (es : List (LineEdit Line)) :
    (es.flatMap editLines).flatten = es.flatMap editText := by
  induction es with
  | nil => rfl
  | cons e es ih => rw [List.flatMap_cons, List.flatten_append, flatten_editLines, ih, List.flatMap_cons]

theorem hunkText_chars (h : Hunk Line) : (hunkText h).toList = (hunkLines h).flatten := by
  rw [hunkText, String.toList_append, String.toList_ofList, hunkLines, List.flatten_cons, flatten_flatMap_editLines]

theorem foldl_length {β : Type} (f : β → List α) (es : List β) (n : Nat) :
    es.foldl (fun n e => n + (f e).length) n = n + (es.flatMap f).length := by
  induction es generalizing n with
  | nil => rfl
  | cons e es ih => rw [List.foldl_cons, ih, List.flatMap_cons, List.length_append, Nat.add_assoc]

theorem leftLength_eq (h : Hunk Line) : h.leftLength = (allBefore h.edits).length :=
  (foldl_length before h.edits 0).trans (Nat.zero_add _)

theorem rightLength_eq (h : Hunk Line) : h.rightLength = (allAfter h.edits).length :=
  (foldl_length after h.edits 0).trans (Nat.zero_add _)

/-- The hunks are read back from their lines. -/
theorem replacements?_hunkLines {fuel : Nat} {hs : List (Hunk Line)} (hfuel : hs.length ≤ fuel) :
    replacements? fuel (hs.flatMap hunkLines) = some (hs.map Shown) := by
  induction hs generalizing fuel with
  | nil => cases fuel <;> rfl
  | cons h hs ih =>
    obtain ⟨fuel, rfl⟩ := Nat.exists_eq_add_one.mpr (Nat.lt_of_lt_of_le (Nat.succ_pos _) hfuel)
    rw [List.flatMap_cons, hunkLines, List.cons_append, replacements?, header?_headerText]
    show (body? h.leftLength h.rightLength (h.edits.flatMap editLines ++ hs.flatMap hunkLines) >>= _) = _
    rw [leftLength_eq, rightLength_eq, body?_editLines]
    show (replacements? fuel (hs.flatMap hunkLines) >>= _) = _
    rw [ih (Nat.le_of_succ_le_succ hfuel)]
    rfl

/-! ## Lines of hunks -/

/-- Whether all lines of an edit are of some kind. -/
def Shows (P : Line → Prop) (e : LineEdit Line) : Prop := (∀ l ∈ e.before, P l) ∧ ∀ l ∈ e.after, P l

theorem shows_keep {P : Line → Prop} {ls : List Line} : Shows P (.keep ls) ↔ ∀ l ∈ ls, P l := and_self_iff

theorem shows_cons {P : Line → Prop} {e : LineEdit Line} {h : Hunk Line} {hs : List (Hunk Line)} (he : Shows P e)
    (hrest : ∀ k ∈ h :: hs, ∀ e ∈ k.edits, Shows P e) (i j : Nat) :
    ∀ k ∈ Hunk.cons i j e h :: hs, ∀ e ∈ k.edits, Shows P e := by
  obtain ⟨hh, hhs⟩ := List.forall_mem_cons.mp hrest
  exact List.forall_mem_cons.mpr ⟨List.forall_mem_cons.mpr ⟨he, hh⟩, hhs⟩

theorem shows_group {P : Line → Prop} {es : List (LineEdit Line)} (hes : ∀ e ∈ es, Shows P e) (i j : Nat) :
    ∀ h ∈ Hunk.group i j es, ∀ e ∈ h.edits, Shows P e := by
  induction es generalizing i j with
  | nil => exact List.forall_mem_singleton.mpr (List.forall_mem_nil _)
  | cons e es ih =>
    obtain ⟨he, hes⟩ := List.forall_mem_cons.mp hes
    have hrest := ih hes (i + e.before.length) (j + e.after.length)
    obtain ⟨h, hs, hgroup, -, -⟩ := (performs_group (i + e.before.length) (j + e.after.length) es).2
    rw [hgroup] at hrest
    cases e with
    | change removed added =>
      rw [Hunk.group, hgroup]
      exact shows_cons he hrest i j
    | keep ls =>
      have hls := shows_keep.mp he
      have hfirst : Shows P (.keep (ls.take Hunk.context)) := shows_keep.mpr fun l hl => hls l (List.mem_of_mem_take hl)
      have hlast : Shows P (.keep (Hunk.lastLines Hunk.context ls)) :=
        shows_keep.mpr fun l hl => hls l (List.mem_of_mem_drop hl)
      rw [Hunk.group, hgroup]
      dsimp only
      split
      · exact List.forall_mem_singleton.mpr (List.forall_mem_singleton.mpr hfirst)
      · split
        · exact List.forall_mem_cons.mpr ⟨List.forall_mem_singleton.mpr hfirst, shows_cons hlast hrest _ _⟩
        · exact shows_cons he hrest i j

/-- The hunks of edits show lines of the edits only. -/
theorem shows_ofEdits {P : Line → Prop} {es : List (LineEdit Line)} (hes : ∀ e ∈ es, Shows P e) :
    ∀ h ∈ Hunk.ofEdits es, ∀ e ∈ h.edits, Shows P e := by
  intro h hh
  have hmem := (List.mem_filter.mp hh).1
  cases es with
  | nil => exact shows_group hes _ _ h hmem
  | cons e es =>
    obtain ⟨he, hes'⟩ := List.forall_mem_cons.mp hes
    cases e with
    | change removed added => exact shows_group hes _ _ h hmem
    | keep ls =>
      have hlast : Shows P (.keep (Hunk.lastLines Hunk.context ls)) :=
        shows_keep.mpr fun l hl => shows_keep.mp he l (List.mem_of_mem_drop hl)
      exact shows_group (List.forall_mem_cons.mpr ⟨hlast, hes'⟩) _ _ h hmem

theorem isLine_hunkLines {h : Hunk Line} (hh : ∀ e ∈ h.edits, Shows IsLine e) : ∀ l ∈ hunkLines h, IsLine l := by
  refine List.forall_mem_cons.mpr ⟨isLine_headerText h, fun l hl => ?_⟩
  obtain ⟨e, he, hl⟩ := List.mem_flatMap.mp hl
  obtain ⟨hbefore, hafter⟩ := hh e he
  cases e with
  | keep ls =>
    obtain ⟨m, hm, rfl⟩ := List.mem_map.mp hl
    exact (hbefore m hm).cons (by decide)
  | change removed added =>
    rcases List.mem_append.mp hl with hl | hl
    · obtain ⟨m, hm, rfl⟩ := List.mem_map.mp hl
      exact (hbefore m hm).cons (by decide)
    · obtain ⟨m, hm, rfl⟩ := List.mem_map.mp hl
      exact (hafter m hm).cons (by decide)

/-! ## Patches -/

/-- The hunks between two texts. -/
def hunksOf (old new : List Char) : List (Hunk Line) := Hunk.ofEdits (script (Lines.split old) (Lines.split new))

theorem replace?_hunksOf (old new : List Char) :
    replace? 0 0 (Lines.split old) ((hunksOf old new).map Shown) = some (Lines.split new) := by
  have h := replace?_ofEdits (script (Lines.split old) (Lines.split new))
  rwa [script_before, script_after] at h

theorem isLine_hunksOf {old new : List Char} (hold : EndsLines old) (hnew : EndsLines new) :
    ∀ l ∈ (hunksOf old new).flatMap hunkLines, IsLine l := by
  have hscript : ∀ e ∈ script (Lines.split old) (Lines.split new), Shows IsLine e := by
    refine fun e he => ⟨fun l hl => hold.isLine ?_, fun l hl => hnew.isLine ?_⟩
    · rw [← script_before (Lines.split old) (Lines.split new)]
      exact List.mem_flatMap.mpr ⟨e, he, hl⟩
    · rw [← script_after (Lines.split old) (Lines.split new)]
      exact List.mem_flatMap.mpr ⟨e, he, hl⟩
  intro l hl
  obtain ⟨h, hh, hl⟩ := List.mem_flatMap.mp hl
  exact isLine_hunkLines (shows_ofEdits hscript h hh) l hl

theorem length_le_hunkLines (hs : List (Hunk Line)) : hs.length ≤ (hs.flatMap hunkLines).length := by
  induction hs with
  | nil => exact Nat.le_refl 0
  | cons h hs ih =>
    rw [List.length_cons, List.flatMap_cons, List.length_append, hunkLines, List.length_cons]
    omega

/-- A diff whose lines are those of some hunks, behind its two names, puts the hunks in their place. -/
theorem patch?_eq {diff : List Char} {source target : Line} {hs : List (Hunk Line)}
    (hlines : feedLines diff = source :: target :: hs.flatMap hunkLines) (hsource : "--- ".toList.isPrefixOf source)
    (htarget : "+++ ".toList.isPrefixOf target) (old : List Char) :
    patch? diff old = (replace? 0 0 (feedLines old) (hs.map Shown)).map List.flatten := by
  unfold patch?
  rw [hlines]
  dsimp only
  rw [if_pos ⟨hsource, htarget⟩, replacements?_hunkLines (length_le_hunkLines hs)]
  rfl

theorem join_hunkTexts (hs : List (Hunk Line)) :
    (String.join (hs.map hunkText)).toList = (hs.flatMap hunkLines).flatten := by
  rw [String.toList_join]
  induction hs with
  | nil => rfl
  | cons h hs ih => rw [List.map_cons, List.flatMap_cons, ih, hunkText_chars, List.flatMap_cons, List.flatten_append]

theorem text_chars (path : String) {old new : List Char} (hne : old ≠ new) :
    (text path old new).toList = ("--- a/" ++ path ++ "\n").toList ++ (("+++ b/" ++ path ++ "\n").toList ++
      ((hunksOf old new).flatMap hunkLines).flatten) := by
  have hhunks : hunksOf old new ≠ [] := by
    intro hnone
    have h := replace?_hunksOf old new
    rw [hnone] at h
    have hlines : Lines.split old = Lines.split new := Option.some.inj h
    apply hne
    rw [← flatten_split old, hlines, flatten_split]
  unfold text
  dsimp only
  rw [if_neg (by rwa [List.isEmpty_iff]), String.toList_append, join_hunkTexts, ← List.append_assoc]
  congr 1
  simp

/-- What a unified diff says of two texts with whole lines is what makes one of the other. -/
theorem patch?_text {path : String} (hpath : '\n' ∉ path.toList) {old new : List Char} (hold : EndsLines old)
    (hnew : EndsLines new) (hne : old ≠ new) : patch? (text path old new).toList old = some new := by
  have hsource : IsLine ("--- a/" ++ path ++ "\n").toList := ⟨("--- a/" ++ path).toList, by simp [hpath], by simp⟩
  have htarget : IsLine ("+++ b/" ++ path ++ "\n").toList := ⟨("+++ b/" ++ path).toList, by simp [hpath], by simp⟩
  have hlines := text_chars path hne
  have hfeed : feedLines (text path old new).toList = ("--- a/" ++ path ++ "\n").toList ::
      ("+++ b/" ++ path ++ "\n").toList :: (hunksOf old new).flatMap hunkLines := by
    rw [hlines, feedLines_append hsource, feedLines_append htarget, feedLines_flatten (isLine_hunksOf hold hnew)]
  have hminus : "--- ".toList.isPrefixOf ("--- a/" ++ path ++ "\n").toList := by
    rw [String.append_assoc, String.toList_append]
    rfl
  have hplus : "+++ ".toList.isPrefixOf ("+++ b/" ++ path ++ "\n").toList := by
    rw [String.append_assoc, String.toList_append]
    rfl
  rw [patch?_eq hfeed hminus hplus, hold.feedLines, replace?_hunksOf]
  exact congrArg some (flatten_split new)

end GoSplice.UnifiedDiff
