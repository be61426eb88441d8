import GoSplice.Proofs.Spellings

/-!
# Words of type names

A run of capitals in a type name is one word, except for its last letter when a letter that is no
capital follows it.  So a word begins at the first capital of a run, and at the last one before such a
letter:

    words SomeHTTPThing = Some HTTP Thing

A spelling marks the second of these places only, and takes a separator off its front whether or not it
was put there.  It is that of the words where the two places are one, and nothing else is taken off:

    spellChars name separator = unprefixed (the joined parts between the marks)           (spellChars_eq)
    spell name separator = spellWords name separator ↔
      separator = "" ∨ LoneCapitals name ∧ no separator is taken from the first word      (spell_words)
-/

namespace GoSplice.TypeName

open Text

/-! ## Words -/

/-- Whether the next letter is there and is no capital. -/
def isFollowed (next : Option Char) : Bool := next.any (!isUpper ·)

/-- Whether a word begins at a letter, behind the one before it: at a capital behind a letter that is none,
or before one. -/
def beginsWord (before c : Char) (next : Option Char) : Bool :=
  isUpper c && (!isUpper before || isFollowed next)

/-- Whether a spelling has a separator before a letter: at a capital before a letter that is none. -/
def isMarked (c : Char) (next : Option Char) : Bool := isUpper c && isFollowed next

/-- The parts of a name, cut before each letter at which a part begins. -/
def cut (begins : Char → Char → Option Char → Bool) : List Char → List (List Char)
  | [] => []
  | c :: r =>
    match r, cut begins r with
    | d :: r, w :: ws => if begins c d r.head? then [c] :: w :: ws else (c :: w) :: ws
    | _, _ => [[c]]

/-- The words of a type name. -/
def words (name : List Char) : List (List Char) := cut beginsWord name

/-- The parts of a type name between its marks. -/
def markedParts (name : List Char) : List (List Char) := cut (fun _ => isMarked) name

/-- Parts in lower case with a separator between them. -/
def joined (separator : List Char) (parts : List (List Char)) : List Char :=
  separator.intercalate (parts.map fun w => w.flatMap lowerChar)

/-- The words of a type name in lower case, with a separator between them. -/
def spellWords (name separator : String) : String :=
  String.ofList (joined separator.toList (words name.toList))

variable {begins : Char → Char → Option Char → Bool} {separator : List Char}

theorem cut_ne_nil (begins : Char → Char → Option Char → Bool) (c : Char) (r : List Char) :
    cut begins (c :: r) ≠ [] := by
  unfold cut
  split
  · split <;> simp
  · simp

theorem cut_cons (c d : Char) (r : List Char) : ∃ w ws, cut begins (d :: r) = w :: ws ∧
    cut begins (c :: d :: r) = if begins c d r.head? then [c] :: w :: ws else (c :: w) :: ws := by
  obtain ⟨w, ws, hrest⟩ := List.exists_cons_of_ne_nil (cut_ne_nil begins d r)
  refine ⟨w, ws, hrest, ?_⟩
  rw [cut.eq_def begins (c :: d :: r)]
  simp only [hrest]

/-- The parts are the name cut to pieces. -/
theorem flatten_cut (begins : Char → Char → Option Char → Bool) (name : List Char) :
    (cut begins name).flatten = name := by
  induction name with
  | nil => rfl
  | cons c r ih =>
    cases r with
    | nil => rfl
    | cons d r =>
      obtain ⟨w, ws, hrest, hcut⟩ := @cut_cons begins c d r
      rw [hrest] at ih
      rw [hcut, ← ih]
      split <;> rfl

example : words "SomeHTTPThing".toList = ["Some".toList, "HTTP".toList, "Thing".toList] := by decide

/-! ## Joined parts -/

/-- Letters in lower case, behind the one before them, with a separator before those at which a part begins. -/
def marked (begins : Char → Char → Option Char → Bool) (separator : List Char) (before : Char) : List Char → List Char
  | [] => []
  | c :: r => (if begins before c r.head? then separator else []) ++ lowerChar c ++ marked begins separator c r

theorem joined_cons (separator a : List Char) (ws : List (List Char)) (c : Char) :
    joined separator ((c :: a) :: ws) = lowerChar c ++ joined separator (a :: ws) := by
  cases ws with
  | nil => simp [joined]
  | cons w ws => simp [joined, List.intercalate_cons_cons]

theorem joined_cut (c : Char) (r : List Char) :
    joined separator (cut begins (c :: r)) = lowerChar c ++ marked begins separator c r := by
  induction r generalizing c with
  | nil => simp [joined, cut, marked]
  | cons d r ih =>
    obtain ⟨w, ws, hrest, hcut⟩ := @cut_cons begins c d r
    have ih := ih d
    rw [hrest] at ih
    rw [hcut, marked]
    split
    · have hfirst : joined separator ([c] :: w :: ws) = lowerChar c ++ separator ++ joined separator (w :: ws) := by
        simp [joined, List.intercalate_cons_cons]
      rw [hfirst, ih]
      simp
    · rw [joined_cons, ih]
      simp

/-! ## Spellings -/

theorem flatten_singles (text : List Char) : (text.map fun x => [x]).flatten = text := by
  induction text with
  | nil => rfl
  | cons x text ih => simp [ih]

/-- What is spelled behind a letter: the separator, if there is one before it, goes before its piece. -/
theorem flatten_foldl_step (before : List (List Char)) (c : Char) (r : List Char) :
    (r.foldl (step separator) ⟨lowerChar c :: before, some c⟩).pieces.reverse.flatten =
      before.reverse.flatten ++ (if isMarked c r.head? then separator else []) ++ lowerChar c ++
        marked (fun _ => isMarked) separator c r := by
  induction r generalizing before c with
  | nil => simp [isMarked, isFollowed, marked]
  | cons d r ih =>
    have hmarked : isMarked c (some d) = (!isUpper d && isUpper c) := Bool.and_comm _ _
    rw [List.foldl_cons, List.head?_cons, hmarked, marked]
    by_cases hbegins : (!isUpper d && isUpper c) = true
    · have hstep : step separator ⟨lowerChar c :: before, some c⟩ d =
          ⟨lowerChar d :: lowerChar c :: ((separator.map fun x => [x]).reverse ++ before), some d⟩ := by
        simp [step, hbegins]
      rw [hstep, ih, if_pos hbegins]
      simp [flatten_singles]
    · have hstep : step separator ⟨lowerChar c :: before, some c⟩ d =
          ⟨lowerChar d :: lowerChar c :: before, some d⟩ := by
        simp [step, hbegins]
      rw [hstep, ih, if_neg hbegins]
      simp

/-- Whether a spelling begins with a separator, which is taken off again. -/
def startsMarked : List Char → Bool
  | [] => false
  | c :: r => isMarked c r.head?

/-- A spelling is that of the parts between the marks.  Where there is no mark at the front, what looks like a
separator there is taken off. -/
theorem spellChars_eq (name separator : List Char) : spellChars name separator =
    if startsMarked name ∨ ¬ separator <+: joined separator (markedParts name) then joined separator (markedParts name)
    else (joined separator (markedParts name)).drop separator.length := by
  cases name with
  | nil => cases separator <;> simp [spellChars, joined, markedParts, cut]
  | cons c r =>
    have hfirst : step separator ⟨[], none⟩ c = ⟨[lowerChar c], some c⟩ := by simp [step]
    have htext : ((c :: r).foldl (step separator) ⟨[], none⟩).pieces.reverse.flatten =
        (if isMarked c r.head? then separator else []) ++ joined separator (markedParts (c :: r)) := by
      rw [List.foldl_cons, hfirst, flatten_foldl_step, markedParts, joined_cut]
      simp
    unfold spellChars
    dsimp only
    rw [htext, startsMarked]
    by_cases hmark : isMarked c r.head? = true
    · simp [hmark]
    · simp only [hmark, Bool.false_eq_true, if_false, List.nil_append, false_or, List.isPrefixOf_iff_prefix]
      split <;> simp_all

/-! ## Spellings of words -/

/-- Whether each capital behind a letter that is none is followed by such a letter, too. -/
def LoneCapitals (name : List Char) : Prop :=
  ∀ front b c r, name = front ++ b :: c :: r → isUpper b = false → isUpper c → isFollowed r.head?

theorem loneCapitals_cons (b c : Char) (r : List Char) : LoneCapitals (b :: c :: r) ↔
    (isUpper b = false → isUpper c → isFollowed r.head?) ∧ LoneCapitals (c :: r) := by
  constructor
  · intro h
    refine ⟨h [] b c r rfl, fun front b' c' r' heq => h (b :: front) b' c' r' ?_⟩
    rw [heq]
    rfl
  · rintro ⟨hfirst, hrest⟩ front b' c' r' heq
    cases front with
    | nil =>
      obtain ⟨hb, heq⟩ := List.cons.inj heq
      obtain ⟨hc, hr⟩ := List.cons.inj heq
      rw [← hb, ← hc, ← hr]
      exact hfirst
    | cons a front => exact hrest front b' c' r' (List.cons.inj heq).2

theorem loneCapitals_short (name : List Char) (h : name.length ≤ 1) : LoneCapitals name := by
  intro front b c r heq
  rw [heq] at h
  simp at h
  omega

theorem isMarked_iff {c : Char} {next : Option Char} : isMarked c next ↔ isUpper c ∧ isFollowed next := by
  unfold isMarked
  exact Bool.and_eq_true_iff

/-- A mark is the beginning of a word. -/
theorem beginsWord_of_isMarked {before c : Char} {next : Option Char} (h : isMarked c next) :
    beginsWord before c next := by
  obtain ⟨hc, hnext⟩ := isMarked_iff.mp h
  simp [beginsWord, hc, hnext]

/-- Behind a letter that is no mark, none begins a word where capitals stand alone. -/
theorem beginsWord_iff {b c : Char} {next : Option Char} (hmark : isMarked c next ≠ true) :
    beginsWord b c next ↔ ¬ (isUpper b = false → isUpper c → isFollowed next) := by
  simp only [beginsWord, Bool.and_eq_true, Bool.or_eq_true, Bool.not_eq_true', Classical.not_imp]
  rw [ne_eq, isMarked_iff] at hmark
  constructor
  · rintro ⟨hc, hb | hnext⟩
    · exact ⟨hb, hc, fun hnext => hmark ⟨hc, hnext⟩⟩
    · exact absurd ⟨hc, hnext⟩ hmark
  · rintro ⟨hb, hc, -⟩
    exact ⟨hc, .inl hb⟩

/-- Words have no less separators than marks, and as many only where all words begin at marks. -/
theorem length_marked (hseparator : separator ≠ []) (b : Char) (r : List Char) :
    (marked (fun _ => isMarked) separator b r).length ≤ (marked beginsWord separator b r).length ∧
    ((marked (fun _ => isMarked) separator b r).length = (marked beginsWord separator b r).length ↔
      LoneCapitals (b :: r)) := by
  have hpos : 0 < separator.length := List.length_pos_iff.mpr hseparator
  induction r generalizing b with
  | nil => exact ⟨Nat.le_refl _, iff_of_true rfl (loneCapitals_short [b] (Nat.le_refl 1))⟩
  | cons c r ih =>
    obtain ⟨hle, heq⟩ := ih c
    rw [loneCapitals_cons, ← heq, marked, marked]
    simp only [List.length_append]
    by_cases hmark : isMarked c r.head? = true
    · have hlone : isUpper b = false → isUpper c → isFollowed r.head? := fun _ _ => (isMarked_iff.mp hmark).2
      rw [if_pos hmark, if_pos (beginsWord_of_isMarked hmark), and_iff_right hlone]
      omega
    · have hword := beginsWord_iff (b := b) hmark
      rw [if_neg hmark]
      by_cases hlone : isUpper b = false → isUpper c → isFollowed r.head?
      · rw [if_neg fun h => hword.mp h hlone, and_iff_right hlone]
        omega
      · rw [if_pos (hword.mpr hlone), List.length_nil]
        refine ⟨by omega, iff_of_false (by omega) fun h => hlone h.1⟩

/-- Where capitals stand alone, marks and words are the same. -/
theorem marked_of_loneCapitals (b : Char) (r : List Char) (hlone : LoneCapitals (b :: r)) :
    marked (fun _ => isMarked) separator b r = marked beginsWord separator b r := by
  induction r generalizing b with
  | nil => rfl
  | cons c r ih =>
    obtain ⟨hfirst, hrest⟩ := (loneCapitals_cons b c r).mp hlone
    rw [marked, marked, ih c hrest]
    by_cases hmark : isMarked c r.head? = true
    · rw [if_pos hmark, if_pos (beginsWord_of_isMarked hmark)]
    · rw [if_neg hmark, if_neg fun hword => (beginsWord_iff hmark).mp hword hfirst]

/-- Without a separator, nothing is seen of the marks and the words. -/
theorem marked_nil (b : Char) (r : List Char) : marked begins [] b r = r.flatMap lowerChar := by
  induction r generalizing b with
  | nil => rfl
  | cons c r ih => simp [marked, ih]

/-- The parts between marks have no longer spelling than the words, and the same one where capitals stand alone. -/
theorem joined_markedParts (hseparator : separator ≠ []) (name : List Char) :
    (joined separator (markedParts name)).length ≤ (joined separator (words name)).length ∧
    (joined separator (markedParts name) = joined separator (words name) ↔ LoneCapitals name) := by
  cases name with
  | nil => exact ⟨Nat.le_refl _, iff_of_true rfl (loneCapitals_short [] (Nat.zero_le 1))⟩
  | cons c r =>
    obtain ⟨hle, heq⟩ := length_marked hseparator c r
    simp only [markedParts, words, joined_cut, List.length_append, List.append_cancel_left_eq]
    refine ⟨by omega, fun h => heq.mp (congrArg List.length h), marked_of_loneCapitals c r⟩

theorem joined_nil (name : List Char) : joined [] (markedParts name) = joined [] (words name) := by
  cases name with
  | nil => rfl
  | cons c r => rw [markedParts, words, joined_cut, joined_cut, marked_nil, marked_nil]

theorem spellChars_words (name separator : List Char) : spellChars name separator = joined separator (words name) ↔
    separator = [] ∨ LoneCapitals name ∧ (startsMarked name ∨ ¬ separator <+: joined separator (words name)) := by
  rw [spellChars_eq]
  by_cases hseparator : separator = []
  · subst hseparator
    simp [joined_nil]
  · obtain ⟨hle, heq⟩ := joined_markedParts hseparator name
    have hpos : 0 < separator.length := List.length_pos_iff.mpr hseparator
    rw [or_iff_right hseparator]
    split
    · rename_i hkept
      constructor
      · intro h
        exact ⟨heq.mp h, h ▸ hkept⟩
      · exact fun h => heq.mpr h.1
    · rename_i hstripped
      rw [not_or, not_not] at hstripped
      obtain ⟨hstart, hprefix⟩ := hstripped
      refine iff_of_false (fun h => ?_) fun h => ?_
      · have hlength := congrArg List.length h
        have hfront := hprefix.length_le
        rw [List.length_drop] at hlength
        omega
      · obtain ⟨hlone, hstart' | hnone⟩ := h
        · exact hstart hstart'
        · exact hnone (heq.mpr hlone ▸ hprefix)

/-- A type name is spelled in the parts between its marks, less a separator that looks to be in front.  These are
its words if there is no separator, or each capital behind a letter that is none has such a letter behind it and no
separator is taken from the first word. -/
theorem spell_words (name separator : String) :
    spell name separator = String.ofList (
      if startsMarked name.toList ∨ ¬ separator.toList <+: joined separator.toList (markedParts name.toList) then
        joined separator.toList (markedParts name.toList)
      else (joined separator.toList (markedParts name.toList)).drop separator.toList.length) ∧
    (spell name separator = spellWords name separator ↔
      separator = "" ∨ LoneCapitals name.toList ∧
        (startsMarked name.toList ∨ ¬ separator.toList <+: (spellWords name separator).toList)) := by
  refine ⟨congrArg String.ofList (spellChars_eq name.toList separator.toList), ?_⟩
  have hempty : separator = "" ↔ separator.toList = [] := String.toList_eq_nil_iff.symm
  rw [hempty, spell, spellWords, String.ofList_inj, String.toList_ofList]
  exact spellChars_words name.toList separator.toList

example : spell "SomeHTTPThing" "-" = "somehttp-thing" ∧ spellWords "SomeHTTPThing" "-" = "some-http-thing" := by
  decide

end GoSplice.TypeName
