import GoSplice.Proofs.Literals
import GoSplice.Proofs.Stages

/-!
# Stretches in other surroundings

Sound stretches are cut the same way before another text, if it ends their line
or goes on with the separator that was behind them:

    lexemes (texts ls ++ x) = ls ++ ms → EndsAlike x y →
      lexemes (texts ls ++ y) = ls ++ lexemes y   (lexemes_keepsLine)

A slash before a star is an operator if nothing ends the comment, so such a
stretch (`opensComment`) needs a text behind it that does not end it either.
-/

namespace GoSplice.Syntax

/-- Whether the stretch is what its characters say. -/
def LexemeClass.isSound : LexemeClass → Bool
  | .token k => k.isSound
  | _ => true

/-! ## The ways to measure a stretch -/

section Measure

theorem isInlineBlank_lineEnd : isInlineBlank '\n' = false := by decide

theorem measure_blank {c : Char} (h : isInlineBlank c) (r : List Char) :
    measure c r = (.blank, (r.takeWhile isInlineBlank).length) := by
  have hc : c ≠ '\n' := by
    rintro rfl
    rw [isInlineBlank_lineEnd] at h
    cases h
  unfold measure
  rw [if_neg hc, if_pos h]

theorem measure_word {c : Char} (hc : c ≠ '\n') (hb : ¬ isInlineBlank c) (h : Text.isLetter c)
    (r : List Char) : measure c r =
      (.token (.ofWord (c :: r.take (r.takeWhile Text.isWordChar).length)),
        (r.takeWhile Text.isWordChar).length) := by
  unfold measure
  rw [if_neg hc, if_neg hb, if_pos h]

theorem measure_digit {c : Char} (hc : c ≠ '\n') (hb : ¬ isInlineBlank c) (hl : ¬ Text.isLetter c)
    (h : c.isDigit) (r : List Char) : measure c r = numberLexeme c r := by
  unfold measure
  rw [if_neg hc, if_neg hb, if_neg hl, if_pos h]

theorem measure_line (r : List Char) :
    measure '/' ('/' :: r) = (.comment, (('/' :: r).takeWhile (· ≠ '\n')).length) := by
  unfold measure
  rw [if_neg (by decide), if_neg (by decide), if_neg (by decide), if_neg (by decide)]
  rfl

theorem measure_block {r : List Char} {n : Nat} (h : blockCommentLength? r = some n) :
    measure '/' ('*' :: r) = (.comment, n + 1) := by
  unfold measure
  rw [if_neg (by decide), if_neg (by decide), if_neg (by decide), if_neg (by decide)]
  simp only [h]

/-- A slash that begins no comment is an operator. -/
theorem measure_slash {r : List Char} (hline : r.head? ≠ some '/')
    (hblock : ∀ r', r = '*' :: r' → blockCommentLength? r' = none) :
    measure '/' r = operatorLexeme '/' r := by
  unfold measure
  rw [if_neg (by decide), if_neg (by decide), if_neg (by decide), if_neg (by decide)]
  split <;> simp_all

/-- The ways in which a slash can go on. -/
theorem slash_cases (r : List Char) : (∃ r', r = '/' :: r') ∨
    (∃ r' n, r = '*' :: r' ∧ blockCommentLength? r' = some n) ∨
    r.head? ≠ some '/' ∧ ∀ r', r = '*' :: r' → blockCommentLength? r' = none := by
  by_cases hline : r.head? = some '/'
  · exact Or.inl (List.head?_eq_some_iff.mp hline)
  by_cases hblock : ∃ r' n, r = '*' :: r' ∧ blockCommentLength? r' = some n
  · exact Or.inr (Or.inl hblock)
  refine Or.inr (Or.inr ⟨hline, fun r' hr => ?_⟩)
  cases hn : blockCommentLength? r' with
  | none => rfl
  | some n => exact absurd ⟨r', n, hr, hn⟩ hblock

theorem measure_fraction {d : Char} (h : d.isDigit) (r : List Char) :
    measure '.' (d :: r) = numberLexeme '.' (d :: r) := by
  unfold measure
  rw [if_neg (by decide), if_neg (by decide), if_neg (by decide), if_neg (by decide)]
  exact if_pos h

theorem measure_dot {r : List Char} (h : ∀ d ∈ r.head?, ¬ d.isDigit) :
    measure '.' r = operatorLexeme '.' r := by
  unfold measure
  rw [if_neg (by decide), if_neg (by decide), if_neg (by decide), if_neg (by decide)]
  cases r with
  | nil => rfl
  | cons d r => exact if_neg (h d rfl)

/-- The ways in which a point can go on. -/
theorem dot_cases (r : List Char) :
    (∃ d r', r = d :: r' ∧ d.isDigit) ∨ ∀ d ∈ r.head?, ¬ d.isDigit := by
  cases r with
  | nil => exact Or.inr nofun
  | cons d r =>
    by_cases hd : d.isDigit
    · exact Or.inl ⟨d, r, rfl, hd⟩
    · exact Or.inr fun e he => Option.some.inj he ▸ hd

theorem measure_string (r : List Char) : measure '"' r = ofEnding '"' 0 (interpretedEnd r) := by
  unfold measure
  rw [if_neg (by decide), if_neg (by decide), if_neg (by decide), if_neg (by decide)]
  rfl

theorem measure_raw (r : List Char) : measure '\x60' r = ofEnding '\x60' 0 (rawEnd r) := by
  unfold measure
  rw [if_neg (by decide), if_neg (by decide), if_neg (by decide), if_neg (by decide)]
  rfl

theorem measure_rune (r : List Char) : measure '\'' r =
    match runeLength? r with
    | some n => (.token .rune, n)
    | none => (.token .junk, 0) := by
  unfold measure
  rw [if_neg (by decide), if_neg (by decide), if_neg (by decide), if_neg (by decide)]
  rfl

theorem measure_operator {c : Char} (hc : c ≠ '\n') (hb : ¬ isInlineBlank c) (hl : ¬ Text.isLetter c)
    (hd : ¬ c.isDigit) (h : c ∉ ['/', '.', '"', '\x60', '\'']) (r : List Char) :
    measure c r = operatorLexeme c r := by
  unfold measure
  rw [if_neg hc, if_neg hb, if_neg hl, if_neg hd]
  simp only [List.mem_cons, List.not_mem_nil, or_false, not_or] at h
  split <;> simp_all

end Measure

/-! ## Measured before another text -/

/-- A text whose beginning stays goes on as before. -/
theorem KeepsLine.take {r y : List Char} {n : Nat} (h : KeepsLine (r.drop n) y) :
    KeepsLine r (r.take n ++ y) := by
  obtain ⟨u, x', y', hu, rfl, hend⟩ := h
  refine ⟨r.take n ++ u, x', y', ?_, (List.append_assoc _ _ _).symm, hend⟩
  rw [List.append_assoc, ← hu, List.take_append_drop]

/-- Whether a number is one of base sixteen. -/
def beginsHexNumber (c : Char) (r : List Char) : Bool :=
  c = '0' && (r.head? = some 'x' || r.head? = some 'X')

theorem numberLexeme_keepsLine {c : Char} {r y : List Char}
    (h : KeepsLine (r.drop (numberLexeme c r).2) y) :
    numberLexeme c (r.take (numberLexeme c r).2 ++ y) = numberLexeme c r := by
  have hdef : ∀ r, numberLexeme c r =
      (.token (if isNumber (c :: r.take (numberLength (beginsHexNumber c r) c r)) then .number
        else .junk), numberLength (beginsHexNumber c r) c r) := fun _ => rfl
  have hlen : (numberLexeme c r).2 = numberLength (beginsHexNumber c r) c r := rfl
  have hhex : beginsHexNumber c (r.take (numberLexeme c r).2 ++ y) = beginsHexNumber c r := by
    rcases h.take.head with hend | ⟨d, x', y', hx, hy⟩
    · have hnew : beginsHexNumber c (r.take (numberLexeme c r).2 ++ y) = false := by
        unfold beginsHexNumber
        cases hhead : (r.take (numberLexeme c r).2 ++ y).head? with
        | none => simp
        | some d =>
          obtain rfl := hend d hhead
          simp
      rw [hnew]
      cases hr : beginsHexNumber c r with
      | false => rfl
      | true =>
        exfalso
        obtain ⟨d, r', rfl, hd⟩ : ∃ d r', r = d :: r' ∧ (d = 'x' ∨ d = 'X') := by
          cases r with
          | nil => simp [beginsHexNumber] at hr
          | cons d r => exact ⟨d, r, rfl, by simpa using (Bool.and_eq_true_iff.mp hr).2⟩
        have hgo : goesOn true c d := by rcases hd with rfl | rfl <;> simp [goesOn, Char.isAlphanum]
        rw [hlen, hr, numberLength_cons, if_pos hgo, List.take_succ_cons] at hend
        have hline := hend d rfl
        rcases hd with rfl | rfl <;> exact absurd hline (by decide)
    · unfold beginsHexNumber
      rw [hy]
      conv => rhs; rw [hx]
      rfl
  rw [hdef (r.take _ ++ y), hhex]
  rw [hlen] at h ⊢
  rw [numberLength_keepsLine h, List.take_left' (by
    rw [List.length_take]; exact Nat.min_eq_left (numberLength_le _ _ _))]
  rfl

theorem operatorLexeme_keepsLine {c : Char} {r y : List Char} {cls : LexemeClass} {n : Nat}
    (h : operatorLexeme c r = (cls, n)) (hcls : cls.isSound) (hy : KeepsLine (r.drop n) y) :
    n ≤ r.length ∧ operatorLexeme c (r.take n ++ y) = (cls, n) := by
  unfold operatorLexeme at h
  split at h
  · next w o ho =>
    cases h
    have hlen : w.length = w.length - 1 + 1 := by
      have htext := (operator_text ho).2
      rw [← String.length_toList, ← htext, List.length_cons, Nat.add_sub_cancel]
    have hkeep : operator? ((c :: r).take w.length ++ y) = some (w, o) := by
      refine operator?_keepsLine ho ?_
      rw [hlen, List.drop_succ_cons]
      exact hy
    rw [hlen, List.take_succ_cons, List.cons_append] at hkeep
    refine ⟨?_, by unfold operatorLexeme; rw [hkeep]⟩
    have htext := congrArg List.length (operator_text ho).2
    rw [List.length_cons, List.length_take, String.length_toList] at htext
    omega
  · cases h
    cases hcls

theorem ofEnding_keepsLine {q : Char} {k n : Nat} {e : Ending} {cls : LexemeClass}
    (h : ofEnding q k e = (cls, n)) (hcls : cls.isSound) : e = .closed n ∧ cls = .token .text := by
  cases e with
  | closed m => cases h; exact ⟨rfl, rfl⟩
  | unclosed m | broken => cases h; cases hcls

theorem measure_dot_keepsLine {r y : List Char} {cls : LexemeClass} {n : Nat}
    (h : measure '.' r = (cls, n)) (hcls : cls.isSound) (hy : KeepsLine (r.drop n) y) :
    n ≤ r.length ∧ measure '.' (r.take n ++ y) = (cls, n) := by
  rcases dot_cases r with ⟨d, r', rfl, hd⟩ | hother
  · rw [measure_fraction hd] at h
    have hn : n = (numberLexeme '.' (d :: r')).2 := by rw [h]
    have hsame := numberLexeme_keepsLine (c := '.') (hn ▸ hy)
    rw [← hn, h] at hsame
    have hlen : n = numberLength (beginsHexNumber '.' (d :: r')) '.' (d :: r') := hn
    refine ⟨hlen ▸ numberLength_le _ _ _, ?_⟩
    have hgo : goesOn (beginsHexNumber '.' (d :: r')) '.' d := by
      simp [goesOn, Char.isAlphanum, hd]
    rw [numberLength_cons, if_pos hgo] at hlen
    rw [← hsame, hlen, List.take_succ_cons, List.cons_append]
    exact measure_fraction hd _
  · rw [measure_dot hother] at h
    obtain ⟨hle, hkeep⟩ := operatorLexeme_keepsLine h hcls hy
    refine ⟨hle, ?_⟩
    rw [measure_dot, hkeep]
    intro d hd
    rcases hy.take.head with hend | ⟨e, x', y', hx, hnew⟩
    · rw [hend d hd]
      decide
    · rw [hnew] at hd
      rw [hx] at hother
      exact hother d hd

theorem measure_slash_keepsLine {r u x y : List Char} {cls : LexemeClass} {n : Nat}
    (h : measure '/' r = (cls, n)) (hcls : cls.isSound) (hx : r.drop n = u ++ x) (hy : EndsAlike x y)
    (hopen : cls ≠ .comment → ['/', '*'] <+: '/' :: (r.take n ++ u) → blockCommentLength? y = none) :
    n ≤ r.length ∧ measure '/' (r.take n ++ (u ++ y)) = (cls, n) := by
  have hkeep : KeepsLine (r.drop n) (u ++ y) := ⟨u, x, y, hx, rfl, hy⟩
  rcases slash_cases r with ⟨r', rfl⟩ | ⟨r', m, rfl, hm⟩ | ⟨hline, hblock⟩
  · rw [measure_line] at h
    cases h
    refine ⟨(List.takeWhile_sublist _).length_le, ?_⟩
    have htake := takeWhile_keepsLine (p := (· ≠ '\n')) (by decide) hkeep
    obtain ⟨v, hv⟩ : ∃ v, ('/' :: r').take (('/' :: r').takeWhile (· ≠ '\n')).length ++ (u ++ y) =
        '/' :: v := by
      rw [List.takeWhile_cons, if_pos (by decide), List.length_cons, List.take_succ_cons]
      exact ⟨_, rfl⟩
    rw [hv, measure_line, ← hv, htake]
  · rw [measure_block hm] at h
    cases h
    have hle := (blockCommentLength?_le hm).2
    refine ⟨Nat.succ_le_succ hle, ?_⟩
    rw [List.take_succ_cons, List.cons_append]
    exact measure_block (blockCommentLength?_take hm _)
  · rw [measure_slash hline hblock] at h
    obtain ⟨hle, hsame⟩ := operatorLexeme_keepsLine h hcls hkeep
    refine ⟨hle, ?_⟩
    rw [measure_slash, hsame]
    · intro hhead
      rcases hkeep.take.head with hend | ⟨d, x', y', hr, hnew⟩
      · exact absurd (hend _ hhead) (by decide)
      · rw [hnew] at hhead
        cases hhead
        exact hline (by rw [hr]; rfl)
    · intro r' hnew
      have hcls' : cls ≠ .comment := by
        rintro rfl
        unfold operatorLexeme at h
        split at h <;> cases h
      rw [← List.append_assoc] at hnew
      cases hv : r.take n ++ u with
      | nil =>
        rw [hv, List.nil_append] at hnew
        rcases hy with hend | ⟨d, x', y', -, rfl, hd⟩
        · exact absurd (hend '*' (by rw [hnew]; rfl)) (by decide)
        · obtain ⟨rfl, -⟩ := List.cons.inj hnew
          exact absurd hd (by decide)
      | cons d v =>
        rw [hv, List.cons_append, List.cons.injEq] at hnew
        obtain ⟨rfl, rfl⟩ := hnew
        have hr : r = '*' :: (v ++ x) := by
          rw [← List.cons_append, ← hv, List.append_assoc, ← hx, List.take_append_drop]
        refine blockCommentLength?_replaced (hblock _ hr) ?_ hy
        refine hopen hcls' ?_
        rw [hv]
        exact ⟨v, rfl⟩

/-- A sound stretch is measured the same if its line goes on as before. -/
theorem measure_keepsLine {c : Char} {r u x y : List Char} {cls : LexemeClass} {n : Nat}
    (h : measure c r = (cls, n)) (hcls : cls.isSound) (hx : r.drop n = u ++ x) (hy : EndsAlike x y)
    (hopen : cls ≠ .comment → ['/', '*'] <+: c :: (r.take n ++ u) → blockCommentLength? y = none) :
    n ≤ r.length ∧ measure c (r.take n ++ (u ++ y)) = (cls, n) := by
  have hkeep : KeepsLine (r.drop n) (u ++ y) := ⟨u, x, y, hx, rfl, hy⟩
  by_cases hline : c = '\n'
  · subst hline
    cases h
    exact ⟨Nat.zero_le _, rfl⟩
  by_cases hblank : isInlineBlank c
  · rw [measure_blank hblank] at h ⊢
    cases h
    exact ⟨(List.takeWhile_sublist _).length_le, by rw [takeWhile_keepsLine isInlineBlank_lineEnd hkeep]⟩
  by_cases hletter : Text.isLetter c
  · rw [measure_word hline hblank hletter] at h ⊢
    cases h
    have hword : Text.isWordChar '\n' = false := by decide
    have hle := (List.takeWhile_sublist (l := r) Text.isWordChar).length_le
    refine ⟨hle, ?_⟩
    rw [takeWhile_keepsLine hword hkeep, List.take_left' (by
      rw [List.length_take]; exact Nat.min_eq_left hle)]
  by_cases hdigit : c.isDigit
  · rw [measure_digit hline hblank hletter hdigit] at h ⊢
    have hn : (numberLexeme c r).2 = n := by rw [h]
    rw [← hn] at hkeep ⊢
    exact ⟨numberLength_le _ _ _, by rw [numberLexeme_keepsLine hkeep, h]⟩
  by_cases hspecial : c ∉ ['/', '.', '"', '\x60', '\'']
  · rw [measure_operator hline hblank hletter hdigit hspecial] at h ⊢
    exact operatorLexeme_keepsLine h hcls hkeep
  rw [Decidable.not_not] at hspecial
  simp only [List.mem_cons, List.not_mem_nil, or_false] at hspecial
  rcases hspecial with rfl | rfl | rfl | rfl | rfl
  · exact measure_slash_keepsLine h hcls hx hy hopen
  · exact measure_dot_keepsLine h hcls hkeep
  · rw [measure_string] at h ⊢
    obtain ⟨hend, rfl⟩ := ofEnding_keepsLine h hcls
    obtain ⟨hle, hall⟩ := interpretedEnd_take hend
    exact ⟨hle, by rw [hall]; rfl⟩
  · rw [measure_raw] at h ⊢
    obtain ⟨hend, rfl⟩ := ofEnding_keepsLine h hcls
    obtain ⟨hle, hall⟩ := rawEnd_take hend
    exact ⟨hle, by rw [hall]; rfl⟩
  · rw [measure_rune] at h ⊢
    split at h
    · next m hm =>
      cases h
      obtain ⟨hle, hall⟩ := runeLength?_take hm
      exact ⟨hle, by rw [hall]⟩
    · cases h
      cases hcls

/-! ## Cut before another text -/

/-- Whether a slash before a star stands for itself, where no comment ends. -/
def opensComment : List Lexeme → Bool
  | [] => false
  | l :: ls => (l.cls ≠ .comment && ['/', '*'].isPrefixOf (l.text ++ texts ls)) || opensComment ls

/-- The first stretch of some, and what it was measured from. -/
theorem lexemes_eq_cons {s : List Char} {l : Lexeme} {ls : List Lexeme} (h : lexemes s = l :: ls) :
    ∃ c r n, s = c :: r ∧ measure c r = (l.cls, n) ∧ l.text = c :: r.take n ∧
      r.drop n = texts ls ∧ lexemes (r.drop n) = ls := by
  cases s with
  | nil => cases h
  | cons c r =>
    rw [lexemes_cons, List.cons.injEq] at h
    obtain ⟨rfl, h⟩ := h
    exact ⟨c, r, (measure c r).2, rfl, rfl, rfl, by rw [← h, texts_lexemes], h⟩

theorem lexemes_keepsLine {ls ms : List Lexeme} {x y : List Char}
    (h : lexemes (texts ls ++ x) = ls ++ ms) (hls : ∀ l ∈ ls, l.cls.isSound) (hy : EndsAlike x y)
    (hopen : opensComment ls → blockCommentLength? y = none) :
    lexemes (texts ls ++ y) = ls ++ lexemes y := by
  induction ls with
  | nil => rfl
  | cons l ls ih =>
    have hsplit := h
    rw [List.cons_append] at hsplit
    obtain ⟨c, r, n, hs, hm, htext, -, hrest⟩ := lexemes_eq_cons hsplit
    have hr : r.drop n = texts ls ++ x := by
      rw [texts_cons, htext, List.cons_append, List.cons_append, List.cons.injEq,
        List.append_assoc] at hs
      have hcancel : r.take n ++ r.drop n = r.take n ++ (texts ls ++ x) := by
        rw [List.take_append_drop, hs.2]
      exact List.append_cancel_left hcancel
    obtain ⟨hle, hkeep⟩ := measure_keepsLine hm (hls l List.mem_cons_self) hr hy fun hc hpre =>
      hopen (by
        rw [← List.cons_append, ← htext] at hpre
        rw [opensComment, Bool.or_eq_true, Bool.and_eq_true]
        exact Or.inl ⟨by simpa using hc, List.isPrefixOf_iff_prefix.mpr hpre⟩)
    have hlen : (r.take n).length = n := by rw [List.length_take]; exact Nat.min_eq_left hle
    have hls' := ih (by rw [← hr]; exact hrest) (fun l' hl' => hls l' (List.mem_cons_of_mem l hl'))
      fun hc => hopen (by rw [opensComment, hc, Bool.or_true])
    rw [texts_cons, htext, List.cons_append, List.cons_append, List.append_assoc, lexemes_cons, hkeep]
    dsimp only
    rw [List.take_left' hlen, List.drop_left' hlen, hls', ← htext]
    rfl

/-! ## The last stretch -/

theorem getLast?_ne_of_notMem {c : Char} {s : List Char} (h : c ∉ s) : s.getLast? ≠ some c :=
  fun hl => h (List.mem_of_getLast? hl)

theorem lineEnd_notMem_takeWhile {p : Char → Bool} (hp : p '\n' = false) (r : List Char) :
    '\n' ∉ r.take (r.takeWhile p).length := by
  intro hmem
  rw [take_length_takeWhile] at hmem
  have hn := mem_takeWhile hmem
  rw [hp] at hn
  cases hn

theorem lineEnd_notMem_operatorLexeme {c : Char} {r : List Char} {cls : LexemeClass} {n : Nat}
    (h : operatorLexeme c r = (cls, n)) (hcls : cls.isSound) : '\n' ∉ c :: r.take n := by
  unfold operatorLexeme at h
  split at h
  · next w o ho =>
    cases h
    obtain ⟨hmem, htext⟩ := operator_text ho
    rw [htext]
    exact lineEnd_notMem_operator hmem
  · cases h
    cases hcls

/-- A sound stretch that is no line end does not end with one. -/
theorem measure_getLast {c : Char} {r : List Char} {cls : LexemeClass} {n : Nat}
    (h : measure c r = (cls, n)) (hcls : cls.isSound) (hne : cls ≠ .newline) :
    (c :: r.take n).getLast? ≠ some '\n' := by
  have hnone : c ≠ '\n' → '\n' ∉ r.take n → (c :: r.take n).getLast? ≠ some '\n' := fun hc hr =>
    getLast?_ne_of_notMem fun hmem => (List.mem_cons.mp hmem).elim (fun he => hc he.symm) hr
  have hquoted : ∀ {q : Char}, q ≠ '\n' → (r.take n).getLast? = some q →
      (c :: r.take n).getLast? ≠ some '\n' := by
    intro q hq hr
    rw [List.getLast?_cons, hr]
    exact fun heq => hq (Option.some.inj heq)
  by_cases hline : c = '\n'
  · subst hline
    cases h
    exact absurd rfl hne
  by_cases hblank : isInlineBlank c
  · rw [measure_blank hblank] at h
    cases h
    exact hnone hline (lineEnd_notMem_takeWhile isInlineBlank_lineEnd r)
  by_cases hletter : Text.isLetter c
  · rw [measure_word hline hblank hletter] at h
    cases h
    exact hnone hline (lineEnd_notMem_takeWhile (by decide) r)
  have hnumber : numberLexeme c r = (cls, n) → (c :: r.take n).getLast? ≠ some '\n' := by
    intro h
    cases h
    exact hnone hline (lineEnd_notMem_number _ _ _)
  have hoperator : operatorLexeme c r = (cls, n) → (c :: r.take n).getLast? ≠ some '\n' := fun h =>
    getLast?_ne_of_notMem (lineEnd_notMem_operatorLexeme h hcls)
  by_cases hdigit : c.isDigit
  · rw [measure_digit hline hblank hletter hdigit] at h
    exact hnumber h
  by_cases hspecial : c ∉ ['/', '.', '"', '\x60', '\'']
  · rw [measure_operator hline hblank hletter hdigit hspecial] at h
    exact hoperator h
  rw [Decidable.not_not] at hspecial
  simp only [List.mem_cons, List.not_mem_nil, or_false] at hspecial
  rcases hspecial with rfl | rfl | rfl | rfl | rfl
  · rcases slash_cases r with ⟨r', rfl⟩ | ⟨r', m, rfl, hm⟩ | ⟨hslash, hblock⟩
    · rw [measure_line] at h
      cases h
      exact hnone hline (lineEnd_notMem_takeWhile (by decide) _)
    · rw [measure_block hm] at h
      cases h
      obtain ⟨body, hbody, -⟩ := blockCommentLength?_text hm
      refine hquoted (by decide) (getLast?_take_succ (d := '/') ?_)
      rw [hbody, List.getLast?_append]
      rfl
    · rw [measure_slash hslash hblock] at h
      exact hoperator h
  · rcases dot_cases r with ⟨d, r', rfl, hd⟩ | hdot
    · rw [measure_fraction hd] at h
      exact hnumber h
    · rw [measure_dot hdot] at h
      exact hoperator h
  · rw [measure_string] at h
    obtain ⟨hend, -⟩ := ofEnding_keepsLine h hcls
    exact hquoted (by decide) (interpretedEnd_getLast hend)
  · rw [measure_raw] at h
    obtain ⟨hend, -⟩ := ofEnding_keepsLine h hcls
    exact hquoted (by decide) (rawEnd_getLast hend)
  · rw [measure_rune] at h
    split at h
    · next hm =>
      cases h
      exact hquoted (by decide) (runeLength?_getLast hm)
    · cases h
      cases hcls

/-- A line end is one character. -/
theorem newline_stretch {s : List Char} {l : Lexeme} (h : l ∈ lexemes s) (hl : l.cls = .newline) :
    l = ⟨.newline, ['\n']⟩ := by
  obtain ⟨a, b, hab⟩ := List.append_of_mem h
  obtain ⟨c, r, -, heq⟩ := lexeme_eq hab
  rw [heq] at hl ⊢
  have hm := measured c r
  dsimp only at hl
  generalize measure c r = m at hm hl ⊢
  cases hm with
  | newline hc => rw [hc]; rfl
  | blank _ | lineComment _ _ | blockComment _ _ _ | operator _ _ | word _ _ | other _ _ _ => cases hl

/-- Only line ends end with one. -/
theorem text_getLast?_ne {s : List Char} {l : Lexeme} (h : l ∈ lexemes s) (hsound : l.cls.isSound)
    (hne : l.cls ≠ .newline) : l.text.getLast? ≠ some '\n' := by
  obtain ⟨a, b, hab⟩ := List.append_of_mem h
  obtain ⟨c, r, -, rfl⟩ := lexeme_eq hab
  exact measure_getLast rfl hsound hne

/-- Stretches that end with a line end have one as the last of them. -/
theorem exists_lineEnd {s : List Char} {ls : List Lexeme} (h : ∀ l ∈ ls, l ∈ lexemes s)
    (hsound : ∀ l ∈ ls, l.cls.isSound) (hlast : (texts ls).getLast? = some '\n') :
    ∃ ms, ls = ms ++ [⟨.newline, ['\n']⟩] := by
  rcases List.eq_nil_or_concat ls with rfl | ⟨ms, l, rfl⟩
  · cases hlast
  · rw [List.concat_eq_append] at h hsound hlast ⊢
    have hl : l ∈ ms ++ [l] := List.mem_append_right _ List.mem_cons_self
    rw [texts_append, texts_cons, texts_nil, List.append_nil, List.getLast?_append,
      List.getLast?_eq_some_getLast (text_ne_nil (h l hl)), Option.some_or,
      ← List.getLast?_eq_some_getLast (text_ne_nil (h l hl))] at hlast
    have hcls : l.cls = .newline :=
      Decidable.byContradiction fun hne => text_getLast?_ne (h l hl) (hsound l hl) hne hlast
    exact ⟨ms, by rw [newline_stretch (h l hl) hcls]⟩

/-- Behind the last line end of a text there is no stretch of it. -/
theorem lexemes_lineEnd {s : List Char} {ls : List Lexeme} {l : Lexeme} (h : lexemes s = ls ++ [l])
    (hl : l.cls.isSound) (hs : s.getLast? = some '\n') : l = ⟨.newline, ['\n']⟩ := by
  have hmem : l ∈ lexemes s := by
    rw [h]
    exact List.mem_append_right _ List.mem_cons_self
  have htext : (texts [l]).getLast? = some '\n' := by
    rw [← texts_lexemes s, h, texts_append, List.getLast?_append] at hs
    rw [texts_cons, texts_nil, List.append_nil, List.getLast?_eq_some_getLast (text_ne_nil hmem)] at hs ⊢
    exact hs
  obtain ⟨ms, hms⟩ := exists_lineEnd (List.forall_mem_singleton.mpr hmem) (List.forall_mem_singleton.mpr hl) htext
  cases ms with
  | nil => exact List.head_eq_of_cons_eq hms
  | cons m ms => simp at hms

end GoSplice.Syntax
