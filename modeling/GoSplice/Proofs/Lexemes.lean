import GoSplice.Syntax.Scan

/-!
# The stretches of a text

A text is cut into stretches without loss, and the first character of a stretch
and what follows decide what the stretch is:

    texts (lexemes s) = s                     (texts_lexemes)
    Measured c r (measure c r)                (measured)

`IsFiller s` says that `s` holds white space, semicolons and whole comments only.
Stretches without code before a token are such a text (isFiller_texts).
-/

namespace GoSplice.Syntax

/-! ## Places in lists -/

section Lists

variable {α : Type} {a b c d x y : List α} {k l : α}

/-- A member of two lists, one behind the other, is one of the first, or of the second. -/
theorem append_eq_append_cons (h : a ++ b = x ++ l :: y) :
    (∃ v, a = x ++ l :: v ∧ y = v ++ b) ∨ ∃ u, x = a ++ u ∧ b = u ++ l :: y := by
  rcases List.append_eq_append_iff.mp h with ⟨u, rfl, hu⟩ | ⟨v, rfl, hv⟩
  · exact .inr ⟨u, rfl, hu⟩
  · cases v with
    | nil => exact .inr ⟨[], by simp, hv.symm⟩
    | cons k v =>
      obtain ⟨rfl, rfl⟩ := List.cons.inj hv
      exact .inl ⟨v, rfl, rfl⟩

/-- Of two members of a list one is behind the other, or they are the same. -/
theorem append_cons_eq_append_cons (h : a ++ k :: c = b ++ l :: d) :
    (∃ u, a = b ++ l :: u ∧ d = u ++ k :: c) ∨ (∃ u, b = a ++ k :: u ∧ c = u ++ l :: d) ∨
      a = b ∧ k = l ∧ c = d := by
  rcases append_eq_append_cons h with hbefore | ⟨u, hb, hu⟩
  · exact .inl hbefore
  · cases u with
    | nil =>
      obtain ⟨rfl, rfl⟩ := List.cons.inj hu
      exact .inr (.inr ⟨by rw [hb, List.append_nil], rfl, rfl⟩)
    | cons m u =>
      obtain ⟨rfl, rfl⟩ := List.cons.inj hu
      exact .inr (.inl ⟨u, hb, rfl⟩)

end Lists

/-! ## Cutting a text -/

/-- The text of some stretches. -/
def texts (ls : List Lexeme) : List Char := ls.flatMap (·.text)

@[simp] theorem texts_nil : texts [] = [] := rfl

@[simp] theorem texts_cons (l : Lexeme) (ls : List Lexeme) : texts (l :: ls) = l.text ++ texts ls :=
  rfl

@[simp] theorem texts_append (a b : List Lexeme) : texts (a ++ b) = texts a ++ texts b := by
  simp [texts]

theorem lexemesWithin_eq {s : List Char} {fuel : Nat} (h : s.length ≤ fuel) :
    lexemesWithin fuel s = lexemes s := by
  unfold lexemes
  induction fuel using Nat.strongRecOn generalizing s with
  | ind fuel ih =>
    cases s with
    | nil => cases fuel <;> rfl
    | cons c r =>
      rw [List.length_cons] at h
      cases fuel with
      | zero => omega
      | succ fuel =>
        rw [List.length_cons]
        simp only [lexemesWithin]
        have hl : (r.drop (measure c r).2).length ≤ r.length := by
          rw [List.length_drop]; omega
        congr 1
        rw [ih fuel (by omega) (by omega)]
        by_cases hr : r.length = fuel
        · rw [hr, ih fuel (by omega) (by omega)]
        · rw [ih r.length (by omega) hl]

/-- The first stretch of a text, and the stretches of the rest. -/
theorem lexemes_cons (c : Char) (r : List Char) :
    lexemes (c :: r) = ⟨(measure c r).1, c :: r.take (measure c r).2⟩ ::
      lexemes (r.drop (measure c r).2) := by
  show lexemesWithin (r.length + 1) (c :: r) = _
  simp only [lexemesWithin]
  rw [lexemesWithin_eq (by rw [List.length_drop]; omega)]

@[simp] theorem lexemes_nil : lexemes [] = [] := rfl

/-- Nothing of a text is lost. -/
theorem texts_lexemes (s : List Char) : texts (lexemes s) = s := by
  induction h : s.length using Nat.strongRecOn generalizing s with
  | ind n ih =>
    cases s with
    | nil => rfl
    | cons c r =>
      rw [lexemes_cons, texts_cons]
      rw [ih _ (by rw [← h, List.length_drop, List.length_cons]; omega) _ rfl]
      simp

/-- The stretches behind the first ones are those of the text behind them. -/
theorem lexemes_suffix {s : List Char} {a b : List Lexeme} (h : lexemes s = a ++ b) :
    lexemes (texts b) = b := by
  induction a generalizing s with
  | nil =>
    rw [List.nil_append] at h
    rw [← h, texts_lexemes]
  | cons l a ih =>
    cases s with
    | nil => cases h
    | cons c r =>
      rw [lexemes_cons, List.cons_append, List.cons.injEq] at h
      exact ih h.2

/-- A stretch as its text was measured. -/
theorem lexeme_eq {s : List Char} {a b : List Lexeme} {l : Lexeme} (h : lexemes s = a ++ l :: b) :
    ∃ c r, l.text ++ texts b = c :: r ∧ l = ⟨(measure c r).1, c :: r.take (measure c r).2⟩ := by
  have hb : lexemes (l.text ++ texts b) = l :: b := lexemes_suffix h
  cases hs : l.text ++ texts b with
  | nil => rw [hs] at hb; cases hb
  | cons c r =>
    rw [hs, lexemes_cons, List.cons.injEq] at hb
    exact ⟨c, r, rfl, hb.1.symm⟩

theorem text_ne_nil {s : List Char} {l : Lexeme} (h : l ∈ lexemes s) : l.text ≠ [] := by
  obtain ⟨a, b, hab⟩ := List.append_of_mem h
  obtain ⟨c, r, -, rfl⟩ := lexeme_eq hab
  simp

/-! ## What a stretch is -/

/-- What the first character of a stretch tells about the stretch. -/
inductive Measured (c : Char) (r : List Char) : LexemeClass × Nat → Prop
  | newline : c = '\n' → Measured c r (.newline, 0)
  | blank : isInlineBlank c → Measured c r (.blank, (r.takeWhile isInlineBlank).length)
  | lineComment {r' : List Char} : c = '/' → r = '/' :: r' →
      Measured c r (.comment, (r.takeWhile (· ≠ '\n')).length)
  | blockComment {r' : List Char} {n : Nat} : c = '/' → r = '*' :: r' →
      blockCommentLength? r' = some n → Measured c r (.comment, n + 1)
  | operator {w : String} {o : Operator} : c ≠ '\n' → operator? (c :: r) = some (w, o) →
      Measured c r (.token (.operator o), w.length - 1)
  | word : c ≠ '\n' → Text.isLetter c →
      Measured c r (.token (.ofWord (c :: r.take (r.takeWhile Text.isWordChar).length)),
        (r.takeWhile Text.isWordChar).length)
  | other {k : Kind} {n : Nat} : c ≠ '\n' → (∀ o, k ≠ .operator o) →
      k ∉ [Kind.name, .constant, .allocator] → Measured c r (.token k, n)

theorem Measured.number {c : Char} (r : List Char) (hc : c ≠ '\n') :
    Measured c r (numberLexeme c r) := by
  unfold numberLexeme
  exact .other hc (fun o => by split <;> simp) (by split <;> simp)

theorem Measured.ending {c : Char} (r : List Char) (hc : c ≠ '\n') (n : Nat) (e : Ending) :
    Measured c r (ofEnding c n e) := by
  cases e <;> exact .other hc (fun o => by simp) (by simp)

theorem Measured.operatorLexeme {c : Char} (r : List Char) (hc : c ≠ '\n') :
    Measured c r (operatorLexeme c r) := by
  unfold Syntax.operatorLexeme
  cases h : operator? (c :: r) with
  | none => exact .other hc (fun o => by simp) (by simp)
  | some x => exact .operator hc h

theorem Kind.ofWord_ne_operator (s : List Char) (o : Operator) : Kind.ofWord s ≠ .operator o := by
  unfold Kind.ofWord
  dsimp only
  split
  · simp
  · split
    · simp
    · split <;> simp

theorem measured (c : Char) (r : List Char) : Measured c r (measure c r) := by
  unfold measure
  by_cases hn : c = '\n'
  · rw [if_pos hn]; exact .newline hn
  rw [if_neg hn]
  by_cases hb : isInlineBlank c
  · rw [if_pos hb]; exact .blank hb
  rw [if_neg hb]
  by_cases hl : Text.isLetter c
  · rw [if_pos hl]; exact .word hn hl
  rw [if_neg hl]
  by_cases hd : c.isDigit
  · rw [if_pos hd]; exact .number r hn
  rw [if_neg hd]
  split
  · exact .lineComment rfl rfl
  · split
    · next h => exact .blockComment rfl rfl h
    · exact .operatorLexeme _ hn
  · split
    · exact .number _ hn
    · exact .operatorLexeme _ hn
  · exact .ending _ hn _ _
  · exact .ending _ hn _ _
  · split
    · exact .other hn (fun o => by simp) (by simp)
    · exact .other hn (fun o => by simp) (by simp)
  · exact .operatorLexeme _ hn

/-! ## The text of a stretch -/

theorem mem_takeWhile {p : Char → Bool} {s : List Char} {c : Char} (h : c ∈ s.takeWhile p) :
    p c := by
  have := List.all_takeWhile (p := p) (l := s)
  rw [List.all_eq_true] at this
  exact this c h

theorem take_length_takeWhile (p : Char → Bool) (s : List Char) :
    s.take (s.takeWhile p).length = s.takeWhile p := by
  have h : s.takeWhile p ++ s.dropWhile p = s := List.takeWhile_append_dropWhile
  calc s.take (s.takeWhile p).length
      = (s.takeWhile p ++ s.dropWhile p).take (s.takeWhile p).length := by rw [h]
    _ = s.takeWhile p := List.take_left

theorem drop_length_takeWhile (p : Char → Bool) (s : List Char) :
    s.drop (s.takeWhile p).length = s.dropWhile p := by
  have h : s.takeWhile p ++ s.dropWhile p = s := List.takeWhile_append_dropWhile
  conv => lhs; arg 2; rw [← h]
  rw [List.drop_left]

theorem semicolon_word {w : String} (h : (w, Operator.semicolon) ∈ operators) : w = ";" := by
  have hall : operators.all (fun x => x.2 != .semicolon || x.1 == ";") := by decide
  simpa using List.all_eq_true.mp hall _ h

theorem operator_text {c : Char} {r : List Char} {w : String} {o : Operator}
    (h : operator? (c :: r) = some (w, o)) :
    (w, o) ∈ operators ∧ c :: r.take (w.length - 1) = w.toList := by
  unfold operator? at h
  have hm := List.mem_of_find?_eq_some h
  have hp := List.find?_some h
  refine ⟨hm, ?_⟩
  obtain ⟨t, ht⟩ := List.isPrefixOf_iff_prefix.mp hp
  cases hw : w.toList with
  | nil =>
    have hne : ∀ x ∈ operators, x.1.toList ≠ [] := by decide
    exact absurd hw (hne _ hm)
  | cons d ds =>
    rw [hw, List.cons_append, List.cons.injEq] at ht
    obtain ⟨rfl, rfl⟩ := ht
    have hlen : w.length = ds.length + 1 := by rw [← String.length_toList, hw]; rfl
    rw [hlen, Nat.add_sub_cancel]
    simp

/-- The stretch of an operator is its spelling. -/
theorem operator_stretch {s : List Char} {a b : List Lexeme} {l : Lexeme} {o : Operator}
    (h : lexemes s = a ++ l :: b) (hl : l.cls = .token (.operator o)) :
    ∃ w, (w, o) ∈ operators ∧ l.text = w.toList := by
  obtain ⟨c, r, -, rfl⟩ := lexeme_eq h
  have hm := measured c r
  dsimp only at hl ⊢
  generalize measure c r = m at hm hl
  cases hm with
  | newline _ | blank _ | lineComment _ _ | blockComment _ _ _ => cases hl
  | operator _ ho =>
    cases hl
    obtain ⟨hmem, htext⟩ := operator_text ho
    exact ⟨_, hmem, htext⟩
  | word _ _ => exact absurd (LexemeClass.token.inj hl) (Kind.ofWord_ne_operator _ o)
  | other _ hk _ =>
    cases hl
    exact absurd rfl (hk o)

/-- The stretch of a name is a letter and letters and digits behind it. -/
theorem name_stretch {s : List Char} {a b : List Lexeme} {l : Lexeme} {k : Kind}
    (h : lexemes s = a ++ l :: b) (hl : l.cls = .token k)
    (hk : k ∈ [Kind.name, .constant, .allocator]) :
    (∃ c r, l.text = c :: r ∧ Text.isLetter c ∧ ∀ d ∈ r, Text.isWordChar d) ∧ Kind.ofWord l.text = k := by
  obtain ⟨c, r, -, rfl⟩ := lexeme_eq h
  have hm := measured c r
  dsimp only at hl ⊢
  generalize measure c r = m at hm hl
  cases hm with
  | newline _ | blank _ | lineComment _ _ | blockComment _ _ _ => cases hl
  | operator _ _ =>
    cases hl
    simp at hk
  | word _ hc =>
    refine ⟨⟨c, _, rfl, hc, fun d hd => ?_⟩, LexemeClass.token.inj hl⟩
    rw [take_length_takeWhile] at hd
    exact mem_takeWhile hd
  | other _ _ hnot =>
    cases hl
    exact absurd hk hnot

/-- A block comment reaches to the first mark that ends it. -/
theorem blockCommentLength?_text {r : List Char} {n : Nat} (h : blockCommentLength? r = some n) :
    ∃ body, r.take n = body ++ ['*', '/'] ∧ ¬ ['*', '/'] <:+: body ++ ['*'] := by
  fun_induction blockCommentLength? r generalizing n with
  | case1 => cases h
  | case2 r =>
    cases h
    exact ⟨[], rfl, by decide⟩
  | case3 c r hne ih =>
    obtain ⟨m, hm, rfl⟩ := Option.map_eq_some_iff.mp h
    obtain ⟨body, hbody, hinf⟩ := ih hm
    refine ⟨c :: body, by rw [List.take_succ_cons, hbody]; rfl, ?_⟩
    intro hcon
    rw [List.cons_append, List.infix_cons_iff] at hcon
    rcases hcon with ⟨t, ht⟩ | hcon
    · rw [List.cons_append, List.cons.injEq] at ht
      obtain ⟨rfl, ht⟩ := ht
      obtain ⟨m', rfl⟩ : ∃ m', m = m' + 1 := by
        cases m with
        | zero => simp at hbody
        | succ m => exact ⟨m, rfl⟩
      cases r with
      | nil => simp at hbody
      | cons d r =>
        rw [List.take_succ_cons] at hbody
        cases body with
        | nil => simp at ht
        | cons b body =>
          rw [List.cons_append, List.cons.injEq] at hbody
          simp only [List.cons_append, List.nil_append, List.cons.injEq] at ht
          exact hne r rfl (by rw [hbody.1, ← ht.1])
    · exact hinf hcon

/-! ## Text without code -/

/-- White space, semicolons and whole comments. -/
inductive IsFiller : List Char → Prop
  | nil : IsFiller []
  | space {c : Char} {s : List Char} :
      isInlineBlank c ∨ c = '\n' → IsFiller s → IsFiller (c :: s)
  | semicolon {s : List Char} : IsFiller s → IsFiller (';' :: s)
  | lineComment {body s : List Char} :
      '\n' ∉ body → IsFiller ('\n' :: s) → IsFiller ('/' :: '/' :: body ++ '\n' :: s)
  | blockComment {body s : List Char} :
      ¬ ['*', '/'] <:+: body ++ ['*'] → IsFiller s → IsFiller ('/' :: '*' :: body ++ '*' :: '/' :: s)

theorem IsFiller.blanks {w s : List Char} (hw : ∀ c ∈ w, isInlineBlank c) (hs : IsFiller s) :
    IsFiller (w ++ s) := by
  induction w with
  | nil => exact hs
  | cons c w ih =>
    exact .space (Or.inl (hw c List.mem_cons_self)) (ih fun d hd => hw d (List.mem_cons_of_mem c hd))

/-- The classes of stretches that are no code. -/
def LexemeClass.isFiller : LexemeClass → Bool
  | .blank | .newline | .comment => true
  | .token k => k = .operator .semicolon

/-- What follows a line comment begins with a line end. -/
theorem dropWhile_line {r : List Char} (h : r.dropWhile (· ≠ '\n') ≠ []) :
    ∃ r', r.dropWhile (· ≠ '\n') = '\n' :: r' := by
  have hnot := List.head_dropWhile_not (fun c => decide (c ≠ '\n')) h
  cases hr : r.dropWhile (· ≠ '\n') with
  | nil => exact absurd hr h
  | cons d r' =>
    simp only [hr, List.head_cons] at hnot
    exact ⟨r', by rw [show d = '\n' by simpa using hnot]⟩

/-- Stretches without code before a token are a filler. -/
theorem isFiller_texts {s : List Char} {a b : List Lexeme} {l : Lexeme} {k : Kind}
    (h : lexemes s = a ++ l :: b) (hl : l.cls = .token k) (ha : ∀ x ∈ a, x.cls.isFiller) :
    IsFiller (texts a) := by
  induction a generalizing s with
  | nil => exact .nil
  | cons x a ih =>
    cases s with
    | nil => cases h
    | cons c r =>
      rw [lexemes_cons, List.cons_append, List.cons.injEq] at h
      obtain ⟨rfl, h⟩ := h
      have hrest := ih h fun y hy => ha y (List.mem_cons_of_mem _ hy)
      have hx := ha _ List.mem_cons_self
      have htexts : r.drop (measure c r).2 = texts a ++ texts (l :: b) := by
        rw [← texts_append, ← h, texts_lexemes]
      rw [texts_cons]
      have hm := measured c r
      generalize measure c r = m at hm hx htexts h
      cases hm with
      | newline hc => exact .space (Or.inr hc) hrest
      | blank hc =>
        refine IsFiller.blanks (w := c :: _) ?_ hrest
        intro d hd
        rw [take_length_takeWhile] at hd
        rcases List.mem_cons.mp hd with rfl | hd
        · exact hc
        · exact mem_takeWhile hd
      | @lineComment r' hc hr =>
        rw [drop_length_takeWhile] at htexts h
        have hne : texts (l :: b) ≠ [] := by
          have : l ∈ lexemes (r.dropWhile (· ≠ '\n')) := by rw [h]; simp
          simp [text_ne_nil this]
        obtain ⟨s', hs'⟩ := dropWhile_line (r := r) (by rw [htexts]; exact fun hn => hne (List.append_eq_nil_iff.mp hn).2)
        rw [hs'] at htexts h
        rw [lexemes_cons] at h
        cases a with
        | nil =>
          rw [List.nil_append, List.cons.injEq] at h
          rw [← h.1] at hl
          simp [measure] at hl
        | cons y a =>
          rw [List.cons_append, List.cons.injEq] at h
          obtain ⟨rfl, -⟩ := h
          rw [texts_cons, List.cons_append] at hrest ⊢
          rw [take_length_takeWhile]
          subst hc hr
          have hline : '\n' ∉ r'.takeWhile (· ≠ '\n') := fun hmem => by
            simpa using mem_takeWhile hmem
          have := IsFiller.lineComment hline hrest
          simpa using this
      | @blockComment r' n hc hr hn =>
        obtain ⟨body, hbody, hinf⟩ := blockCommentLength?_text hn
        subst hc hr
        have := IsFiller.blockComment hinf hrest
        simpa [hbody] using this
      | @operator w o hc ho =>
        have hsemi : o = .semicolon := by
          simpa [LexemeClass.isFiller] using hx
        subst hsemi
        obtain ⟨hmem, htext⟩ := operator_text ho
        have hw : ∀ y ∈ operators, y.2 = .semicolon → y.1.toList = [';'] := by decide
        rw [htext, hw _ hmem rfl]
        exact .semicolon hrest
      | word _ _ =>
        exact absurd (by simpa [LexemeClass.isFiller] using hx)
          (Kind.ofWord_ne_operator _ .semicolon)
      | other _ hk _ =>
        exact absurd (by simpa [LexemeClass.isFiller] using hx) (hk .semicolon)

end GoSplice.Syntax
