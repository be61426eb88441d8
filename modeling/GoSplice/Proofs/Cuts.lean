import GoSplice.Proofs.Appending

/-!
# Text cut out between items

What stands between items is blanks, comments, line ends and semicolons.  When
text is cut out behind one of these, the stretches before and behind it stay as
they are, but for blanks that come to stand side by side:

    stretches s = a ++ (k :: m ++ b), a ends with a filler, k no line end →
      Spliced a b (stretches (orderMark s ++ (texts a ++ texts b)))     (stretches_cut)
      a comment that is begun there and not finished was begun in a or b    (opensComment_cut)
-/

namespace GoSplice.Syntax

/-! ## Stretches that others do not go on with -/

theorem measure_semicolon (y : List Char) : measure ';' y = (.token (.operator .semicolon), 0) := by
  have hop : operatorLexeme ';' y = (.token (.operator .semicolon), 0) := by
    rfl
  rw [measure_operator (by decide) (by decide) (by decide) (by decide) (by decide), hop]

/-- Behind a line comment the line ends. -/
theorem lineComment_text {r : List Char} {ls : List Lexeme}
    (hrest : r.drop (r.takeWhile (· ≠ '\n')).length = texts ls) : EndsLine (texts ls) := by
  intro d hd
  rw [← hrest, drop_length_takeWhile] at hd
  obtain ⟨r', hr'⟩ := dropWhile_line (r := r) (by rintro hnil; rw [hnil] at hd; cases hd)
  rw [hr'] at hd
  exact (Option.some.inj hd).symm

/-- What is behind a filler that ends no line: the filler stays as it is before other text, but
for blanks that go on. -/
theorem lexemes_filler {s y : List Char} {l : Lexeme} {zs : List Lexeme} (h : lexemes s = l :: zs)
    (hl : l.cls.isFiller) (hline : l.cls = .comment → ¬ EndsLine (texts zs))
    (hblank : l.cls = .blank → ∀ c ∈ y.head?, isInlineBlank c = false) :
    lexemes (l.text ++ y) = l :: lexemes y := by
  obtain ⟨c, r, n, rfl, hm, htext, hrest, -⟩ := lexemes_eq_cons h
  suffices hmeasure : measure c (r.take n ++ y) = (l.cls, n) ∧ n ≤ r.length by
    have hlen : (r.take n).length = n := by rw [List.length_take]; exact Nat.min_eq_left hmeasure.2
    rw [htext, List.cons_append, lexemes_cons, hmeasure.1]
    dsimp only
    rw [List.take_left' hlen, List.drop_left' hlen, ← htext]
  have hmeasured := measured c r
  rw [hm] at hmeasured
  generalize hcls : l.cls = cls at *
  cases hmeasured with
  | newline hc =>
    subst hc
    exact ⟨rfl, Nat.zero_le _⟩
  | blank hc =>
    have hend : y.takeWhile isInlineBlank = [] := by
      cases y with
      | nil => rfl
      | cons d y => exact List.takeWhile_cons_of_neg (by rw [hblank rfl d rfl]; nofun)
    rw [measure_blank hc, take_length_takeWhile, List.takeWhile_append_of_pos fun d hd => mem_takeWhile hd,
      hend, List.append_nil]
    exact ⟨rfl, (List.takeWhile_prefix _).length_le⟩
  | lineComment hc hr =>
    exact absurd (lineComment_text hrest) (hline rfl)
  | @blockComment r' n hc hr hn =>
    subst hc hr
    have hle := (blockCommentLength?_le hn).2
    rw [List.take_succ_cons, List.cons_append, measure_block (blockCommentLength?_take hn y)]
    exact ⟨rfl, Nat.succ_le_succ hle⟩
  | @operator w o hc ho =>
    obtain rfl : o = .semicolon := Kind.operator.inj (of_decide_eq_true hl)
    obtain ⟨hw, hword⟩ := operator_text ho
    rw [semicolon_word hw] at hword ⊢
    obtain ⟨rfl, -⟩ := List.cons.inj hword
    exact ⟨measure_semicolon _, Nat.zero_le _⟩
  | word => exact absurd (of_decide_eq_true hl) (Kind.ofWord_ne_operator _ _)
  | other _ hne _ => exact absurd (of_decide_eq_true hl) (hne _)

/-- A stretch of blanks, and what is behind it. -/
theorem blank_text {s : List Char} {l : Lexeme} {zs : List Lexeme} (h : lexemes s = l :: zs)
    (hl : l.cls = .blank) :
    (∀ c ∈ l.text, isInlineBlank c) ∧ ∀ c ∈ (texts zs).head?, isInlineBlank c = false := by
  obtain ⟨c, r, n, rfl, hm, htext, hrest, -⟩ := lexemes_eq_cons h
  have hmeasured := measured c r
  rw [hm, hl] at hmeasured
  cases hmeasured with
  | blank hc =>
    rw [take_length_takeWhile] at htext
    rw [drop_length_takeWhile] at hrest
    refine ⟨fun d hd => ?_, fun d hd => ?_⟩
    · rw [htext] at hd
      rcases List.mem_cons.mp hd with rfl | hd
      · exact hc
      · exact mem_takeWhile hd
    · have hnot := List.head?_dropWhile_not isInlineBlank r
      rw [hrest, show (texts zs).head? = some d from hd] at hnot
      exact hnot

/-- Blanks before a stretch of blanks are one stretch with it. -/
theorem lexemes_blanks {u v : List Char} {bs : List Lexeme} (hu : u ≠ []) (hall : ∀ c ∈ u, isInlineBlank c)
    (h : lexemes (v ++ texts bs) = ⟨.blank, v⟩ :: bs) :
    lexemes (u ++ (v ++ texts bs)) = ⟨.blank, u ++ v⟩ :: bs := by
  obtain ⟨hv, hend⟩ := blank_text h rfl
  obtain ⟨c, u, rfl⟩ := List.exists_cons_of_ne_nil hu
  obtain ⟨hc, hu⟩ := List.forall_mem_cons.mp hall
  have hrest : (texts bs).takeWhile isInlineBlank = [] := by
    cases hbs : texts bs with
    | nil => rfl
    | cons d r => exact List.takeWhile_cons_of_neg (by rw [hend d (by rw [hbs]; rfl)]; nofun)
  have htake : (u ++ (v ++ texts bs)).takeWhile isInlineBlank = u ++ v := by
    rw [← List.append_assoc, List.takeWhile_append_of_pos (List.forall_mem_append.mpr ⟨hu, hv⟩), hrest,
      List.append_nil]
  have hbs : lexemes (texts bs) = bs := lexemes_suffix (a := [_]) h
  rw [List.cons_append, lexemes_cons, measure_blank hc, htake]
  dsimp only
  rw [← List.append_assoc, List.take_left, List.drop_left, hbs]
  rfl

/-- Stretches put behind others: blanks that come to stand side by side are one stretch. -/
inductive Spliced : List Lexeme → List Lexeme → List Lexeme → Prop
  | apart (a b : List Lexeme) : Spliced a b (a ++ b)
  | blanks (a b : List Lexeme) (u v : List Char) :
      Spliced (a ++ [⟨.blank, u⟩]) (⟨.blank, v⟩ :: b) (a ++ ⟨.blank, u ++ v⟩ :: b)

/-- Stretches behind a filler, with other text between them cut out. -/
theorem lexemes_behind {s : List Char} {l : Lexeme} {zs bs : List Lexeme} (h : lexemes s = l :: zs)
    (hl : l.cls.isFiller) (hline : l.cls = .comment → ¬ EndsLine (texts zs)) (hbs : lexemes (texts bs) = bs)
    (a : List Lexeme) : Spliced (a ++ [l]) bs (a ++ lexemes (l.text ++ texts bs)) := by
  by_cases hblank : l.cls = .blank → ∀ c ∈ (texts bs).head?, isInlineBlank c = false
  · rw [lexemes_filler h hl hline hblank, hbs]
    simpa using Spliced.apart (a ++ [l]) bs
  · obtain ⟨hcls, hblank⟩ := Classical.not_imp.mp hblank
    obtain ⟨c, hblank⟩ := Classical.not_forall.mp hblank
    obtain ⟨hhead, hc⟩ := Classical.not_imp.mp hblank
    cases bs with
    | nil => cases hhead
    | cons z bs =>
      obtain ⟨d, r, n, hz, hm, -⟩ := lexemes_eq_cons hbs
      rw [hz] at hhead
      obtain rfl := Option.some.inj hhead
      rw [measure_blank (Bool.of_not_eq_false hc)] at hm
      obtain ⟨zcls, v⟩ := z
      obtain ⟨lcls, u⟩ := l
      obtain rfl : zcls = .blank := (congrArg Prod.fst hm).symm
      obtain rfl : lcls = .blank := hcls
      have hu : u ≠ [] := text_ne_nil (s := s) (l := ⟨.blank, u⟩) (by rw [h]; exact List.mem_cons_self)
      have hsplice := lexemes_blanks hu (blank_text h rfl).1 hbs
      rw [show lexemes (u ++ texts (⟨.blank, v⟩ :: bs)) = _ from hsplice]
      exact .blanks a bs u v

/-! ## Unfinished comments -/

theorem blockCommentLength?_suffix (a : List Char) {b : List Char} (h : blockCommentLength? (a ++ b) = none) :
    blockCommentLength? b = none := by
  induction a with
  | nil => exact h
  | cons c a ih =>
    rw [List.cons_append, blockCommentLength?_cons_eq_none] at h
    exact ih h.2

/-- The mark that ends a comment does not come up between a text that does not end with a star
and another. -/
theorem blockCommentLength?_join {a b : List Char} (ha : blockCommentLength? a = none)
    (hb : blockCommentLength? b = none) (hlast : a.getLast? ≠ some '*') :
    blockCommentLength? (a ++ b) = none := by
  induction a with
  | nil => exact hb
  | cons c a ih =>
    rw [blockCommentLength?_cons_eq_none] at ha
    rw [List.cons_append, blockCommentLength?_cons_eq_none]
    cases a with
    | nil => exact ⟨fun ⟨hc, _⟩ => hlast (congrArg some hc), hb⟩
    | cons d a => exact ⟨ha.1, ih ha.2 (by rwa [List.getLast?_cons_cons] at hlast)⟩

/-- Behind an operator that begins a comment that is not finished, no comment ends. -/
theorem opensComment_rest {s : List Char} {a b : List Lexeme} (h : lexemes s = a ++ b) (ho : opensComment a) :
    blockCommentLength? (texts b) = none := by
  induction a generalizing s with
  | nil => cases ho
  | cons l a ih =>
    obtain ⟨c, r, n, -, hm, htext, hrest, hlex⟩ := lexemes_eq_cons (h.trans (List.cons_append ..))
    rw [opensComment, Bool.or_eq_true, Bool.and_eq_true, List.isPrefixOf_iff_prefix] at ho
    rcases ho with ⟨hcls, z, hz⟩ | ho
    · have hr : c :: r = '/' :: '*' :: (z ++ texts b) := by
        rw [← r.take_append_drop n, hrest, texts_append, ← List.cons_append, ← htext, ← List.append_assoc, ← hz]
        rfl
      obtain ⟨rfl, rfl⟩ := List.cons.inj hr
      rcases slash_cases ('*' :: (z ++ texts b)) with ⟨r', hr'⟩ | ⟨r', k, hr', hk⟩ | ⟨-, hnone⟩
      · cases hr'
      · cases hr'
        rw [measure_block hk] at hm
        exact absurd (congrArg Prod.fst hm).symm (of_decide_eq_true hcls)
      · exact blockCommentLength?_suffix z (hnone _ rfl)
    · exact ih hlex ho

/-- What a filler that ends no line begins with, and that it ends a comment or with no star. -/
theorem filler_text {s : List Char} {l : Lexeme} {zs : List Lexeme} (h : lexemes s = l :: zs)
    (hl : l.cls.isFiller) (hline : l.cls = .comment → ¬ EndsLine (texts zs)) :
    (∃ c r, l.text = c :: r ∧ (c = '\n' ∨ isSeparator c) ∧ (l.cls ≠ .comment → c ≠ '/')) ∧
      (blockCommentLength? l.text = none → l.text.getLast? ≠ some '*') := by
  obtain ⟨c, r, n, rfl, hm, htext, hrest, -⟩ := lexemes_eq_cons h
  have hmeasured := measured c r
  rw [hm] at hmeasured
  have hone : n = 0 → c ≠ '*' → l.text.getLast? ≠ some '*' := by
    rintro rfl hc hlast
    rw [htext] at hlast
    exact hc (Option.some.inj hlast)
  suffices hc : ((c = '\n' ∨ isSeparator c) ∧ (l.cls ≠ .comment → c ≠ '/')) ∧
      (blockCommentLength? l.text = none → l.text.getLast? ≠ some '*') from
    ⟨⟨c, _, htext, hc.1⟩, hc.2⟩
  generalize hcls : l.cls = cls at *
  cases hmeasured with
  | newline hc => exact ⟨⟨Or.inl hc, fun _ => by rw [hc]; decide⟩, fun _ => hone rfl (by rw [hc]; decide)⟩
  | blank hc =>
    refine ⟨⟨Or.inr (by simp [isSeparator, hc]), fun _ => by rintro rfl; exact absurd hc (by decide)⟩,
      fun _ hlast => ?_⟩
    have := (blank_text h hcls).1 _ (List.mem_of_getLast? hlast)
    exact absurd this (by decide)
  | lineComment hc hr => exact absurd (lineComment_text hrest) (hline rfl)
  | @blockComment r' n hc hr hn =>
    subst hc hr
    refine ⟨⟨Or.inr (by decide), fun hne => absurd rfl hne⟩, fun hnone => ?_⟩
    have hsome := blockCommentLength?_take hn []
    rw [List.append_nil] at hsome
    rw [htext, List.take_succ_cons] at hnone
    rw [blockCommentLength?_suffix ['/', '*'] hnone] at hsome
    cases hsome
  | @operator w o hc ho =>
    obtain rfl : o = .semicolon := Kind.operator.inj (of_decide_eq_true hl)
    obtain ⟨hw, hword⟩ := operator_text ho
    rw [semicolon_word hw] at hword hone
    obtain ⟨rfl, -⟩ := List.cons.inj hword
    exact ⟨⟨Or.inr (by decide), fun _ => by decide⟩, fun _ => hone rfl (by decide)⟩
  | word => exact absurd (of_decide_eq_true hl) (Kind.ofWord_ne_operator _ _)
  | other _ hne _ => exact absurd (of_decide_eq_true hl) (hne _)

/-! ## Cutting -/

/-- Stretches up to a filler and those from another place on, put together. -/
theorem lexemes_cut {s : List Char} {x m bs : List Lexeme} {l : Lexeme} (h : lexemes s = x ++ l :: (m ++ bs))
    (hx : ∀ k ∈ x, k.cls.isSound) (hl : l.cls.isFiller) (hline : l.cls = .comment → ¬ EndsLine (texts (m ++ bs))) :
    lexemes (texts x ++ (l.text ++ texts bs)) = x ++ lexemes (l.text ++ texts bs) := by
  have hsuffix := lexemes_suffix h
  obtain ⟨⟨c, r, htext, hc, -⟩, hstar⟩ := filler_text hsuffix hl hline
  have hall : lexemes (texts x ++ (l.text ++ texts (m ++ bs))) = x ++ l :: (m ++ bs) := by
    rw [← texts_cons, ← texts_append, ← h, texts_lexemes]
  refine lexemes_keepsLine hall hx ?_ fun ho => ?_
  · rw [htext]
    rcases hc with rfl | hc
    · exact Or.inl fun d hd => (Option.some.inj hd).symm
    · exact Or.inr ⟨c, _, _, rfl, rfl, hc⟩
  · have hnone := opensComment_rest h ho
    rw [texts_cons, texts_append] at hnone
    have hl := blockCommentLength?_of_append hnone
    rw [← List.append_assoc] at hnone
    exact blockCommentLength?_join hl (blockCommentLength?_suffix _ hnone) (hstar hl)

theorem isLetter_byteOrderMark : Text.isLetter byteOrderMark = false := by
  rw [Text.isLetter, if_neg (by decide), inRanges, ← Array.any_toList]
  decide +kernel

/-- A byte order mark begins no stretch of code. -/
theorem head?_ne_byteOrderMark {t : List Char} (h : ∀ l ∈ lexemes t, l.cls.isSound) :
    t.head? ≠ some byteOrderMark := by
  intro hhead
  obtain ⟨r, rfl⟩ := List.head?_eq_some_iff.mp hhead
  have hop : operator? (byteOrderMark :: r) = none := by
    rfl
  have hjunk : (measure byteOrderMark r).1 = .token .junk := by
    rw [measure_operator (by decide) (by decide) (by rw [isLetter_byteOrderMark]; nofun) (by decide) (by decide),
      operatorLexeme, hop]
  have hsound := h _ (by rw [lexemes_cons]; exact List.mem_cons_self)
  rw [hjunk] at hsound
  cases hsound

/-- The stretches of a text behind the byte order mark of another. -/
theorem stretches_mark (s : List Char) {t : List Char} (h : ∀ l ∈ lexemes t, l.cls.isSound) :
    stretches (orderMark s ++ t) = lexemes t ∧ orderMark (orderMark s ++ t) = orderMark s := by
  have hmark : orderMark (orderMark s ++ t) = orderMark s := by
    have hnone : orderMark t = [] := by
      cases t with
      | nil => rfl
      | cons c r => exact if_neg fun hc => head?_ne_byteOrderMark h (congrArg some hc)
    cases s with
    | nil => exact hnone
    | cons c r =>
      by_cases hc : c = byteOrderMark
      · simp [orderMark, hc]
      · rw [show orderMark (c :: r) = [] from if_neg hc]
        exact hnone
  exact ⟨by rw [stretches, hmark, List.drop_left], hmark⟩

theorem not_endsLine {s : List Char} {a b : List Lexeme} {k : Lexeme} (h : lexemes s = a ++ k :: b)
    (hk : k.cls ≠ .newline) : ¬ EndsLine (texts (k :: b)) := by
  intro hends
  obtain ⟨c, r, hcr, hck⟩ := lexeme_eq h
  rw [texts_cons, hcr] at hends
  obtain rfl := hends c rfl
  exact hk (by rw [hck]; rfl)

/-- Text between two places, the first of them behind a filler, cut out of a text. -/
theorem stretches_cut {s : List Char} {a m b : List Lexeme} {k : Lexeme} (h : stretches s = a ++ (k :: m ++ b))
    (hsound : ∀ l ∈ stretches s, l.cls.isSound) (ha : ∀ l ∈ a.getLast?, l.cls.isFiller) (hk : k.cls ≠ .newline) :
    Spliced a b (stretches (orderMark s ++ (texts a ++ texts b))) ∧
      orderMark (orderMark s ++ (texts a ++ texts b)) = orderMark s := by
  have hb : lexemes (texts b) = b := lexemes_suffix (a := a ++ k :: m) (by rw [← stretches_eq, h]; simp)
  rw [h, List.forall_mem_append, List.forall_mem_append] at hsound
  have hspliced : Spliced a b (lexemes (texts a ++ texts b)) := by
    rcases List.eq_nil_or_concat a with rfl | ⟨x, l, rfl⟩
    · rw [texts_nil, List.nil_append, hb]
      exact .apart [] b
    · rw [List.concat_eq_append] at h ha ⊢
      have hl : l.cls.isFiller := ha l (by simp)
      have hs : lexemes (s.drop (orderMark s).length) = x ++ l :: (k :: m ++ b) := by
        rw [← stretches_eq, h]
        simp
      have hline : ¬ EndsLine (texts (k :: m ++ b)) :=
        not_endsLine (a := x ++ [l]) (b := m ++ b) (by rw [hs]; simp) hk
      rw [texts_append, texts_cons, texts_nil, List.append_nil, List.append_assoc,
        lexemes_cut hs (fun k hk => hsound.1 k (by simp [hk])) hl fun _ => hline]
      exact lexemes_behind (lexemes_suffix hs) hl (fun _ => hline) hb x
  have hall : ∀ l ∈ lexemes (texts a ++ texts b), l.cls.isSound := by
    generalize lexemes (texts a ++ texts b) = ls at hspliced
    cases hspliced with
    | apart => exact List.forall_mem_append.mpr ⟨hsound.1, hsound.2.2⟩
    | blanks x y u v =>
      refine List.forall_mem_append.mpr ⟨fun l hl => hsound.1 l (by simp [hl]), ?_⟩
      exact List.forall_mem_cons.mpr ⟨rfl, fun l hl => hsound.2.2 l (by simp [hl])⟩
  obtain ⟨hstretches, hmark⟩ := stretches_mark s hall
  exact ⟨hstretches ▸ hspliced, hmark⟩

/-- What begins a comment that is not finished lies before or behind a stretch that takes no part
in that. -/
theorem opensComment_split {a b : List Lexeme} {l : Lexeme} {c : Char} {r : List Char} (htext : l.text = c :: r)
    (hstar : c ≠ '*') (hslash : l.cls ≠ .comment → c ≠ '/') (ha : ∀ k ∈ a, k.text ≠ [])
    (h : opensComment (a ++ l :: b)) : opensComment a ∨ opensComment b := by
  induction a with
  | nil =>
    rw [List.nil_append, opensComment, Bool.or_eq_true, Bool.and_eq_true, List.isPrefixOf_iff_prefix] at h
    rcases h with ⟨hcls, z, hz⟩ | h
    · rw [htext] at hz
      exact absurd (List.cons.inj hz).1.symm (hslash (of_decide_eq_true hcls))
    · exact Or.inr h
  | cons k a ih =>
    obtain ⟨hk, ha⟩ := List.forall_mem_cons.mp ha
    rw [List.cons_append, opensComment, Bool.or_eq_true, Bool.and_eq_true, List.isPrefixOf_iff_prefix] at h
    rw [opensComment, Bool.or_eq_true, Bool.and_eq_true, List.isPrefixOf_iff_prefix]
    rcases h with ⟨hcls, hpre⟩ | h
    · refine Or.inl (Or.inl ⟨hcls, ?_⟩)
      obtain ⟨d, w, hw⟩ := List.exists_cons_of_ne_nil hk
      rw [texts_append, texts_cons, htext, hw] at hpre
      rw [hw]
      -- the star is not that of the stretch, so it lies before it
      cases hrest : w ++ texts a with
      | nil =>
        obtain ⟨rfl, hnil⟩ := List.append_eq_nil_iff.mp hrest
        rw [hnil] at hpre
        obtain ⟨z, hz⟩ := hpre
        exact absurd (List.cons.inj (List.cons.inj hz).2).1.symm hstar
      | cons e z =>
        obtain ⟨y, hy⟩ := hpre
        have hall : d :: w ++ texts a = d :: e :: z := congrArg _ hrest
        rw [← List.append_assoc, hall] at hy
        obtain ⟨hd, hy⟩ := List.cons.inj hy
        rw [hall, ← hd, ← (List.cons.inj hy).1]
        exact ⟨z, rfl⟩
    · exact (ih ha h).imp_left Or.inr

/-- No comment is begun by a cut. -/
theorem opensComment_cut {s : List Char} {a m b : List Lexeme} {k : Lexeme} (h : stretches s = a ++ (k :: m ++ b))
    (hsound : ∀ l ∈ stretches s, l.cls.isSound) (ha : ∀ l ∈ a.getLast?, l.cls.isFiller) (hk : k.cls ≠ .newline)
    (ho : opensComment (stretches (orderMark s ++ (texts a ++ texts b)))) : opensComment a ∨ opensComment b := by
  have hspliced := (stretches_cut h hsound ha hk).1
  generalize stretches (orderMark s ++ (texts a ++ texts b)) = ls at hspliced ho
  have hne : ∀ l ∈ a, l.text ≠ [] := fun l hl =>
    ne_nil_of_mem_stretches (s := s) (by rw [h]; simp [hl])
  have hfiller : ∀ x l, a = x ++ [l] → ∃ c r, l.text = c :: r ∧ c ≠ '*' ∧ (l.cls ≠ .comment → c ≠ '/') := by
    rintro x l rfl
    have hs : lexemes (s.drop (orderMark s).length) = x ++ l :: (k :: m ++ b) := by
      rw [← stretches_eq, h]
      simp
    obtain ⟨⟨c, r, hc, hsep, hslash⟩, -⟩ := filler_text (lexemes_suffix hs) (ha l (by simp)) fun _ =>
      not_endsLine (a := x ++ [l]) (b := m ++ b) (by rw [hs]; simp) hk
    refine ⟨c, r, hc, ?_, hslash⟩
    rintro rfl
    exact absurd hsep (by decide)
  cases hspliced with
  | apart =>
    rcases List.eq_nil_or_concat a with rfl | ⟨x, l, rfl⟩
    · exact Or.inr ho
    · rw [List.concat_eq_append] at *
      obtain ⟨c, r, hc, hstar, hslash⟩ := hfiller x l rfl
      rw [List.append_assoc] at ho
      exact (opensComment_split hc hstar hslash (fun k hk => hne k (by simp [hk])) ho).imp_left
        (opensComment_append [l])
  | blanks x y u v =>
    obtain ⟨c, r, hc, hstar, hslash⟩ := hfiller x _ rfl
    refine (opensComment_split (l := ⟨.blank, u ++ v⟩) (c := c) (r := r ++ v) ?_ hstar (fun _ => hslash nofun)
      (fun k hk => hne k (by simp [hk])) ho).imp (opensComment_append _) fun hy => ?_
    · show u ++ v = _
      rw [show u = c :: r from hc]
      rfl
    · rw [opensComment, hy, Bool.or_true]

end GoSplice.Syntax
