import GoSplice.Proofs.Excerpts

/-!
# A declaration behind a text

The text of a declaration, put behind a text that ends its last line, adds its
item and its comments to those of the text:

    textItems (s ++ t ++ "\n") = items of s, then that of t      (textItems_append)
    comments (s ++ t ++ "\n")  = comments of s, then those of t  (comments_append)

A text that begins with a semicolon cannot be added so           (not_opened_of_semicolon).
-/

namespace GoSplice.Syntax

/-! ## Stretches behind others -/

theorem orderMark_append {s : List Char} (hs : s ≠ []) (t : List Char) :
    orderMark (s ++ t) = orderMark s := by
  cases s with
  | nil => exact absurd rfl hs
  | cons c r => rfl

theorem stretches_eq {s : List Char} : stretches s = lexemes (s.drop (orderMark s).length) := rfl

theorem opensComment_append {a : List Lexeme} (b : List Lexeme) (h : opensComment a) :
    opensComment (a ++ b) := by
  induction a with
  | nil => cases h
  | cons l a ih =>
    rw [opensComment, Bool.or_eq_true, Bool.and_eq_true] at h
    rw [List.cons_append, opensComment, Bool.or_eq_true, Bool.and_eq_true]
    rcases h with ⟨hc, hpre⟩ | h
    · rw [List.isPrefixOf_iff_prefix] at hpre
      refine Or.inl ⟨hc, List.isPrefixOf_iff_prefix.mpr ?_⟩
      rw [texts_append, ← List.append_assoc]
      exact hpre.trans (List.prefix_append _ _)
    · exact Or.inr (ih h)

/-- A sound text that ends its last line ends with the stretch of a line end. -/
theorem stretches_lineEnd {s : List Char} (hs : s.getLast? = some '\n')
    (hsound : ∀ l ∈ stretches s, l.cls.isSound) :
    ∃ ls, stretches s = ls ++ [⟨.newline, ['\n']⟩] := by
  have hdrop : (s.drop (orderMark s).length).getLast? = some '\n' := by
    cases s with
    | nil => cases hs
    | cons c r =>
      by_cases hc : c = byteOrderMark
      · subst hc
        cases r with
        | nil => exact absurd hs (by decide)
        | cons d r =>
          rw [List.getLast?_cons_cons] at hs
          simpa [orderMark] using hs
      · simpa [orderMark, hc] using hs
  rcases List.eq_nil_or_concat (stretches s) with hnil | ⟨ls, l, hls⟩
  · have htexts := texts_lexemes (s.drop (orderMark s).length)
    rw [← stretches_eq, hnil, texts_nil] at htexts
    rw [← htexts] at hdrop
    cases hdrop
  · rw [List.concat_eq_append] at hls
    rw [hls] at hsound
    exact ⟨ls, by rw [hls, lexemes_lineEnd hls (hsound l (by simp)) hdrop]⟩

/-- Text behind the last line end of a sound text adds its stretches. -/
theorem stretches_append {s t : List Char} (hs : s.getLast? = some '\n')
    (hsound : ∀ l ∈ stretches s, l.cls.isSound)
    (hopen : opensComment (stretches s) → blockCommentLength? t = none) :
    stretches (s ++ t) = stretches s ++ lexemes t := by
  obtain ⟨ls, hls⟩ := stretches_lineEnd hs hsound
  have hne : s ≠ [] := by
    rintro rfl
    cases hs
  have hle : (orderMark s).length ≤ s.length := by
    have := congrArg List.length (orderMark_append_drop s)
    rw [List.length_append] at this
    omega
  have htexts : s.drop (orderMark s).length = texts ls ++ ['\n'] := by
    rw [← texts_lexemes (s.drop _), ← stretches_eq, hls, texts_append]
    rfl
  have hcut : lexemes (texts ls ++ ['\n']) = ls ++ [⟨.newline, ['\n']⟩] := by rw [← htexts, ← hls]; rfl
  rw [hls] at hsound hopen
  rw [stretches_eq, orderMark_append hne, List.drop_append_of_le_length hle, htexts, hls,
    List.append_assoc, List.append_assoc]
  refine lexemes_keepsLine hcut (fun l hl => hsound l (List.mem_append_left _ hl))
    (Or.inl fun c hc => (Option.some.inj hc).symm) fun ho => ?_
  rw [List.cons_append, List.nil_append, blockCommentLength?, hopen (opensComment_append _ ho)]
  · rfl
  · intro r hc
    exact absurd hc (by decide)

/-! ## The text of a declaration -/

/-- A text of some stretches without code and a declaration. -/
structure DeclarationText (t : List Char) (cs ls : List Lexeme) (u : Node) : Prop where
  lexemes_eq : lexemes t = cs ++ ls
  blank : ∀ l ∈ cs, ∀ k, l.cls ≠ .token k
  declares : Declares ls u

theorem DeclarationText.isSound {t : List Char} {cs ls : List Lexeme} {u : Node}
    (h : DeclarationText t cs ls u) : ∀ l ∈ lexemes t, l.cls.isSound := by
  rw [h.lexemes_eq, List.forall_mem_append]
  refine ⟨fun l hl => ?_, h.declares.isSound⟩
  cases hc : l.cls with
  | blank | newline | comment => rfl
  | token k => exact absurd hc (h.blank l hl k)

/-- Stretches without tokens leave a line end that came before. -/
theorem place_blank {cs : List Lexeme} (hcs : ∀ l ∈ cs, ∀ k, l.cls ≠ .token k) (pos : Nat)
    {brk : Option Nat} (hbrk : brk ≠ none) :
    (place pos brk cs).tokens = [] ∧ (place pos brk cs).lastBreak = brk := by
  induction cs generalizing pos with
  | nil => exact ⟨rfl, rfl⟩
  | cons l cs ih =>
    have ih := ih fun l hl => hcs l (List.mem_cons_of_mem _ hl)
    unfold place
    dsimp only
    cases hc : l.cls with
    | blank => exact ih _
    | comment => exact ih _
    | newline =>
      obtain ⟨b, rfl⟩ := Option.ne_none_iff_exists'.mp hbrk
      exact ih _
    | token k => exact absurd hc (hcs l List.mem_cons_self k)

/-- Behind the last line end of a text, the line end is remembered. -/
theorem lastBreak_ne_none (pos : Nat) (brk : Option Nat) (ls : List Lexeme) :
    (place pos brk (ls ++ [⟨.newline, ['\n']⟩])).lastBreak ≠ none := by
  rw [place_append]
  simp [place]

section Append

variable {s t : List Char} {cs ls : List Lexeme} {u : Node}

/-- The stretches of a text with another and a line end behind it. -/
theorem stretches_line (hs : s.getLast? = some '\n') (hsound : ∀ l ∈ stretches s, l.cls.isSound)
    (hopen : opensComment (stretches s) → blockCommentLength? t = none)
    (ht : ∀ l ∈ lexemes t, l.cls.isSound) :
    stretches (s ++ (t ++ ['\n'])) = stretches s ++ (lexemes t ++ [⟨.newline, ['\n']⟩]) := by
  have hline : EndsLine ['\n'] := fun c hc => (Option.some.inj hc).symm
  have hself : lexemes (texts (lexemes t) ++ []) = lexemes t ++ [] := by
    rw [List.append_nil, List.append_nil, texts_lexemes]
  have hbehind := lexemes_keepsLine hself ht (Or.inl hline) fun _ => rfl
  rw [texts_lexemes] at hbehind
  rw [stretches_append hs hsound fun h => blockCommentLength?_append (hopen h) rfl hline, hbehind]
  rfl

/-- The stretches of a text with the text of a declaration behind it. -/
theorem stretches_declaration (hs : s.getLast? = some '\n') (hsound : ∀ l ∈ stretches s, l.cls.isSound)
    (hopen : opensComment (stretches s) → blockCommentLength? t = none)
    (ht : DeclarationText t cs ls u) :
    stretches (s ++ (t ++ ['\n'])) = stretches s ++ (cs ++ (ls ++ [⟨.newline, ['\n']⟩])) := by
  rw [stretches_line hs hsound hopen ht.isSound, ht.lexemes_eq, List.append_assoc]

/-- The stretches of a text and more behind them, in their places. -/
theorem scan_append {x : List Char} {ms : List Lexeme} (hs : s ≠ [])
    (h : stretches (s ++ x) = stretches s ++ ms) : scan (s ++ x) =
      ⟨(scan s).tokens ++ (place (byteWidth s) (scan s).lastBreak ms).tokens,
        (scan s).comments ++ (place (byteWidth s) (scan s).lastBreak ms).comments,
        (place (byteWidth s) (scan s).lastBreak ms).lastBreak⟩ := by
  have hwidth : byteWidth (orderMark s) + byteWidth (texts (stretches s)) = byteWidth s := by
    rw [← byteWidth_append, orderMark_append_texts]
  rw [scan_eq, ← stretches_eq, h, orderMark_append hs, place_append, hwidth, scan_eq s, ← stretches_eq]

theorem scan_lastBreak (hs : s.getLast? = some '\n') (hsound : ∀ l ∈ stretches s, l.cls.isSound) :
    (scan s).lastBreak ≠ none := by
  obtain ⟨ls, hls⟩ := stretches_lineEnd hs hsound
  rw [scan_eq, ← stretches_eq, hls]
  exact lastBreak_ne_none _ _ _

/-- A declaration behind a text of declarations is its last item. -/
theorem textItems_append (hs : s.getLast? = some '\n') (href : (textItems s).refusal = none)
    (hns : ∀ n ∈ (textItems s).nodes, Grammar.IsOpened n.label)
    (hopen : opensComment (stretches s) → blockCommentLength? t = none)
    (ht : DeclarationText t cs ls u) :
    textItems (s ++ (t ++ ['\n'])) =
      ⟨(textItems s).nodes ++ [Tree.moved (byteWidth (s ++ texts cs)) u], none⟩ := by
  have hread := read_textItems href
  have hsound := isSound_of_mem_stretches hread hns
  have hbreak := scan_lastBreak hs hsound
  have hne : s ≠ [] := by
    rintro rfl
    cases hs
  have hscan := scan_append hne (stretches_declaration hs hsound hopen ht)
  obtain ⟨hnil, hkept⟩ := place_blank ht.blank (byteWidth s) hbreak
  obtain ⟨l, r, k, rfl, hk, hopening⟩ := ht.declares.head
  -- the tokens behind those of the text are those of the declaration
  have htokens : (scan (s ++ (t ++ ['\n']))).tokens = (scan s).tokens ++
      (place (byteWidth (s ++ texts cs)) (scan s).lastBreak (l :: r)).tokens := by
    rw [hscan]
    dsimp only
    rw [place_append_tokens, hnil, hkept, List.nil_append, place_append_tokens, byteWidth_append]
    exact congrArg _ (List.append_nil _)
  have hlast : (scan (s ++ (t ++ ['\n']))).lastBreak ≠ none := by
    rw [hscan, ← List.append_assoc]
    exact lastBreak_ne_none _ _ _
  obtain ⟨e, he⟩ := Option.ne_none_iff_exists'.mp hlast
  have hdeclaration : ∀ o x, Read ⟨o, (place (byteWidth (s ++ texts cs)) x (l :: r)).tokens, some e⟩
      [Tree.moved (byteWidth (s ++ texts cs)) u] := by
    intro o x
    have hitem := ht.declares.read ⟨byteWidth (s ++ texts cs), [], some e⟩ nofun o x
    rw [List.append_nil] at hitem
    exact .item hitem rfl (.done rfl)
  refine itemsOf_of_read ?_
  rw [htokens, he, place_cons_token hk]
  refine hread.append hns (Or.inr hbreak) hopening hbreak fun o x => ?_
  have := hdeclaration o x
  rw [place_cons_token hk] at this
  exact this

/-- A text whose first token is a semicolon is no declaration behind a text of declarations. -/
theorem not_opened_of_semicolon (hs : s.getLast? = some '\n') (href : (textItems s).refusal = none)
    (hns : ∀ n ∈ (textItems s).nodes, Grammar.IsOpened n.label)
    (hopen : opensComment (stretches s) → blockCommentLength? t = none)
    (ht : ∀ l ∈ lexemes t, l.cls.isSound) {l : Lexeme} (hlexemes : lexemes t = cs ++ l :: ls)
    (hcs : ∀ l ∈ cs, ∀ k, l.cls ≠ .token k) (hl : l.cls = .token (.operator .semicolon))
    (href' : (textItems (s ++ (t ++ ['\n']))).refusal = none) :
    ¬ ∀ n ∈ (textItems (s ++ (t ++ ['\n']))).nodes, Grammar.IsOpened n.label := by
  intro hns'
  have hread := read_textItems href
  have hsound := isSound_of_mem_stretches hread hns
  have hbreak := scan_lastBreak hs hsound
  have hne : s ≠ [] := by
    rintro rfl
    cases hs
  have hscan := scan_append hne (stretches_line hs hsound hopen ht)
  rw [hlexemes, List.append_assoc, List.cons_append] at hscan
  obtain ⟨hnil, hkept⟩ := place_blank hcs (byteWidth s) hbreak
  have hread' := read_textItems href'
  unfold startOf at hread'
  rw [hscan] at hread'
  dsimp only at hread'
  rw [place_append_tokens, hnil, hkept, List.nil_append, place_cons_token hl] at hread'
  exact hread.not_semicolon hns (Or.inr hbreak) rfl hbreak hread' hns'

/-- The comments of the declaration stand behind those of the text. -/
theorem comments_append (hs : s.getLast? = some '\n') (hsound : ∀ l ∈ stretches s, l.cls.isSound)
    (hopen : opensComment (stretches s) → blockCommentLength? t = none)
    (ht : DeclarationText t cs ls u) : (scan (s ++ (t ++ ['\n']))).comments = (scan s).comments ++
      ((place (byteWidth s) none cs).comments ++
        (place 0 none ls).comments.map (Comment.moved (byteWidth (s ++ texts cs)))) := by
  have hne : s ≠ [] := by
    rintro rfl
    cases hs
  rw [scan_append hne (stretches_declaration hs hsound hopen ht)]
  dsimp only
  rw [place_comments_append, place_comments_append, ← byteWidth_append,
    place_comments_moved (byteWidth (s ++ texts cs))]
  exact congrArg _ (congrArg _ (List.append_nil _))

end Append

end GoSplice.Syntax
