import GoSplice.Proofs.Paragraphs

/-!
# The declarations of files made of paragraphs

Every paragraph of a file is one of its declarations, and the comments above it
are its doc comment, wherever it stands.
-/

namespace GoSplice

open Syntax GoSplice.Part

/-! ## Comments of a paragraph -/

theorem comment_range {pos : Nat} {brk : Option Nat} {ls : List Lexeme} {c : Comment}
    (h : c ∈ (place pos brk ls).comments) (hls : ∀ l ∈ ls, l.text ≠ []) :
    pos ≤ c.start ∧ c.start < c.stop ∧ c.stop ≤ pos + byteWidth (texts ls) := by
  rw [place_comments, List.mem_filterMap] at h
  obtain ⟨⟨n, l⟩, hmem, hl⟩ := h
  obtain ⟨a, b, rfl, rfl⟩ := mem_located.mp hmem
  have hpos := byteWidth_pos (hls l (by simp))
  unfold commentOf? at hl
  split at hl
  · cases hl
    rw [texts_append, texts_cons, byteWidth_append, byteWidth_append]
    dsimp only
    omega
  · cases hl

namespace Paragraph

variable {g : Paragraph}

theorem IsRead.text_ne_nil (h : g.IsRead) : ∀ l ∈ g.doc ++ g.code, l.text ≠ [] := by
  intro l hl
  rw [← h.declaration.lexemes_eq] at hl
  exact Syntax.text_ne_nil hl

theorem byteWidth_text (g : Paragraph) :
    byteWidth g.text = g.codeStart + byteWidth (texts g.code) := by
  rw [text, texts_append, byteWidth_append]
  rfl

theorem IsRead.docComment_range (h : g.IsRead) {c : Comment} (hc : c ∈ g.docComments) :
    c.start < c.stop ∧ c.stop ≤ g.codeStart := by
  obtain ⟨-, h2, h3⟩ := comment_range hc fun l hl => h.text_ne_nil l (List.mem_append_left _ hl)
  rw [Nat.zero_add] at h3
  exact ⟨h2, h3⟩

theorem IsRead.codeComment_range (h : g.IsRead) {c : Comment} (hc : c ∈ g.codeComments) :
    c.start < byteWidth (texts g.code) := by
  obtain ⟨-, h2, h3⟩ := comment_range hc fun l hl => h.text_ne_nil l (List.mem_append_right _ hl)
  omega

/-- The doc comment begins where the paragraph does. -/
theorem IsRead.docComments_eq (h : g.IsRead) :
    g.docComments = [] ∧ g.codeStart = 0 ∨ ∃ c cs, g.docComments = c :: cs ∧ c.start = 0 := by
  rcases h.head with hnil | ⟨l, r, hdoc, hl⟩
  · left
    rw [docComments, codeStart, hnil]
    exact ⟨rfl, rfl⟩
  · right
    refine ⟨⟨0, 0 + byteWidth l.text⟩, (place (0 + byteWidth l.text) none r).comments, ?_, rfl⟩
    rw [docComments, hdoc, place]
    dsimp only
    rw [hl]

theorem IsRead.spliceStart (h : g.IsRead) (o : Nat) : (g.declarationAt o).spliceStart = o := by
  unfold Declaration.spliceStart declarationAt
  rcases h.docComments_eq with ⟨hnil, hstart⟩ | ⟨c, cs, hcs, -⟩
  · rw [hnil, hstart]
    rfl
  · rw [hcs, List.getLast?_cons]
    rfl

end Paragraph

/-! ## Reading off the declarations -/

namespace Declaration

/-- Whether the nearest sibling, if any, is an item that ends above the row of an offset. -/
def EndsAbove (source : Bytes) (o : Nat) (before : List Sibling) : Prop :=
  ∀ x r, before = x :: r → ∃ t, x = .item t ∧
    (LineIndex.ofBytes source).row t.stop < (LineIndex.ofBytes source).row o

/-- The place of a paragraph in a file: what is before it and behind it, and the siblings
before it, nearest first. -/
structure AtParagraph (g : Paragraph) (pre post : List Char) (source : Bytes)
    (before : List Sibling) : Prop where
  source_eq : source = Utf8.encode (pre ++ (g.text ++ post))
  before : EndsAbove source (byteWidth pre) before

section AtParagraph

variable {g : Paragraph} {pre post : List Char} {source : Bytes} {before : List Sibling}

/-- The comments above a paragraph are its doc comment. -/
theorem docRange?_paragraph (h : AtParagraph g pre post source before) (hg : g.IsRead) :
    docRange? (LineIndex.ofBytes source) (byteWidth pre + g.codeStart)
      ((g.docComments.map (Comment.moved (byteWidth pre))).reverse.map .comment ++ before) =
      (g.declarationAt (byteWidth pre)).doc := by
  have hrow : ∀ o, o ≤ byteWidth g.text → (LineIndex.ofBytes source).row (o + byteWidth pre) =
      g.rowOf o + (Utf8.encode pre).count LineIndex.lineFeed := by
    intro o ho
    rw [byteWidth_eq] at ho
    rw [h.source_eq, ← List.append_assoc, Utf8.encode_append, Utf8.encode_append, byteWidth_eq]
    exact LineIndex.row_append _ _ _ ho
  have hwidth := Paragraph.byteWidth_text g
  have habove : Above (LineIndex.ofBytes source).row
      ((LineIndex.ofBytes source).row (byteWidth pre + g.codeStart))
      (g.docComments.map (Comment.moved (byteWidth pre))).reverse := by
    rw [Nat.add_comm, hrow _ (by omega), ← List.map_reverse, Above.moved_iff fun c hc => ?_]
    · exact hg.above
    · have hrange := hg.docComment_range (List.mem_reverse.mp hc)
      exact ⟨hrow _ (by omega), hrow _ (by omega)⟩
  unfold docRange?
  rcases hg.docComments_eq with ⟨hnil, -⟩ | ⟨c, cs, hcs, hc⟩
  · have hnone : docStart? (LineIndex.ofBytes source)
        ((LineIndex.ofBytes source).row (byteWidth pre + g.codeStart)) before = none := by
      cases before with
      | nil => rfl
      | cons x r =>
        obtain ⟨t, rfl, -⟩ := h.before x r rfl
        rfl
    have hdoc : (g.declarationAt (byteWidth pre)).doc = none := by
      rw [Paragraph.declarationAt, hnil]
      rfl
    rw [hnil, hdoc]
    simp only [List.map_nil, List.reverse_nil, List.nil_append, hnone]
  · have hfirst : (c.moved (byteWidth pre)).start = byteWidth pre := by
      rw [Comment.moved, hc]
      exact Nat.zero_add _
    rw [hcs, List.map_cons, List.reverse_cons] at habove ⊢
    have hstart := docStart?_of_above habove fun x r hx => by
      obtain ⟨t, rfl, hlt⟩ := h.before x r hx
      exact ⟨t, rfl, by rw [hfirst]; exact Nat.ne_of_lt hlt⟩
    obtain ⟨d, ds, hd⟩ : ∃ d ds, (cs.map (Comment.moved (byteWidth pre))).reverse ++
        [c.moved (byteWidth pre)] = d :: ds := by
      cases (cs.map (Comment.moved (byteWidth pre))).reverse with
      | nil => exact ⟨_, _, rfl⟩
      | cons d ds => exact ⟨_, _, rfl⟩
    have hlast : (g.docComments.map (Comment.moved (byteWidth pre))).getLast? = some d := by
      rw [← List.head?_reverse, hcs, List.map_cons, List.reverse_cons, hd]
      rfl
    rw [List.getLast?_map] at hlast
    obtain ⟨e, he, rfl⟩ := Option.map_eq_some_iff.mp hlast
    have hdoc : (g.declarationAt (byteWidth pre)).doc = some ⟨byteWidth pre, e.stop + byteWidth pre⟩ := by
      rw [Paragraph.declarationAt, he]
      rfl
    rw [hstart, hd, hdoc, hfirst]
    rfl

end AtParagraph

/-- The comments inside the code of a paragraph are those of the file there. -/
theorem sameInside_paragraph {g : Paragraph} (hg : g.IsRead) {o : Nat} {cs es : List Comment}
    (hcs : ∀ c ∈ cs, c.start < o) (hes : ∀ c ∈ es, o + byteWidth g.text ≤ c.start) :
    SameInside (o + g.codeStart) (byteWidth (texts g.code))
      (cs ++ ((Part.paragraph g).comments o ++ es)) g.codeComments := by
  intro start stop hstop
  have hwidth := Paragraph.byteWidth_text g
  have hnone : ∀ xs : List Comment, (∀ c ∈ xs, c.start < o + g.codeStart ∨ o + byteWidth g.text ≤ c.start) →
      xs.any (fun c => start + (o + g.codeStart) ≤ c.start && c.start < stop + (o + g.codeStart)) = false := by
    intro xs hxs
    rw [List.any_eq_false]
    intro c hc
    have := hxs c hc
    simp only [Bool.and_eq_true, decide_eq_true_eq]
    omega
  have hdocs : ∀ c ∈ g.docComments.map (Comment.moved o), c.start < o + g.codeStart ∨
      o + byteWidth g.text ≤ c.start := by
    intro c hc
    obtain ⟨d, hd, rfl⟩ := List.mem_map.mp hc
    have := hg.docComment_range hd
    left
    show d.start + o < _
    omega
  rw [Part.comments, List.any_append, List.any_append, List.any_append, hnone cs fun c hc => by
      have := hcs c hc
      omega,
    hnone _ hdocs, hnone es fun c hc => Or.inr (hes c hc), List.any_map, Bool.false_or, Bool.false_or,
    Bool.or_false]
  congr 1
  funext c
  simp [Comment.moved]

theorem ofSiblings_item {source : Bytes} {comments : List Comment} {lines : LineIndex}
    {before after : List Sibling} {t : Node} {d : Declared} {ds : List Declaration}
    (hlabel : t.label ≠ .packageClause) (hd : declaredBy source comments t = .ok d)
    (hds : ofSiblings source comments lines (.item t :: before) after = .ok ds) :
    ofSiblings source comments lines before (.item t :: after) =
      .ok (⟨t.start, t.stop, docRange? lines t.start before, d⟩ :: ds) := by
  rw [ofSiblings, if_neg hlabel, hd, hds]
  rfl

theorem le_of_mem_spread {ps : List Part} {o : Nat} {c : Comment}
    (hc : c ∈ spread Part.comments o ps) : o ≤ c.start := by
  induction ps generalizing o with
  | nil => cases hc
  | cons p ps ih =>
    rw [spread, List.mem_append] at hc
    rcases hc with hc | hc
    · cases p with
      | blank => cases hc
      | paragraph g =>
        rw [Part.comments, List.mem_append, List.mem_map, List.mem_map] at hc
        rcases hc with ⟨d, -, rfl⟩ | ⟨d, -, rfl⟩
        · exact Nat.le_add_left _ _
        · show o ≤ d.start + _
          omega
    · have := ih hc
      omega

section AtParagraph

variable {g : Paragraph} {pre post : List Char} {source : Bytes} {before : List Sibling}

/-- The code of a paragraph declares in its file what it declares. -/
theorem declaredBy_paragraph (h : AtParagraph g pre post source before) (hg : g.IsRead)
    {cs es : List Comment} (hcs : ∀ c ∈ cs, c.start < byteWidth pre)
    (hes : ∀ c ∈ es, byteWidth pre + byteWidth g.text ≤ c.start) :
    declaredBy source (cs ++ ((Part.paragraph g).comments (byteWidth pre) ++ es))
        (g.node.moved (byteWidth pre + g.codeStart)) =
      .ok (g.declared.moved (byteWidth pre + g.codeStart)) := by
  have hexcerpt : source = Utf8.encode (pre ++ texts g.doc) ++ Utf8.encode (texts g.code) ++
      Utf8.encode post := by
    rw [h.source_eq, Paragraph.text, texts_append, ← Utf8.encode_append, ← Utf8.encode_append]
    simp only [List.append_assoc]
  have hlength : (Utf8.encode (pre ++ texts g.doc)).length = byteWidth pre + g.codeStart := by
    rw [← byteWidth_eq, byteWidth_append]
    rfl
  have hsame := sameInside_paragraph hg hcs hes
  rw [← hlength, byteWidth_eq (texts g.code)] at hsame
  have hwithin : Within (Utf8.encode (texts g.code)).length g.node :=
    ⟨0, _, Nat.le_of_eq (byteWidth_eq _), hg.declaration.declares.nested⟩
  rw [hexcerpt, ← hlength, declaredBy_moved hwithin hsame, hg.declared]
  rfl

/-- A paragraph ends above the line below it. -/
theorem row_paragraph (h : AtParagraph g pre ('\n' :: post) source before) :
    (LineIndex.ofBytes source).row (byteWidth (pre ++ g.text)) <
      (LineIndex.ofBytes source).row (byteWidth (pre ++ (g.text ++ ['\n']))) := by
  have hcount : (Utf8.encode (pre ++ (g.text ++ ['\n']))).count LineIndex.lineFeed =
      (Utf8.encode (pre ++ g.text)).count LineIndex.lineFeed + 1 := by
    rw [← List.append_assoc, Utf8.encode_append (pre ++ g.text), List.count_append]
    rfl
  have habove : source = Utf8.encode (pre ++ g.text) ++ Utf8.encode ('\n' :: post) := by
    rw [h.source_eq, ← List.append_assoc, Utf8.encode_append]
  have hbelow : source = Utf8.encode (pre ++ (g.text ++ ['\n'])) ++ Utf8.encode post := by
    rw [h.source_eq, ← Utf8.encode_append]
    simp only [List.append_assoc, List.singleton_append]
  have hrow := LineIndex.row_length (Utf8.encode (pre ++ g.text)) (Utf8.encode ('\n' :: post))
  have hrow' := LineIndex.row_length (Utf8.encode (pre ++ (g.text ++ ['\n']))) (Utf8.encode post)
  rw [← habove, ← byteWidth_eq] at hrow
  rw [← hbelow, ← byteWidth_eq] at hrow'
  rw [hrow, hrow', hcount]
  exact Nat.lt_succ_self _

end AtParagraph

/-- The comments of a paragraph begin before it ends. -/
theorem lt_of_mem_comments {g : Paragraph} (hg : g.IsRead) {o : Nat} {c : Comment}
    (hc : c ∈ (Part.paragraph g).comments o) : c.start < o + byteWidth g.text := by
  have hwidth := Paragraph.byteWidth_text g
  rw [Part.comments, List.mem_append, List.mem_map, List.mem_map] at hc
  rcases hc with ⟨d, hd, rfl⟩ | ⟨d, hd, rfl⟩
  · have := hg.docComment_range hd
    show d.start + _ < _
    omega
  · have := hg.codeComment_range hd
    show d.start + _ < _
    omega

/-- The siblings that a paragraph yields, in front of others. -/
theorem siblings_paragraph {g : Paragraph} (hg : g.IsRead) {o : Nat} {ns : List Node}
    {es : List Comment} (hes : ∀ c ∈ es, o + byteWidth g.text ≤ c.start) :
    siblings ((Part.paragraph g).nodes o ++ ns) ((Part.paragraph g).comments o ++ es) =
      (g.docComments.map (Comment.moved o)).map .comment ++
        .item (g.node.moved (o + g.codeStart)) :: siblings ns es := by
  have hwidth := Paragraph.byteWidth_text g
  have hdecl := hg.declaration.declares
  have hpos := hdecl.nested.range.2.1
  rw [hdecl.start, hdecl.stop] at hpos
  rw [Part.nodes, Part.comments, List.append_assoc, List.singleton_append]
  refine siblings_item ?_ ?_ ?_ ?_
  · rw [Tree.start_moved, Tree.stop_moved, hdecl.start, hdecl.stop]
    omega
  · intro c hc
    obtain ⟨d, hd, rfl⟩ := List.mem_map.mp hc
    have := hg.docComment_range hd
    rw [Tree.start_moved, hdecl.start]
    show d.start + _ < _
    omega
  · intro c hc
    obtain ⟨d, hd, rfl⟩ := List.mem_map.mp hc
    have := hg.codeComment_range hd
    rw [Tree.start_moved, Tree.stop_moved, hdecl.start, hdecl.stop]
    show _ ≤ d.start + _ ∧ d.start + _ < _
    omega
  · intro c hc
    have := hes c hc
    rw [Tree.stop_moved, hdecl.stop]
    omega

/-- The declarations of a file below some text are those of its parts. -/
theorem ofSiblings_parts {source : Bytes} {ps : List Part} (hps : ∀ p ∈ ps, p.IsRead)
    {pre : List Char} {before : List Sibling} {cs : List Comment}
    (hsource : source = Utf8.encode (pre ++ bodyText ps)) (hcs : ∀ c ∈ cs, c.start < byteWidth pre)
    (hbefore : EndsAbove source (byteWidth pre) before) :
    ofSiblings source (cs ++ spread Part.comments (byteWidth pre) ps) (LineIndex.ofBytes source) before
      (siblings (spread nodes (byteWidth pre) ps) (spread Part.comments (byteWidth pre) ps)) =
      .ok (spread declarations (byteWidth pre) ps) := by
  induction ps generalizing pre before cs with
  | nil => rfl
  | cons p ps ih =>
    have hps' : ∀ p ∈ ps, p.IsRead := fun q hq => hps q (List.mem_cons_of_mem p hq)
    have hnext : byteWidth pre + byteWidth p.text = byteWidth (pre ++ p.text) :=
      (byteWidth_append _ _).symm
    have hsource' : source = Utf8.encode ((pre ++ p.text) ++ bodyText ps) := by
      rw [List.append_assoc]
      exact hsource
    rw [spread, spread, spread, hnext]
    cases p with
    | blank =>
      refine ih hps' hsource' (fun c hc => ?_) fun x r hx => ?_
      · have := hcs c hc
        omega
      · obtain ⟨t, rfl, hlt⟩ := hbefore x r hx
        exact ⟨t, rfl, Nat.lt_of_lt_of_le hlt (LineIndex.row_mono _ (by omega))⟩
    | paragraph g =>
      have hg : g.IsRead := hps _ List.mem_cons_self
      have hdecl := hg.declaration.declares
      have hwidth := Paragraph.byteWidth_text g
      have htext : byteWidth (Part.paragraph g).text = byteWidth g.text + 1 := byteWidth_append _ _
      have hat : AtParagraph g pre ('\n' :: bodyText ps) source before := by
        refine ⟨?_, hbefore⟩
        rw [hsource']
        simp only [Part.text, List.append_assoc, List.singleton_append]
      have hafter : ∀ c ∈ spread Part.comments (byteWidth (pre ++ (Part.paragraph g).text)) ps,
          byteWidth pre + byteWidth g.text ≤ c.start := by
        intro c hc
        have := le_of_mem_spread hc
        omega
      have hcs' : ∀ c ∈ cs ++ (Part.paragraph g).comments (byteWidth pre),
          c.start < byteWidth (pre ++ (Part.paragraph g).text) := by
        intro c hc
        rcases List.mem_append.mp hc with hc | hc
        · have := hcs c hc
          omega
        · have := lt_of_mem_comments hg hc
          omega
      have hbefore' : EndsAbove source (byteWidth (pre ++ (Part.paragraph g).text))
          (.item (g.node.moved (byteWidth pre + g.codeStart)) ::
            ((g.docComments.map (Comment.moved (byteWidth pre))).reverse.map .comment ++ before)) := by
        rintro x r ⟨⟩
        have hrow := row_paragraph hat
        rw [byteWidth_append, hwidth] at hrow
        refine ⟨_, rfl, ?_⟩
        rw [Tree.stop_moved, hdecl.stop, Nat.add_comm, Nat.add_assoc]
        exact hrow
      have hrest := ih hps' hsource' hcs' hbefore'
      rw [List.append_assoc] at hrest
      have hitem := ofSiblings_item (by rw [Tree.label_moved]; exact hg.label)
        (declaredBy_paragraph hat hg hcs hafter) hrest
      rw [Tree.start_moved, Tree.stop_moved, hdecl.start, hdecl.stop, Nat.zero_add,
        docRange?_paragraph hat hg, Nat.add_comm (byteWidth (texts g.code))] at hitem
      rw [siblings_paragraph hg hafter, ofSiblings_comments, hitem]
      rfl

end Declaration

end GoSplice
