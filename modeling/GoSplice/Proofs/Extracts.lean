import GoSplice.Proofs.Composition
import GoSplice.Snippet

/-!
# Declarations taken out of a file

In a file whose items end with their lines, a declaration with its doc comment
is a whole paragraph, and the text that a snippet takes out for it is the text
of that paragraph:

    d a declaration of s → ∃ g, g.IsWhole, g.declared is what d declares, and
      declarationText source d = the text of g                     (exists_paragraph)

Where an item ends with a semicolon instead, it may stand between the comments above the next
(exists_taken).
-/

namespace GoSplice

open Syntax

/-! ## Comments in order -/

/-- Comments in order are those that they are. -/
theorem comments_eq {as bs : List Comment} (has : as.Pairwise fun a b => a.stop ≤ b.start)
    (hbs : bs.Pairwise fun a b => a.stop ≤ b.start) (hpos : ∀ c ∈ as, c.start < c.stop)
    (h : ∀ c, c ∈ as ↔ c ∈ bs) : as = bs := by
  have hnodup : ∀ cs : List Comment, (∀ c ∈ cs, c.start < c.stop) →
      cs.Pairwise (fun a b => a.stop ≤ b.start) → cs.Nodup := by
    intro cs hcs hp
    refine hp.imp_of_mem fun {a b} ha _ hab => ?_
    rintro rfl
    have := hcs a ha
    omega
  have hperm : as.Perm bs := (List.perm_ext_iff_of_nodup (hnodup as hpos has)
    (hnodup bs (fun c hc => hpos c ((h c).mpr hc)) hbs)).mpr h
  refine List.Perm.eq_of_pairwise (fun a b ha _ hab hba => ?_) has hbs hperm
  have := hpos a ha
  have := hpos b ((h b).mpr (by assumption))
  omega

namespace Declaration

/-- A comment is a sibling of the items, or inside one. -/
theorem mem_siblings_of_comment {ns : List Node} {cs : List Comment} {c : Comment} (hc : c ∈ cs)
    (hcs : cs.Pairwise fun a b => a.stop ≤ b.start) (hpos : ∀ c ∈ cs, c.start < c.stop) :
    .comment c ∈ siblings ns cs ∨ ∃ n ∈ ns, n.start ≤ c.start ∧ c.start < n.stop := by
  induction ns generalizing cs with
  | nil => exact Or.inl (List.mem_map_of_mem hc)
  | cons t ts ih =>
    rw [siblings, List.mem_append, List.mem_cons]
    by_cases htake : c ∈ cs.takeWhile (·.start < t.start)
    · exact Or.inl (Or.inl (List.mem_map_of_mem htake))
    · have hstart : t.start ≤ c.start := by
        refine le_of_mem_dropWhile hcs hpos c ?_
        have hmem := (List.takeWhile_append_dropWhile (p := fun d : Comment => d.start < t.start) (l := cs)).symm ▸ hc
        exact (List.mem_append.mp hmem).resolve_left htake
      by_cases hdrop : c ∈ cs.dropWhile (·.start < t.stop)
      · have hsub := (List.dropWhile_suffix (l := cs) fun d : Comment => d.start < t.stop).sublist
        rcases ih hdrop (hcs.sublist hsub) fun d hd => hpos d (hsub.subset hd) with h | ⟨n, hn, h⟩
        · exact Or.inl (Or.inr (Or.inr h))
        · exact Or.inr ⟨n, List.mem_cons_of_mem t hn, h⟩
      · refine Or.inr ⟨t, List.mem_cons_self, hstart, ?_⟩
        have hmem := (List.takeWhile_append_dropWhile (p := fun d : Comment => d.start < t.stop) (l := cs)).symm ▸ hc
        have hall := List.all_takeWhile (p := fun d : Comment => decide (d.start < t.stop)) (l := cs)
        rw [List.all_eq_true] at hall
        simpa using hall c ((List.mem_append.mp hmem).resolve_right hdrop)

/-- Every item but a package clause is read. -/
theorem declaredBy_of_mem {source : Bytes} {comments : List Comment} {lines : LineIndex}
    {before after : List Sibling} {ds : List Declaration} {t : Node}
    (h : ofSiblings source comments lines before after = .ok ds) (ht : .item t ∈ after)
    (hl : t.label ≠ .packageClause) : ∃ d ∈ ds, declaredBy source comments t = .ok d.declared := by
  induction after generalizing before ds with
  | nil => cases ht
  | cons x after ih =>
    cases x with
    | comment c => exact ih h ((List.mem_cons.mp ht).resolve_left fun he => Sibling.noConfusion he)
    | item u =>
      unfold ofSiblings at h
      dsimp only at h
      split at h
      · next hu =>
        refine ih h ((List.mem_cons.mp ht).resolve_left ?_)
        rintro ⟨⟩
        exact hl hu
      · cases hd : declaredBy source comments u with
        | error e => rw [hd] at h; cases h
        | ok d =>
          cases hrest : ofSiblings source comments lines (.item u :: before) after with
          | error e => rw [hd, hrest] at h; cases h
          | ok rest =>
            rw [hd, hrest] at h
            cases h
            rcases List.mem_cons.mp ht with heq | ht
            · cases heq
              exact ⟨_, List.mem_cons_self, hd⟩
            · obtain ⟨e, he, hde⟩ := ih hrest ht
              exact ⟨e, List.mem_cons_of_mem _ he, hde⟩

end Declaration

/-! ## Stretches between items -/

namespace Syntax

/-- Whether the items of a text end with their lines: every semicolon is inside an item. -/
def EndsByLine (s : List Char) : Prop :=
  ∀ t ∈ (scan s).tokens, t.kind = .operator .semicolon →
    ∃ n ∈ (textItems s).nodes, n.start ≤ t.start ∧ t.stop ≤ n.stop

/-- Whether the items of a text can be read apart: every semicolon is inside an item, and no
slash before a star is an operator.  Such a slash begins a comment as soon as any text behind
it has the end of one, so items with it are not read apart from each other. -/
structure Separate (s : List Char) : Prop where
  semicolons : ∀ t ∈ (scan s).tokens, t.kind = .operator .semicolon →
    ∃ n ∈ (textItems s).nodes, n.start ≤ t.start ∧ t.stop ≤ n.stop
  closed : opensComment (stretches s) = false

theorem opensComment_suffix {b : List Lexeme} (a : List Lexeme) (h : opensComment b) :
    opensComment (a ++ b) := by
  induction a with
  | nil => exact h
  | cons l a ih =>
    rw [List.cons_append, opensComment, ih, Bool.or_true]

theorem opensComment_part {a b c : List Lexeme} (h : opensComment (a ++ (b ++ c)) = false) :
    opensComment b = false := by
  rw [Bool.eq_false_iff] at h ⊢
  exact fun hb => h (opensComment_suffix a (opensComment_append c hb))

/-- Stretches that end before a place are among those before it. -/
theorem split_before {a b c d : List Lexeme} {l : Lexeme} (h : a ++ l :: b = c ++ d)
    (hlt : byteWidth (texts a) < byteWidth (texts c)) : ∃ e, c = a ++ l :: e ∧ b = e ++ d := by
  rcases append_eq_append_cons h.symm with hsplit | ⟨m, rfl, -⟩
  · exact hsplit
  · rw [texts_append, byteWidth_append] at hlt
    omega

/-- A token between items is none of those of an item. -/
theorem not_covered {s : List Char} {a m b : List Lexeme} {l : Lexeme}
    (hs : stretches s = a ++ (m ++ b))
    (hgap : ∀ n ∈ (textItems s).nodes, n.stop ≤ byteWidth (orderMark s ++ texts a) ∨
      byteWidth (orderMark s ++ texts (a ++ m)) ≤ n.start) (hl : l ∈ m) :
    ∃ o, (o, l) ∈ layout s ∧ ∀ n ∈ (textItems s).nodes, ¬ (n.start ≤ o ∧ o + byteWidth l.text ≤ n.stop) := by
  obtain ⟨m1, m2, rfl⟩ := List.append_of_mem hl
  have hlayout : (byteWidth (orderMark s ++ texts (a ++ m1)), l) ∈ layout s :=
    mem_located.mpr ⟨a ++ m1, m2 ++ b, by rw [show stretches s = _ from hs]; simp, by rw [byteWidth_append]⟩
  have hpos := width_pos_of_mem_layout hlayout
  refine ⟨_, hlayout, fun n hn hin => ?_⟩
  have := hgap n hn
  simp only [texts_append, texts_cons, byteWidth_append] at this hin
  omega

/-- There is no code but semicolons between items. -/
theorem semicolon_between {s : List Char} (hread : Read (startOf s) (textItems s).nodes)
    {a m b : List Lexeme} (hs : stretches s = a ++ (m ++ b))
    (hgap : ∀ n ∈ (textItems s).nodes, n.stop ≤ byteWidth (orderMark s ++ texts a) ∨
      byteWidth (orderMark s ++ texts (a ++ m)) ≤ n.start) {l : Lexeme} (hl : l ∈ m) {k : Kind}
    (hk : l.cls = .token k) : k = .operator .semicolon := by
  obtain ⟨o, hlayout, hnot⟩ := not_covered hs hgap hl
  refine (hread.covered (startOf_orderly s) _ (mem_tokens_of_layout hlayout hk)).resolve_right ?_
  rintro ⟨n, hn, hin⟩
  exact hnot n hn hin

/-- There is no code between items that end with their lines. -/
theorem no_token_between {s : List Char} (h : EndsByLine s) (hread : Read (startOf s) (textItems s).nodes)
    {a m b : List Lexeme} (hs : stretches s = a ++ (m ++ b))
    (hgap : ∀ n ∈ (textItems s).nodes, n.stop ≤ byteWidth (orderMark s ++ texts a) ∨
      byteWidth (orderMark s ++ texts (a ++ m)) ≤ n.start) :
    ∀ l ∈ m, ∀ k, l.cls ≠ .token k := by
  intro l hl k hk
  obtain ⟨o, hlayout, hnot⟩ := not_covered hs hgap hl
  obtain ⟨t, ht, hcore⟩ := List.mem_map.mp (mem_tokens_of_layout hlayout hk)
  simp only [Token.core, Token.mk.injEq] at hcore
  obtain ⟨hkind, rfl, hstop, -⟩ := hcore
  obtain ⟨n, hn, hin⟩ := h t ht (hkind.trans (semicolon_between hread hs hgap hl hk))
  exact hnot n hn (by rwa [hstop] at hin)

/-- Stretches between items open no comment. -/
theorem opensComment_between {s : List Char} {a d b : List Lexeme} (hs : lexemes s = a ++ (d ++ b))
    (hd : ∀ l ∈ d, ∀ k, l.cls = .token k → k = .operator .semicolon) : opensComment d = false := by
  induction d generalizing a with
  | nil => rfl
  | cons l d ih =>
    have hrest : opensComment d = false :=
      @ih (a ++ [l]) (by rw [hs]; simp) fun k hk => hd k (List.mem_cons_of_mem l hk)
    rw [opensComment, hrest, Bool.or_false]
    obtain ⟨c, r, -, hl⟩ := lexeme_eq (show lexemes s = a ++ l :: (d ++ b) from hs)
    have hm := measured c r
    generalize hx : measure c r = x at hm
    rw [hx] at hl
    have hslash : l.cls = .comment ∨ c ≠ '/' := by
      have hsemicolon := hd l List.mem_cons_self
      cases hm with
      | newline hc => exact Or.inr (by rw [hc]; decide)
      | blank hc => exact Or.inr (by rintro rfl; exact absurd hc (by decide))
      | lineComment | blockComment => exact Or.inl (congrArg Lexeme.cls hl)
      | operator hc ho =>
        obtain ⟨hw, hword⟩ := operator_text ho
        rw [Kind.operator.inj (hsemicolon _ (congrArg Lexeme.cls hl))] at hw
        rw [semicolon_word hw] at hword
        rw [(List.cons.inj hword).1]
        exact Or.inr (by decide)
      | word => exact absurd (hsemicolon _ (congrArg Lexeme.cls hl)) (Kind.ofWord_ne_operator _ _)
      | other _ hne => exact absurd (hsemicolon _ (congrArg Lexeme.cls hl)) (hne _)
    rcases hslash with hcomment | hc
    · simp [hcomment]
    · rw [congrArg Lexeme.text hl, List.cons_append, List.isPrefixOf_cons_cons,
        beq_false_of_ne (Ne.symm hc), Bool.false_and, Bool.and_false]

/-- A part of a text is cut into the same stretches alone, and before text that ends its line. -/
theorem lexemes_part {s : List Char} {a m b : List Lexeme} (hs : stretches s = a ++ (m ++ b))
    (hsound : ∀ l ∈ stretches s, l.cls.isSound) {y : List Char} (hy : EndsLine y)
    (hopen : opensComment m → blockCommentLength? y = none) : lexemes (texts m ++ y) = m ++ lexemes y := by
  have hall := lexemes_suffix (s := s.drop (orderMark s).length) hs
  rw [texts_append] at hall
  exact lexemes_keepsLine hall (fun l hl => hsound l (by rw [hs]; simp [hl])) (Or.inl hy) hopen

theorem lexemes_alone {s : List Char} {a m b : List Lexeme} (hs : stretches s = a ++ (m ++ b))
    (hsound : ∀ l ∈ stretches s, l.cls.isSound) : lexemes (texts m) = m := by
  have := lexemes_part hs hsound (y := []) (by rintro _ ⟨⟩) fun _ => rfl
  rwa [List.append_nil, lexemes_nil, List.append_nil] at this

/-- A doc comment and the code below it, cut out of a text, with one line end between them. -/
theorem lexemes_extract {s : List Char} {a d w ls b : List Lexeme}
    (hs : stretches s = a ++ (d ++ (w ++ (ls ++ b)))) (hsound : ∀ l ∈ stretches s, l.cls.isSound)
    (hd : opensComment d = false) :
    lexemes (texts (d ++ ⟨.newline, ['\n']⟩ :: ls)) = d ++ ⟨.newline, ['\n']⟩ :: ls := by
  have hcode : lexemes (texts ls) = ls :=
    lexemes_alone (a := a ++ (d ++ w)) (b := b) (by rw [hs]; simp only [List.append_assoc]) hsound
  rw [texts_append, lexemes_part hs hsound (by rintro _ ⟨⟩; rfl) fun ho => by rw [hd] at ho; cases ho]
  have hline : lexemes ('\n' :: texts ls) = ⟨.newline, ['\n']⟩ :: lexemes (texts ls) := lexemes_cons _ _
  exact congrArg _ (hline.trans (by rw [hcode]))

/-- The bytes of a part of a text. -/
theorem slice_stretches {s : List Char} {a m b : List Lexeme} (hs : stretches s = a ++ (m ++ b)) :
    slice (Utf8.encode s) (byteWidth (orderMark s ++ texts a)) (byteWidth (orderMark s ++ texts a ++ texts m)) =
      Utf8.encode (texts m) := by
  have htext : s = orderMark s ++ texts a ++ texts m ++ texts b := by
    conv => lhs; rw [← orderMark_append_texts s, hs]
    simp only [texts_append, List.append_assoc]
  conv => lhs; arg 1; rw [htext]
  exact slice_encode _ _ _

/-! ## Comments of a part of a text -/

/-- The comments of a text before some stretches, in them and behind them. -/
theorem comments_between {s : List Char} {a m b : List Lexeme} (hs : stretches s = a ++ (m ++ b)) :
    ∃ xs ys, (scan s).comments = xs ++ ((place 0 none m).comments.map
        (Comment.moved (byteWidth (orderMark s ++ texts a))) ++ ys) ∧
      (∀ c ∈ xs, c.start < byteWidth (orderMark s ++ texts a)) ∧
      ∀ c ∈ ys, byteWidth (orderMark s ++ texts a) + byteWidth (texts m) ≤ c.start := by
  have htexts : ∀ l ∈ a ++ (m ++ b), l.text ≠ [] := fun l hl =>
    ne_nil_of_mem_stretches (s := s) (by rw [hs]; exact hl)
  rw [List.forall_mem_append, List.forall_mem_append] at htexts
  refine ⟨(place (byteWidth (orderMark s)) none a).comments,
    (place (byteWidth (orderMark s ++ texts a) + byteWidth (texts m)) none b).comments, ?_,
    fun c hc => ?_, fun c hc => ?_⟩
  · rw [scan_eq, show lexemes _ = _ from hs, place_comments_append, place_comments_append,
      ← byteWidth_append, place_comments_moved (byteWidth (orderMark s ++ texts a))]
  · have := comment_range hc htexts.1
    rw [← byteWidth_append] at this
    omega
  · exact (comment_range hc htexts.2.2).1

theorem mem_comments_between {s : List Char} {a m b : List Lexeme} (hs : stretches s = a ++ (m ++ b))
    {c : Comment} : c ∈ (place 0 none m).comments.map
        (Comment.moved (byteWidth (orderMark s ++ texts a))) ↔
      c ∈ (scan s).comments ∧ byteWidth (orderMark s ++ texts a) ≤ c.start ∧
        c.start < byteWidth (orderMark s ++ texts a) + byteWidth (texts m) := by
  obtain ⟨xs, ys, hall, hxs, hys⟩ := comments_between hs
  rw [hall, List.mem_append, List.mem_append]
  constructor
  · intro hc
    refine ⟨Or.inr (Or.inl hc), ?_⟩
    obtain ⟨d, hd, rfl⟩ := List.mem_map.mp hc
    have htexts : ∀ l ∈ m, l.text ≠ [] := fun l hl =>
      ne_nil_of_mem_stretches (s := s) (by rw [hs]; simp [hl])
    have := comment_range hd htexts
    simp only [Comment.moved]
    omega
  · rintro ⟨hc | hc | hc, hle, hlt⟩
    · have := hxs c hc
      omega
    · exact hc
    · have := hys c hc
      omega

/-- What stretches of a text declare does not depend on what is around them. -/
theorem declaredBy_stretches {s : List Char} {a ls b : List Lexeme} {u : Node}
    (hs : stretches s = a ++ (ls ++ b)) (hu : Declares ls u) :
    Declaration.declaredBy (Utf8.encode s) (scan s).comments
        (u.moved (byteWidth (orderMark s ++ texts a))) =
      (Declaration.declaredBy (Utf8.encode (texts ls)) (place 0 none ls).comments u).map
        (Declared.moved (byteWidth (orderMark s ++ texts a))) := by
  have hsource : Utf8.encode s = Utf8.encode (orderMark s ++ texts a) ++ Utf8.encode (texts ls) ++
      Utf8.encode (texts b) := by
    conv => lhs; rw [← orderMark_append_texts s, hs]
    simp only [texts_append, Utf8.encode_append, List.append_assoc]
  have hsame : Declaration.SameInside (Utf8.encode (orderMark s ++ texts a)).length
      (Utf8.encode (texts ls)).length (scan s).comments (place 0 none ls).comments := by
    obtain ⟨xs, ys, hall, hxs, hys⟩ := comments_between hs
    intro start stop hstop
    rw [← byteWidth_eq] at hstop ⊢
    have hnone : ∀ cs : List Comment, (∀ c ∈ cs, c.start < byteWidth (orderMark s ++ texts a) ∨
        byteWidth (orderMark s ++ texts a) + byteWidth (texts ls) ≤ c.start) →
        cs.any (fun c => start + byteWidth (orderMark s ++ texts a) ≤ c.start &&
          c.start < stop + byteWidth (orderMark s ++ texts a)) = false := by
      intro cs hcs
      rw [List.any_eq_false]
      intro c hc
      have := hcs c hc
      simp only [Bool.and_eq_true, decide_eq_true_eq]
      omega
    rw [hall, List.any_append, List.any_append, hnone xs fun c hc => Or.inl (hxs c hc),
      hnone ys fun c hc => Or.inr (hys c hc), List.any_map, Bool.false_or, Bool.or_false]
    congr 1
    funext c
    simp [Comment.moved]
  have hwithin : Declaration.Within (Utf8.encode (texts ls)).length u :=
    ⟨0, _, Nat.le_of_eq (byteWidth_eq _), hu.nested⟩
  rw [hsource, byteWidth_eq]
  exact Declaration.declaredBy_moved hwithin hsame

theorem declaredBy_extract {s : List Char} {a ls b : List Lexeme} {u : Node} {d : Declared}
    (hs : stretches s = a ++ (ls ++ b)) (hu : Declares ls u)
    (h : Declaration.declaredBy (Utf8.encode s) (scan s).comments
      (u.moved (byteWidth (orderMark s ++ texts a))) = .ok d) :
    ∃ e, d = e.moved (byteWidth (orderMark s ++ texts a)) ∧
      Declaration.declaredBy (Utf8.encode (texts ls)) (place 0 none ls).comments u = .ok e := by
  rw [declaredBy_stretches hs hu] at h
  cases he : Declaration.declaredBy (Utf8.encode (texts ls)) (place 0 none ls).comments u with
  | error x => rw [he] at h; cases h
  | ok e =>
    rw [he] at h
    cases h
    exact ⟨e, rfl, rfl⟩

end Syntax

/-! ## Doc comments of a file -/

/-- The group of comments, nearest first, that is the doc comment of an item of a text. -/
structure DocOf (s : List Char) (t : Node) (group : List Comment) (first last : Comment) : Prop where
  refusal : (textItems s).refusal = none
  siblings : ∃ rest post : List Declaration.Sibling,
    siblingsOf s = rest.reverse ++ group.reverse.map .comment ++ .item t :: post ∧
      ∀ x ∈ rest, x.stop ≤ first.start
  first : group.getLast? = some first
  last : group.head? = some last

section Doc

variable {s : List Char} {t : Node} {group : List Comment} {first last : Comment}

theorem DocOf.pairwise (h : DocOf s t group first last) :
    group.reverse.Pairwise fun a b => a.stop ≤ b.start := by
  obtain ⟨rest, post, hs, -⟩ := h.siblings
  have horder := (siblingsOf_pairwise h.refusal).1
  rw [hs, List.pairwise_append, List.pairwise_append] at horder
  exact List.pairwise_map.mp horder.1.2.1

theorem DocOf.comment (h : DocOf s t group first last) {c : Comment} (hc : c ∈ group) :
    c ∈ (scan s).comments ∧ c.start < c.stop ∧ first.start ≤ c.start ∧ c.stop ≤ last.stop ∧
      c.stop ≤ t.start := by
  obtain ⟨rest, post, hs, -⟩ := h.siblings
  obtain ⟨horder, hrange⟩ := siblingsOf_pairwise h.refusal
  have hmem : ∀ c ∈ group, .comment c ∈ siblingsOf s := by
    intro c hc
    rw [hs, List.mem_append, List.mem_append]
    exact Or.inl (Or.inr (List.mem_map_of_mem (List.mem_reverse.mpr hc)))
  have hpos : ∀ c ∈ group, c.start < c.stop := fun c hc => hrange (.comment c) (hmem c hc)
  have hpair := h.pairwise
  refine ⟨Declaration.comment_mem_siblings (hmem c hc), hpos c hc, ?_, ?_, ?_⟩
  · obtain ⟨front, hfront⟩ := List.getLast?_eq_some_iff.mp h.first
    rw [hfront, List.reverse_append, List.reverse_singleton, List.singleton_append, List.pairwise_cons] at hpair
    rw [hfront, List.mem_append, List.mem_singleton] at hc
    rcases hc with hc | rfl
    · have := hpair.1 c (List.mem_reverse.mpr hc)
      have := hpos first (List.mem_of_getLast? h.first)
      omega
    · exact Nat.le_refl _
  · obtain ⟨tail, htail⟩ := List.head?_eq_some_iff.mp h.last
    rw [htail, List.reverse_cons, List.pairwise_append] at hpair
    rw [htail, List.mem_cons] at hc
    rcases hc with rfl | hc
    · exact Nat.le_refl _
    · have := hpair.2.2 c (List.mem_reverse.mpr hc) last (List.mem_singleton.mpr rfl)
      have := hpos last (List.mem_of_head? h.last)
      omega
  · rw [hs, List.pairwise_append] at horder
    exact horder.2.2 (.comment c) (List.mem_append_right _ (List.mem_map_of_mem (List.mem_reverse.mpr hc)))
      (.item t) List.mem_cons_self

/-- No item lies between a doc comment and its declaration. -/
theorem DocOf.gap (h : DocOf s t group first last) :
    ∀ n ∈ (textItems s).nodes, n.stop ≤ first.start ∨ t.start ≤ n.start := by
  obtain ⟨rest, post, hs, hrest⟩ := h.siblings
  obtain ⟨horder, hrange⟩ := siblingsOf_pairwise h.refusal
  intro n hn
  have hn : .item n ∈ siblingsOf s := Declaration.item_mem_siblings.mpr hn
  have ht : t.start < t.stop := hrange (.item t) (by rw [hs]; simp)
  rw [hs] at hn horder
  rcases List.mem_append.mp hn with hn | hn
  · rcases List.mem_append.mp hn with hn | hn
    · exact Or.inl (hrest _ (List.mem_reverse.mp hn))
    · obtain ⟨c, -, he⟩ := List.mem_map.mp hn
      cases he
  · right
    rcases List.mem_cons.mp hn with he | hn
    · cases he
      exact Nat.le_refl _
    · rw [List.pairwise_append, List.pairwise_cons] at horder
      have hle : t.stop ≤ n.start := horder.2.1.1 (.item n) hn
      omega

/-- A comment between the ends of a doc comment belongs to it. -/
theorem DocOf.mem_iff (h : DocOf s t group first last) {c : Comment} :
    c ∈ group ↔ c ∈ (scan s).comments ∧ first.start ≤ c.start ∧ c.start < last.stop := by
  constructor
  · intro hc
    obtain ⟨hmem, hlt, hle, hle', -⟩ := h.comment hc
    exact ⟨hmem, hle, by omega⟩
  · rintro ⟨hmem, hle, hlt⟩
    obtain ⟨rest, post, hs, hrest⟩ := h.siblings
    obtain ⟨horder, hrange⟩ := siblingsOf_pairwise h.refusal
    have hend := (h.comment (List.mem_of_head? h.last)).2.2.2.2
    have hpos : ∀ c ∈ (scan s).comments, c.start < c.stop := by
      intro c hc
      obtain ⟨l, hl, -, hstop⟩ := mem_comments hc
      have := width_pos_of_mem_layout hl
      omega
    have ht : t.start < t.stop := hrange (.item t) (by rw [hs]; simp)
    have hin : .comment c ∈ siblingsOf s ∨ ∃ n ∈ (textItems s).nodes, n.start ≤ c.start ∧ c.start < n.stop :=
      Declaration.mem_siblings_of_comment hmem (comments_pairwise s) hpos
    rcases hin with hc | ⟨n, hn, h1, h2⟩
    · rw [hs] at hc horder
      rw [List.pairwise_append, List.pairwise_cons] at horder
      have := hpos c hmem
      rcases List.mem_append.mp hc with hc | hc
      · rcases List.mem_append.mp hc with hc | hc
        · have hstop : c.stop ≤ first.start := hrest _ (List.mem_reverse.mp hc)
          omega
        · obtain ⟨e, he, heq⟩ := List.mem_map.mp hc
          cases heq
          exact List.mem_reverse.mp he
      · rcases List.mem_cons.mp hc with he | hc
        · cases he
        · have hstop : t.stop ≤ c.start := horder.2.1.1 (.comment c) hc
          omega
    · have := h.gap n hn
      omega

/-- A doc comment consists of some stretches before its declaration, the first and the last
of them comments. -/
theorem DocOf.split (h : DocOf s t group first last) {a r : List Lexeme} (hs : stretches s = a ++ r)
    (ht : t.start = byteWidth (orderMark s ++ texts a)) : ∃ p d w, a = p ++ (d ++ w) ∧
      first.start = byteWidth (orderMark s ++ texts p) ∧
      last.stop = byteWidth (orderMark s ++ texts p) + byteWidth (texts d) ∧
      (∃ l d', d = l :: d' ∧ l.cls = .comment) ∧ ∃ d' l, d = d' ++ [l] ∧ l.cls = .comment := by
  obtain ⟨hfirst, hflt, -, -, hfend⟩ := h.comment (List.mem_of_getLast? h.first)
  obtain ⟨hlast, hllt, hle, -, hlend⟩ := h.comment (List.mem_of_head? h.last)
  obtain ⟨l1, hl1, hc1, hstop1⟩ := mem_comments hfirst
  obtain ⟨l2, hl2, hc2, hstop2⟩ := mem_comments hlast
  obtain ⟨a1, b1, hab1, hstart1, -⟩ := mem_layout hl1
  obtain ⟨a2, b2, hab2, hstart2, -⟩ := mem_layout hl2
  have hwidth : ∀ ls, byteWidth (orderMark s ++ texts ls) = byteWidth (orderMark s) + byteWidth (texts ls) :=
    fun ls => byteWidth_append _ _
  rw [hwidth] at ht hstart1 hstart2
  rw [hs] at hab1 hab2
  obtain ⟨e1, ha1, -⟩ := split_before hab1.symm (by omega)
  obtain ⟨e2, ha2, -⟩ := split_before hab2.symm (by omega)
  have hpos := width_pos_of_mem_layout hl2
  -- the last comment is the first one, or stands behind it
  have hne : ∀ l ∈ a1 ++ l1 :: e1, l.text ≠ [] := fun l hl =>
    ne_nil_of_mem_stretches (s := s) (by rw [hs, ha1]; exact List.mem_append_left r hl)
  obtain ⟨m, rfl, -⟩ := prefix_of_width_le (ha1.symm.trans ha2) hne (by omega)
  rw [ha1, List.append_assoc, List.append_cancel_left_eq] at ha2
  refine ⟨a1, m ++ [l2], e2, ?_, by rw [hwidth, hstart1], ?_, ?_, m, l2, rfl, hc2⟩
  · rw [ha1, ha2]
    simp
  · rw [hstop2, hstart2, hwidth]
    simp only [texts_append, byteWidth_append, texts_cons, texts_nil, byteWidth_nil]
    omega
  · cases m with
    | nil =>
      rw [List.nil_append, List.cons.injEq] at ha2
      exact ⟨l2, [], rfl, hc2⟩
    | cons x m =>
      rw [List.cons_append, List.cons.injEq] at ha2
      exact ⟨x, m ++ [l2], rfl, ha2.1 ▸ hc1⟩

/-- A declaration of a file is read off an item and the siblings before it. -/
theorem Parsed.readInOrder {filename : String} {source : Bytes} {strict : Bool} {f : SourceFile}
    (h : Parsed filename source strict f s) {d : Declaration} (hd : d ∈ f.declarations) :
    ∃ pre t post, siblingsOf s = pre ++ .item t :: post ∧ t ∈ (textItems s).nodes ∧
      Declaration.ReadInOrder source (scan s).comments (.ofBytes source) pre.reverse t d := by
  obtain ⟨horder, hrange⟩ := siblingsOf_pairwise h.refusal
  obtain ⟨pre, t, post, hsib, hat⟩ := Declaration.readInOrder_of_mem h.declarations hd horder hrange
  rw [List.append_nil] at hat
  change siblingsOf s = _ at hsib
  exact ⟨pre, t, post, hsib,
    Declaration.item_mem_siblings.mp (show .item t ∈ siblingsOf s by rw [hsib]; simp), hat⟩

/-- The doc comment of a declaration that is read off an item. -/
theorem docOf_of_readInOrder {source : Bytes} {comments : List Comment} {lines : LineIndex}
    {pre post : List Declaration.Sibling} {d : Declaration} {r : DocRange} (href : (textItems s).refusal = none)
    (hsib : siblingsOf s = pre ++ .item t :: post)
    (hat : Declaration.ReadInOrder source comments lines pre.reverse t d) (hdoc : d.doc = some r) :
    ∃ group first last, DocOf s t group first last ∧ r = ⟨first.start, last.stop⟩ ∧
      Declaration.Above lines.row (lines.row t.start) group := by
  have hrange := hat.doc
  rw [hdoc] at hrange
  obtain ⟨group, first, last, rest, hbefore, hlast, hfirst, rfl, habove, -⟩ :=
    Declaration.docRange?_eq_some hrange.symm
  have hpre : pre = rest.reverse ++ group.reverse.map .comment := by
    rw [← List.reverse_reverse pre, hbefore, List.reverse_append, List.map_reverse]
  refine ⟨group, first, last, ⟨href, ⟨rest, post, by rw [hsib, hpre], fun x hx => ?_⟩, hfirst, hlast⟩, rfl, habove⟩
  have horder := (siblingsOf_pairwise href).1
  rw [hsib, hpre, List.pairwise_append, List.pairwise_append] at horder
  exact horder.1.2.2 x (List.mem_reverse.mpr hx) (.comment first)
    (List.mem_map_of_mem (List.mem_reverse.mpr (List.mem_of_getLast? hfirst)))

/-- The comments of a doc comment are those of its stretches. -/
theorem DocOf.comments_eq (h : DocOf s t group first last) {p d r : List Lexeme}
    (hs : stretches s = p ++ (d ++ r)) (hfirst : first.start = byteWidth (orderMark s ++ texts p))
    (hlast : last.stop = byteWidth (orderMark s ++ texts p) + byteWidth (texts d)) :
    group = (place 0 none d).comments.reverse.map
      (Comment.moved (byteWidth (orderMark s ++ texts p))) := by
  obtain ⟨xs, ys, hall, -, -⟩ := comments_between hs
  have hsub := comments_pairwise s
  rw [hall, List.pairwise_append, List.pairwise_append] at hsub
  have heq := GoSplice.comments_eq h.pairwise hsub.2.1.1
    (fun c hc => (h.comment (List.mem_reverse.mp hc)).2.1) fun c => by
      rw [List.mem_reverse, h.mem_iff, mem_comments_between hs, hfirst, hlast]
  rw [← List.reverse_reverse group, heq, List.map_reverse]

end Doc

/-! ## Paragraphs of a file -/

section Taken

variable {s : List Char} {t u : Node} {p d w ls b : List Lexeme} {e : Declared}

/-- The rows in a part of a text. -/
theorem row_part {x y z : List Char} {o : Nat} (ho : o ≤ byteWidth y) :
    (LineIndex.ofBytes (Utf8.encode (x ++ (y ++ z)))).row (o + byteWidth x) =
      (LineIndex.ofBytes (Utf8.encode y)).row o + (Utf8.encode x).count LineIndex.lineFeed := by
  rw [byteWidth_eq] at ho
  rw [← List.append_assoc, Utf8.encode_append, Utf8.encode_append, byteWidth_eq]
  exact LineIndex.row_append _ _ _ ho

/-- Comments above a declaration without a gap are so with one line end below them. -/
theorem above_extract {x z : List Char} {g : Paragraph} (hg : g.doc = d ++ [⟨.newline, ['\n']⟩])
    (hd : ∀ l ∈ d, l.text ≠ []) {n : Nat} (hn : n = byteWidth x) {row : Nat} {c : Comment} {cs : List Comment}
    (hcs : (place 0 none d).comments.reverse = c :: cs) (hstop : c.stop = byteWidth (texts d))
    (h : Declaration.Above (LineIndex.ofBytes (Utf8.encode (x ++ (texts d ++ z)))).row row
      ((c :: cs).map (Comment.moved n))) :
    Declaration.Above g.rowOf (g.rowOf g.codeStart) g.docComments.reverse := by
  have hcomments : g.docComments = (place 0 none d).comments := by
    rw [Paragraph.docComments, hg, place_comments_append]
    exact List.append_nil _
  have htext : g.text = [] ++ (texts d ++ '\n' :: texts g.code) := by
    rw [Paragraph.text, hg]
    simp
  have hrow : ∀ o, o ≤ byteWidth (texts d) → g.rowOf o = (LineIndex.ofBytes (Utf8.encode (texts d))).row o := by
    intro o ho
    have hpart := row_part (x := []) (z := '\n' :: texts g.code) ho
    rw [← htext] at hpart
    exact hpart
  have hmem : ∀ a ∈ cs, a.start ≤ byteWidth (texts d) ∧ a.stop ≤ byteWidth (texts d) := by
    intro a ha
    have hmem : a ∈ (place 0 none d).comments := List.mem_reverse.mp (hcs ▸ List.mem_cons_of_mem c ha)
    have := comment_range hmem hd
    omega
  have hc : c.start ≤ byteWidth (texts d) := by
    have hmem : c ∈ (place 0 none d).comments := List.mem_reverse.mp (hcs ▸ List.mem_cons_self)
    have := comment_range hmem hd
    omega
  rw [hcomments, hcs]
  refine ⟨?_, ?_⟩
  · have hend := LineIndex.row_length (Utf8.encode (texts d)) (Utf8.encode ('\n' :: texts g.code))
    have hline := LineIndex.row_length (Utf8.encode (texts d ++ ['\n'])) (Utf8.encode (texts g.code))
    rw [← Utf8.encode_append, ← byteWidth_eq] at hend hline
    have hcount : (Utf8.encode (texts d ++ ['\n'])).count LineIndex.lineFeed =
        (Utf8.encode (texts d)).count LineIndex.lineFeed + 1 := by
      rw [Utf8.encode_append, List.count_append]
      rfl
    rw [List.append_assoc, hcount] at hline
    have hstart : g.codeStart = byteWidth (texts d ++ ['\n']) := by
      rw [Paragraph.codeStart, hg, texts_append]
      rfl
    unfold Paragraph.rowOf
    rw [htext, List.nil_append, hstart, hstop, hend]
    exact Nat.le_of_eq hline
  · have habove := h.2
    rw [hn] at habove
    change Declaration.Above _ ((LineIndex.ofBytes _).row (c.start + byteWidth x)) _ at habove
    rw [row_part hc, ← hrow _ hc] at habove
    refine (Declaration.Above.moved_iff fun a ha => ?_).mp habove
    rw [row_part (hmem a ha).1, row_part (hmem a ha).2, hrow _ (hmem a ha).1, hrow _ (hmem a ha).2]
    exact ⟨rfl, rfl⟩

end Taken

section Extract

variable {s : List Char} {t u : Node} {a ls b : List Lexeme} {e : Declared}

/-- A declaration that stretches of a text are, and what it declares. -/
structure Extract (s : List Char) (t : Node) (a ls b : List Lexeme) (u : Node) (e : Declared) : Prop where
  refusal : (textItems s).refusal = none
  isSound : ∀ l ∈ stretches s, l.cls.isSound
  stretches_eq : stretches s = a ++ (ls ++ b)
  node : t = u.moved (byteWidth (orderMark s ++ texts a))
  declares : Declares ls u
  label : u.label ≠ .packageClause
  declared : Declaration.declaredBy (Utf8.encode (texts ls)) (place 0 none ls).comments u = .ok e

/-- A paragraph as it is taken out of a text.  Above its code there may be semicolons between the
comments; without them it is read as its declaration. -/
structure Paragraph.IsTaken (g : Paragraph) : Prop where
  lexemes_eq : lexemes g.text = g.doc ++ g.code
  isSound : ∀ l ∈ g.code, l.cls.isSound
  filler : ∀ l ∈ g.doc, l.cls.isFiller
  isRead : (∀ l ∈ g.doc, ∀ k, l.cls ≠ .token k) → g.IsRead

theorem Extract.start_eq (h : Extract s t a ls b u e) : t.start = byteWidth (orderMark s ++ texts a) := by
  rw [h.node, Tree.start_moved, h.declares.start, Nat.zero_add]

/-- The bytes of a declaration are those of its stretches. -/
theorem Extract.slice_eq (h : Extract s t a ls b u e) :
    slice (Utf8.encode s) t.start t.stop = Utf8.encode (texts ls) := by
  have hstop : t.stop = byteWidth (orderMark s ++ texts a ++ texts ls) := by
    rw [h.node, Tree.stop_moved, h.declares.stop, Nat.add_comm, ← byteWidth_append]
  rw [h.start_eq, hstop]
  exact slice_stretches h.stretches_eq

/-- A declaration without a doc comment. -/
theorem Extract.bare (h : Extract s t a ls b u e) : (⟨[], ls, u, e⟩ : Paragraph).IsTaken := by
  have hlexemes := lexemes_alone h.stretches_eq h.isSound
  exact ⟨hlexemes, h.declares.isSound, List.forall_mem_nil _, fun hblank =>
    ⟨⟨hlexemes, hblank, h.declares⟩, h.label, h.declared, Or.inl rfl, trivial⟩⟩

/-- A declaration with the doc comment above it, one line end between them. -/
theorem Extract.documented (h : Extract s t a ls b u e) {group : List Comment} {first last : Comment}
    (hdoc : DocOf s t group first last)
    (habove : Declaration.Above (LineIndex.ofBytes (Utf8.encode s)).row
      ((LineIndex.ofBytes (Utf8.encode s)).row t.start) group) :
    ∃ d, (⟨d ++ [⟨.newline, ['\n']⟩], ls, u, e⟩ : Paragraph).IsTaken ∧
      (EndsByLine s → ∀ l ∈ d, ∀ k, l.cls ≠ .token k) ∧ (∃ d' l, d = d' ++ [l] ∧ l.cls = .comment) ∧
      slice (Utf8.encode s) first.start last.stop = Utf8.encode (texts d) ∧
      (opensComment (stretches s) = false → opensComment (d ++ [⟨.newline, ['\n']⟩] ++ ls) = false) := by
  obtain ⟨p, d, w, rfl, hfirst, hlast, ⟨l1, d1, hd1, hl1⟩, d2, l2, hd2, hl2⟩ :=
    hdoc.split h.stretches_eq h.start_eq
  have hs : stretches s = p ++ (d ++ (w ++ (ls ++ b))) := by
    rw [h.stretches_eq]
    simp only [List.append_assoc]
  have hread := read_textItems h.refusal
  have htext : s = orderMark s ++ texts p ++ (texts d ++ texts (w ++ (ls ++ b))) := by
    conv => lhs; rw [← orderMark_append_texts s, hs]
    simp only [texts_append, List.append_assoc]
  have hgap : ∀ n ∈ (textItems s).nodes, n.stop ≤ byteWidth (orderMark s ++ texts p) ∨
      byteWidth (orderMark s ++ texts (p ++ (d ++ w))) ≤ n.start := fun n hn => by
    rw [← hfirst, ← h.start_eq]
    exact hdoc.gap n hn
  have hparts : stretches s = p ++ ((d ++ w) ++ (ls ++ b)) := by
    rw [hs]
    simp only [List.append_assoc]
  have hsemicolons : ∀ l ∈ d, ∀ k, l.cls = .token k → k = .operator .semicolon :=
    fun l hl k hk => semicolon_between hread hparts hgap (List.mem_append_left _ hl) hk
  have hlexemes : lexemes (texts (d ++ [⟨.newline, ['\n']⟩] ++ ls)) = d ++ [⟨.newline, ['\n']⟩] ++ ls := by
    rw [← List.append_cons]
    exact lexemes_extract hs h.isSound
      (opensComment_between (s := s.drop (orderMark s).length) hs hsemicolons)
  have hne : ∀ l ∈ d, l.text ≠ [] := fun l hl =>
    ne_nil_of_mem_stretches (s := s) (by rw [hs]; simp [hl])
  refine ⟨d, ⟨hlexemes, h.declares.isSound, ?_, fun hblank => ⟨⟨hlexemes, hblank, h.declares⟩, h.label,
    h.declared, Or.inr ⟨l1, d1 ++ [⟨.newline, ['\n']⟩], ?_, hl1⟩, ?_⟩⟩, fun hends l hl => ?_,
    ⟨d2, l2, hd2, hl2⟩, ?_, fun hclosed => ?_⟩
  · refine List.forall_mem_append.mpr ⟨fun l hl => ?_, List.forall_mem_singleton.mpr rfl⟩
    cases hc : l.cls with
    | blank | newline | comment => rfl
    | token k => exact decide_eq_true (hsemicolons l hl k hc)
  · rw [hd1]
    rfl
  · have hcomments := hdoc.comments_eq hs hfirst hlast
    cases hcs : (place 0 none d).comments.reverse with
    | nil =>
      rw [hcs] at hcomments
      rw [hcomments] at hdoc
      cases hdoc.last
    | cons c cs =>
      have hstop : c.stop = byteWidth (texts d) := by
        have hhead := hdoc.last
        rw [hcomments, hcs, List.map_cons, List.head?_cons, Option.some.injEq] at hhead
        rw [← hhead] at hlast
        simp only [Comment.moved] at hlast
        omega
      rw [hcomments, hcs] at habove
      conv at habove => arg 1; rw [htext]
      exact above_extract rfl hne rfl hcs hstop habove
  · exact no_token_between hends hread hparts hgap l (List.mem_append_left _ hl)
  · rw [hfirst, hlast, ← byteWidth_append]
    exact slice_stretches hs
  · rw [List.append_assoc]
    rw [hs] at hclosed
    refine opensComment_line (opensComment_part hclosed) ?_
    rw [← List.append_assoc, ← List.append_assoc] at hclosed
    exact opensComment_part hclosed

end Extract

/-- Whether the doc comment of a paragraph, if there is one, ends with a comment and its line. -/
def Paragraph.IsTight (g : Paragraph) : Prop :=
  g.doc = [] ∨ ∃ d l, g.doc = d ++ [l, ⟨.newline, ['\n']⟩] ∧ l.cls = .comment

/-- The text that a snippet takes out for a declaration: its doc comment, a line end and its code. -/
theorem declarationText_eq {source : Bytes} {e : Declaration} {r : DocRange} {s : List Char}
    {d ls : List Lexeme} {l : Lexeme} (hl : l ∈ lexemes s) (hcls : l.cls = .comment) (hr : e.doc = some r)
    (hdoc : slice source r.start r.stop = Utf8.encode (texts (d ++ [l])))
    (hcode : slice source e.start e.stop = Utf8.encode (texts ls)) :
    Snippet.declarationText source e = String.ofList (texts (d ++ [l, ⟨.newline, ['\n']⟩] ++ ls)) := by
  have hend : (Utf8.encode (texts (d ++ [l]))).getLast? ≠ some LineIndex.lineFeed := by
    intro hend
    have hline := LineIndex.getLast?_of_encode hend
    rw [texts_append, texts_cons, texts_nil, List.append_nil, List.getLast?_append,
      List.getLast?_eq_some_getLast (text_ne_nil hl), Option.some_or, ← List.getLast?_eq_some_getLast] at hline
    exact text_getLast?_ne hl (by rw [hcls]; rfl) (by rw [hcls]; rintro ⟨⟩) hline
  unfold Snippet.declarationText
  rw [hcode, hr]
  dsimp only
  rw [hdoc, if_neg hend]
  show textOf (_ ++ Utf8.encode ['\n'] ++ _) = _
  rw [← Utf8.encode_append, ← Utf8.encode_append, textOf_encode]
  simp [texts_append, texts_cons, texts_nil]

/-- A declaration of a text is, with its doc comment, taken out of it as a paragraph, which is
read as the declaration if the items of the text end with their lines. -/
theorem exists_taken {filename : String} {source : Bytes} {strict : Bool} {f : SourceFile}
    {s : List Char} (h : Parsed filename source strict f s)
    (hns : ∀ n ∈ (textItems s).nodes, Grammar.IsOpened n.label) {d : Declaration}
    (hd : d ∈ f.declarations) : ∃ g : Paragraph, g.IsTaken ∧ (EndsByLine s → g.IsRead) ∧ g.IsTight ∧
      (opensComment (stretches s) = false → opensComment (g.doc ++ g.code) = false) ∧
      (∃ n, d.declared = g.declared.moved n) ∧ Snippet.declarationText source d = String.ofList g.text := by
  have hread := read_textItems h.refusal
  obtain ⟨pre, t, post, hsib, ht, hat⟩ := h.readInOrder hd
  obtain ⟨a, ls, b, u, hs, htu, hu⟩ := hread.declares hns ht
  have hdeclared := hat.declared
  rw [h.encode_eq, htu] at hdeclared
  obtain ⟨e, hde, he⟩ := declaredBy_extract hs hu hdeclared
  have hlabel := hat.label
  rw [htu, Tree.label_moved] at hlabel
  have hextract : Extract s t a ls b u e :=
    ⟨h.refusal, isSound_of_mem_stretches hread hns, hs, htu, hu, hlabel, he⟩
  have hcode : slice source d.start d.stop = Utf8.encode (texts ls) := by
    rw [hat.start, hat.stop, h.encode_eq]
    exact hextract.slice_eq
  cases hdoc : d.doc with
  | none =>
    refine ⟨⟨[], ls, u, e⟩, hextract.bare, fun _ => hextract.bare.isRead (List.forall_mem_nil _), Or.inl rfl,
      fun hclosed => ?_, ⟨_, hde⟩, ?_⟩
    · rw [hs] at hclosed
      exact opensComment_part hclosed
    · unfold Snippet.declarationText
      rw [hcode, hdoc]
      exact textOf_encode _
  | some r =>
    obtain ⟨group, first, last, hgroup, rfl, habove⟩ := docOf_of_readInOrder h.refusal hsib hat hdoc
    rw [h.encode_eq] at habove
    obtain ⟨doc, htaken, hblank, ⟨d', l, rfl, hl⟩, hslice, hclosed⟩ := hextract.documented hgroup habove
    rw [List.append_assoc d'] at htaken hclosed
    refine ⟨_, htaken, fun hends => htaken.isRead ?_, Or.inr ⟨d', l, rfl, hl⟩, hclosed, ⟨_, hde⟩, ?_⟩
    · rw [← List.append_assoc]
      exact List.forall_mem_append.mpr ⟨hblank hends, List.forall_mem_singleton.mpr (by rintro k ⟨⟩)⟩
    · refine declarationText_eq (s := texts (d' ++ [l, ⟨.newline, ['\n']⟩] ++ ls)) ?_ hl hdoc
        (by rw [h.encode_eq]; exact hslice) hcode
      have hlexemes := htaken.lexemes_eq
      change lexemes (texts (d' ++ [l, ⟨.newline, ['\n']⟩] ++ ls)) = d' ++ [l, ⟨.newline, ['\n']⟩] ++ ls at hlexemes
      rw [hlexemes]
      simp

/-- A declaration of a text whose items end with their lines is, with its doc comment, a
paragraph, and its text is what a snippet takes out. -/
theorem exists_paragraph {filename : String} {source : Bytes} {strict : Bool} {f : SourceFile}
    {s : List Char} (h : Parsed filename source strict f s) (hends : EndsByLine s)
    (hns : ∀ n ∈ (textItems s).nodes, Grammar.IsOpened n.label) {d : Declaration}
    (hd : d ∈ f.declarations) : ∃ g : Paragraph, g.IsRead ∧ g.IsTight ∧
      (opensComment (stretches s) = false → opensComment (g.doc ++ g.code) = false) ∧
      (∃ n, d.declared = g.declared.moved n) ∧ Snippet.declarationText source d = String.ofList g.text := by
  obtain ⟨g, -, hread, hg⟩ := exists_taken h hns hd
  exact ⟨g, hread hends, hg⟩

end GoSplice
