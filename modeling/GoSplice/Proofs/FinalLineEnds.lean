import GoSplice.Proofs.Growth
import GoSplice.Proofs.Snippets

/-!
# Final line ends

A line end behind a source of declarations leaves what it is read as, and so it does behind a snippet.  Without
it the source is refused if its last item, a declaration of types or one of constants or variables that ends in
no value, then lacks its terminator, and read as it was otherwise:

    parse source true = ok f ↔ parse (source ++ "\n") true = ok f', f is f' over source,
      ¬ lacksTerminator source                                              (parse_lineEnd_iff)
    Snippet.parse text = ok ts ↔ Snippet.parse (text ++ "\n") = ok ts,
      ¬ lacksTerminator (header ++ text)                                    (Snippet.parse_lineEnd_iff)

The items of the two texts are read in step: the tokens ahead are the same, and only whether a line end follows
the last of them differs.
-/

namespace GoSplice

namespace Syntax

/-! ## Places before another end of the file -/

/-- A place in a file that ends with or without a line end. -/
def Place.endedBy (c : Place) (b : Option Nat) : Place := { c with lastBreak := b }

/-- A declaration is read as it is whether a line ends behind the last token or not. -/
theorem item?_endedBy {c c' : Place} {t : Node} (hi : item? c = some (t, c'))
    (hl : Grammar.IsOpened t.label)
    (hstops : ∀ r, Trimmed r c'.tokens → (⟨0, r, c.lastBreak⟩ : Frame).Stops) :
    c'.lastBreak = c.lastBreak ∧ ∀ b, item? (c.endedBy b) = some (t, c'.endedBy b) := by
  obtain ⟨word, ts, r, hc, hr⟩ := item?_tokens hi
  obtain ⟨htokens, hlast, hnew⟩ := item?_reframed hi hl hc hr (hstops r hr)
  refine ⟨hlast, fun b => ?_⟩
  unfold Place.endedBy
  rw [hc, htokens]
  exact hnew r b (hstops r hr)

theorem item?_endedBy_of_nil {c c' : Place} {t : Node} (hi : item? c = some (t, c'))
    (hl : Grammar.IsOpened t.label) (hnil : c'.tokens = []) :
    c'.lastBreak = c.lastBreak ∧ ∀ b, item? (c.endedBy b) = some (t, c'.endedBy b) := by
  refine item?_endedBy hi hl fun r hr => ?_
  obtain rfl : r = [] := by
    rw [← List.length_eq_zero_iff, ← hr.length_eq, hnil]
    rfl
  rintro _ _ ⟨⟩

theorem afterTerminator?_endedBy {c : Place} (hc : c.tokens ≠ []) (b : Option Nat) :
    afterTerminator? (c.endedBy b) = (afterTerminator? c).map (·.endedBy b) := by
  obtain ⟨offset, tokens, lastBreak⟩ := c
  cases tokens with
  | nil => exact absurd rfl hc
  | cons t r =>
    unfold afterTerminator? Place.lineBreak Place.endedBy
    dsimp only
    cases t.lineBreak with
    | some x => rfl
    | none =>
      dsimp only
      split <;> rfl

theorem afterTerminator?_lastBreak {c c' : Place} (h : afterTerminator? c = some c') (hc : c.tokens ≠ []) :
    c'.lastBreak = c.lastBreak := by
  obtain ⟨u, r, hu⟩ := List.exists_cons_of_ne_nil hc
  exact (afterTerminator?_append hu h [] none).2

theorem afterTerminator?_of_nil {c : Place} (hc : c.tokens = []) :
    afterTerminator? c = c.lastBreak.map fun b => ⟨b, [], none⟩ := by
  unfold afterTerminator? Place.lineBreak Place.afterBreak
  rw [hc]
  cases c.lastBreak <;> rfl

/-- Without a final line end, a terminator is before the last token. -/
theorem tokens_ne_nil_of_afterTerminator? {c c' : Place} (h : afterTerminator? c = some c')
    (hb : c.lastBreak = none) : c.tokens ≠ [] := by
  intro hnil
  rw [afterTerminator?_of_nil hnil, hb] at h
  cases h

theorem Read.eq_nil {c : Place} {ns : List Node} (h : Read c ns) (hc : c.tokens = []) : ns = [] := by
  cases h with
  | done => rfl
  | item hi => exact absurd (item?_length_lt hi) (by rw [hc]; exact Nat.not_lt_zero _)
  | last hi => exact absurd (item?_length_lt hi) (by rw [hc]; exact Nat.not_lt_zero _)

/-! ## Runs of items -/

section Runs

variable {c : Place} {ns : List Node} {t : Node} {n : Nat}
variable {cut : Nat → Prop} {word : Kind → Nat → Nat → Prop}

/-- Declarations are read as they are before a final line end. -/
theorem Read.lineEnd (h : Read c ns) (hb : c.lastBreak = none) (hns : ∀ t ∈ ns, Grammar.IsOpened t.label)
    (n : Nat) : Read (c.endedBy (some n)) ns := by
  induction h with
  | done hc => exact .done hc
  | @item c c' c'' t ns hi ha hrest ih =>
    obtain ⟨ht, hns⟩ := List.forall_mem_cons.mp hns
    obtain ⟨hlast, hnew⟩ := item?_endedBy hi ht fun r hr => stops_of_terminated hr ha hrest hns
    have hc' := tokens_ne_nil_of_afterTerminator? ha (hlast.trans hb)
    have hlast' := (afterTerminator?_lastBreak ha hc').trans (hlast.trans hb)
    refine .item (hnew _) ?_ (ih hlast' hns)
    rw [afterTerminator?_endedBy hc', ha]
    rfl
  | @last c c' t hi ha hnil hmay =>
    obtain ⟨-, hnew⟩ := item?_endedBy_of_nil hi (hns t List.mem_cons_self) hnil
    exact .item (hnew _) (afterTerminator?_of_nil (c := c'.endedBy (some n)) hnil) (.done rfl)

theorem Place.Forward.exists_core {d : Place} (h : c.Forward cut word d) {u : Token} (hu : u ∈ d.tokens) :
    ∃ v ∈ c.tokens, v.stop = u.stop := by
  obtain ⟨ts, hts, -⟩ := h.used
  have hmem : u.core ∈ c.tokens.map Token.core := by
    rw [hts]
    exact List.mem_append_right _ (List.mem_map_of_mem hu)
  obtain ⟨v, hv, hcore⟩ := List.mem_map.mp hmem
  exact ⟨v, hv, show v.core.stop = u.core.stop by rw [hcore]⟩

/-- Tokens before other declarations end before the last of these, so that it reaches as far as it does there. -/
theorem Place.Forward.reach {d : Place} (h : c.Forward cut word d) (hread : Read d ns) (ht : t ∈ ns)
    (hreach : ∀ u ∈ d.tokens, u.stop ≤ t.stop) : ∀ u ∈ c.tokens, u.stop ≤ t.stop := by
  intro v hv
  obtain ⟨hi, -, hnest⟩ := hread.nested h.orderly
  obtain ⟨hlo, hlt, -⟩ := (hnest.of_mem ht).range
  obtain ⟨ts, hts, hused⟩ := h.used
  have hmem := List.mem_map_of_mem (f := Token.core) hv
  rw [hts, List.mem_append] at hmem
  rcases hmem with hmem | hmem
  · have hle : v.stop ≤ d.offset := (hused _ hmem).2
    omega
  · obtain ⟨w, hw, hcore⟩ := List.mem_map.mp hmem
    have hstop : w.core.stop = v.core.stop := by rw [hcore]
    exact hstop ▸ hreach w hw

/-- The last declaration of a file without a final line end may end it, if no token ends behind it. -/
theorem Read.mayEndFile (h : Read c ns) (hb : c.lastBreak = none) (hns : ∀ t ∈ ns, Grammar.IsOpened t.label)
    (hc : c.Orderly cut word) (ht : ns.getLast? = some t) (hreach : ∀ u ∈ c.tokens, u.stop ≤ t.stop) :
    mayEndFile t := by
  induction h with
  | done => cases ht
  | @item c c' c'' t' ns hi ha hrest ih =>
    obtain ⟨ht', hns⟩ := List.forall_mem_cons.mp hns
    obtain ⟨hlast, -⟩ := item?_endedBy hi ht' fun r hr => stops_of_terminated hr ha hrest hns
    have hforward := (matches_of_item? hi).forward hc
    have hc' := tokens_ne_nil_of_afterTerminator? ha (hlast.trans hb)
    have hforward' := hforward.trans ((terminated_of_afterTerminator? ha).forward hforward.orderly)
    cases ns with
    | nil =>
      -- a token that is left ends behind the last declaration
      obtain rfl : t' = t := Option.some.inj ht
      obtain ⟨u, r, hu⟩ := List.exists_cons_of_ne_nil hc'
      have horder := hforward.orderly.2
      rw [hu] at horder
      obtain ⟨-, hle, hlt, -⟩ := horder
      change c'.offset ≤ u.start at hle
      obtain ⟨v, hv, hstop⟩ := hforward.exists_core (u := u) (by rw [hu]; exact List.mem_cons_self)
      have hle' := hreach v hv
      rw [hstop, (item_range (matches_of_item? hi)).2.1] at hle'
      omega
    | cons u us =>
      rw [List.getLast?_cons_cons] at ht
      refine ih ((afterTerminator?_lastBreak ha hc').trans (hlast.trans hb)) hns hforward'.orderly ht fun u hu => ?_
      obtain ⟨v, hv, hstop⟩ := hforward'.exists_core hu
      exact hstop ▸ hreach v hv
  | last hi ha hnil hmay =>
    obtain rfl := Option.some.inj ht
    exact hmay

/-- Declarations are read as they are without the final line end, unless the last then lacks its terminator. -/
theorem Read.withoutLineEnd (h : Read c ns) (hb : c.lastBreak = some n)
    (hns : ∀ t ∈ ns, Grammar.IsOpened t.label) (hc : c.Orderly cut word) : Read (c.endedBy none) ns ∨
      ∃ t, ns.getLast? = some t ∧ Syntax.mayEndFile t = false ∧ ∀ u ∈ c.tokens, u.stop ≤ t.stop := by
  induction h with
  | done hnil => exact .inl (.done hnil)
  | @item c c' c'' t ns hi ha hrest ih =>
    obtain ⟨ht, hns⟩ := List.forall_mem_cons.mp hns
    obtain ⟨hlast, hnew⟩ := item?_endedBy hi ht fun r hr => stops_of_terminated hr ha hrest hns
    have hforward := (matches_of_item? hi).forward hc
    by_cases hc' : c'.tokens = []
    · -- the line end is the terminator
      rw [afterTerminator?_of_nil hc', hlast, hb, Option.map_some, Option.some.injEq] at ha
      obtain rfl := hrest.eq_nil (by rw [← ha])
      cases hmay : Syntax.mayEndFile t with
      | true => exact .inl (.last (hnew none) (afterTerminator?_of_nil (c := c'.endedBy none) hc') hc' hmay)
      | false =>
        refine .inr ⟨t, rfl, hmay, fun u hu => ?_⟩
        rcases (matches_of_item? hi).covers_or_leaves hc _ (List.mem_map_of_mem hu) with ⟨-, hle⟩ | hleft
        · exact hle
        · rw [hc'] at hleft
          cases hleft
    · have hforward' := (terminated_of_afterTerminator? ha).forward hforward.orderly
      rcases ih ((afterTerminator?_lastBreak ha hc').trans (hlast.trans hb)) hns hforward'.orderly with
        hread | ⟨t', ht', hmay, hreach⟩
      · refine .inl (.item (hnew none) ?_ hread)
        rw [afterTerminator?_endedBy hc', ha]
        rfl
      · obtain ⟨u, us, rfl⟩ := List.exists_cons_of_ne_nil (l := ns) (by rintro rfl; cases ht')
        refine .inr ⟨t', by rw [List.getLast?_cons_cons]; exact ht', hmay, ?_⟩
        exact (hforward.trans hforward').reach hrest (List.mem_of_getLast? ht') hreach
  | @last c c' t hi ha hnil =>
    obtain ⟨hlast, -⟩ := item?_endedBy_of_nil hi (hns t List.mem_cons_self) hnil
    rw [afterTerminator?_of_nil hnil, hlast, hb] at ha
    cases ha

end Runs

/-! ## Texts with a line end behind them -/

section Texts

variable {s : List Char}

theorem orderMark_lineEnd (s : List Char) : orderMark (s ++ ['\n']) = orderMark s := by
  cases s with
  | nil => rfl
  | cons c r => rfl

/-- The characters that a text with a line end behind it is cut into stretches of. -/
theorem stretches_lineEnd_eq (s : List Char) :
    stretches (s ++ ['\n']) = lexemes (texts (stretches s) ++ ['\n']) := by
  have hle : (orderMark s).length ≤ s.length := by
    have hlength := congrArg List.length (orderMark_append_drop s)
    rw [List.length_append] at hlength
    omega
  rw [stretches_eq, orderMark_lineEnd, List.drop_append_of_le_length hle, stretches_eq, texts_lexemes]

/-- A line end is a stretch of its own behind a sound text. -/
theorem stretches_concat (hsound : ∀ l ∈ stretches s, l.cls.isSound) :
    stretches (s ++ ['\n']) = stretches s ++ [⟨.newline, ['\n']⟩] := by
  rw [stretches_lineEnd_eq]
  exact lexemes_part (a := []) (b := []) (by rw [List.nil_append, List.append_nil]) hsound
    (fun c hc => (Option.some.inj hc).symm) fun _ => rfl

theorem stretches_concat_of_lineEnd (hsound : ∀ l ∈ stretches (s ++ ['\n']), l.cls.isSound) :
    stretches (s ++ ['\n']) = stretches s ++ [⟨.newline, ['\n']⟩] := by
  obtain ⟨ls, hls⟩ := stretches_lineEnd List.getLast?_concat hsound
  have htexts : texts ls = texts (stretches s) := by
    have htexts := congrArg texts (stretches_lineEnd_eq s)
    rw [texts_lexemes, hls, texts_append] at htexts
    exact List.append_cancel_right htexts
  have halone : lexemes (texts ls) = ls := lexemes_alone (a := []) hls hsound
  rw [htexts, stretches_eq, texts_lexemes] at halone
  rw [hls, ← halone]
  rfl

/-- A line end behind a text leaves the tokens and the comments of the text. -/
theorem scan_lineEnd (h : stretches (s ++ ['\n']) = stretches s ++ [⟨.newline, ['\n']⟩]) :
    (scan (s ++ ['\n'])).comments = (scan s).comments ∧
      ∃ n, startOf (s ++ ['\n']) = (startOf s).endedBy (some n) ∧
        ((scan s).lastBreak = none ∨ startOf (s ++ ['\n']) = startOf s) := by
  by_cases hs : s = []
  · subst hs
    exact ⟨rfl, 1, rfl, .inl rfl⟩
  have hplace : place (byteWidth s) (scan s).lastBreak [⟨.newline, ['\n']⟩] =
      ⟨[], [], (scan s).lastBreak.or (some (byteWidth s + byteWidth ['\n']))⟩ := rfl
  have hscan := scan_append hs h
  rw [hplace, List.append_nil, List.append_nil] at hscan
  unfold startOf
  rw [hscan]
  refine ⟨rfl, ?_⟩
  cases (scan s).lastBreak with
  | none => exact ⟨_, rfl, .inl rfl⟩
  | some n => exact ⟨n, rfl, .inr rfl⟩

/-- The declarations that need a terminator: those of types, and those of constants and variables that end in
no value. -/
theorem mayEndFile_eq_false_iff {t : Node} (ht : Grammar.IsOpened t.label) : mayEndFile t = false ↔
    t.label ∈ [Label.constDecl, .varDecl, .typeDecl] ∧ t.hasEnding .value t.stop = false := by
  have hlabels : ∀ l ∈ Grammar.openings.map Grammar.Opening.label,
      ([Label.packageClause, .importDecl, .function, .method].contains l = false ↔
        l ∈ [Label.constDecl, .varDecl, .typeDecl]) := by decide
  rw [mayEndFile, Bool.or_eq_false_iff, hlabels t.label ht]

/-- Whether the last item of a text lacks its terminator: read with a line end behind it, it is a declaration of
types, or one of constants or variables that ends in no value, it reaches the last token of the text, and no line
end is behind that. -/
def lacksTerminator (s : List Char) : Bool :=
  (scan s).lastBreak.isNone && (textItems (s ++ ['\n'])).nodes.getLast?.any fun t =>
    [Label.constDecl, .varDecl, .typeDecl].contains t.label && !t.hasEnding .value t.stop &&
      (scan s).tokens.all (·.stop ≤ t.stop)

theorem lacksTerminator_iff (hns : ∀ n ∈ (textItems (s ++ ['\n'])).nodes, Grammar.IsOpened n.label) :
    lacksTerminator s ↔ (scan s).lastBreak = none ∧ ∃ t, (textItems (s ++ ['\n'])).nodes.getLast? = some t ∧
      mayEndFile t = false ∧ ∀ u ∈ (scan s).tokens, u.stop ≤ t.stop := by
  unfold lacksTerminator
  rw [Bool.and_eq_true, Option.isNone_iff_eq_none, Option.any_eq_true]
  refine and_congr_right fun _ => exists_congr fun t => and_congr_right fun ht => ?_
  rw [mayEndFile_eq_false_iff (hns t (List.mem_of_getLast? ht))]
  simp

example : lacksTerminator "package a\n\ntype T int".toList := by decide +kernel

example : lacksTerminator "package a\n\nvar x = 1 // one".toList = false := by decide +kernel

/-- A line end behind a text of declarations leaves its items. -/
theorem textItems_lineEnd (h : (textItems s).refusal = none)
    (hns : ∀ n ∈ (textItems s).nodes, Grammar.IsOpened n.label) :
    textItems (s ++ ['\n']) = textItems s ∧ (scan (s ++ ['\n'])).comments = (scan s).comments ∧
      lacksTerminator s = false := by
  have hread := read_textItems h
  obtain ⟨hcomments, n, hstart, hbreak⟩ := scan_lineEnd (stretches_concat (isSound_of_mem_stretches hread hns))
  have hread' : Read (startOf (s ++ ['\n'])) (textItems s).nodes := by
    rcases hbreak with hbreak | hsame
    · rw [hstart]
      exact hread.lineEnd hbreak hns n
    · rw [hsame]
      exact hread
  have hitems : textItems (s ++ ['\n']) = textItems s := (itemsOf_of_read hread').trans (itemsOf_of_read hread).symm
  refine ⟨hitems, hcomments, Bool.eq_false_iff.mpr fun hlacks => ?_⟩
  obtain ⟨hnone, t, ht, hmay, hreach⟩ := (lacksTerminator_iff (hitems ▸ hns)).mp hlacks
  rw [hitems] at ht
  rw [hread.mayEndFile hnone hns (startOf_orderly s) ht hreach] at hmay
  cases hmay

/-- The items of a text of declarations are those without its last line end, if none then lacks a terminator. -/
theorem textItems_of_lineEnd (h : (textItems (s ++ ['\n'])).refusal = none)
    (hns : ∀ n ∈ (textItems (s ++ ['\n'])).nodes, Grammar.IsOpened n.label) (hs : lacksTerminator s = false) :
    textItems (s ++ ['\n']) = textItems s ∧ (scan (s ++ ['\n'])).comments = (scan s).comments := by
  have hread' := read_textItems h
  obtain ⟨hcomments, n, hstart, hbreak⟩ :=
    scan_lineEnd (stretches_concat_of_lineEnd (isSound_of_mem_stretches hread' hns))
  refine ⟨(itemsOf_of_read hread').trans (itemsOf_of_read ?_).symm, hcomments⟩
  rcases hbreak with hbreak | hsame
  · have horderly := startOf_orderly (s ++ ['\n'])
    rw [hstart] at hread' horderly
    have hsame : ((startOf s).endedBy (some n)).endedBy none = startOf s := by
      unfold Place.endedBy startOf
      rw [hbreak]
    rcases hread'.withoutLineEnd rfl hns horderly with hread | ⟨t, ht, hmay, hreach⟩
    · rwa [hsame] at hread
    · rw [(lacksTerminator_iff hns).mpr ⟨hbreak, t, ht, hmay, hreach⟩] at hs
      cases hs
  · rw [hsame] at hread'
    exact hread'

end Texts

end Syntax

open Syntax

/-! ## Declarations before more text -/

/-- Declarations are read off siblings that are the same in another file. -/
theorem Declaration.ofSiblings_congr {source source' : Bytes} {comments comments' : List Comment}
    {lines lines' : LineIndex} {before after : List Sibling} {ds : List Declaration}
    (h : ofSiblings source comments lines before after = .ok ds)
    (hread : ∀ t, .item t ∈ after → declaredBy source' comments' t = declaredBy source comments t)
    (hbefore : ∀ x ∈ before, SameRows lines lines' x) (hafter : ∀ x ∈ after, SameRows lines lines' x) :
    ofSiblings source' comments' lines' before after = .ok ds := by
  have happend := ofSiblings_append h hread hbefore hafter []
  rw [List.append_nil] at happend
  rw [happend]
  exact congrArg Except.ok (List.append_nil ds)

/-- What the items of a text declare does not depend on what is behind it. -/
theorem Declaration.ofNodes_append_iff {s : List Char} (h : (textItems s).refusal = none) (more : Bytes)
    {ds : List Declaration} :
    ofNodes (Utf8.encode s ++ more) (.ofBytes (Utf8.encode s ++ more)) (textItems s).nodes (scan s).comments =
        .ok ds ↔
      ofNodes (Utf8.encode s) (.ofBytes (Utf8.encode s)) (textItems s).nodes (scan s).comments = .ok ds := by
  have hread : ∀ t, .item t ∈ siblingsOf s → declaredBy (Utf8.encode s ++ more) (scan s).comments t =
      declaredBy (Utf8.encode s) (scan s).comments t := by
    intro t ht
    have happend : declaredBy _ ((scan s).comments ++ []) t = _ :=
      declaredBy_append more (Syntax.item_within h (item_mem_siblings.mp ht)).1 (List.forall_mem_nil _)
    rwa [List.append_nil] at happend
  have hrows := Syntax.sameRows h more
  exact ⟨fun hds => ofSiblings_congr hds (fun t ht => (hread t ht).symm) (List.forall_mem_nil _)
      fun x hx => ⟨(hrows x hx).1.symm, (hrows x hx).2.symm⟩,
    fun hds => ofSiblings_congr hds hread (List.forall_mem_nil _) hrows⟩

/-! ## Files with a line end behind them -/

/-- What a file holds, as that of another source. -/
def SourceFile.over (f : SourceFile) (source : Bytes) : SourceFile := { f with source, lines := .ofBytes source }

/-- Whether the last item of a source lacks its terminator. -/
def SourceFile.lacksTerminator (source : Bytes) : Bool := (Utf8.decode? source).any Syntax.lacksTerminator

section Files

variable {filename : String} {source : Bytes} {strict : Bool} {f : SourceFile} {s : List Char}

theorem encode_concat (s : List Char) : Utf8.encode (s ++ ['\n']) = Utf8.encode s ++ [LineIndex.lineFeed] :=
  Utf8.encode_append s ['\n']

theorem exists_of_encode_concat (h : source ++ [LineIndex.lineFeed] = Utf8.encode s) :
    ∃ r, s = r ++ ['\n'] ∧ source = Utf8.encode r := by
  have hlast := LineIndex.getLast?_of_encode (s := s) (by rw [← h, List.getLast?_concat])
  obtain ⟨r, rfl⟩ := List.getLast?_eq_some_iff.mp hlast
  rw [encode_concat] at h
  exact ⟨r, rfl, List.append_cancel_right h⟩

theorem Parsed.over_eq (h : Parsed filename source strict f s) : f.over source = f := by
  unfold SourceFile.over
  rw [← h.lines_eq, ← h.source_eq]

/-- The same items and comments are the same file with a line end behind it and without. -/
theorem parsed_over_iff (hitems : textItems (s ++ ['\n']) = textItems s)
    (hcomments : (scan (s ++ ['\n'])).comments = (scan s).comments) :
    Parsed filename (Utf8.encode s ++ [LineIndex.lineFeed]) strict
        (f.over (Utf8.encode s ++ [LineIndex.lineFeed])) (s ++ ['\n']) ↔
      Parsed filename (Utf8.encode s) strict (f.over (Utf8.encode s)) s := by
  have hname : ∀ {t}, (textItems s).refusal = none →
      (textItems s).nodes.find? (·.label == .packageClause) = some t →
      Declaration.childText (Utf8.encode s ++ [LineIndex.lineFeed]) .name t =
        Declaration.childText (Utf8.encode s) .name t := fun h ht =>
    Declaration.childText_append _ _ (Syntax.item_within h (List.mem_of_find?_eq_some ht)).1
  constructor
  · intro h
    have href := h.refusal
    obtain ⟨t, ht, htext, hend⟩ := h.clause
    have hcount := h.clauseCount
    have hstrict := h.isDeclaration
    have hdecls := h.declarations
    rw [hitems] at href ht hcount hstrict hdecls
    rw [hcomments, Declaration.ofNodes_append_iff href] at hdecls
    rw [hname href ht] at htext
    exact ⟨h.filename_eq, rfl, rfl, rfl, href, ⟨t, ht, htext, hend⟩, hcount, hstrict, hdecls⟩
  · intro h
    obtain ⟨t, ht, htext, hend⟩ := h.clause
    refine ⟨h.filename_eq, rfl, (encode_concat s).symm, rfl, ?_, ⟨t, ?_, ?_, hend⟩, ?_, ?_, ?_⟩
    · rw [hitems]
      exact h.refusal
    · rw [hitems]
      exact ht
    · exact htext.trans (hname h.refusal ht).symm
    · rw [hitems]
      exact h.clauseCount
    · rw [hitems]
      exact h.isDeclaration
    · rw [hitems, hcomments]
      exact (Declaration.ofNodes_append_iff h.refusal _).mpr h.declarations

/-- A source of declarations is read as it is with a line end behind it, unless its last item then lacks a
terminator. -/
theorem parse_lineEnd_iff : SourceFile.parse filename source true = .ok f ↔
    ∃ f', SourceFile.parse filename (source ++ [LineIndex.lineFeed]) true = .ok f' ∧ f = f'.over source ∧
      SourceFile.lacksTerminator source = false := by
  constructor
  · intro h
    obtain ⟨s, hs⟩ := parse_eq_ok_iff.mp h
    obtain ⟨hitems, hcomments, hlacks⟩ := textItems_lineEnd hs.refusal hs.isOpened
    have hover := hs.over_eq
    have hsource := hs.encode_eq
    subst hsource
    rw [← hover] at hs
    refine ⟨_, parse_eq_ok_iff.mpr ⟨_, (parsed_over_iff hitems hcomments).mpr hs⟩, hover.symm, ?_⟩
    rw [SourceFile.lacksTerminator, Utf8.decode?_encode]
    exact hlacks
  · rintro ⟨f', h, rfl, hlacks⟩
    obtain ⟨s', hs⟩ := parse_eq_ok_iff.mp h
    obtain ⟨s, rfl, rfl⟩ := exists_of_encode_concat hs.encode_eq
    rw [SourceFile.lacksTerminator, Utf8.decode?_encode] at hlacks
    obtain ⟨hitems, hcomments⟩ := textItems_of_lineEnd hs.refusal hs.isOpened hlacks
    rw [← hs.over_eq] at hs
    exact parse_eq_ok_iff.mpr ⟨s, (parsed_over_iff hitems hcomments).mp hs⟩

end Files

/-! ## Snippets with a line end behind them -/

namespace Snippet

variable {filename text : String} {source : Bytes} {ts : List Transform}

/-- A snippet that stands for transforms can be read strictly. -/
theorem parse_iff_strict : parse filename text = .ok ts ↔
    ∃ f groups, SourceFile.parse filename (bytesOf (header ++ text)) true = .ok f ∧ f.clauseCount ≤ 1 ∧
      f.declarations.mapM (transformsOf filename (bytesOf (header ++ text))) = .ok groups ∧
      ts = groups.flatten := by
  refine parse_iff.trans (exists_congr fun f => exists_congr fun groups => and_congr_left ?_)
  rintro ⟨-, hgroups, -⟩
  rw [parse_eq_ok_iff, parse_eq_ok_iff]
  refine exists_congr fun s => ⟨fun h => ?_, fun h => { h with isDeclaration := nofun }⟩
  exact { h with isDeclaration := fun _ n hn => isDeclaration_iff.mpr (isOpened_of_transforms h hgroups n hn) }

/-- What a declaration stands for does not depend on what is behind it. -/
theorem transformsOf_append {d : Declaration} (h : WellPlaced source d) (more : Bytes) :
    transformsOf filename (source ++ more) d = transformsOf filename source d := by
  have hslice : ∀ start stop, stop ≤ source.length →
      slice (source ++ more) start stop = slice source start stop :=
    fun start stop hstop => slice_moved [] source more hstop
  have htext : declarationText (source ++ more) d = declarationText source d := by
    unfold declarationText
    rw [hslice _ _ h.stop_le]
    cases hdoc : d.doc with
    | none => rfl
    | some r =>
      have hstart := h.start_lt
      have hstop := h.stop_le
      have hdoc := (h.doc r hdoc).2
      dsimp only
      rw [hslice _ _ (by omega)]
  unfold transformsOf
  rw [htext]

theorem mapM_transformsOf_append {ds : List Declaration} (h : ∀ d ∈ ds, WellPlaced source d) (more : Bytes) :
    ds.mapM (transformsOf filename (source ++ more)) = ds.mapM (transformsOf filename source) := by
  induction ds with
  | nil => rfl
  | cons d ds ih =>
    obtain ⟨hd, hds⟩ := List.forall_mem_cons.mp h
    rw [List.mapM_cons, List.mapM_cons, transformsOf_append hd, ih hds]

/-- A snippet stands for the same transforms with a line end behind it, unless its last item then lacks a
terminator. -/
theorem parse_lineEnd_iff : parse filename text = .ok ts ↔
    parse filename (text ++ "\n") = .ok ts ∧ SourceFile.lacksTerminator (bytesOf (header ++ text)) = false := by
  have hsource : bytesOf (header ++ (text ++ "\n")) = bytesOf (header ++ text) ++ [LineIndex.lineFeed] := by
    rw [← String.append_assoc]
    unfold bytesOf
    rw [String.toList_append]
    exact encode_concat _
  rw [parse_iff_strict, parse_iff_strict, hsource]
  constructor
  · rintro ⟨f, groups, hf, hone, hgroups, hts⟩
    obtain ⟨f', hf', rfl, hlacks⟩ := GoSplice.parse_lineEnd_iff.mp hf
    have hplaced := (parse_wellPlaced hf).2
    exact ⟨⟨f', groups, hf', hone, (mapM_transformsOf_append hplaced _).trans hgroups, hts⟩, hlacks⟩
  · rintro ⟨⟨f', groups, hf', hone, hgroups, hts⟩, hlacks⟩
    have hf := GoSplice.parse_lineEnd_iff.mpr ⟨f', hf', rfl, hlacks⟩
    have hplaced := (parse_wellPlaced hf).2
    exact ⟨_, groups, hf, hone, (mapM_transformsOf_append hplaced _).symm.trans hgroups, hts⟩

end Snippet

/-- A final line end makes no difference to a source of declarations or to a snippet, unless the last item lacks its
terminator without it. -/
theorem parse_finalLineEnd (filename : String) :
    (∀ source f, SourceFile.parse filename source true = .ok f ↔
      ∃ f', SourceFile.parse filename (source ++ [LineIndex.lineFeed]) true = .ok f' ∧ f = f'.over source ∧
        SourceFile.lacksTerminator source = false) ∧
    ∀ text ts, Snippet.parse filename text = .ok ts ↔
      Snippet.parse filename (text ++ "\n") = .ok ts ∧
        SourceFile.lacksTerminator (bytesOf (Snippet.header ++ text)) = false :=
  ⟨fun _ _ => parse_lineEnd_iff, fun _ _ => Snippet.parse_lineEnd_iff⟩

end GoSplice
