import GoSplice.Proofs.LineEnds

/-!
# Trailing comments

A comment trails the declaration or the package clause that ends in its line.  An import that is put
into a file leaves the comments of all lines behind the declarations that they trail, and in the doc
comments that they are of:

    load p = (ok (), q), f in q clears i, applyTransform (.addImport i) p = (ok (), r) →
      the file read from r is f with the comments left                  (applyTransform_leavesComments)

An import is put right behind the last import without parentheses, and right before the parenthesis of
the last import with them, so a comment that stands there in the same line is parted from what it
trails; that no comment does so is also needed (LeavesComments.parts_none).  Below the package clause
the place of an import is the end of the line, which parts no comment from a declaration but one that is
the doc comment of a declaration below.
-/

namespace GoSplice

open Syntax Syntax.Segment Declaration

/-! ## Comments that stay -/

namespace SourceFile

/-- The comments in the doc comment of a declaration. -/
def docComments (f : SourceFile) (d : Declaration) : List Comment :=
  match d.doc with
  | some r => f.comments.filter fun c => r.start ≤ c.start && c.stop ≤ r.stop
  | none => []

/-- Whether a declaration or the package clause of a file ends at an offset. -/
def Ends (f : SourceFile) (o : Nat) : Prop := o = f.clauseEnd ∨ ∃ d ∈ f.declarations, o = d.stop

/-- Whether a file is another with bytes put in that leave its comments: each is one of the file, in the
lines of the ends that it was in the lines of, and the doc comments hold what they held. -/
structure LeavesComments (f f' : SourceFile) (i : Insertion) : Prop where
  source : f'.source = i.apply f.source
  comments : f'.comments = f.comments.map i.comment
  clauseEnd : f'.clauseEnd = i.stop f.clauseEnd
  declarations : ∀ d ∈ f.declarations, ∃ d' ∈ f'.declarations, d.IsMoved i d' ∧
    f'.docComments d' = (f.docComments d).map i.comment
  lines : ∀ c ∈ f.comments, ∀ o, f.Ends o → f.lines.row c.start = f.lines.row o →
    f'.lines.row (i.comment c).start = f'.lines.row (i.stop o)

/-- Whether an import that is put into a file leaves its comments: it is read back, and its place parts no
comment from an end in its line.  Without imports that is the end of the package line, which has to lie
between items and comments, and to part no doc comment from its declaration. -/
structure Clears (f : SourceFile) (i : ImportAddition) : Prop extends Admits f i where
  line : Splice.lastImport? f ≠ none → ∀ c ∈ f.comments, ∀ o, f.Ends o → f.lines.row c.start = f.lines.row o →
    (c.start < f.importPlace ↔ o ≤ f.importPlace)
  between : Splice.lastImport? f = none → f.IsBetween f.importPlace
  doc : Splice.lastImport? f = none → ∀ d ∈ f.declarations, ∀ r, d.doc = some r → r.start < f.importPlace →
    d.start < f.importPlace

end SourceFile

section Files

variable {filename : String} {strict : Bool} {source : Bytes} {f f' : SourceFile} {s s' : List Char} {i : Insertion}

/-- Comments keep their order with doc comments. -/
theorem Insertion.within_iff (i : Insertion) (r : DocRange) (c : Comment) :
    ((i.doc r).start ≤ (i.comment c).start ↔ r.start ≤ c.start) ∧
      ((i.comment c).stop ≤ (i.doc r).stop ↔ c.stop ≤ r.stop) := by
  simp only [doc, comment, start, stop]
  constructor <;> split <;> split <;> omega

/-- Bytes that part no comment from an end in its line, and move comments, clause and declarations, leave
the comments. -/
theorem leavesComments_of_moved (hp : Parsed filename source strict f s)
    (hp' : Parsed filename (i.apply source) strict f' s') (hplace : i.place ≤ source.length) (hcomments : (scan s').comments = (scan s).comments.map i.comment)
    (hclause : f'.clauseEnd = i.stop f.clauseEnd)
    (hdecls : ∀ d ∈ f.declarations, ∃ d' ∈ f'.declarations, d.IsMoved i d')
    (hline : ∀ c ∈ f.comments, ∀ o, f.Ends o → f.lines.row c.start = f.lines.row o →
      (c.start < i.place ↔ o ≤ i.place)) : f.LeavesComments f' i := by
  have hall : f'.comments = f.comments.map i.comment := by rw [hp.comments_eq, hp'.comments_eq, hcomments]
  refine ⟨by rw [hp.source_eq, hp'.source_eq], hall, hclause, fun d hd => ?_, fun c hc o ho hrow => ?_⟩
  · obtain ⟨d', hd', hmoved⟩ := hdecls d hd
    refine ⟨d', hd', hmoved, ?_⟩
    unfold SourceFile.docComments
    rw [hmoved.doc]
    cases d.doc with
    | none => rfl
    | some r =>
      simp only [Option.map_some, hall, List.filter_map]
      refine congrArg _ (List.filter_congr fun c _ => ?_)
      obtain ⟨hstart, hstop⟩ := i.within_iff r c
      simp [hstart, hstop]
  · have hside := hline c hc o ho hrow
    rw [hp.lines_eq] at hrow
    rw [hp'.lines_eq]
    rcases Nat.lt_or_ge c.start i.place with hlt | hge
    · rw [Insertion.comment, Insertion.start_before hlt, Insertion.stop_before (hside.mp hlt),
        Insertion.row_before (Nat.le_of_lt hlt) hplace, Insertion.row_before (hside.mp hlt) hplace, hrow]
    · have hgt : i.place < o := Nat.lt_of_not_le fun h => absurd (hside.mpr h) (Nat.not_lt.mpr hge)
      rw [Insertion.comment, Insertion.start_behind hge, Insertion.stop_behind hgt, Insertion.row_behind hge hplace,
        Insertion.row_behind (Nat.le_of_lt hgt) hplace, hrow]

/-- Bytes that end a line leave the comments only if they part none from an end in its line. -/
theorem SourceFile.LeavesComments.parts_none (h : f.LeavesComments f' i) (hp : Parsed filename source strict f s)
    (hp' : Parsed filename (i.apply source) strict f' s') (hplace : i.place ≤ source.length)
    (hfeed : LineIndex.lineFeed ∈ i.text) {c : Comment} (hc : c ∈ f.comments) {o : Nat} (ho : f.Ends o)
    (hrow : f.lines.row c.start = f.lines.row o) : c.start < i.place ↔ o ≤ i.place := by
  have hpos : 0 < i.text.count LineIndex.lineFeed := List.count_pos_iff.mpr hfeed
  have hline := h.lines c hc o ho hrow
  rw [hp.lines_eq] at hrow
  rw [hp'.lines_eq, Insertion.comment] at hline
  constructor
  · intro hlt
    refine Nat.le_of_not_lt fun hgt => ?_
    rw [Insertion.start_before hlt, Insertion.stop_behind hgt, Insertion.row_before (Nat.le_of_lt hlt) hplace,
      Insertion.row_behind (Nat.le_of_lt hgt) hplace] at hline
    omega
  · intro hle
    refine Nat.lt_of_not_le fun hge => ?_
    rw [Insertion.start_behind hge, Insertion.stop_before hle, Insertion.row_behind hge hplace,
      Insertion.row_before hle hplace] at hline
    omega

end Files

/-! ## Comments behind stretches -/

section Stretches

variable {s s' name path : List Char} {lead a b x ins y : List Lexeme} {gs hs : List Segment} {l : Lexeme}

namespace Syntax.Inserts

theorem comments_map (h : Inserts s s' x ins y) :
    (scan s').comments = (scan s).comments.map (insertionAt s x ins).comment := by
  obtain ⟨hbefore, hbehind⟩ := h.comments_range
  rw [h.comments_eq, comments_split h.old, List.map_append]
  refine congrArg₂ _ ((List.map_congr_left fun c hc => ?_).trans (List.map_id _)).symm
    (List.map_congr_left fun c hc => ?_)
  · obtain ⟨hstart, hstop⟩ := hbefore c hc
    rw [Insertion.comment, Insertion.start_before hstart, Insertion.stop_before hstop]
    rfl
  · obtain ⟨hstart, hstop⟩ := hbehind c hc
    rw [Insertion.comment, Insertion.start_behind hstart, Insertion.stop_behind hstop, length_eq]
    rfl

end Syntax.Inserts

theorem Syntax.PutBehind.inserts (h : PutBehind name path lead gs hs x ins y) (ho : Outline s lead gs)
    (ho' : Outline s' lead hs) (hmark : orderMark s' = orderMark s) : Inserts s s' x ins y := by
  cases h with
  | intro hgap hlines hline =>
    refine ⟨?_, ?_, hmark, ?_⟩
    · rw [ho.stretches_eq, joined_append, joined_cons, hgap]
      simp
    · rw [ho'.stretches_eq, joined_append, joined_cons, joined_cons]
      simp [importSegment]
    · have himport : ∀ l ∈ importStretches name path, l.cls ≠ .comment :=
        List.forall_mem_cons.mpr ⟨by decide, List.forall_mem_cons.mpr ⟨by decide, specStretches_bare name path⟩⟩
      simp only [List.forall_mem_append] at hlines ⊢
      refine ⟨fun l hl => ?_, himport, fun l hl => ?_⟩
      · rw [hlines.1 l hl]
        decide
      · rw [hlines.2 l hl]
        decide

theorem Syntax.PutInside.inserts (h : PutInside lead gs hs x ins y) (ho : Outline s lead gs)
    (ho' : Outline s' lead hs) (hmark : orderMark s' = orderMark s) : Inserts s s' x ins y := by
  cases h with
  | intro _ _ _ hcode hcode' hgap hbare =>
    refine ⟨?_, ?_, hmark, fun l hl => hbare l (List.mem_append_left _ hl)⟩
    · rw [ho.stretches_eq, joined_append, joined_cons, hcode]
      simp
    · rw [ho'.stretches_eq, joined_append, joined_cons, hcode', hgap]
      simp

end Stretches

/-! ## Items around the stretches -/

section Nodes

variable {s s' name path : List Char} {lead x ins y : List Lexeme} {gs hs as bs : List Segment} {g : Segment}

/-- The items of a text before one, that item, and those behind it. -/
theorem Syntax.Outline.nodes_split (ho : Outline s lead (as ++ g :: bs)) : (textItems s).nodes =
    nodes (byteWidth (orderMark s ++ texts lead)) as ++ itemBehind s lead as g ::
      nodes (byteWidth (orderMark s ++ texts (lead ++ (joined as ++ g.stretches)))) bs := by
  have hfirst : byteWidth (orderMark s ++ texts lead) + byteWidth (texts (joined as)) =
      byteWidth (orderMark s ++ texts (lead ++ joined as)) := by
    simp only [texts_append, byteWidth_append, Nat.add_assoc]
  have hsecond : byteWidth (orderMark s ++ texts (lead ++ joined as)) + byteWidth (texts g.stretches) =
      byteWidth (orderMark s ++ texts (lead ++ (joined as ++ g.stretches))) := by
    simp only [texts_append, byteWidth_append, Nat.add_assoc]
  rw [ho.items, nodes_append, nodes, hfirst, hsecond, itemBehind]

/-- The items with an import more behind one of them, which ends its line. -/
theorem Syntax.PutBehind.exists_nodes (h : PutBehind name path lead gs hs x ins y) (ho : Outline s lead gs)
    (ho' : Outline s' lead hs) (hmark : orderMark s' = orderMark s) :
    ∃ ms ns t, (textItems s).nodes = ms ++ ns ∧
      (textItems s').nodes = ms ++ t :: ns.map (Tree.moved (byteWidth (texts ins))) ∧
      (∀ u ∈ ms, u.start < byteWidth (orderMark s ++ texts x) ∧ u.stop ≤ byteWidth (orderMark s ++ texts x)) ∧
      (∀ u ∈ ns, byteWidth (orderMark s ++ texts x) ≤ u.start ∧ byteWidth (orderMark s ++ texts x) < u.stop) ∧
      t.label ≠ .packageClause ∧ byteWidth (orderMark s ++ texts x) ≤ t.start ∧ t.start < t.stop ∧
      t.stop ≤ byteWidth (orderMark s ++ texts x) + byteWidth (texts ins) ∧
      ∃ w c, stretches s' = w ++ ⟨.newline, ['\n']⟩ :: c ∧ t.stop = byteWidth (orderMark s' ++ texts w) := by
  cases h with
  | @intro as bs g a b u v c hgap hlines hfeed =>
  have hitems := ho.linked.items
  have hg : g.IsItem := hitems g (by simp)
  have himport : (importSegment name path (v ++ b)).IsItem := ho'.linked.items _ (by simp)
  have hstart : (importNode name path).start = 0 := himport.declares.start
  have hstop : (importNode name path).stop = byteWidth (texts (importStretches name path)) := himport.declares.stop
  have hpos : 0 < byteWidth (texts (importStretches name path)) := by
    rw [importStretches, texts_cons, byteWidth_append]
    exact Nat.add_pos_left (by decide) _
  have hwidth : byteWidth (orderMark s ++ texts (lead ++ (joined as ++ (g.code ++ (a ++ u))))) +
      byteWidth (texts (importSegment name path (v ++ b)).stretches) =
      byteWidth (orderMark s ++ texts (lead ++ (joined as ++ g.stretches))) +
        byteWidth (texts (u ++ (importStretches name path ++ v))) := by
    simp only [importSegment, Segment.stretches, hgap, texts_append, byteWidth_append]
    omega
  refine ⟨nodes (byteWidth (orderMark s ++ texts lead)) as ++ [itemBehind s lead as g],
    nodes (byteWidth (orderMark s ++ texts (lead ++ (joined as ++ g.stretches)))) bs,
    (importNode name path).moved (byteWidth (orderMark s ++ texts (lead ++ (joined as ++ (g.code ++ (a ++ u)))))),
    ?_, ?_, List.forall_mem_append.mpr ⟨fun t ht => ?_, List.forall_mem_singleton.mpr ?_⟩, fun t ht => ?_, ?_, ?_, ?_, ?_,
    lead ++ (joined as ++ (g.code ++ (a ++ u ++ importStretches name path))), c ++ joined bs, ?_, ?_⟩
  · rw [ho.nodes_split, List.append_cons]
  · rw [ho'.nodes_split, hmark, nodes, ← nodes_moved, ← hwidth, itemBehind, hmark, List.append_cons]
    rfl
  · have hrange := range_of_mem_nodes (fun k hk => hitems k (by simp [hk])) ht
    simp only [texts_append, byteWidth_append] at hrange ⊢
    omega
  · obtain ⟨hstartg, hstopg⟩ := hg.range s lead as
    obtain ⟨l, r, k, hcode, -⟩ := hg.declares.head
    have hposg := byteWidth_pos (hg.nonempty l (by rw [hcode]; exact List.mem_cons_self))
    rw [hstartg, hstopg, hcode]
    simp only [texts_append, texts_cons, byteWidth_append]
    omega
  · have hrange := range_of_mem_nodes (fun k hk => hitems k (by simp [hk])) ht
    simp only [Segment.stretches, hgap, texts_append, byteWidth_append] at hrange ⊢
    omega
  · rw [Tree.label_moved]
    show Label.importDecl ≠ .packageClause
    decide
  · simp only [Tree.start_moved, texts_append, byteWidth_append]
    omega
  · rw [Tree.start_moved, Tree.stop_moved, hstart, hstop]
    omega
  · simp only [Tree.stop_moved, hstop, texts_append, byteWidth_append]
    omega
  · rw [ho'.stretches_eq, joined_append, joined_cons, joined_cons]
    simp [importSegment, hfeed]
  · simp only [Tree.stop_moved, hstop, hmark, texts_append, byteWidth_append]
    omega

/-- The items with a longer import in place of one. -/
theorem Syntax.PutInside.exists_nodes (h : PutInside lead gs hs x ins y) (ho : Outline s lead gs)
    (ho' : Outline s' lead hs) (hmark : orderMark s' = orderMark s) :
    ∃ ms ns t t', (textItems s).nodes = ms ++ t :: ns ∧
      (textItems s').nodes = ms ++ t' :: ns.map (Tree.moved (byteWidth (texts ins))) ∧
      (∀ u ∈ ms, u.start < byteWidth (orderMark s ++ texts x) ∧ u.stop ≤ byteWidth (orderMark s ++ texts x)) ∧
      (∀ u ∈ ns, t.stop ≤ u.start ∧ t.stop < u.stop) ∧
      t.label ≠ .packageClause ∧ t'.label = t.label ∧ t.start < byteWidth (orderMark s ++ texts x) ∧
      byteWidth (orderMark s ++ texts x) < t.stop ∧ t'.start = t.start ∧ t'.stop = t.stop + byteWidth (texts ins) ∧
      ∃ z c, y = z :: c ∧ z.cls ≠ .comment ∧ t.stop = byteWidth (orderMark s ++ texts x) + byteWidth z.text := by
  cases h with
  | @intro as bs g h c ins z himport himport' hne hcode hcode' hgap hbare =>
  have hitems := ho.linked.items
  have hg : g.IsItem := hitems g (by simp)
  have hh : h.IsItem := ho'.linked.items h (by simp)
  have hlabel := hg.isImport_iff.mp himport
  have hlabel' := hh.isImport_iff.mp himport'
  obtain ⟨hstart, hstop⟩ := hg.range s lead as
  obtain ⟨hstart', hstop'⟩ := hh.range s' lead as
  have hpos : 0 < byteWidth (texts c) ∧ 0 < byteWidth z.text := by
    have hall := hg.nonempty
    rw [hcode, List.forall_mem_append, List.forall_mem_singleton] at hall
    obtain ⟨l, r, rfl⟩ := List.exists_cons_of_ne_nil hne
    have := byteWidth_pos (hall.1 l List.mem_cons_self)
    rw [texts_cons, byteWidth_append]
    exact ⟨by omega, byteWidth_pos hall.2⟩
  have hwidth : byteWidth (orderMark s ++ texts (lead ++ (joined as ++ h.stretches))) =
      byteWidth (orderMark s ++ texts (lead ++ (joined as ++ g.stretches))) + byteWidth (texts ins) := by
    simp only [Segment.stretches, hcode, hcode', hgap, texts_append, byteWidth_append]
    omega
  refine ⟨nodes (byteWidth (orderMark s ++ texts lead)) as,
    nodes (byteWidth (orderMark s ++ texts (lead ++ (joined as ++ g.stretches)))) bs, itemBehind s lead as g,
    itemBehind s' lead as h, ho.nodes_split, ?_, fun t ht => ?_, fun t ht => ?_, ?_, ?_, ?_, ?_, ?_, ?_,
    z, g.gap ++ joined bs, rfl, hbare z (by simp), ?_⟩
  · rw [ho'.nodes_split, hmark, hwidth, nodes_moved]
  · have hrange := range_of_mem_nodes (fun k hk => hitems k (by simp [hk])) ht
    simp only [texts_append, byteWidth_append] at hrange ⊢
    omega
  · have hrange := range_of_mem_nodes (fun k hk => hitems k (by simp [hk])) ht
    rw [hstop]
    simp only [Segment.stretches, texts_append, byteWidth_append] at hrange ⊢
    omega
  · rw [itemBehind, Tree.label_moved, hlabel]
    decide
  · rw [itemBehind, itemBehind, Tree.label_moved, Tree.label_moved, hlabel, hlabel']
  · rw [hstart]
    simp only [texts_append, byteWidth_append]
    omega
  · rw [hstop, hcode]
    simp only [texts_append, texts_cons, texts_nil, byteWidth_append, byteWidth_nil]
    omega
  · rw [hstart, hstart', hmark]
  · rw [hstop, hstop', hmark, hcode, hcode']
    simp only [texts_append, byteWidth_append]
    omega
  · rw [hstop, hcode]
    simp only [texts_append, texts_cons, texts_nil, byteWidth_append, byteWidth_nil]
    omega

end Nodes

/-! ## Files with an import more -/

section Leaves

variable {filename : String} {strict : Bool} {f f' : SourceFile} {s s' name path : List Char}
  {lead x ins y : List Lexeme} {gs hs : List Segment}

/-- An import on a line of its own leaves the comments, if those behind its place are in lines below it. -/
theorem Syntax.PutBehind.leavesComments (h : PutBehind name path lead gs hs x ins y) (ho : Outline s lead gs)
    (ho' : Outline s' lead hs) (hmark : orderMark s' = orderMark s) (hp : Parsed filename (Utf8.encode s) strict f s)
    (hp' : Parsed filename (Utf8.encode s') strict f' s')
    (hbelow : ∀ c ∈ f.comments, (insertionAt s x ins).place ≤ c.start →
      f.lines.row (insertionAt s x ins).place ≠ f.lines.row c.start)
    (hline : ∀ c ∈ f.comments, ∀ o, f.Ends o → f.lines.row c.start = f.lines.row o →
      (c.start < (insertionAt s x ins).place ↔ o ≤ (insertionAt s x ins).place))
    (hdoc : ∀ d ∈ f.declarations, ∀ r, d.doc = some r → r.start < (insertionAt s x ins).place →
      d.start < (insertionAt s x ins).place) : f.LeavesComments f' (insertionAt s x ins) := by
  have hins := h.inserts ho ho' hmark
  have hlength := Inserts.length_eq s x ins
  obtain ⟨ms, ns, t, hnodes, hnodes', hms, hns, hlabel, hstart, hlt, hstop, w, c, hw, hwstop⟩ :=
    h.exists_nodes ho ho' hmark
  obtain ⟨us, vs, hold, hnew, hus, hvs, hcomment⟩ := hins.siblings_more hnodes hnodes' hms hns hstart hlt hstop
  rw [hp.comments_eq, hp.lines_eq] at hbelow
  rw [hins.encode_eq] at hp'
  have hrows : ∀ c, .comment c ∈ vs → ∀ z ∈ us,
      (LineIndex.ofBytes (Utf8.encode s)).row z.stop ≠ (LineIndex.ofBytes (Utf8.encode s)).row c.start := by
    intro c hc z hz
    have hbefore := LineIndex.row_mono (Utf8.encode s) (hus z hz).2
    have hbehind : _ ≤ (LineIndex.ofBytes (Utf8.encode s)).row c.start := LineIndex.row_mono (Utf8.encode s) (hvs _ hc).1
    have hne := hbelow c (hcomment c hc).1 (hvs _ hc).1
    omega
  -- the import ends its line, so no comment behind it is in that
  have hrows' : ∀ c, .comment c ∈ vs → (LineIndex.ofBytes ((insertionAt s x ins).apply (Utf8.encode s))).row t.stop ≠
      (LineIndex.ofBytes ((insertionAt s x ins).apply (Utf8.encode s))).row (c.start + (insertionAt s x ins).text.length) :=
      fun c hc => by
    have hle : byteWidth (orderMark s ++ texts x) ≤ c.start := (hvs _ hc).1
    rw [hwstop] at hstop ⊢
    have hmoved : _ ≤ c.start + (insertionAt s x ins).text.length := hlength ▸ hstop.trans (Nat.add_le_add_right hle _)
    have hbehind := le_of_comment_behind hw (by decide) (hcomment c hc).2 hmoved
    rw [← hins.encode_eq]
    exact Nat.ne_of_lt (row_lt_of_lineEnd hw hbehind)
  have hdisplaced : Displaced (insertionAt s x ins) (.ofBytes (Utf8.encode s))
      (.ofBytes ((insertionAt s x ins).apply (Utf8.encode s))) us (us ++ [.item t]) vs := .more hus hvs hrows hrows'
  have hclause := clauseEnd_moved hp hp' (show _ = ms ++ ([] ++ ns) from hnodes)
    (show _ = ms ++ ([t] ++ ns.map (Tree.moved _)) by rw [hlength]; exact hnodes')
    (fun u hu => (hms u hu).2) (fun u hu => (hns u hu).2) (List.forall_mem_nil _) (List.forall_mem_singleton.mpr hlabel)
  exact leavesComments_of_moved hp hp' hins.place_le hins.comments_map hclause
    (fun d hd => hdisplaced.exists_moved hp hp' hins.place_le hold hnew hd (hdoc d hd)) hline

/-- An import in parentheses leaves the comments. -/
theorem Syntax.PutInside.leavesComments (h : PutInside lead gs hs x ins y) (ho : Outline s lead gs)
    (ho' : Outline s' lead hs) (hmark : orderMark s' = orderMark s) (hp : Parsed filename (Utf8.encode s) strict f s)
    (hp' : Parsed filename (Utf8.encode s') strict f' s')
    (hline : ∀ c ∈ f.comments, ∀ o, f.Ends o → f.lines.row c.start = f.lines.row o →
      (c.start < (insertionAt s x ins).place ↔ o ≤ (insertionAt s x ins).place)) :
    f.LeavesComments f' (insertionAt s x ins) := by
  have hins := h.inserts ho ho' hmark
  have hlength := Inserts.length_eq s x ins
  obtain ⟨ms, ns, t, t', hnodes, hnodes', hms, hns, hlabel, hlabel', hstart, hstop, hstart', hstop', z, c, rfl, hz,
    hzstop⟩ := h.exists_nodes ho ho' hmark
  have hbehind : ∀ c ∈ (scan s).comments, byteWidth (orderMark s ++ texts x) ≤ c.start → t.stop ≤ c.start := by
    intro c hc hle
    rw [hzstop]
    exact le_of_comment_behind hins.old hz hc hle
  obtain ⟨ws, vs, hold, hnew, hws, hvs⟩ :=
    hins.siblings_wider hnodes hnodes' hms hns hstart hstop hstart' hstop' hbehind
  rw [hins.encode_eq] at hp'
  have hdisplaced : Displaced (insertionAt s x ins) (.ofBytes (Utf8.encode s))
      (.ofBytes ((insertionAt s x ins).apply (Utf8.encode s))) (ws ++ [.item t]) (ws ++ [.item t']) vs :=
    .wider hws hstart hstop hvs hstart' (by rw [hlength, hstop']) hlabel' fun o ho => Insertion.row_behind ho hins.place_le
  have hclause := clauseEnd_moved hp hp' (show _ = ms ++ ([t] ++ ns) from hnodes)
    (show _ = ms ++ ([t'] ++ ns.map (Tree.moved _)) by rw [hlength]; exact hnodes')
    (fun u hu => (hms u hu).2) (fun u hu => Nat.lt_trans hstop (hns u hu).2) (List.forall_mem_singleton.mpr hlabel)
    (List.forall_mem_singleton.mpr (by rw [hlabel']; exact hlabel))
  exact leavesComments_of_moved hp hp' hins.place_le hins.comments_map hclause
    (fun d hd => hdisplaced.exists_moved hp hp' hins.place_le hold hnew hd fun r hr hlt =>
      hp.doc_before_item (by rw [hnodes]; simp) hstart (Nat.le_of_lt hstop) hd hr hlt) hline

/-- The last import of a file is a declaration of it. -/
theorem exists_lastImport_stop {stop : Nat} {close : Option Nat} (h : Splice.lastImport? f = some (stop, close)) :
    ∃ d ∈ f.declarations, d.stop = stop := by
  obtain ⟨d, hd, hm⟩ := List.exists_of_findSome?_eq_some h
  split at hm
  · exact ⟨d, List.mem_reverse.mp hd, congrArg Prod.fst (Option.some.inj hm)⟩
  · cases hm

/-- What ends in a file ends before its text does. -/
theorem SourceFile.Ends.le {o : Nat} (h : f.Ends o) (hp : Parsed filename (Utf8.encode s) true f s)
    (ho : Outline s lead gs) : o ≤ (Utf8.encode s).length := by
  rcases h with rfl | ⟨d, hd, rfl⟩
  · obtain ⟨as, p, bs, rfl, -, -, hend⟩ := hp.exists_clauseItem ho
    rw [hend, ← byteWidth_eq]
    conv => rhs; rw [← orderMark_append_texts s, ho.stretches_eq]
    simp only [joined_append, joined_cons, texts_append, byteWidth_append]
    omega
  · exact (hp.wellPlaced hd).stop_le

/-- A line end parts no comment from an end in its line. -/
theorem Syntax.EndsLineAt.parts_none {k : Nat} (h : EndsLineAt s lead gs k)
    (hp : Parsed filename (Utf8.encode s) true f s) (ho : Outline s lead gs) {c : Comment} (hc : c ∈ f.comments)
    {o : Nat} (hends : f.Ends o) (hrow : f.lines.row c.start = f.lines.row o) : c.start < k ↔ o ≤ k := by
  rw [hp.comments_eq] at hc
  rw [hp.lines_eq] at hrow
  constructor
  · intro hlt
    refine Nat.le_of_not_lt fun hgt => ?_
    have hbefore := LineIndex.row_mono (Utf8.encode s) (Nat.le_of_lt hlt)
    have hbehind := h.row_lt ho hgt (hends.le hp ho)
    omega
  · intro hle
    refine Nat.lt_of_not_le fun hge => ?_
    have hbefore := LineIndex.row_mono (Utf8.encode s) hle
    have hbehind := h.row_lt_comment ho hc hge
    omega

/-- An import below the package clause leaves the comments of a file that it clears. -/
theorem SourceFile.Clears.leavesComments_clause {a : ImportAddition} (hclear : f.Clears a)
    (hp : Parsed f.filename f.source true f s) (ho : Outline s lead gs) (ho' : Outline s' lead hs)
    (hmark : orderMark s' = orderMark s) (hp' : Parsed f.filename (Utf8.encode s') true f' s')
    (hplace : f.importPlace = (insertionAt s x ins).place) (hput : PutBehind name path lead gs hs x ins y)
    (hfound : Splice.lastImport? f = none) : f.LeavesComments f' (insertionAt s x ins) := by
  have hline : EndsLineAt s lead gs f.importPlace := (hclear.between hfound).endsLineAt hp ho hfound
  have hdoc := hclear.doc hfound
  rw [hplace] at hline hdoc
  rw [hp.encode_eq] at hp
  refine hput.leavesComments ho ho' hmark hp hp' (fun c hc hle => ?_)
    (fun c hc o hends hrow => hline.parts_none hp ho hc hends hrow) hdoc
  rw [hp.comments_eq] at hc
  rw [hp.lines_eq]
  exact Nat.ne_of_lt (hline.row_lt_comment ho hc hle)

/-- An import behind the last one leaves the comments of a file that it clears. -/
theorem SourceFile.Clears.leavesComments_import {a : ImportAddition} (hclear : f.Clears a)
    (hp : Parsed f.filename f.source true f s) (ho : Outline s lead gs) (ho' : Outline s' lead hs)
    (hmark : orderMark s' = orderMark s) (hp' : Parsed f.filename (Utf8.encode s') true f' s')
    (hplace : f.importPlace = (insertionAt s x ins).place) (hput : PutBehind name path lead gs hs x ins y)
    {stop : Nat} (hfound : Splice.lastImport? f = some (stop, none)) : f.LeavesComments f' (insertionAt s x ins) := by
  have hline := hclear.line (by rw [hfound]; nofun)
  obtain ⟨d, hd, rfl⟩ := exists_lastImport_stop hfound
  have hstop : (insertionAt s x ins).place = d.stop := by
    rw [← hplace, SourceFile.importPlace, hfound]
  rw [hplace] at hline
  rw [hp.encode_eq] at hp
  refine hput.leavesComments ho ho' hmark hp hp' (fun c hc hle hrow => ?_) hline fun e he r hr hlt => ?_
  · have hside := hline c hc _ (.inr ⟨d, hd, hstop⟩) hrow.symm
    exact absurd (hside.mpr (Nat.le_refl _)) (Nat.not_lt.mpr hle)
  · obtain ⟨_, t, _, _, ht, hread⟩ := hp.readInOrder hd
    have hwell := (hp.wellPlaced hd).start_lt
    rw [hread.start, hread.stop] at hwell
    rw [hstop, hread.stop] at hlt ⊢
    exact hp.doc_before_item ht hwell (Nat.le_refl _) he hr hlt

end Leaves

/-! ## Packages -/

namespace Package

variable {p q r : Package} {f : SourceFile} {i : ImportAddition}

/-- An import that is put into a file that it clears leaves the comments where they are. -/
theorem applyTransform_leavesComments (hload : load p = (.ok (), q)) (hf : f ∈ q.files) (hi : i.filename = f.filename)
    (hname : IsImportName i.name.toList) (hclear : f.Clears i) (hrun : applyTransform (.addImport i) p = (.ok (), r)) :
    ∃ data f' text, r.read f.filename = .ok data ∧ SourceFile.parse f.filename data true = .ok f' ∧
      f'.imports = f.imports ++ [(i.name, i.path)] ∧ f.LeavesComments f' ⟨f.importPlace, text⟩ := by
  have hl := load_eq_ok hload
  obtain ⟨s, hs⟩ := parse_eq_ok_iff.mp (hl.files f hf).2
  obtain ⟨lead, gs, ho⟩ := hs.exists_outline
  obtain ⟨s', hs', x, ins, y, hdata, hplace, hwith, hput⟩ := exists_withImport hs ho (by rw [hi]; exact hl.file?_eq hf)
    (by rw [hi]; exact hl.contentsOrNew_of_mem hf) hname hclear.toAdmits fun hfound =>
      (hclear.between hfound).endsLineAt hs ho hfound
  obtain ⟨f', hparse', hp', himports, -⟩ := hwith.gains.parse ho hs hwith.outline
  rw [applyTransform_of_load hload] at hrun
  change addImport i q = _ at hrun
  rw [addImport_eq, hdata, hi] at hrun
  refine ⟨Utf8.encode s', f', Utf8.encode (texts ins), read_of_write hrun, hparse', by simpa using himports, ?_⟩
  change f.importPlace = (insertionAt s x ins).place at hplace
  rw [hplace]
  rcases hput with ⟨hput, hsingle⟩ | ⟨hput, hfound⟩
  · cases hlast : Splice.lastImport? f with
    | none => exact hclear.leavesComments_clause hs ho hwith.outline hwith.mark hp' hplace hput hlast
    | some m =>
      obtain ⟨stop, close⟩ := m
      obtain rfl : close = none := hsingle _ hlast
      exact hclear.leavesComments_import hs ho hwith.outline hwith.mark hp' hplace hput hlast
  · have hline := hclear.line hfound
    rw [hplace] at hline
    exact hput.leavesComments ho hwith.outline hwith.mark (by rw [← hs.encode_eq]; exact hs) hp' hline

/-! ### An import between comments -/

/-- A file with comments around an import. -/
def commentedText : String := "package a // The file.\n\nimport \"x\"\n\n// F is one.\nfunc F() \x7b\x7d // Done.\n"

theorem commented_leavesComments : ∃ q f r, load (oneFile commentedText) = (.ok (), q) ∧ f ∈ q.files ∧
    IsImportName "".toList ∧ f.Clears ⟨f.filename, "", "y"⟩ ∧
    applyTransform (.addImport ⟨f.filename, "", "y"⟩) (oneFile commentedText) = (.ok (), r) ∧
    ∃ data f' text, r.read f.filename = .ok data ∧ SourceFile.parse f.filename data true = .ok f' ∧
      f'.imports = f.imports ++ [("", "y")] ∧ f.LeavesComments f' ⟨f.importPlace, text⟩ := by
  have hload := eq_ok_of_isOk (show (load (oneFile commentedText)).1.isOk by decide +kernel)
  have hfiles : (load (oneFile commentedText)).2.files.any fun f => f.filename == "a.go" &&
      f.source == Utf8.encode commentedText.toList && Splice.lastImport? f == some (34, none) &&
      f.comments.all fun c => (f.clauseEnd :: f.declarations.map (·.stop)).all fun o =>
        f.lines.row c.start != f.lines.row o || decide (c.start < f.importPlace) == decide (o ≤ f.importPlace) := by
    decide +kernel
  obtain ⟨f, hf, h⟩ := List.any_eq_true.mp hfiles
  simp only [Bool.and_eq_true, beq_iff_eq] at h
  obtain ⟨⟨⟨hname, hsource⟩, hlast⟩, hline⟩ := h
  have htext : ∀ s, f.source = Utf8.encode s → s = commentedText.toList := fun s hs =>
    Utf8.encode_injective (hs.symm.trans hsource)
  have hplain : IsPlainText "y".toList := by
    unfold IsPlainText
    simp
  have hadmits : f.Admits ⟨f.filename, "", "y"⟩ := by
    refine ⟨hplain, fun s hs hopen => ?_, fun stop hstop hbehind => ?_⟩
    · rw [htext s hs] at hopen
      exact absurd hopen (by decide +kernel)
    · obtain ⟨s, t, hs, ht, hkind⟩ := hbehind
      obtain rfl : 34 = stop := congrArg Prod.fst (Option.some.inj (hlast.symm.trans hstop))
      have hfunc : ((scan commentedText.toList).tokens.find? (34 ≤ ·.start)).map (·.kind) = some (.keyword .funcK) := by
        decide +kernel
      rw [← htext s hs, ht, Option.map_some, hkind] at hfunc
      cases hfunc
  have hclear : f.Clears ⟨f.filename, "", "y"⟩ := by
    refine ⟨hadmits, fun _ c hc o ho hrow => ?_, fun h => ?_, fun h => ?_⟩
    · have hends : o ∈ f.clauseEnd :: f.declarations.map (·.stop) := by
        rcases ho with rfl | ⟨d, hd, rfl⟩
        · exact List.mem_cons_self
        · exact List.mem_cons_of_mem _ (List.mem_map_of_mem hd)
      simpa [hrow] using List.all_eq_true.mp (List.all_eq_true.mp hline c hc) o hends
    · rw [hlast] at h
      cases h
    · rw [hlast] at h
      cases h
  have hrun : (applyTransform (.addImport ⟨f.filename, "", "y"⟩) (oneFile commentedText)).1.isOk := by
    rw [hname]
    decide +kernel
  exact ⟨_, f, _, hload, hf, .inl rfl, hclear, eq_ok_of_isOk hrun,
    applyTransform_leavesComments hload hf rfl (.inl rfl) hclear (eq_ok_of_isOk hrun)⟩

end Package

end GoSplice
