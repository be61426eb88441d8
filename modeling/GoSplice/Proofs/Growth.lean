import GoSplice.Proofs.ClosingComments
import GoSplice.Proofs.PartFiles

/-!
# Files that grow

A file of declarations that ends its last line can be added to: with a whole
paragraph behind it, it is read as the declarations that it had and that of the
paragraph.

    Parsed filename source true f s → g.IsRead → Takes s g.text →
      parse filename (source ++ encode (g.text ++ "\n")) true = ok f',
      GrownBy g f f'                                                   (parse_grown)
-/

namespace GoSplice

open Syntax GoSplice.Part

/-! ## Nodes that stay -/

mutual
theorem Syntax.Tree.moved_zero {L : Type} : ∀ t : Tree L, t.moved 0 = t
  | .node l s e cs => by rw [Tree.moved, movedAll_zero, Nat.add_zero, Nat.add_zero]
theorem Syntax.movedAll_zero {L : Type} : ∀ ts : List (Tree L), movedAll 0 ts = ts
  | [] => rfl
  | t :: ts => by rw [movedAll, Tree.moved_zero, movedAll_zero]
end

theorem Declared.moved_zero (d : Declared) : d.moved 0 = d := by
  cases d with
  | imports specs close =>
    have hspecs : specs.map (ImportSpec.moved 0) = specs := List.map_id' specs
    have hclose : close.map (· + 0) = close := Option.map_id'
    rw [Declared.moved, hspecs, hclose]
  | _ => rfl

namespace Declaration

/-- What a node declares does not depend on what is behind it. -/
theorem declaredBy_append {source : Bytes} {cs ds : List Comment} {t : Node} (more : Bytes)
    (ht : Within source.length t) (hds : ∀ c ∈ ds, source.length ≤ c.start) :
    declaredBy (source ++ more) (cs ++ ds) t = declaredBy source cs t := by
  have hsame : SameInside ([] : Bytes).length source.length (cs ++ ds) cs := by
    intro start stop hstop
    have hnone : ds.any (fun c => start ≤ c.start && c.start < stop) = false := by
      rw [List.any_eq_false]
      intro c hc
      have := hds c hc
      simp only [Bool.and_eq_true, decide_eq_true_eq]
      omega
    rw [List.length_nil, Nat.add_zero, Nat.add_zero, List.any_append, hnone, Bool.or_false]
  have hmoved := declaredBy_moved (c := more) ht hsame
  rw [List.length_nil, Tree.moved_zero, List.nil_append] at hmoved
  rw [hmoved]
  cases declaredBy source cs t with
  | error e => rfl
  | ok d => exact congrArg Except.ok d.moved_zero

/-- The name of a node does not depend on what is behind it. -/
theorem childText_append {source : Bytes} {t : Node} (more : Bytes) (label : Label) (ht : Within source.length t) :
    childText (source ++ more) label t = childText source label t := by
  have hmoved := childText_moved (a := []) (c := more) label fun u hu => (ht.child hu).stop_le
  rwa [List.length_nil, Tree.moved_zero, List.nil_append] at hmoved

/-! ## Doc comments that stay -/

/-- Whether the ends of a sibling are in the same rows of two files. -/
def SameRows (lines lines' : LineIndex) (x : Sibling) : Prop :=
  lines'.row x.start = lines.row x.start ∧ lines'.row x.stop = lines.row x.stop

section Rows

variable {lines lines' : LineIndex} {before : List Sibling}

theorem docStart?_congr (h : ∀ x ∈ before, SameRows lines lines' x) (row : Nat) :
    docStart? lines' row before = docStart? lines row before := by
  induction before generalizing row with
  | nil => rfl
  | cons x before ih =>
    obtain ⟨hx, hbefore⟩ := List.forall_mem_cons.mp h
    cases x with
    | item t => rfl
    | comment c =>
      obtain ⟨hstart, hstop⟩ : lines'.row c.start = lines.row c.start ∧
        lines'.row c.stop = lines.row c.stop := hx
      unfold docStart?
      rw [hstart, hstop, ih hbefore]
      cases before with
      | nil => rfl
      | cons y r =>
        cases y with
        | comment d => rfl
        | item t =>
          have ht : lines'.row t.stop = lines.row t.stop := (hbefore _ List.mem_cons_self).2
          dsimp only
          rw [ht]

theorem docRange?_congr {start : Nat} (hstart : lines'.row start = lines.row start)
    (h : ∀ x ∈ before, SameRows lines lines' x) :
    docRange? lines' start before = docRange? lines start before := by
  unfold docRange?
  rw [hstart, docStart?_congr h]

end Rows

/-! ## Siblings behind others -/

/-- Declarations are read off further siblings behind those that were read. -/
theorem ofSiblings_append {source source' : Bytes} {comments comments' : List Comment}
    {lines lines' : LineIndex} {before after : List Sibling} {ds : List Declaration}
    (h : ofSiblings source comments lines before after = .ok ds)
    (hread : ∀ t, .item t ∈ after → declaredBy source' comments' t = declaredBy source comments t)
    (hbefore : ∀ x ∈ before, SameRows lines lines' x) (hafter : ∀ x ∈ after, SameRows lines lines' x)
    (more : List Sibling) :
    ofSiblings source' comments' lines' before (after ++ more) =
      (ofSiblings source' comments' lines' (after.reverse ++ before) more).map (ds ++ ·) := by
  induction after generalizing before ds with
  | nil =>
    cases h
    cases hm : ofSiblings source' comments' lines' before more with
    | error e => rw [List.nil_append, hm, List.reverse_nil, List.nil_append, hm]; rfl
    | ok es => rw [List.nil_append, hm, List.reverse_nil, List.nil_append, hm]; rfl
  | cons x after ih =>
    obtain ⟨hx, hafter⟩ := List.forall_mem_cons.mp hafter
    have hnext : ∀ y ∈ x :: before, SameRows lines lines' y := List.forall_mem_cons.mpr ⟨hx, hbefore⟩
    have hrest : ∀ {es}, ofSiblings source comments lines (x :: before) after = .ok es →
        ofSiblings source' comments' lines' (x :: before) (after ++ more) =
          (ofSiblings source' comments' lines' ((x :: after).reverse ++ before) more).map (es ++ ·) := by
      intro es hes
      rw [ih hes (fun t ht => hread t (List.mem_cons_of_mem x ht)) hnext hafter, List.reverse_cons,
        List.append_assoc]
      rfl
    cases x with
    | comment c => exact hrest h
    | item t =>
      unfold ofSiblings at h
      dsimp only at h
      rw [List.cons_append, ofSiblings]
      split at h
      · next hl =>
        rw [if_pos hl]
        exact hrest h
      · next hl =>
        rw [if_neg hl, hread t List.mem_cons_self]
        cases hd : declaredBy source comments t with
        | error e => rw [hd] at h; cases h
        | ok d =>
          cases hes : ofSiblings source comments lines (.item t :: before) after with
          | error e => rw [hd, hes] at h; cases h
          | ok es =>
            rw [hd, hes] at h
            cases h
            have hdoc : docRange? lines' t.start before = docRange? lines t.start before :=
              docRange?_congr hx.1 hbefore
            rw [hrest hes, hdoc]
            cases ofSiblings source' comments' lines' ((Sibling.item t :: after).reverse ++ before) more with
            | error e => rfl
            | ok fs => rfl

theorem takeWhile_dropWhile_append {α : Type} {p : α → Bool} {ds : List α}
    (hds : ∀ d ∈ ds, p d = false) (cs : List α) :
    (cs ++ ds).takeWhile p = cs.takeWhile p ∧ (cs ++ ds).dropWhile p = cs.dropWhile p ++ ds := by
  induction cs with
  | nil =>
    cases ds with
    | nil => exact ⟨rfl, rfl⟩
    | cons d ds =>
      have hd : ¬ (p d = true) := by
        rw [hds d List.mem_cons_self]
        exact Bool.false_ne_true
      exact ⟨List.takeWhile_cons_of_neg hd, List.dropWhile_cons_of_neg hd⟩
  | cons c cs ih =>
    rw [List.cons_append, List.takeWhile_cons, List.takeWhile_cons, List.dropWhile_cons,
      List.dropWhile_cons, ih.1, ih.2]
    split <;> exact ⟨rfl, rfl⟩

/-- Items and comments behind an offset are siblings behind those before it. -/
theorem siblings_append {ns ms : List Node} {cs ds : List Comment} {m : Nat}
    (hns : ∀ n ∈ ns, n.start ≤ m ∧ n.stop ≤ m) (hcs : ∀ c ∈ cs, c.start < m) (hds : ∀ c ∈ ds, m ≤ c.start)
    (hms : ∀ n ∈ ms, m ≤ n.start ∧ m ≤ n.stop) :
    siblings (ns ++ ms) (cs ++ ds) = siblings ns cs ++ siblings ms ds := by
  induction ns generalizing cs with
  | nil =>
    cases ms with
    | nil => exact List.map_append
    | cons u us =>
      obtain ⟨h1, h2⟩ := hms u List.mem_cons_self
      show siblings (u :: us) (cs ++ ds) = cs.map .comment ++ siblings (u :: us) ds
      rw [siblings, siblings, List.takeWhile_append_of_pos (fun c hc => decide_eq_true (by
          have := hcs c hc
          omega)),
        List.dropWhile_append_of_pos (fun c hc => decide_eq_true (by
          have := hcs c hc
          omega)), List.map_append, List.append_assoc]
  | cons t ts ih =>
    obtain ⟨⟨h1, h2⟩, hts⟩ := List.forall_mem_cons.mp hns
    have hbehind : ∀ k, k ≤ m → ∀ d ∈ ds, decide (d.start < k) = false := by
      intro k hk d hd
      have := hds d hd
      exact decide_eq_false (by omega)
    rw [List.cons_append, siblings, siblings, (takeWhile_dropWhile_append (hbehind _ h1) cs).1,
      (takeWhile_dropWhile_append (hbehind _ h2) cs).2, ih hts fun c hc =>
      hcs c ((List.dropWhile_suffix _).subset hc), List.append_assoc]
    rfl

end Declaration

/-! ## Items and comments in their text -/

section Texts

variable {s : List Char}

/-- The items of a text lie in it. -/
theorem Syntax.item_within (h : (textItems s).refusal = none) {n : Node} (hn : n ∈ (textItems s).nodes) :
    Declaration.Within (Utf8.encode s).length n ∧ n.start < n.stop := by
  obtain ⟨hi, hcut, hnest⟩ := (read_textItems h).nested (startOf_orderly s)
  have hin := hnest.of_mem hn
  refine ⟨⟨0, hi, ?_, ?_⟩, hin.range.2.1⟩
  · rw [← byteWidth_eq]
    exact hcut.le
  · rw [← n.moved_zero] at hin
    exact Tree.nestedIn_of_moved (n := 0) hin

/-- The comments of a text lie in it. -/
theorem Syntax.comment_within {c : Comment} (hc : c ∈ (scan s).comments) :
    c.start < c.stop ∧ c.stop ≤ (Utf8.encode s).length := by
  obtain ⟨l, hl, -, hstop⟩ := mem_comments hc
  have hpos := width_pos_of_mem_layout hl
  rw [← byteWidth_eq]
  exact ⟨by omega, hstop ▸ (isBoundary_stop hl).le⟩

/-- Text behind a file leaves its rows. -/
theorem row_append_behind (source more : Bytes) {o : Nat} (ho : o ≤ source.length) :
    (LineIndex.ofBytes (source ++ more)).row o = (LineIndex.ofBytes source).row o := by
  have happend := LineIndex.row_append [] source more ho
  rwa [List.nil_append, List.length_nil, Nat.add_zero, List.count_nil, Nat.add_zero] at happend

theorem Syntax.sameRows (h : (textItems s).refusal = none) (more : Bytes) : ∀ x ∈ siblingsOf s,
    Declaration.SameRows (.ofBytes (Utf8.encode s)) (.ofBytes (Utf8.encode s ++ more)) x := by
  intro x hx
  cases x with
  | comment c =>
    obtain ⟨h1, h2⟩ := Syntax.comment_within (Declaration.comment_mem_siblings hx)
    exact ⟨row_append_behind _ _ (by show c.start ≤ _; omega), row_append_behind _ _ h2⟩
  | item t =>
    obtain ⟨h1, h2⟩ := Syntax.item_within h (Declaration.item_mem_siblings.mp hx)
    have h3 := h1.stop_le
    exact ⟨row_append_behind _ _ (by show t.start ≤ _; omega), row_append_behind _ _ h3⟩

end Texts

/-! ## A paragraph behind a file -/

section Grown

variable {filename : String} {source : Bytes} {strict : Bool} {f : SourceFile} {s : List Char}

/-- The items of a file lie in it. -/
theorem Parsed.item_within (h : Parsed filename source strict f s) {n : Node}
    (hn : n ∈ (textItems s).nodes) : Declaration.Within source.length n ∧ n.start < n.stop := by
  rw [h.encode_eq]
  exact Syntax.item_within h.refusal hn

/-- The comments of a file lie in it. -/
theorem Parsed.comment_within (h : Parsed filename source strict f s) {c : Comment}
    (hc : c ∈ (scan s).comments) : c.start < c.stop ∧ c.stop ≤ source.length := by
  rw [h.encode_eq]
  exact Syntax.comment_within hc

/-- A strictly read file holds declarations only. -/
theorem Parsed.isOpened (h : Parsed filename source true f s) :
    ∀ n ∈ (textItems s).nodes, Grammar.IsOpened n.label :=
  fun n hn => isDeclaration_iff.mp (h.isDeclaration rfl n hn)

theorem Parsed.sameRows (h : Parsed filename source strict f s) (more : Bytes) :
    ∀ x ∈ siblingsOf s, Declaration.SameRows (.ofBytes source) (.ofBytes (source ++ more)) x := by
  rw [h.encode_eq]
  exact Syntax.sameRows h.refusal more

/-- A doc comment behind a file begins behind it, or with the last group of the file. -/
theorem Parsed.closingGroup_le_doc (h : Parsed filename source strict f s) {more : Bytes} {cs : List Comment}
    (hcs : ∀ c ∈ cs, byteWidth s ≤ c.start) {start : Nat} (hstart : byteWidth s ≤ start) {r : DocRange}
    (hr : Declaration.docRange? (.ofBytes (source ++ more)) start
      (cs.map .comment ++ (siblingsOf s).reverse) = some r) : closingGroup s ≤ r.start := by
  have hwidth : byteWidth s = source.length := by rw [h.encode_eq, byteWidth_eq]
  have hrows : ∀ x ∈ (siblingsOf s).reverse,
      Declaration.SameRows (.ofBytes source) (.ofBytes (source ++ more)) x :=
    fun x hx => h.sameRows more x (List.mem_reverse.mp hx)
  have hbefore : ∀ x ∈ (siblingsOf s).reverse, x.start ≤ byteWidth s := by
    intro x hx
    have hx := List.mem_reverse.mp hx
    cases x with
    | comment c =>
      obtain ⟨h1, h2⟩ := h.comment_within (Declaration.comment_mem_siblings hx)
      show c.start ≤ _
      omega
    | item t =>
      obtain ⟨h1, h2⟩ := h.item_within (Declaration.item_mem_siblings.mp hx)
      have h3 := h1.stop_le
      show t.start ≤ _
      omega
  unfold Declaration.docRange? at hr
  split at hr
  · next first last rest hfirst hsiblings =>
    cases hr
    have hle := Declaration.docStart?_behind (LineIndex.row_mono _) hbefore hcs (LineIndex.row_mono _ hstart) hfirst
    rwa [Declaration.docStart?_congr hrows, row_append_behind _ _ (Nat.le_of_eq hwidth), h.encode_eq] at hle
  · cases hr

/-- The declarations of a file with a paragraph behind it. -/
theorem Parsed.ofNodes_grown (h : Parsed filename source strict f s) {g : Paragraph} (hg : g.IsRead)
    {more : Bytes} (hmore : more = Utf8.encode (g.text ++ ['\n'])) :
    ∃ doc, (∀ r ∈ doc, closingGroup s ≤ r.start) ∧
      Declaration.ofNodes (source ++ more) (.ofBytes (source ++ more))
        ((textItems s).nodes ++ (Part.paragraph g).nodes (byteWidth s))
        ((scan s).comments ++ (Part.paragraph g).comments (byteWidth s)) =
          .ok (f.declarations ++ [{ g.declarationAt (byteWidth s) with doc }]) := by
  have hlength : source.length = byteWidth s := by rw [h.encode_eq, byteWidth_eq]
  have hdecl := hg.declaration.declares
  have hcomments : ∀ c ∈ (scan s).comments, c.start < byteWidth s := by
    intro c hc
    have := h.comment_within hc
    omega
  have hbehind : ∀ c ∈ (Part.paragraph g).comments (byteWidth s), byteWidth s ≤ c.start :=
    fun c hc => @Declaration.le_of_mem_spread [.paragraph g] _ c (List.mem_append_left _ hc)
  have hsiblings : Declaration.siblings ((textItems s).nodes ++ (Part.paragraph g).nodes (byteWidth s))
      ((scan s).comments ++ (Part.paragraph g).comments (byteWidth s)) =
      siblingsOf s ++ ((g.docComments.map (Comment.moved (byteWidth s))).map .comment ++
        [.item (g.node.moved (byteWidth s + g.codeStart))]) := by
    have hparagraph := @Declaration.siblings_paragraph g hg (byteWidth s) [] [] (List.forall_mem_nil _)
    rw [List.append_nil, List.append_nil] at hparagraph
    rw [Declaration.siblings_append (fun n hn => ?_) hcomments hbehind, hparagraph]
    · rfl
    · refine List.forall_mem_singleton.mpr ?_
      rw [Tree.start_moved, Tree.stop_moved, hdecl.start]
      omega
    · obtain ⟨h1, h2⟩ := h.item_within hn
      have h3 := h1.stop_le
      omega
  have hread : Declaration.declaredBy (source ++ more)
      ((scan s).comments ++ (Part.paragraph g).comments (byteWidth s))
      (g.node.moved (byteWidth s + g.codeStart)) = .ok (g.declared.moved (byteWidth s + g.codeStart)) := by
    have hat : Declaration.AtParagraph g s ['\n'] (source ++ more) [] :=
      ⟨by rw [h.encode_eq, hmore, ← Utf8.encode_append], by rintro x r ⟨⟩⟩
    have hparagraph := @Declaration.declaredBy_paragraph g s ['\n'] _ [] hat hg _ [] hcomments
      (List.forall_mem_nil _)
    rwa [List.append_nil] at hparagraph
  have hkept := Declaration.ofSiblings_append h.declarations
    (fun t ht => Declaration.declaredBy_append more (h.item_within (Declaration.item_mem_siblings.mp ht)).1
      fun c hc => hlength ▸ hbehind c hc)
    (List.forall_mem_nil _) (h.sameRows more)
    ((g.docComments.map (Comment.moved (byteWidth s))).map .comment ++
      [.item (g.node.moved (byteWidth s + g.codeStart))])
  have hstop : (g.node.moved (byteWidth s + g.codeStart)).stop =
      byteWidth s + g.codeStart + byteWidth (texts g.code) := by
    rw [Tree.stop_moved, hdecl.stop, Nat.add_comm]
  rw [Declaration.ofSiblings_comments, Declaration.ofSiblings_item (by
    rw [Tree.label_moved]
    exact hg.label) hread rfl, hstop, Tree.start_moved, hdecl.start, Nat.zero_add] at hkept
  refine ⟨_, fun r hr => ?_, (congrArg (Declaration.ofSiblings _ _ _ []) hsiblings).trans hkept⟩
  rw [List.append_nil, ← List.map_reverse] at hr
  refine h.closingGroup_le_doc (fun c hc => ?_) (Nat.le_add_right _ _) hr
  obtain ⟨d, -, rfl⟩ := List.mem_map.mp hc
  exact Nat.le_add_left _ _

/-- Whether a text can be added to another: that ends its last line, and the text does not end a
comment that it leaves unfinished. -/
structure Takes (s t : List Char) : Prop where
  lineEnd : s.getLast? = some '\n'
  comment : opensComment (stretches s) → blockCommentLength? t = none

/-- A file that is another with a paragraph behind it. -/
structure GrownBy (g : Paragraph) (f f' : SourceFile) : Prop where
  filename : f'.filename = f.filename
  packageName : f'.packageName = f.packageName
  source : f'.source = f.source ++ Utf8.encode (g.text ++ ['\n'])
  declarations : ∃ doc,
    f'.declarations = f.declarations ++ [{ g.declarationAt f.source.length with doc }]
  spliceStart : ∀ s, f.source = Utf8.encode s →
    ∀ d ∈ f'.declarations, d ∈ f.declarations ∨ closingGroup s ≤ d.spliceStart

/-- A file with a paragraph behind it has one declaration more, the code of the paragraph. -/
theorem parse_grown (h : Parsed filename source true f s) {g : Paragraph} (hg : g.IsRead)
    (ht : Takes s g.text) : ∃ f',
      SourceFile.parse filename (source ++ Utf8.encode (g.text ++ ['\n'])) true = .ok f' ∧ GrownBy g f f' := by
  have hns := h.isOpened
  have hsound := isSound_of_mem_stretches (read_textItems h.refusal) hns
  have hitems := textItems_append ht.lineEnd h.refusal hns ht.comment hg.declaration
  have hcomments := comments_append ht.lineEnd hsound ht.comment hg.declaration
  rw [place_comments_moved, byteWidth_append] at hcomments
  rw [byteWidth_append] at hitems
  obtain ⟨doc, hdoc, hdecls⟩ := h.ofNodes_grown hg rfl
  obtain ⟨t, ht, hname, hend⟩ := h.clause
  have hlength : f.source.length = byteWidth s := by rw [h.source_eq, h.encode_eq, byteWidth_eq]
  refine ⟨{ f with
      source := source ++ Utf8.encode (g.text ++ ['\n'])
      lines := .ofBytes (source ++ Utf8.encode (g.text ++ ['\n']))
      declarations := f.declarations ++ [{ g.declarationAt (byteWidth s) with doc }] },
    parse_eq_ok_iff.mpr ⟨s ++ (g.text ++ ['\n']), h.filename_eq, rfl, ?_, rfl, ?_, ⟨t, ?_, ?_, hend⟩, ?_, ?_, ?_⟩,
    ⟨rfl, rfl, by rw [h.source_eq], ⟨doc, by rw [hlength]⟩, fun s' hs' d hd => ?_⟩⟩
  · rw [h.encode_eq, ← Utf8.encode_append]
  · rw [hitems]
  · rw [hitems]
    exact List.find?_append.trans (by rw [ht, Option.some_or])
  · rw [Declaration.childText_append _ _ (h.item_within (List.mem_of_find?_eq_some ht)).1]
    exact hname
  · rw [hitems, List.countP_append, ← h.clauseCount]
    have hlabel : (g.node.label == .packageClause) = false := beq_false_of_ne hg.label
    simp [hlabel]
  · intro _ u hu
    rw [hitems] at hu
    rcases List.mem_append.mp hu with hu | hu
    · exact h.isDeclaration rfl u hu
    · rw [List.mem_singleton.mp hu]
      refine isDeclaration_iff.mpr ?_
      rw [Tree.label_moved]
      exact hg.declaration.declares.opened
  · rw [hitems, hcomments]
    exact hdecls
  · obtain rfl : s' = s := Utf8.encode_injective (hs'.symm.trans (h.source_eq.trans h.encode_eq))
    refine (List.mem_append.mp hd).imp_right fun hd => ?_
    obtain rfl := List.mem_singleton.mp hd
    cases doc with
    | none =>
      exact Nat.le_trans (closingGroup_le s') (Nat.le_add_right _ _)
    | some r => exact hdoc r rfl

end Grown

namespace GrownBy

variable {g : Paragraph} {f f' : SourceFile}

/-- The texts of a file stay when it grows. -/
theorem slice_eq (h : GrownBy g f f') {start stop : Nat} (hstop : stop ≤ f.source.length) :
    slice f'.source start stop = slice f.source start stop := by
  have hmoved := @slice_moved [] f.source (Utf8.encode (g.text ++ ['\n'])) start stop hstop
  rw [h.source]
  exact hmoved

/-- The new declaration has the code of the paragraph. -/
theorem slice_code (h : GrownBy g f f') (hf : ∃ s, f.source = Utf8.encode s) :
    slice f'.source (g.declarationAt f.source.length).start (g.declarationAt f.source.length).stop =
      Utf8.encode (texts g.code) := by
  obtain ⟨s, hs⟩ := hf
  have hlength : f.source.length = byteWidth s := by rw [hs, byteWidth_eq]
  have hslice := slice_encode (s ++ texts g.doc) (texts g.code) ['\n']
  rw [byteWidth_append, byteWidth_append, byteWidth_append] at hslice
  have hsource : f'.source = Utf8.encode (s ++ texts g.doc ++ texts g.code ++ ['\n']) := by
    rw [h.source, hs, ← Utf8.encode_append, Paragraph.text, texts_append]
    simp only [List.append_assoc]
  rw [hsource, hlength]
  exact hslice

end GrownBy

end GoSplice
