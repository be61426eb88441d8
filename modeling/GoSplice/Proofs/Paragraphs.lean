import GoSplice.Proofs.Appending
import GoSplice.Proofs.Declared
import GoSplice.Proofs.Phrases
import GoSplice.Proofs.Rows

/-!
# Files made of paragraphs

A paragraph is a declaration with its doc comment.  A package clause, and
paragraphs and blank lines below it, are read as that clause and the
declarations of the paragraphs, each where its paragraph stands:

    textItems (fileText name bs) = the clause, then the nodes of bs       (fileScan)
    comments (fileText name bs)  = the comments of bs                     (fileScan)
-/

namespace GoSplice

open Syntax

/-! ## Paragraphs -/

/-- A declaration with its doc comment, cut into stretches, and what it is read as. -/
structure Paragraph where
  doc : List Lexeme
  code : List Lexeme
  node : Node
  declared : Declared

namespace Paragraph

def text (g : Paragraph) : List Char := texts (g.doc ++ g.code)

/-- The comments above the code. -/
def docComments (g : Paragraph) : List Comment := (place 0 none g.doc).comments

/-- The comments inside the code, counted from its start. -/
def codeComments (g : Paragraph) : List Comment := (place 0 none g.code).comments

def codeStart (g : Paragraph) : Nat := byteWidth (texts g.doc)

def rowOf (g : Paragraph) (o : Nat) : Nat := (LineIndex.ofBytes (Utf8.encode g.text)).row o

/-- A paragraph that is read as its declaration, its comments being the doc comment. -/
structure IsRead (g : Paragraph) : Prop where
  declaration : DeclarationText g.text g.doc g.code g.node
  label : g.node.label ≠ .packageClause
  declared : Declaration.declaredBy (Utf8.encode (texts g.code)) g.codeComments g.node = .ok g.declared
  head : g.doc = [] ∨ ∃ l r, g.doc = l :: r ∧ l.cls = .comment
  above : Declaration.Above g.rowOf (g.rowOf g.codeStart) g.docComments.reverse

/-- A paragraph that is read as its declaration whatever comes behind its last line. -/
structure IsWhole (g : Paragraph) : Prop extends IsRead g where
  closed : opensComment (g.doc ++ g.code) = false

/-- The declaration of a paragraph that begins at an offset. -/
def declarationAt (g : Paragraph) (o : Nat) : Declaration :=
  let start := o + g.codeStart
  ⟨start, start + byteWidth (texts g.code), g.docComments.getLast?.map fun c => ⟨o, c.stop + o⟩,
    g.declared.moved start⟩

end Paragraph

/-! ## Parts of a file -/

/-- A blank line, or a paragraph and the end of its last line. -/
inductive Part where
  | blank
  | paragraph (g : Paragraph)

namespace Part

def IsRead : Part → Prop
  | .blank => True
  | .paragraph g => g.IsRead

def IsWhole : Part → Prop
  | .blank => True
  | .paragraph g => g.IsWhole

theorem IsWhole.toIsRead {p : Part} (h : p.IsWhole) : p.IsRead := by
  cases p with
  | blank => trivial
  | paragraph g => exact Paragraph.IsWhole.toIsRead h

def text : Part → List Char
  | .blank => ['\n']
  | .paragraph g => g.text ++ ['\n']

/-- The nodes of a part that begins at an offset. -/
def nodes (o : Nat) : Part → List Node
  | .blank => []
  | .paragraph g => [g.node.moved (o + g.codeStart)]

def comments (o : Nat) : Part → List Comment
  | .blank => []
  | .paragraph g => g.docComments.map (Comment.moved o) ++
      g.codeComments.map (Comment.moved (o + g.codeStart))

def declarations (o : Nat) : Part → List Declaration
  | .blank => []
  | .paragraph g => [g.declarationAt o]

/-- What parts hold one after the other, the first of them at an offset. -/
def spread {α : Type} (f : Nat → Part → List α) : Nat → List Part → List α
  | _, [] => []
  | o, b :: bs => f o b ++ spread f (o + byteWidth b.text) bs

def bodyText (bs : List Part) : List Char := bs.flatMap text

theorem spread_append {α : Type} (f : Nat → Part → List α) (o : Nat) (as bs : List Part) :
    spread f o (as ++ bs) = spread f o as ++ spread f (o + byteWidth (bodyText as)) bs := by
  induction as generalizing o with
  | nil => rfl
  | cons a as ih =>
    have hbody : bodyText (a :: as) = a.text ++ bodyText as := rfl
    rw [List.cons_append, spread, spread, ih, List.append_assoc, hbody, byteWidth_append, Nat.add_assoc]

end Part

open GoSplice.Part

/-! ## Files -/

/-- The line of a package clause. -/
def clauseLine (name : List Char) : List Char := texts (clauseStretches name) ++ ['\n']

/-- A package clause, and parts below it. -/
def fileText (name : List Char) (bs : List Part) : List Char := clauseLine name ++ bodyText bs

/-- Where the parts of a file begin. -/
def bodyStart (name : List Char) : Nat := byteWidth (clauseLine name)

theorem fileText_append (name : List Char) (as bs : List Part) :
    fileText name (as ++ bs) = fileText name as ++ bodyText bs := by
  rw [fileText, bodyText, List.flatMap_append, ← List.append_assoc]
  rfl

/-- What a file made of parts is read as. -/
structure FileRead (name : List Char) (bs : List Part) : Prop where
  lineEnd : (fileText name bs).getLast? = some '\n'
  isSound : ∀ l ∈ stretches (fileText name bs), l.cls.isSound
  items : textItems (fileText name bs) =
    ⟨clauseNode name :: spread nodes (bodyStart name) bs, none⟩
  opened : ∀ n ∈ clauseNode name :: spread nodes (bodyStart name) bs, Grammar.IsOpened n.label
  comments : (scan (fileText name bs)).comments = spread Part.comments (bodyStart name) bs

/-- A file made of parts that is read in the same way whatever comes behind it. -/
structure FileScan (name : List Char) (bs : List Part) : Prop extends FileRead name bs where
  closed : opensComment (stretches (fileText name bs)) = false

/-- A line end between two texts opens no comment. -/
theorem opensComment_line {a b : List Lexeme} (ha : opensComment a = false)
    (hb : opensComment b = false) : opensComment (a ++ ⟨.newline, ['\n']⟩ :: b) = false := by
  induction a with
  | nil =>
    rw [List.nil_append, opensComment, hb, Bool.or_false]
    rfl
  | cons l a ih =>
    rw [opensComment, Bool.or_eq_false_iff, Bool.and_eq_false_iff] at ha
    rw [List.cons_append, opensComment, Bool.or_eq_false_iff, Bool.and_eq_false_iff]
    refine ⟨ha.1.imp_right fun hpre => ?_, ih ha.2⟩
    rw [Bool.eq_false_iff, ne_eq, List.isPrefixOf_iff_prefix] at hpre ⊢
    intro hlong
    rw [texts_append, texts_cons, ← List.append_assoc] at hlong
    refine hpre (isPrefix_of_endsLine (by decide) ?_ hlong)
    rintro c ⟨⟩
    rfl

/-- Without a slash at the start of a stretch no comment is opened. -/
theorem opensComment_of_head {ls : List Lexeme} (h : ∀ l ∈ ls, ∃ c r, l.text = c :: r ∧ c ≠ '/') :
    opensComment ls = false := by
  induction ls with
  | nil => rfl
  | cons l ls ih =>
    obtain ⟨c, r, htext, hc⟩ := h l List.mem_cons_self
    have hpre : ['/', '*'].isPrefixOf (l.text ++ texts ls) = false := by
      rw [htext, List.cons_append, List.isPrefixOf_cons_cons, beq_false_of_ne (Ne.symm hc), Bool.false_and]
    rw [opensComment, hpre, Bool.and_false, Bool.false_or]
    exact ih fun k hk => h k (List.mem_cons_of_mem l hk)

theorem IsWordText.head_ne_slash {s : List Char} (h : IsWordText s) : ∃ c r, s = c :: r ∧ c ≠ '/' := by
  obtain ⟨⟨c, r, rfl, hc⟩, -⟩ := h
  refine ⟨c, r, rfl, ?_⟩
  rintro rfl
  exact absurd hc (by decide)

theorem opensComment_clause {name : List Char} (h : IsWordText name) :
    opensComment (clauseStretches name) = false :=
  opensComment_of_head (List.forall_mem_cons.mpr ⟨⟨_, _, rfl, by decide⟩,
    List.forall_mem_cons.mpr ⟨⟨_, _, rfl, by decide⟩,
      List.forall_mem_singleton.mpr (IsWordText.head_ne_slash h)⟩⟩)

theorem FileRead.refusal {name : List Char} {bs : List Part} (h : FileRead name bs) :
    (textItems (fileText name bs)).refusal = none := by
  rw [h.items]

namespace FileScan

variable {name : List Char} {bs : List Part}

/-- The clause alone. -/
theorem clause (hn : IsNameText name) : FileScan name [] := by
  have hfile : fileText name [] = texts (clauseStretches name) ++ ['\n'] := List.append_nil _
  have hmark : orderMark (texts (clauseStretches name) ++ ['\n']) = [] := rfl
  have hstretches : stretches (texts (clauseStretches name) ++ ['\n']) =
      clauseStretches name ++ [⟨.newline, ['\n']⟩] := by
    rw [stretches_eq, hmark]
    refine lexemes_clause hn.toIsWordText ?_
    rintro c ⟨⟩
    decide
  have hdecl := declares_clause hn
  have hsound : ∀ l ∈ clauseStretches name ++ [⟨.newline, ['\n']⟩], l.cls.isSound :=
    List.forall_mem_append.mpr ⟨hdecl.isSound, List.forall_mem_singleton.mpr rfl⟩
  have hscan : scan (texts (clauseStretches name) ++ ['\n']) =
      place 0 none (clauseStretches name ++ [⟨.newline, ['\n']⟩]) := by
    rw [scan_eq, ← stretches_eq, hmark, hstretches]
    rfl
  have hlast := lastBreak_ne_none 0 none (clauseStretches name)
  rw [← hscan] at hlast
  obtain ⟨e, he⟩ := Option.ne_none_iff_exists'.mp hlast
  have htokens : (scan (texts (clauseStretches name) ++ ['\n'])).tokens =
      (place 0 none (clauseStretches name)).tokens ++ [] := by
    rw [hscan, place_append_tokens]
    rfl
  refine ⟨⟨?_, ?_, ?_, ?_, ?_⟩, ?_⟩
  · rw [hfile]
    exact List.getLast?_concat
  · rw [hfile, hstretches]
    exact hsound
  · have hitem := hdecl.read ⟨0, [], some e⟩ (by rintro _ _ ⟨⟩) 0 none
    have hmoved : (clauseNode name).moved 0 = clauseNode name := by
      simp [clauseNode, Tree.moved_node]
    rw [hmoved] at hitem
    rw [hfile]
    refine itemsOf_of_read ?_
    rw [htokens, he]
    exact .item hitem rfl (.done rfl)
  · exact List.forall_mem_singleton.mpr hdecl.opened
  · rw [hfile, hscan]
    rfl
  · rw [hfile, hstretches]
    exact opensComment_line (opensComment_clause hn.toIsWordText) rfl

theorem ne_nil (h : FileScan name bs) : fileText name bs ≠ [] := by
  intro hnil
  have hend := h.lineEnd
  rw [hnil] at hend
  cases hend

theorem opens (h : FileScan name bs) {o : Option Nat} {t : List Char} :
    opensComment (stretches (fileText name bs)) → blockCommentLength? t = o := by
  intro hopen
  rw [h.closed] at hopen
  cases hopen

theorem width (name : List Char) (bs : List Part) :
    byteWidth (fileText name bs) = bodyStart name + byteWidth (bodyText bs) :=
  byteWidth_append _ _

/-- A blank line more. -/
theorem blank (h : FileScan name bs) : FileScan name (bs ++ [.blank]) := by
  have hfile : fileText name (bs ++ [.blank]) = fileText name bs ++ ['\n'] := fileText_append _ _ _
  have hstretches : stretches (fileText name bs ++ ['\n']) =
      stretches (fileText name bs) ++ [⟨.newline, ['\n']⟩] :=
    stretches_append h.lineEnd h.isSound h.opens
  obtain ⟨e, he⟩ := Option.ne_none_iff_exists'.mp (scan_lastBreak h.lineEnd h.isSound)
  have hscan : scan (fileText name bs ++ ['\n']) = scan (fileText name bs) := by
    have hkept : (scan (fileText name bs)).lastBreak.or
        (some (byteWidth (fileText name bs) + byteWidth ['\n'])) = (scan (fileText name bs)).lastBreak := by
      rw [he, Option.some_or]
    rw [scan_append h.ne_nil hstretches]
    simp only [place, List.append_nil, hkept]
  have hnodes : spread nodes (bodyStart name) (bs ++ [.blank]) = spread nodes (bodyStart name) bs := by
    rw [spread_append]
    exact List.append_nil _
  refine ⟨⟨?_, ?_, ?_, ?_, ?_⟩, ?_⟩
  · rw [hfile]
    exact List.getLast?_concat
  · rw [hfile, hstretches]
    exact List.forall_mem_append.mpr ⟨h.isSound, List.forall_mem_singleton.mpr rfl⟩
  · rw [hfile, textItems_def, hscan, ← textItems_def, h.items, hnodes]
  · rw [hnodes]
    exact h.opened
  · rw [hfile, hscan, h.comments, spread_append]
    exact (List.append_nil _).symm
  · rw [hfile, hstretches]
    exact opensComment_line h.closed rfl

theorem stretches_paragraph (h : FileScan name bs) {g : Paragraph} (hg : g.IsRead) :
    stretches (fileText name (bs ++ [.paragraph g])) =
      stretches (fileText name bs) ++ (g.doc ++ (g.code ++ [⟨.newline, ['\n']⟩])) := by
  have hfile : fileText name (bs ++ [.paragraph g]) = fileText name bs ++ (g.text ++ ['\n']) := by
    rw [fileText_append]
    exact congrArg _ (List.append_nil _)
  rw [hfile]
  exact stretches_declaration h.lineEnd h.isSound h.opens hg.declaration

/-- A paragraph more, the last. -/
theorem lastParagraph (h : FileScan name bs) {g : Paragraph} (hg : g.IsRead) :
    FileRead name (bs ++ [.paragraph g]) := by
  have hfile : fileText name (bs ++ [.paragraph g]) = fileText name bs ++ (g.text ++ ['\n']) := by
    rw [fileText_append]
    exact congrArg _ (List.append_nil _)
  have hns : ∀ n ∈ (textItems (fileText name bs)).nodes, Grammar.IsOpened n.label := by
    rw [h.items]
    exact h.opened
  have hstretches := h.stretches_paragraph hg
  have hstart : byteWidth (fileText name bs ++ texts g.doc) =
      bodyStart name + byteWidth (bodyText bs) + g.codeStart := by
    rw [byteWidth_append, width]
    rfl
  have hnodes : spread nodes (bodyStart name) (bs ++ [.paragraph g]) = spread nodes (bodyStart name) bs ++
      [g.node.moved (bodyStart name + byteWidth (bodyText bs) + g.codeStart)] := spread_append _ _ _ _
  constructor
  · rw [hfile, ← List.append_assoc]
    exact List.getLast?_concat
  · have hsound := hg.declaration.isSound
    rw [hg.declaration.lexemes_eq] at hsound
    rw [hstretches, ← List.append_assoc _ g.code _]
    exact List.forall_mem_append.mpr ⟨h.isSound,
      List.forall_mem_append.mpr ⟨hsound, List.forall_mem_singleton.mpr rfl⟩⟩
  · rw [hfile, textItems_append h.lineEnd h.refusal hns h.opens hg.declaration, h.items, hnodes, hstart]
    rfl
  · rw [hnodes, ← List.cons_append]
    have hopened := hg.declaration.declares.opened
    rw [← Tree.label_moved (bodyStart name + byteWidth (bodyText bs) + g.codeStart)] at hopened
    exact List.forall_mem_append.mpr ⟨h.opened, List.forall_mem_singleton.mpr hopened⟩
  · rw [hfile, comments_append h.lineEnd h.isSound h.opens hg.declaration, h.comments, spread_append,
      hstart, place_comments_moved, width]
    exact congrArg _ (List.append_nil _).symm

/-- A paragraph more. -/
theorem paragraph (h : FileScan name bs) {g : Paragraph} (hg : g.IsWhole) :
    FileScan name (bs ++ [.paragraph g]) := by
  refine ⟨h.lastParagraph hg.toIsRead, ?_⟩
  obtain ⟨ls, hls⟩ := stretches_lineEnd h.lineEnd h.isSound
  have hclosed := h.closed
  rw [h.stretches_paragraph hg.toIsRead, ← List.append_assoc _ g.code _]
  rw [hls] at hclosed ⊢
  rw [List.append_assoc]
  refine opensComment_line (Bool.eq_false_iff.mpr fun hopen => ?_) (opensComment_line hg.closed rfl)
  rw [opensComment_append _ hopen] at hclosed
  cases hclosed

end FileScan

/-- A file made of whole parts is read part by part. -/
theorem fileScan {name : List Char} (hn : IsNameText name) {bs : List Part}
    (hbs : ∀ b ∈ bs, b.IsWhole) : FileScan name bs := by
  have hmore : ∀ bs as, (∀ b ∈ bs, b.IsWhole) → FileScan name as → FileScan name (as ++ bs) := by
    intro bs
    induction bs with
    | nil => intro as _ has; rwa [List.append_nil]
    | cons b bs ih =>
      intro as hbs has
      rw [List.append_cons]
      refine ih _ (fun c hc => hbs c (List.mem_cons_of_mem b hc)) ?_
      cases b with
      | blank => exact has.blank
      | paragraph g => exact has.paragraph (hbs _ List.mem_cons_self)
  exact hmore bs [] hbs (.clause hn)

/-! ## Declarations of a file -/

namespace Declaration

/-- The comments before an item, the item, and what follows it. -/
theorem siblings_item {n : Node} {ns : List Node} {cs ds es : List Comment} (hn : n.start < n.stop)
    (hcs : ∀ c ∈ cs, c.start < n.start) (hds : ∀ c ∈ ds, n.start ≤ c.start ∧ c.start < n.stop)
    (hes : ∀ c ∈ es, n.stop ≤ c.start) :
    siblings (n :: ns) (cs ++ (ds ++ es)) = cs.map .comment ++ .item n :: siblings ns es := by
  have htake : (ds ++ es).takeWhile (·.start < n.start) = [] := by
    cases hrest : ds ++ es with
    | nil => rfl
    | cons c r =>
      refine List.takeWhile_cons_of_neg ?_
      have hc : c ∈ ds ++ es := hrest ▸ List.mem_cons_self
      rcases List.mem_append.mp hc with hc | hc
      · have := hds c hc
        simp only [decide_eq_true_eq]
        omega
      · have := hes c hc
        simp only [decide_eq_true_eq]
        omega
  have hdrop : es.dropWhile (·.start < n.stop) = es := by
    cases es with
    | nil => rfl
    | cons c r =>
      refine List.dropWhile_cons_of_neg ?_
      have := hes c List.mem_cons_self
      simp only [decide_eq_true_eq]
      omega
  rw [siblings, List.takeWhile_append_of_pos (fun c hc => decide_eq_true (hcs c hc)), htake,
    List.append_nil, List.dropWhile_append_of_pos (fun c hc => decide_eq_true (by
      have := hcs c hc
      omega)),
    List.dropWhile_append_of_pos (fun c hc => decide_eq_true (hds c hc).2), hdrop]

/-- Comments are passed over. -/
theorem ofSiblings_comments (source : Bytes) (comments : List Comment) (lines : LineIndex)
    (cs : List Comment) (before after : List Sibling) :
    ofSiblings source comments lines before (cs.map .comment ++ after) =
      ofSiblings source comments lines (cs.reverse.map .comment ++ before) after := by
  induction cs generalizing before with
  | nil => rfl
  | cons c cs ih =>
    rw [List.map_cons, List.cons_append, ofSiblings, ih, List.reverse_cons, List.map_append,
      List.append_assoc]
    rfl

end Declaration

end GoSplice
