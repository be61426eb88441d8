import GoSplice.Package.Edit
import GoSplice.Proofs.PartFiles

/-!
# Changing files made of parts

What changes a file made of whole parts gives such a file again:

    cut                       a paragraph becomes a blank line         (cut_fileText)
    append                    a paragraph more                         (append_fileText)
    importBelow               an import behind an import               (importBelow_fileText)
    importAfterClause         an import in front                       (importAfterClause_fileText)
-/

namespace GoSplice

open Syntax GoSplice.Part

/-! ## Imports as paragraphs -/

/-- A single import. -/
def importParagraph (name path : List Char) : Paragraph :=
  ⟨[], importStretches name path, importNode name path,
    .imports [⟨String.ofList name, String.ofList path, 7, (importNode name path).stop⟩] none⟩

section Import

variable {name path : List Char}

theorem opensComment_import (h : IsImportName name) : opensComment (importStretches name path) = false := by
  have hspec : ∀ l ∈ specStretches name path, ∃ c r, l.text = c :: r ∧ c ≠ '/' := by
    have hquoted : ∃ c r, (quotedStretch path).text = c :: r ∧ c ≠ '/' := ⟨_, _, rfl, by decide⟩
    unfold specStretches
    split
    · exact List.forall_mem_singleton.mpr hquoted
    · next hne =>
      refine List.forall_mem_cons.mpr ⟨?_, List.forall_mem_cons.mpr
        ⟨⟨_, _, rfl, by decide⟩, List.forall_mem_singleton.mpr hquoted⟩⟩
      rcases h.resolve_left hne with rfl | h
      · exact ⟨_, _, rfl, by decide⟩
      · exact IsWordText.head_ne_slash h.toIsWordText
  exact opensComment_of_head (List.forall_mem_cons.mpr ⟨⟨_, _, rfl, by decide⟩,
    List.forall_mem_cons.mpr ⟨⟨_, _, rfl, by decide⟩, hspec⟩⟩)

/-- The texts of the parts of an import. -/
theorem nodeText_import {x y u : List Char} (l : Label)
    (h : texts (importStretches name path) = x ++ u ++ y) :
    Declaration.nodeText (Utf8.encode (texts (importStretches name path)))
      (.node l (byteWidth x) (byteWidth (x ++ u)) []) = String.ofList u := by
  unfold Declaration.nodeText
  rw [h, Tree.start, Tree.stop, slice_encode, textOf_encode]

theorem ofLiteral?_plain (hp : IsPlainText path) :
    ImportPath.ofLiteral? ('"' :: (path ++ ['"'])) = some path := by
  have hinner : (('"' :: (path ++ ['"'])).drop 1).dropLast = path := by
    rw [List.drop_one, List.tail_cons, List.dropLast_concat]
  have hback : path.contains '\\' = false := by
    rw [Bool.eq_false_iff, ne_eq, List.contains_iff_mem]
    exact fun hmem => (hp _ hmem).2.2 rfl
  unfold ImportPath.ofLiteral?
  simp only [hinner, hback, Bool.not_false, Bool.or_true, if_true]

/-- The spec of an import is read back. -/
theorem importSpecOf_import (hp : IsPlainText path) :
    Declaration.importSpecOf (Utf8.encode (texts (importStretches name path))) (specNode name path) =
      .ok ⟨String.ofList name, String.ofList path, 7, (importNode name path).stop⟩ := by
  have hhead : texts (importStretches name path) = "import ".toList ++ texts (specStretches name path) := by
    simp [importStretches, space]
  have hseven : byteWidth "import ".toList = 7 := rfl
  have hread : Declaration.childText (Utf8.encode (texts (importStretches name path))) .importName
        (specNode name path) = String.ofList name ∧
      Declaration.childText (Utf8.encode (texts (importStretches name path))) .importPath
        (specNode name path) = String.ofList (quotedStretch path).text := by
    by_cases hne : name = []
    · have hspec : texts (specStretches name path) = (quotedStretch path).text := by
        rw [specStretches, if_pos hne, texts_cons, texts_nil, List.append_nil]
      have hpath := nodeText_import (x := "import ".toList) (u := (quotedStretch path).text) (y := [])
        .importPath (by rw [hhead, hspec, List.append_nil])
      rw [byteWidth_append, hseven] at hpath
      constructor
      · rw [specNode, hne, if_pos rfl]
        rfl
      · rw [specNode, hspec, if_pos hne]
        exact hpath
    · have hspec : texts (specStretches name path) = name ++ ' ' :: (quotedStretch path).text := by
        rw [specStretches, if_neg hne]
        simp [space]
      have hname := nodeText_import (x := "import ".toList) (u := name)
        (y := ' ' :: (quotedStretch path).text) .importName (by rw [hhead, hspec, List.append_assoc])
      have hpath := nodeText_import (x := "import ".toList ++ (name ++ [' ']))
        (u := (quotedStretch path).text) (y := []) .importPath (by rw [hhead, hspec]; simp)
      have hstart : byteWidth ("import ".toList ++ (name ++ [' '])) = 8 + byteWidth name := by
        rw [byteWidth_append, byteWidth_append, hseven, show byteWidth [' '] = 1 from rfl]
        omega
      have hstop : 7 + byteWidth (name ++ ' ' :: (quotedStretch path).text) =
          8 + byteWidth name + byteWidth (quotedStretch path).text := by
        rw [← List.singleton_append, byteWidth_append, byteWidth_append, show byteWidth [' '] = 1 from rfl]
        omega
      rw [byteWidth_append, hseven] at hname
      rw [byteWidth_append (_ ++ _), hstart, ← hstop] at hpath
      rw [specNode, hspec, if_neg hne]
      exact ⟨hname, hpath⟩
  unfold Declaration.importSpecOf
  rw [hread.1, hread.2, String.toList_ofList, quotedStretch, ofLiteral?_plain hp]
  rfl

theorem importParagraph_isWhole (h : IsImportName name) (hp : IsPlainText path) :
    (importParagraph name path).IsWhole := by
  have hlexemes := lexemes_import h hp []
  rw [List.append_nil, show lexemes [] = [] from rfl, List.append_nil] at hlexemes
  refine ⟨⟨⟨hlexemes, List.forall_mem_nil _, declares_import h⟩, ?_, ?_, Or.inl rfl, trivial⟩,
    opensComment_import h⟩
  · show Label.importDecl ≠ .packageClause
    decide
  · have hspecs : Declaration.withLabel .importSpec (importNode name path) = [specNode name path] := rfl
    have hclose : Declaration.withLabel .closeParen (importNode name path) = [] := rfl
    show Declaration.declaredBy (Utf8.encode (texts (importStretches name path)))
      (place 0 none (importStretches name path)).comments (importNode name path) = _
    rw [Declaration.declaredBy, importNode]
    dsimp only [Tree.label]
    rw [← importNode, hspecs, hclose, List.mapM_cons, importSpecOf_import hp]
    rfl

theorem text_importParagraph (name path : List Char) :
    (importParagraph name path).text = "import ".toList ++ texts (specStretches name path) := by
  simp [importParagraph, Paragraph.text, importStretches, space]

/-- An import ends with its closing quote. -/
theorem text_importParagraph_quote (name path : List Char) :
    ∃ x, (importParagraph name path).text = x ++ ['"'] := by
  rw [text_importParagraph]
  unfold specStretches
  split
  · exact ⟨"import ".toList ++ '"' :: path, by simp [quotedStretch]⟩
  · exact ⟨"import ".toList ++ name ++ ' ' :: '"' :: path, by simp [quotedStretch, space]⟩

end Import

/-! ## Cutting and appending -/

section Edit

variable {name : List Char} {as bs ps : List Part} {g : Paragraph}

theorem mem_declarations {o : Nat} {d : Declaration} (h : d ∈ spread declarations o ps) :
    ∃ as g bs, ps = as ++ .paragraph g :: bs ∧ d = g.declarationAt (o + byteWidth (bodyText as)) := by
  induction ps generalizing o with
  | nil => cases h
  | cons p ps ih =>
    rcases List.mem_append.mp h with h | h
    · cases p with
      | blank => cases h
      | paragraph g => exact ⟨[], g, ps, rfl, List.mem_singleton.mp h⟩
    · obtain ⟨as, g, bs, rfl, rfl⟩ := ih h
      refine ⟨p :: as, g, bs, rfl, ?_⟩
      rw [Nat.add_assoc, ← byteWidth_append]
      rfl

/-- Where the parts behind others begin. -/
theorem byteWidth_fileText (name : List Char) (as : List Part) :
    (Utf8.encode (fileText name as)).length = bodyStart name + byteWidth (bodyText as) := by
  rw [← byteWidth_eq, FileScan.width]

theorem stop_declarationAt (g : Paragraph) (o : Nat) : (g.declarationAt o).stop = o + byteWidth g.text := by
  rw [Paragraph.byteWidth_text, ← Nat.add_assoc]
  rfl

/-- A file at one of its paragraphs. -/
theorem encode_paragraph (name : List Char) (as : List Part) (g : Paragraph) (bs : List Part) :
    Utf8.encode (fileText name (as ++ .paragraph g :: bs)) =
      Utf8.encode (fileText name as) ++ (Utf8.encode g.text ++ Utf8.encode ('\n' :: bodyText bs)) := by
  rw [fileText_append, ← Utf8.encode_append, ← Utf8.encode_append]
  have hbody : bodyText (.paragraph g :: bs) = g.text ++ '\n' :: bodyText bs := by
    simp [bodyText, Part.text]
  rw [hbody]

/-- The bytes before and behind a paragraph. -/
theorem take_paragraph (name : List Char) (as : List Part) (g : Paragraph) (bs : List Part) :
    let source := Utf8.encode (fileText name (as ++ .paragraph g :: bs))
    let start := bodyStart name + byteWidth (bodyText as)
    source.take start = Utf8.encode (fileText name as) ∧
      source.take (start + byteWidth g.text) = Utf8.encode (fileText name as ++ g.text) ∧
      source.drop (start + byteWidth g.text) = Utf8.encode ('\n' :: bodyText bs) := by
  dsimp only
  have hboth : bodyStart name + byteWidth (bodyText as) + byteWidth g.text =
      (Utf8.encode (fileText name as) ++ Utf8.encode g.text).length := by
    rw [List.length_append, byteWidth_fileText, ← byteWidth_eq]
  rw [encode_paragraph, Utf8.encode_append (fileText name as), hboth, ← byteWidth_fileText]
  refine ⟨List.take_left, ?_, ?_⟩
  · rw [← List.append_assoc, List.take_left]
  · rw [← List.append_assoc, List.drop_left]

/-- A paragraph that is cut leaves a blank line. -/
theorem cut_fileText (hg : g.IsWhole) :
    Splice.cut (Utf8.encode (fileText name (as ++ .paragraph g :: bs)))
        (g.declarationAt (bodyStart name + byteWidth (bodyText as))) =
      Utf8.encode (fileText name (as ++ .blank :: bs)) := by
  obtain ⟨hstart, -, hstop⟩ := take_paragraph name as g bs
  rw [Splice.cut, hg.spliceStart, stop_declarationAt, hstart, hstop, ← Utf8.encode_append, fileText_append]
  rfl

/-- A text that is appended is a paragraph more. -/
theorem append_fileText (name : List Char) (ps : List Part) (g : Paragraph) :
    Utf8.encode (fileText name ps) ++ bytesOf (String.ofList g.text) ++ [LineIndex.lineFeed] =
      Utf8.encode (fileText name (ps ++ [.paragraph g])) := by
  rw [encode_paragraph, bytesOf_ofList, List.append_assoc]
  rfl

/-- A new file is a package clause and a blank line. -/
theorem newFile_eq {p : Package} (h : p.localName = String.ofList name) :
    p.newFile = Utf8.encode (fileText name [.blank]) := by
  have htext : ("package " ++ p.localName ++ "\n\n").toList = fileText name [.blank] := by
    rw [h, fileText_eq]
    simp [bodyText, Part.text]
  rw [Package.newFile, bytesOf, htext]

/-! ## Putting in imports -/

theorem importText_eq (a : ImportAddition) :
    Package.importText a = Utf8.encode (texts (specStretches a.name.toList a.path.toList)) := by
  have htext : ((if a.name.isEmpty then "" else a.name ++ " ") ++ "\"" ++ a.path ++ "\"").toList =
      texts (specStretches a.name.toList a.path.toList) := by
    unfold specStretches
    by_cases hne : a.name.toList = []
    · rw [if_pos hne, if_pos (String.isEmpty_iff.mpr (String.toList_eq_nil_iff.mp hne))]
      simp [quotedStretch]
    · rw [if_neg hne, if_neg fun h => hne (String.toList_eq_nil_iff.mpr (String.isEmpty_iff.mp h))]
      simp [quotedStretch, space]
  rw [Package.importText, bytesOf, htext]

/-- An import below an import is a paragraph more. -/
theorem importBelow_fileText {n q : List Char} (hg : ∃ x, g.text = x ++ ['"']) :
    Splice.importBelow (Utf8.encode (fileText name (as ++ .paragraph g :: bs)))
        (g.declarationAt (bodyStart name + byteWidth (bodyText as))).stop
        (Utf8.encode (texts (specStretches n q))) =
      Utf8.encode (fileText name (as ++ .paragraph g :: .paragraph (importParagraph n q) :: bs)) := by
  obtain ⟨-, htake, hdrop⟩ := take_paragraph name as g bs
  have hend : Splice.endingLine (Utf8.encode (fileText name as ++ g.text)) =
      Utf8.encode (fileText name as ++ (g.text ++ ['\n'])) := by
    obtain ⟨x, hx⟩ := hg
    have hquote : (Utf8.encode (fileText name as ++ g.text)).getLast? = some 34 := by
      rw [hx, ← List.append_assoc, Utf8.encode_append]
      exact List.getLast?_concat
    rw [Splice.endingLine, hquote, if_neg (by decide), ← List.append_assoc, Utf8.encode_append (_ ++ _)]
    rfl
  have hrest : Utf8.encode ('\n' :: bodyText bs) = LineIndex.lineFeed :: Utf8.encode (bodyText bs) := rfl
  have hbody : bodyText (.paragraph g :: .paragraph (importParagraph n q) :: bs) = g.text ++ ['\n'] ++
      ("import ".toList ++ texts (specStretches n q) ++ ['\n']) ++ bodyText bs := by
    rw [← text_importParagraph]
    simp [bodyText, Part.text]
  rw [Splice.importBelow, stop_declarationAt, htake, hdrop, hend, hrest, List.head?_cons, if_pos rfl,
    List.drop_one, List.tail_cons, fileText_append, hbody]
  simp only [Utf8.encode_append, bytesOf, List.append_assoc]
  rfl

/-- An import in front is a paragraph more, between blank lines. -/
theorem importAfterClause_fileText (name : List Char) (ps : List Part) (n q : List Char) :
    Splice.importAfterClause (Utf8.encode (fileText name ps)) (clauseNode name).stop
        (Utf8.encode (texts (specStretches n q))) =
      Utf8.encode (fileText name (.blank :: .paragraph (importParagraph n q) :: .blank :: ps)) := by
  have hlength : (clauseNode name).stop = (Utf8.encode ("package ".toList ++ name)).length := by
    rw [← byteWidth_eq, byteWidth_append]
    rfl
  have hbody : bodyText (.blank :: .paragraph (importParagraph n q) :: .blank :: ps) =
      ['\n'] ++ ("import ".toList ++ texts (specStretches n q) ++ ['\n']) ++ '\n' :: bodyText ps := by
    rw [← text_importParagraph]
    simp [bodyText, Part.text]
  rw [Splice.importAfterClause, hlength, fileText_eq, fileText_eq, hbody, Utf8.encode_append (_ ++ _),
    List.take_left, List.drop_left]
  simp only [Utf8.encode_append, Utf8.encode_cons, bytesOf, List.append_assoc]
  rfl

end Edit

/-! ## Places for imports -/

/-- A letter begins with a byte that is no white space. -/
theorem isSpaceByte_letter {c : Char} (hc : Text.isLetter c) {b : UInt8} {r : Bytes}
    (h : String.utf8EncodeChar c = b :: r) : Splice.isSpaceByte b = false := by
  have hblank : ∀ n ∈ [32, 9, 10, 11, 12, 13], b.toNat ≠ n := by
    rintro n hn rfl
    rcases Utf8.mem_utf8EncodeChar (h ▸ List.mem_cons_self) with hb | hb
    · have hall : ∀ n ∈ [32, 9, 10, 11, 12, 13], n < 128 := by decide
      exact absurd (hall _ hn) (Nat.not_lt.mpr hb)
    · have hall : ∀ n ∈ [32, 9, 10, 11, 12, 13], Text.isLetter (Char.ofNat n) = false := by decide
      have hnot := hall _ hn
      rw [hb, Char.ofNat_toNat, hc] at hnot
      cases hnot
  simp only [List.forall_mem_cons, List.not_mem_nil, false_implies, implies_true, and_true] at hblank
  rw [Splice.isSpaceByte, Bool.or_eq_false_iff, Bool.and_eq_false_iff]
  simp only [decide_eq_false_iff_not, ← UInt8.toNat_inj, UInt8.le_iff_toNat_le, UInt8.reduceToNat]
  omega

section Place

variable {name : List Char}

theorem lineFeed_not_mem_word (h : IsWordText name) : '\n' ∉ name :=
  fun hmem => absurd (h.all _ hmem) (by decide)

/-- The line of a package clause ends behind it. -/
theorem lineEnd_fileText (name : List Char) (ps : List Part) :
    min (Splice.lineEnd (Utf8.encode (fileText name ps)) (clauseNode name).stop)
      (Utf8.encode (fileText name ps)).length = (clauseNode name).stop := by
  have hlength : (clauseNode name).stop = (Utf8.encode ("package ".toList ++ name)).length := by
    rw [← byteWidth_eq, byteWidth_append]
    rfl
  have hrest : Utf8.encode ('\n' :: bodyText ps) = LineIndex.lineFeed :: Utf8.encode (bodyText ps) := rfl
  rw [Splice.lineEnd, hlength, fileText_eq, Utf8.encode_append (_ ++ _), List.drop_left, hrest,
    List.takeWhile_cons_of_neg (by decide), List.length_append]
  exact Nat.min_eq_left (Nat.le_add_right _ _)

/-- The first package line of a new file is that of its clause. -/
theorem packageLineEnd?_fileText (h : IsWordText name) (ps : List Part) :
    Splice.packageLineEnd? 0 true (Utf8.encode (fileText name ps)) = some (clauseNode name).stop := by
  obtain ⟨c, r, hname, hc⟩ := h.head
  obtain ⟨b, bs, hb⟩ := Utf8.exists_utf8EncodeChar c
  have hsource : Utf8.encode (fileText name ps) = bytesOf "package" ++ (32 :: (Utf8.encode name ++
      LineIndex.lineFeed :: Utf8.encode (bodyText ps))) := by
    rw [fileText_eq]
    simp only [Utf8.encode_append, Utf8.encode_cons, List.append_assoc]
    rfl
  have hline : Splice.packageLine? (Utf8.encode (fileText name ps)) = some (clauseNode name).stop := by
    have hbefore : (Utf8.encode (fileText name ps)).takeWhile Splice.isSpaceByte = [] := by
      rw [hsource]
      exact List.takeWhile_cons_of_neg (by decide)
    have hword : (bytesOf "package").isPrefixOf (Utf8.encode (fileText name ps)) := by
      rw [hsource]
      exact List.isPrefixOf_iff_prefix.mpr (List.prefix_append _ _)
    have hspace : (32 :: (Utf8.encode name ++ LineIndex.lineFeed :: Utf8.encode (bodyText ps))).takeWhile
        Splice.isSpaceByte = [32] := by
      rw [List.takeWhile_cons_of_pos (by decide), hname, Utf8.encode_cons, hb, List.cons_append,
        List.cons_append, List.takeWhile_cons_of_neg (by rw [isSpaceByte_letter hc hb]; decide)]
    have hdrop : (Utf8.encode (fileText name ps)).drop 8 =
        Utf8.encode name ++ LineIndex.lineFeed :: Utf8.encode (bodyText ps) := by
      rw [hsource]
      rfl
    have hend : (Utf8.encode name ++ LineIndex.lineFeed :: Utf8.encode (bodyText ps)).takeWhile
        (· ≠ LineIndex.lineFeed) = Utf8.encode name := by
      rw [List.takeWhile_append_of_pos fun b hb => decide_eq_true (
          LineIndex.lineFeed_not_mem_encode (lineFeed_not_mem_word h) b hb),
        List.takeWhile_cons_of_neg (by decide), List.append_nil]
    have hbehind : (Utf8.encode (fileText name ps)).drop (bytesOf "package").length =
        32 :: (Utf8.encode name ++ LineIndex.lineFeed :: Utf8.encode (bodyText ps)) := by
      rw [hsource, List.drop_left]
    unfold Splice.packageLine?
    simp only [hbefore, List.length_nil, List.drop_zero, hword, if_true, hbehind, hspace]
    show some (Splice.lineEnd _ 8) = _
    rw [Splice.lineEnd, hdrop, hend, ← byteWidth_eq]
    rfl
  have hcons : Utf8.encode (fileText name ps) = 112 :: (Utf8.encode (fileText name ps)).drop 1 := by
    rw [hsource]
    rfl
  rw [hcons, Splice.packageLineEnd?, ← hcons, if_pos rfl, hline]
  simp

end Place

end GoSplice
