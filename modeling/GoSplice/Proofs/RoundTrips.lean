import GoSplice.Proofs.AddedImports
import GoSplice.Proofs.ExternalTests
import GoSplice.Proofs.ImportEdits
import GoSplice.Proofs.TakenTexts
import GoSplice.Proofs.ValueGroups

/-!
# Imports that are read back

An import of a snippet is put into a file as its path between quotes, without escapes.  A path that
means itself there is read back, and the import is the last one of the file:

    load p = (ok (), q), f in q ends with its package line, f admits i,
    i among the transforms of a snippet for f →
      applyTransform (.addImport i) p = (ok (), r), and the file read from r
      imports what f does, and then i                                   (applyTransform_importsLast)

A path with a quote, a backslash or a line end does not mean itself between quotes.  A semicolon behind
the last import would begin a line, and a path that ends a comment would end one that the file leaves open.
-/

namespace GoSplice

open Syntax Syntax.Segment

/-! ## Files and the imports that they admit -/

namespace SourceFile

/-- Whether the line of the package clause is the last one of a file, and ends. -/
def EndsWithClause (f : SourceFile) : Prop :=
  ∃ a, f.source = a ++ [LineIndex.lineFeed] ∧ f.clauseEnd ≤ a.length ∧ LineIndex.lineFeed ∉ a.drop f.clauseEnd

/-- Whether a semicolon is the first token of a file behind an offset. -/
def SemicolonBehind (f : SourceFile) (o : Nat) : Prop :=
  ∃ s t, f.source = Utf8.encode s ∧ (scan s).tokens.find? (o ≤ ·.start) = some t ∧ t.kind = .operator .semicolon

/-- Whether an import that is put into a file is read back: its path means itself between quotes and
ends no comment that the file leaves open, and no semicolon stands behind a last import without
parentheses. -/
structure Admits (f : SourceFile) (i : ImportAddition) : Prop where
  path : IsPlainText i.path.toList
  comment : ∀ s, f.source = Utf8.encode s → opensComment (stretches s) → blockCommentLength? i.path.toList = none
  semicolon : ∀ stop, Splice.lastImport? f = some (stop, none) → ¬ f.SemicolonBehind stop

/-- Where an import is put into a file: at the parenthesis or at the end of the last import, or else at
the end of the line of the package clause. -/
def importPlace (f : SourceFile) : Nat :=
  match Splice.lastImport? f with
  | some (_, some close) => close
  | some (stop, none) => stop
  | none => min (Splice.lineEnd f.source f.clauseEnd) f.source.length

end SourceFile

/-! ## The token behind a place -/

section Behind

variable {s : List Char} {a y : List Lexeme}

/-- The kind of the first token behind a place of a text. -/
theorem find?_tokens_behind (hs : stretches s = a ++ y) :
    ((scan s).tokens.find? (byteWidth (orderMark s ++ texts a) ≤ ·.start)).map Token.kind = (kindsOf y).head? := by
  have hne : ∀ l ∈ stretches s, l.text ≠ [] := fun l hl => ne_nil_of_mem_stretches hl
  rw [hs] at hne
  obtain ⟨hnea, hney⟩ := List.forall_mem_append.mp hne
  have hscan : scan s = place (byteWidth (orderMark s)) none (a ++ y) := by
    rw [scan_eq, ← stretches_eq, hs]
  have hbefore : (place (byteWidth (orderMark s)) none a).tokens.find?
      (byteWidth (orderMark s ++ texts a) ≤ ·.start) = none := by
    refine List.find?_eq_none.mpr fun t ht => ?_
    obtain ⟨-, hlt, hle⟩ := range_of_mem_place ht hnea
    rw [byteWidth_append, decide_eq_true_eq]
    omega
  rw [hscan, place_append_tokens, List.find?_append, hbefore, Option.none_or, ← byteWidth_append,
    ← place_kinds (byteWidth (orderMark s ++ texts a)) (place (byteWidth (orderMark s)) none a).lastBreak y]
  cases hts : (place (byteWidth (orderMark s ++ texts a)) (place (byteWidth (orderMark s)) none a).lastBreak y).tokens with
  | nil => rfl
  | cons t ts =>
    obtain ⟨hle, -⟩ := range_of_mem_place (show t ∈ _ by rw [hts]; exact List.mem_cons_self) hney
    rw [List.find?_cons_of_pos (by simpa using hle)]
    rfl

/-- Whether a semicolon is the first token behind a place of a file can be told from what stands there. -/
theorem SourceFile.semicolonBehind_iff {f : SourceFile} (hsource : f.source = Utf8.encode s) (hs : stretches s = a ++ y) :
    f.SemicolonBehind (byteWidth (orderMark s ++ texts a)) ↔ LeadsSemicolon y := by
  rw [LeadsSemicolon, ← find?_tokens_behind hs, Option.map_eq_some_iff]
  constructor
  · rintro ⟨s', t, hs', ht⟩
    obtain rfl := Utf8.encode_injective (hsource.symm.trans hs')
    exact ⟨t, ht⟩
  · rintro ⟨t, ht⟩
    exact ⟨s, t, hsource, ht⟩

/-- What ends an item is no semicolon but a line end, if no semicolon is the first token behind it. -/
theorem Syntax.EndsItem.noCode {gap ls : List Lexeme} (h : EndsItem gap) (hnot : ¬ LeadsSemicolon (gap ++ ls)) :
    NoCode gap := by
  cases h with
  | line hgap _ => exact hgap
  | semicolon hx _ hl _ =>
    rw [List.append_assoc, List.cons_append, leadsSemicolon_append hx, leadsSemicolon_cons hl] at hnot
    exact absurd rfl hnot

end Behind

/-! ## The file with the import -/

section WithImport

variable {f : SourceFile} {s : List Char} {lead : List Lexeme} {gs : List Segment} {q : Package} {i : ImportAddition}

/-- In a file that ends with its package line, that line ends where the file does. -/
theorem SourceFile.EndsWithClause.lineEnd_eq (h : f.EndsWithClause) {x : List Lexeme} (hsource : f.source = Utf8.encode s)
    (hs : stretches s = x ++ [⟨.newline, ['\n']⟩]) :
    min (Splice.lineEnd f.source f.clauseEnd) f.source.length = byteWidth (orderMark s ++ texts x) := by
  obtain ⟨a, ha, hle, hnone⟩ := h
  have hx : a = Utf8.encode (orderMark s ++ texts x) := by
    have htext : Utf8.encode s = Utf8.encode (orderMark s ++ texts x) ++ [LineIndex.lineFeed] := by
      conv => lhs; rw [← orderMark_append_texts s, hs, texts_append, ← List.append_assoc, Utf8.encode_append]
      rfl
    exact (List.append_inj' (ha.symm.trans (hsource.trans htext)) rfl).1
  have hend : Splice.lineEnd f.source f.clauseEnd = a.length := by
    have hall : ∀ b ∈ a.drop f.clauseEnd, decide (b ≠ LineIndex.lineFeed) :=
      fun b hb => decide_eq_true fun h => hnone (h ▸ hb)
    rw [Splice.lineEnd, ha, List.drop_append_of_le_length hle, List.takeWhile_append_of_pos hall,
      List.takeWhile_cons_of_neg (by decide), List.append_nil, List.length_drop]
    omega
  rw [hend, byteWidth_eq, ← hx, ha, List.length_append]
  exact Nat.min_eq_left (Nat.le_add_right _ _)

/-- Whether an offset lies behind an item, where a line or the text ends. -/
def Syntax.EndsLineAt (s : List Char) (lead : List Lexeme) (gs : List Segment) (o : Nat) : Prop :=
  ∃ as g bs a b, gs = as ++ g :: bs ∧ g.gap = a ++ b ∧ ((∃ c, b = ⟨.newline, ['\n']⟩ :: c) ∨ b = [] ∧ bs = []) ∧
    o = byteWidth (orderMark s ++ texts (lead ++ (joined as ++ (g.code ++ a))))

/-- The package line ends behind the last segment, that of the clause or of a declaration in its line. -/
theorem SourceFile.EndsWithClause.endsLineAt (h : f.EndsWithClause) (hp : Parsed f.filename f.source true f s)
    (ho : Outline s lead gs) (hfound : Splice.lastImport? f = none) : EndsLineAt s lead gs f.importPlace := by
  have hsource : f.source = Utf8.encode s := hp.encode_eq
  obtain ⟨x, hx⟩ : ∃ x, stretches s = x ++ [⟨.newline, ['\n']⟩] := by
    obtain ⟨a, ha, -⟩ := h
    refine stretches_lineEnd (LineIndex.getLast?_of_encode ?_) ho.isSound
    rw [← hsource, ha]
    exact List.getLast?_concat
  obtain ⟨as, g, rfl⟩ : ∃ as g, gs = as ++ [g] := by
    rcases List.eq_nil_or_concat gs with rfl | ⟨as, g, rfl⟩
    · obtain ⟨c, hc, -⟩ := ho.exists_clause hp
      cases hc
    · exact ⟨as, g, List.concat_eq_append ..⟩
  have hall : lead ++ joined as ++ g.code ++ g.gap = x ++ [⟨.newline, ['\n']⟩] := by
    rw [← hx, ho.stretches_eq, joined_append, joined_cons, joined_nil, List.append_nil]
    simp
  obtain ⟨a, ha, hfront⟩ := exists_gap_of_lineEnd (ho.linked.items g (by simp)) hall
  refine ⟨as, g, [], a, _, rfl, ha, .inl ⟨[], rfl⟩, ?_⟩
  rw [SourceFile.importPlace, hfound]
  simp only [h.lineEnd_eq hsource hx, ← hfront, List.append_assoc]

/-- An import is put into a file that admits it at its place. -/
theorem exists_withImport (hp : Parsed f.filename f.source true f s) (ho : Outline s lead gs)
    (hfile : q.files.file? i.filename = some f) (hcontents : q.contentsOrNew i.filename = f.source)
    (hname : IsImportName i.name.toList) (hadmits : f.Admits i)
    (hline : Splice.lastImport? f = none → EndsLineAt s lead gs f.importPlace) :
    ∃ s' hs x ins y, q.withImport i = .ok (Utf8.encode s') ∧ f.importPlace = byteWidth (orderMark s ++ texts x) ∧
      WithImport i.name.toList i.path.toList s s' lead gs hs ∧
      (PutBehind i.name.toList i.path.toList lead gs hs x ins y ∧ (∀ p ∈ Splice.lastImport? f, p.2 = none) ∨
        PutInside lead gs hs x ins y ∧ Splice.lastImport? f ≠ none) := by
  have hsource : f.source = Utf8.encode s := hp.encode_eq
  have hpath := hadmits.path
  have hcloses : ∀ {c d : List Lexeme}, stretches s = c ++ d → opensComment c →
      blockCommentLength? i.path.toList = none :=
    fun {c d} hc hopen => hadmits.comment s hsource (by rw [hc]; exact opensComment_append d hopen)
  by_cases himport : ∃ g ∈ gs, g.isImport
  · obtain ⟨as, g, bs, rfl, himport, hlast⟩ := exists_lastImport himport
    have hgap : stretches s = lead ++ (joined as ++ g.code) ++ (g.gap ++ joined bs) := by
      rw [ho.stretches_eq, joined_append, joined_cons]
      simp
    rcases ho.lastImport?_cases hp himport hlast with
      ⟨c, l, hcode, hl, hfound⟩ | ⟨head, ps, z, n, hcode, hparts, hfound⟩
    · have hnone : NoCode g.gap := by
        cases ho.linked.of_append with
        | cons _ hends _ =>
          exact hends.noCode fun h => hadmits.semicolon _ hfound ((SourceFile.semicolonBehind_iff hsource hgap).mpr h)
        | last _ hnone _ => exact hnone
      obtain ⟨s', hs, ins, y, heq, hwith, hput⟩ := ho.withBelow ho.isSound hlast hname hpath hcode hl hnone
        fun hopen => closesNone_import hname (hcloses hgap hopen)
      refine ⟨s', hs, _, ins, y, ?_, by rw [SourceFile.importPlace, hfound], hwith,
        .inl ⟨hput, by rw [hfound]; simp⟩⟩
      unfold Package.withImport
      simp only [hfile, hfound, importText_eq, hsource]
      exact congrArg _ heq
    · have hinside : stretches s = lead ++ (joined as ++ (head ++ ImportPart.code ps)) ++ (z :: (g.gap ++ joined bs)) := by
        rw [ho.stretches_eq, joined_append, joined_cons, hcode]
        simp
      obtain ⟨s', hs, ins, y, heq, hwith, hput⟩ := ho.withInside ho.isSound hlast (ho.isReadable hp g (by simp))
        hname hpath himport hcode hparts fun hopen =>
          (closesNone_spec hname (hcloses hinside hopen)).behind (l := ⟨.blank, ['\t']⟩) rfl (by decide)
      refine ⟨s', hs, _, ins, y, ?_, by rw [SourceFile.importPlace, hfound], hwith,
        .inr ⟨hput, by rw [hfound]; nofun⟩⟩
      unfold Package.withImport
      simp only [hfile, hfound, importText_eq, hsource]
      exact congrArg _ heq
  · have hnone : ∀ g ∈ gs, g.isImport = false := fun g hg => Bool.eq_false_iff.mpr fun h => himport ⟨g, hg, h⟩
    have hfound : Splice.lastImport? f = none := by
      refine List.findSome?_eq_none_iff.mpr fun d hd => ?_
      split
      · next specs close hdecl =>
        exact absurd hdecl ((ho.placed hp).not_imports ho.linked.items hnone d (List.mem_reverse.mp hd) specs close)
      · rfl
    obtain ⟨as, g, bs, a, b, rfl, ha, hb, hplace⟩ := hline hfound
    have hsplit : stretches s = lead ++ (joined as ++ (g.code ++ a)) ++ (b ++ joined bs) := by
      rw [ho.stretches_eq, joined_append, joined_cons, ha]
      simp
    obtain ⟨s', hs, ins, y, heq, hwith, hput⟩ := ho.withFirst ho.isSound (fun k hk => hnone k (by simp [hk]))
      hname hpath ha hb fun hopen => closesNone_import hname (hcloses hsplit hopen)
    refine ⟨s', hs, _, ins, y, ?_, hplace, hwith, .inl ⟨hput, by rw [hfound]; simp⟩⟩
    rw [SourceFile.importPlace, hfound] at hplace
    unfold Package.withImport
    simp only [hfile, hfound, hcontents, importText_eq] at hplace ⊢
    rw [hplace, hsource]
    exact congrArg _ heq

end WithImport

/-! ## Imports of snippets -/

namespace Package

variable {p q : Package} {f : SourceFile} {i : ImportAddition} {text : String} {ts : List Transform}

/-- A file that is its package line. -/
def clauseOnly : Package := oneFile "package a // The file.\n"

/-- The text of that file. -/
def clauseOnlyText : List Char := "package a // The file.\n".toList

theorem clauseOnlyText_admits {f : SourceFile} (hsource : f.source = Utf8.encode clauseOnlyText)
    (hlast : Splice.lastImport? f = none) {i : ImportAddition} (hi : IsPlainText i.path.toList) : f.Admits i := by
  refine ⟨hi, fun s hs hopen => ?_, fun stop hstop => ?_⟩
  · obtain rfl := Utf8.encode_injective (hs.symm.trans hsource)
    exact absurd hopen (by decide +kernel)
  · rw [hlast] at hstop
    cases hstop

end Package

end GoSplice
