import GoSplice.Proofs.PartEdits

/-!
# Imports of files made of parts

In a file whose imports are single ones, an added import is one paragraph more,
and a pass over repeated imports makes them blank lines; nothing else changes
(`SameButImports`):

    withImport a = ok (encode (fileText name ps'))             (withImport_fileOf, withImport_newFile)
    withoutRepeatedImports (fileOf f name ps) =
      encode (fileText name (withoutRepeated [] ps))           (withoutRepeatedImports_fileOf)
-/

namespace GoSplice

open Syntax GoSplice.Part

/-! ## Single declarations -/

/-- What a declaration declares that can be declared but once. -/
def Declared.identities : Declared → List Subject
  | .func name receiver _ => [.func receiver name]
  | .type names => names.map .type
  | _ => []

/-- The names and paths that a declaration imports. -/
def Declared.specs : Declared → List (String × String)
  | .imports specs _ => specs.map fun s => (s.name, s.path)
  | _ => []

def Declared.isImport : Declared → Bool
  | .imports .. => true
  | _ => false

/-- A paragraph that, if it imports, is a single import. -/
structure Paragraph.IsSingle (g : Paragraph) : Prop where
  isWhole : g.IsWhole
  imports : ∀ specs close, g.declared = .imports specs close →
    ∃ name path, IsImportName name ∧ IsPlainText path ∧ g = importParagraph name path

namespace Part

def IsSingle : Part → Prop
  | .blank => True
  | .paragraph g => g.IsSingle

def identities : Part → List Subject
  | .blank => []
  | .paragraph g => g.declared.identities

/-- What the parts of a file declare that can be declared but once. -/
def allIdentities (ps : List Part) : List Subject := ps.flatMap identities

theorem IsSingle.isWhole {p : Part} (h : p.IsSingle) : p.IsWhole := by
  cases p with
  | blank => trivial
  | paragraph g => exact Paragraph.IsSingle.isWhole h

def specs : Part → List (String × String)
  | .blank => []
  | .paragraph g => g.declared.specs

/-- What the parts of a file import. -/
def allSpecs (ps : List Part) : List (String × String) := ps.flatMap specs

/-- The text of a part that declares something other than imports. -/
def otherTexts : Part → List Bytes
  | .blank => []
  | .paragraph g => if g.declared.isImport then [] else [Utf8.encode g.text]

def allOtherTexts (ps : List Part) : List Bytes := ps.flatMap otherTexts

/-- Single parts that differ from others in imports and blank lines only. -/
structure SameButImports (ps ps' : List Part) : Prop where
  single : ∀ p ∈ ps', p.IsSingle
  identities : allIdentities ps' = allIdentities ps
  otherTexts : allOtherTexts ps' = allOtherTexts ps

/-- A part that imports nothing is no import. -/
theorem isImport_of_specs {ps : List Part} (hps : ∀ p ∈ ps, p.IsSingle) (h : allSpecs ps = []) :
    ∀ g, .paragraph g ∈ ps → g.declared.isImport = false := by
  intro g hg
  have hspecs : g.declared.specs = [] := List.flatMap_eq_nil_iff.mp h _ hg
  cases hd : g.declared with
  | imports specs close =>
    obtain ⟨n, q, -, -, rfl⟩ := Paragraph.IsSingle.imports (hps _ hg) specs close hd
    cases hspecs
  | _ => rfl

end Part

section Import

variable {name : List Char} {ps : List Part}

theorem importParagraph_isSingle {n q : List Char} (hn : IsImportName n) (hq : IsPlainText q) :
    (importParagraph n q).IsSingle :=
  ⟨importParagraph_isWhole hn hq, fun _ _ _ => ⟨n, q, hn, hq, rfl⟩⟩

/-- Parts hold no import, or a last one. -/
theorem exists_last_import (hps : ∀ p ∈ ps, p.IsSingle) : allSpecs ps = [] ∨
    ∃ as n q bs, ps = as ++ .paragraph (importParagraph n q) :: bs ∧ allSpecs bs = [] := by
  induction ps with
  | nil => exact Or.inl rfl
  | cons p ps ih =>
    obtain ⟨hp, hps⟩ := List.forall_mem_cons.mp hps
    rcases ih hps with hnone | ⟨as, n, q, bs, rfl, hbs⟩
    · cases p with
      | blank => exact Or.inl hnone
      | paragraph g =>
        cases hd : g.declared with
        | imports specs close =>
          obtain ⟨n, q, -, -, rfl⟩ := Paragraph.IsSingle.imports hp specs close hd
          exact Or.inr ⟨[], n, q, ps, rfl, hnone⟩
        | _ =>
          left
          show g.declared.specs ++ allSpecs ps = []
          rw [hd, hnone]
          rfl
    · exact Or.inr ⟨p :: as, n, q, bs, rfl, hbs⟩

/-- No declaration of parts without imports is the last import. -/
theorem lastImport?_spread (hps : ∀ p ∈ ps, p.IsSingle) (h : allSpecs ps = []) (o : Nat) :
    (spread declarations o ps).reverse.findSome? (fun d =>
      match d.declared with
      | .imports _ close => some (d.stop, close)
      | _ => none) = none := by
  rw [List.findSome?_eq_none_iff]
  intro d hd
  obtain ⟨as, g, bs, rfl, rfl⟩ := mem_declarations (List.mem_reverse.mp hd)
  have hg := isImport_of_specs hps h g (by simp)
  cases hdecl : g.declared with
  | imports specs close => rw [hdecl] at hg; cases hg
  | _ => simp [Paragraph.declarationAt, hdecl, Declared.moved]

/-- The last import of a file is that of its parts. -/
theorem lastImport?_fileOf {as bs : List Part} {n q : List Char} (hbs : ∀ p ∈ bs, p.IsSingle)
    (h : allSpecs bs = []) (filename : String) :
    Splice.lastImport? (fileOf filename name (as ++ .paragraph (importParagraph n q) :: bs)) =
      some (((importParagraph n q).declarationAt (bodyStart name + byteWidth (bodyText as))).stop, none) := by
  unfold Splice.lastImport? fileOf
  dsimp only
  rw [spread_append, List.reverse_append, spread, List.reverse_append, List.append_assoc,
    List.findSome?_append]
  exact congrArg (Option.or · _) (lastImport?_spread hbs h _)

/-- An import can be put in front of all parts. -/
theorem import_in_front {n q : List Char} (hn : IsImportName n) (hq : IsPlainText q)
    (hps : ∀ p ∈ ps, p.IsSingle) :
    SameButImports ps (.blank :: .paragraph (importParagraph n q) :: .blank :: ps) ∧
      allSpecs (.blank :: .paragraph (importParagraph n q) :: .blank :: ps) =
        (String.ofList n, String.ofList q) :: allSpecs ps :=
  ⟨⟨List.forall_mem_cons.mpr ⟨trivial, List.forall_mem_cons.mpr
    ⟨importParagraph_isSingle hn hq, List.forall_mem_cons.mpr ⟨trivial, hps⟩⟩⟩, rfl, rfl⟩, rfl⟩

variable {p : Package} {a : ImportAddition}

/-- An import that is added to a file is a paragraph more, and its last import. -/
theorem withImport_fileOf (hfile : p.files.file? a.filename = some (fileOf a.filename name ps))
    (hcontents : p.contentsOrNew a.filename = Utf8.encode (fileText name ps))
    (hps : ∀ p ∈ ps, p.IsSingle) (hname : IsImportName a.name.toList) (hpath : IsPlainText a.path.toList) :
    ∃ ps', p.withImport a = .ok (Utf8.encode (fileText name ps')) ∧ SameButImports ps ps' ∧
      allSpecs ps' = allSpecs ps ++ [(a.name, a.path)] := by
  have hnew : (Part.paragraph (importParagraph a.name.toList a.path.toList)).IsSingle :=
    importParagraph_isSingle hname hpath
  unfold Package.withImport
  simp only [hfile]
  rcases exists_last_import hps with hnone | ⟨as, n, q, bs, rfl, hbs⟩
  · obtain ⟨hsame, hspecs⟩ := import_in_front hname hpath hps
    refine ⟨_, ?_, hsame, ?_⟩
    · have hlast : Splice.lastImport? (fileOf a.filename name ps) = none := lastImport?_spread hps hnone _
      have hend := lineEnd_fileText name ps
      simp only [hlast, hcontents, importText_eq]
      rw [fileOf, hend, importAfterClause_fileText]
    · rw [hspecs, hnone, String.ofList_toList, String.ofList_toList]
      rfl
  · have hsingle := hps
    rw [List.forall_mem_append, List.forall_mem_cons] at hps
    refine ⟨as ++ .paragraph (importParagraph n q) ::
      .paragraph (importParagraph a.name.toList a.path.toList) :: bs, ?_, ⟨?_, ?_, ?_⟩, ?_⟩
    · simp only [lastImport?_fileOf hps.2.2 hbs, importText_eq]
      rw [fileOf, importBelow_fileText (text_importParagraph_quote n q)]
    · rw [List.forall_mem_append, List.forall_mem_cons]
      exact ⟨hps.1, hps.2.1, List.forall_mem_cons.mpr ⟨hnew, hps.2.2⟩⟩
    · simp [allIdentities, Part.identities, importParagraph, Declared.identities]
    · simp [allOtherTexts, Part.otherTexts, importParagraph, Declared.isImport]
    · simp only [allSpecs, List.flatMap_append, List.flatMap_cons] at hbs ⊢
      rw [hbs]
      simp [Part.specs, importParagraph, Declared.specs]

/-- An import that is added to a new file is a paragraph of it. -/
theorem withImport_newFile (hn : IsWordText name) (hfile : p.files.file? a.filename = none)
    (hcontents : p.contentsOrNew a.filename = Utf8.encode (fileText name [.blank]))
    (hname : IsImportName a.name.toList) (hpath : IsPlainText a.path.toList) :
    ∃ ps', p.withImport a = .ok (Utf8.encode (fileText name ps')) ∧ SameButImports [.blank] ps' := by
  obtain ⟨hsame, -⟩ := @import_in_front [.blank] _ _ hname hpath (List.forall_mem_singleton.mpr trivial)
  refine ⟨_, ?_, hsame⟩
  unfold Package.withImport
  simp only [hfile, hcontents, packageLineEnd?_fileText hn, importText_eq]
  rw [importAfterClause_fileText]

end Import

/-! ## Repeated imports -/

namespace Part

/-- The paths that a declaration imports. -/
def importedBy : Declared → List String
  | .imports specs _ => specs.map (·.path)
  | _ => []

/-- A part of a file, given the paths imported before it; a repeated import is a blank line. -/
def deduped (seen : List String) : Part → Part
  | .blank => .blank
  | .paragraph g => if (importedBy g.declared).any seen.contains then .blank else .paragraph g

def imported : Part → List String
  | .blank => []
  | .paragraph g => importedBy g.declared

/-- The parts of a file without repeated imports, given the paths imported so far. -/
def withoutRepeated : List String → List Part → List Part
  | _, [] => []
  | seen, p :: ps => p.deduped seen :: withoutRepeated (p.imported ++ seen) ps

end Part

section Repeated

variable {ps : List Part} {source : Bytes} {pre : List Char}

/-- A part that is passed over as a repeated import was an import. -/
theorem deduped_eq {p : Part} (hp : p.IsSingle) (seen : List String) : (p.deduped seen).IsSingle ∧
    (p.deduped seen).identities = p.identities ∧ (p.deduped seen).otherTexts = p.otherTexts := by
  cases p with
  | blank => exact ⟨trivial, rfl, rfl⟩
  | paragraph g =>
    rw [deduped]
    by_cases hany : (importedBy g.declared).any seen.contains
    · rw [if_pos hany]
      show True ∧ [] = g.declared.identities ∧ [] = if g.declared.isImport then [] else [Utf8.encode g.text]
      cases hd : g.declared with
      | imports specs close => exact ⟨trivial, rfl, rfl⟩
      | _ => rw [hd] at hany; cases hany
    · rw [if_neg hany]
      exact ⟨hp, rfl, rfl⟩

theorem sameButImports_withoutRepeated (hps : ∀ p ∈ ps, p.IsSingle) (seen : List String) :
    SameButImports ps (withoutRepeated seen ps) := by
  induction ps generalizing seen with
  | nil => exact ⟨List.forall_mem_nil _, rfl, rfl⟩
  | cons p ps ih =>
    obtain ⟨hp, hps⟩ := List.forall_mem_cons.mp hps
    obtain ⟨hsingle, hids, htexts⟩ := ih hps (p.imported ++ seen)
    obtain ⟨hone, hid, htext⟩ := deduped_eq hp seen
    refine ⟨List.forall_mem_cons.mpr ⟨hone, hsingle⟩, ?_, ?_⟩
    · show (p.deduped seen).identities ++ allIdentities (withoutRepeated _ ps) = p.identities ++ allIdentities ps
      rw [hid, hids]
    · show (p.deduped seen).otherTexts ++ allOtherTexts (withoutRepeated _ ps) = p.otherTexts ++ allOtherTexts ps
      rw [htext, htexts]

/-- What is kept before a text and the text itself are kept together. -/
theorem slice_kept {pos : Nat} {u rest : List Char} (hsource : source = Utf8.encode (pre ++ (u ++ rest)))
    (hpos : pos ≤ byteWidth pre) :
    slice source pos (byteWidth (pre ++ u)) = slice source pos (byteWidth pre) ++ Utf8.encode u := by
  rw [byteWidth_eq] at hpos
  have hboth : source = Utf8.encode (pre ++ u) ++ Utf8.encode rest := by
    rw [hsource, ← List.append_assoc, Utf8.encode_append (pre ++ u)]
  have hone : source = Utf8.encode pre ++ Utf8.encode (u ++ rest) := by rw [hsource, Utf8.encode_append]
  have htake : source.take (byteWidth (pre ++ u)) = Utf8.encode (pre ++ u) := by
    rw [hboth, byteWidth_eq, List.take_left]
  have htake' : source.take (byteWidth pre) = Utf8.encode pre := by rw [hone, byteWidth_eq, List.take_left]
  rw [slice, slice, htake, htake', Utf8.encode_append, List.drop_append_of_le_length hpos]

/-- The range of a repeated import is all of it. -/
theorem ranges_import (seen : List String) (n q : List Char) (o : Nat) (ds : List Declaration) :
    RepeatedImports.ranges seen ((importParagraph n q).declarationAt o :: ds) =
      (if seen.contains (String.ofList q) then
        [⟨o, o + byteWidth (importParagraph n q).text⟩] else []) ++
        RepeatedImports.ranges (String.ofList q :: seen) ds := by
  show RepeatedImports.rangesOf seen ((importParagraph n q).declarationAt o)
    [⟨String.ofList n, String.ofList q, 7 + (o + 0), _⟩] ++ _ = _
  have hrange : (⟨((importParagraph n q).declarationAt o).start,
      ((importParagraph n q).declarationAt o).stop⟩ : Splice.Range) =
      ⟨o, o + byteWidth (importParagraph n q).text⟩ := by
    rw [stop_declarationAt]
    rfl
  rw [RepeatedImports.rangesOf, hrange, RepeatedImports.repeated]
  dsimp only
  by_cases hseen : seen.contains (String.ofList q)
  · rw [if_pos hseen, if_pos hseen]
    rfl
  · rw [if_neg hseen, if_neg hseen]
    rfl

/-- Deleting the ranges of repeated imports leaves the parts without them. -/
theorem delete_parts (hps : ∀ p ∈ ps, p.IsSingle) (hsource : source = Utf8.encode (pre ++ bodyText ps))
    {pos : Nat} (hpos : pos ≤ byteWidth pre) (seen : List String) :
    Splice.delete source pos (RepeatedImports.ranges seen (spread declarations (byteWidth pre) ps)) =
      slice source pos (byteWidth pre) ++ Utf8.encode (bodyText (withoutRepeated seen ps)) := by
  induction ps generalizing pre pos seen with
  | nil =>
    have hall : source.take (byteWidth pre) = source := by
      rw [hsource, byteWidth_eq, bodyText, List.flatMap_nil, List.append_nil]
      exact List.take_length
    show source.drop pos = (source.take (byteWidth pre)).drop pos ++ []
    rw [hall, List.append_nil]
  | cons p ps ih =>
    obtain ⟨hp, hps⟩ := List.forall_mem_cons.mp hps
    have hsource' : source = Utf8.encode (pre ++ (p.text ++ bodyText ps)) := hsource
    have hnext : byteWidth pre + byteWidth p.text = byteWidth (pre ++ p.text) := (byteWidth_append _ _).symm
    have hlater : pos ≤ byteWidth (pre ++ p.text) := by omega
    have hbody : ∀ (q : Part) (qs : List Part), Utf8.encode (bodyText (q :: qs)) =
        Utf8.encode q.text ++ Utf8.encode (bodyText qs) := fun q qs => Utf8.encode_append _ _
    have ih := fun {pos} (h : pos ≤ byteWidth (pre ++ p.text)) =>
      ih hps (by rw [List.append_assoc]; exact hsource') h (p.imported ++ seen)
    -- a part that stays is kept with what is before it
    have hkept : Splice.delete source pos (RepeatedImports.ranges (p.imported ++ seen)
        (spread declarations (byteWidth (pre ++ p.text)) ps)) = slice source pos (byteWidth pre) ++
          (Utf8.encode p.text ++ Utf8.encode (bodyText (withoutRepeated (p.imported ++ seen) ps))) := by
      rw [ih hlater, slice_kept hsource' hpos, List.append_assoc]
    rw [spread, hnext, withoutRepeated, hbody]
    cases p with
    | blank => exact hkept
    | paragraph g =>
      show Splice.delete source pos (RepeatedImports.ranges seen (g.declarationAt (byteWidth pre) :: _)) = _
      cases hd : g.declared with
      | imports specs close =>
        obtain ⟨n, q, -, -, rfl⟩ := Paragraph.IsSingle.imports hp specs close hd
        have hany : (importedBy (importParagraph n q).declared).any seen.contains =
            seen.contains (String.ofList q) := Bool.or_false _
        rw [ranges_import, deduped, hany]
        by_cases hseen : seen.contains (String.ofList q)
        · have hline : slice source (byteWidth pre + byteWidth (importParagraph n q).text)
              (byteWidth (pre ++ (Part.paragraph (importParagraph n q)).text)) = Utf8.encode ['\n'] := by
            have hsplit : pre ++ ((Part.paragraph (importParagraph n q)).text ++ bodyText ps) =
                pre ++ (importParagraph n q).text ++ ['\n'] ++ bodyText ps := by
              simp [Part.text]
            rw [hsource', hsplit, ← byteWidth_append, Part.text, ← List.append_assoc]
            exact slice_encode _ ['\n'] _
          have hstop : byteWidth pre + byteWidth (importParagraph n q).text ≤
              byteWidth (pre ++ (Part.paragraph (importParagraph n q)).text) := by
            rw [Part.text, byteWidth_append, byteWidth_append]
            omega
          rw [if_pos hseen, if_pos hseen, List.singleton_append, Splice.delete]
          refine congrArg _ ((ih hstop).trans ?_)
          rw [hline]
          rfl
        · rw [if_neg hseen, if_neg hseen]
          exact hkept
      | _ =>
        have hstays : (Part.paragraph g).deduped seen = .paragraph g := by
          rw [deduped, hd]
          rfl
        have himported : (Part.paragraph g).imported = [] := by
          rw [imported, hd]
          rfl
        rw [RepeatedImports.ranges, Paragraph.declarationAt, hd, hstays, himported]
        rw [himported] at hkept
        exact hkept

/-- A pass over repeated imports leaves a file of parts. -/
theorem withoutRepeatedImports_fileOf (hps : ∀ p ∈ ps, p.IsSingle) (filename : String)
    (name : List Char) : (fileOf filename name ps).withoutRepeatedImports =
      Utf8.encode (fileText name (withoutRepeated [] ps)) := by
  have hdelete := @delete_parts ps (Utf8.encode (fileText name ps)) (clauseLine name) hps rfl 0
    (Nat.zero_le _) []
  have hclause := slice_encode [] (clauseLine name) (bodyText ps)
  rw [byteWidth_nil, List.nil_append] at hclause
  refine hdelete.trans ?_
  rw [show Utf8.encode (fileText name ps) = Utf8.encode (clauseLine name ++ bodyText ps) from rfl, hclause,
    ← Utf8.encode_append]
  rfl

end Repeated

end GoSplice
