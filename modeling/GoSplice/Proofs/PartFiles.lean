import GoSplice.Proofs.Composition

/-!
# Reading files made of parts

A package clause and whole parts below it are a file that is read, strictly or
not, with the declarations of the parts:

    parse f (encode (fileText name ps)) strict = ok (fileOf f name ps)    (parse_fileText)
-/

namespace GoSplice

open Syntax GoSplice.Part

/-- The file of a package clause and parts below it. -/
def fileOf (filename : String) (name : List Char) (ps : List Part) : SourceFile :=
  let source := Utf8.encode (fileText name ps)
  { filename, source
    packageName := String.ofList name
    clauseEnd := (clauseNode name).stop
    clauseCount := 1
    lines := .ofBytes source
    declarations := spread declarations (bodyStart name) ps }

section Read

variable {name : List Char} {ps : List Part}

theorem bodyStart_eq (name : List Char) : bodyStart name = (clauseNode name).stop + 1 := by
  have hwidth : byteWidth (texts (clauseStretches name)) = 8 + byteWidth name := by
    simp only [clauseStretches, space, texts_cons, texts_nil, byteWidth_append, byteWidth_nil]
    rw [show byteWidth "package".toList = 7 from rfl, show byteWidth [' '] = 1 from rfl]
    omega
  rw [bodyStart, clauseLine, byteWidth_append, hwidth]
  rfl

theorem fileText_eq (name : List Char) (ps : List Part) :
    fileText name ps = "package ".toList ++ name ++ '\n' :: bodyText ps := by
  simp [fileText, clauseLine, clauseStretches, space]

/-- The name of a package clause is read back. -/
theorem childText_clause (name : List Char) (ps : List Part) :
    Declaration.childText (Utf8.encode (fileText name ps)) .name (clauseNode name) =
      String.ofList name := by
  have hslice : slice (Utf8.encode (fileText name ps)) 8 (8 + byteWidth name) = Utf8.encode name := by
    have hwidth : byteWidth ("package ".toList ++ name) = 8 + byteWidth name := by
      rw [byteWidth_append]
      rfl
    rw [fileText_eq, ← hwidth]
    exact slice_encode "package ".toList name _
  show textOf (slice _ 8 (8 + byteWidth name)) = _
  rw [hslice, textOf_encode]

/-- No part holds a package clause. -/
theorem label_of_mem_nodes (hps : ∀ p ∈ ps, p.IsRead) {o : Nat} {n : Node}
    (hn : n ∈ spread nodes o ps) : n.label ≠ .packageClause := by
  induction ps generalizing o with
  | nil => cases hn
  | cons p ps ih =>
    rcases List.mem_append.mp hn with hn | hn
    · cases p with
      | blank => cases hn
      | paragraph g =>
        rw [List.mem_singleton.mp hn, Tree.label_moved]
        exact (hps _ List.mem_cons_self).label
    · exact ih (fun q hq => hps q (List.mem_cons_of_mem p hq)) hn

theorem isDeclaration_iff {t : Node} : Fault.isDeclaration t ↔ Grammar.IsOpened t.label := by
  have hsame : ∀ l : Label, [Label.packageClause, .importDecl, .function, .method, .constDecl, .varDecl,
      .typeDecl].contains l ↔ l ∈ Grammar.openings.map Grammar.Opening.label := by
    intro l
    cases l <;> decide
  exact hsame _

/-- The declarations of a file are those of its parts. -/
theorem ofNodes_fileText (hps : ∀ p ∈ ps, p.IsRead) :
    Declaration.ofNodes (Utf8.encode (fileText name ps)) (.ofBytes (Utf8.encode (fileText name ps)))
      (clauseNode name :: spread nodes (bodyStart name) ps) (spread Part.comments (bodyStart name) ps) =
      .ok (spread declarations (bodyStart name) ps) := by
  have hstart := bodyStart_eq name
  have hpos : 0 < (clauseNode name).stop := Nat.lt_of_lt_of_le (by decide) (Nat.le_add_right 8 _)
  have hsiblings := @Declaration.siblings_item (clauseNode name) (spread nodes (bodyStart name) ps) [] []
    (spread Part.comments (bodyStart name) ps) hpos (List.forall_mem_nil _) (List.forall_mem_nil _)
    fun c hc => by
      have := Declaration.le_of_mem_spread hc
      omega
  have habove : Declaration.EndsAbove (Utf8.encode (fileText name ps)) (byteWidth (clauseLine name))
      [.item (clauseNode name)] := by
    rintro x r ⟨⟩
    refine ⟨_, rfl, ?_⟩
    have hclause : Utf8.encode (fileText name ps) =
        Utf8.encode (texts (clauseStretches name)) ++ Utf8.encode ('\n' :: bodyText ps) := by
      rw [← Utf8.encode_append, fileText, clauseLine, List.append_assoc]
      rfl
    have hline : Utf8.encode (fileText name ps) =
        Utf8.encode (clauseLine name) ++ Utf8.encode (bodyText ps) := Utf8.encode_append _ _
    have hrow := LineIndex.row_length (Utf8.encode (texts (clauseStretches name)))
      (Utf8.encode ('\n' :: bodyText ps))
    have hrow' := LineIndex.row_length (Utf8.encode (clauseLine name)) (Utf8.encode (bodyText ps))
    rw [← hclause, ← byteWidth_eq] at hrow
    rw [← hline, ← byteWidth_eq] at hrow'
    have hstop : (clauseNode name).stop = byteWidth (texts (clauseStretches name)) := by
      have hw : bodyStart name = byteWidth (texts (clauseStretches name)) + 1 := byteWidth_append _ _
      omega
    rw [hstop, hrow, hrow', clauseLine, Utf8.encode_append, List.count_append]
    exact Nat.lt_succ_self _
  show Declaration.ofSiblings _ _ _ [] (Declaration.siblings ([clauseNode name] ++ _) ([] ++ ([] ++ _))) = _
  rw [List.singleton_append, hsiblings]
  show Declaration.ofSiblings _ _ _ [] (.item (clauseNode name) :: _) = _
  rw [Declaration.ofSiblings, if_pos (show (clauseNode name).label = .packageClause from rfl)]
  exact @Declaration.ofSiblings_parts _ ps hps (clauseLine name) _ [] rfl (List.forall_mem_nil _) habove

/-- A file whose parts are read is read. -/
theorem parse_of_fileRead (hread : FileRead name ps) (hps : ∀ p ∈ ps, p.IsRead) (filename : String)
    (strict : Bool) : SourceFile.parse filename (Utf8.encode (fileText name ps)) strict =
      .ok (fileOf filename name ps) := by
  have hcount : (clauseNode name :: spread nodes (bodyStart name) ps).countP
      (·.label == .packageClause) = 1 := by
    rw [List.countP_cons_of_pos rfl, List.countP_eq_zero.mpr fun n hn => ?_]
    simpa using label_of_mem_nodes hps hn
  refine parse_eq_ok_iff.mpr ⟨fileText name ps, rfl, rfl, rfl, rfl, hread.refusal, ⟨clauseNode name, ?_,
    (childText_clause name ps).symm, rfl⟩, ?_, fun _ t ht => ?_, ?_⟩
  · rw [hread.items]
    rfl
  · rw [hread.items, hcount]
    rfl
  · rw [hread.items] at ht
    exact isDeclaration_iff.mpr (hread.opened t ht)
  · rw [hread.items, hread.comments]
    exact ofNodes_fileText hps

/-- A file made of whole parts is read. -/
theorem parse_fileText (hn : IsNameText name) (hps : ∀ p ∈ ps, p.IsWhole) (filename : String)
    (strict : Bool) : SourceFile.parse filename (Utf8.encode (fileText name ps)) strict =
      .ok (fileOf filename name ps) :=
  parse_of_fileRead (fileScan hn hps).toFileRead (fun p hp => (hps p hp).toIsRead) filename strict

end Read

end GoSplice
