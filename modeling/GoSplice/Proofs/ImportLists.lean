import GoSplice.Proofs.Additions

/-!
# Imports of files

In the files of a package that began without files and was changed by regular
transforms, an added import is the last one, a pass over repeated imports leaves
the first import of each path, and everything else stays:

    addImport a q = (ok (), r) → the file read from r imports what f does,
      then a, and declares else what f does                             (addImport_afterAll)
    f.withoutRepeatedImports is a file that imports the first of each
      path, declares else what f does, and has no repeated import       (withoutRepeated_afterAll)
-/

namespace GoSplice

open Syntax GoSplice.Part

/-! ## Imports and other texts -/

/-- The names and paths that a file imports, in order. -/
def SourceFile.imports (f : SourceFile) : List (String × String) :=
  f.declarations.flatMap (·.declared.specs)

/-- The sources of the other declarations, with their doc comments, in order. -/
def SourceFile.otherTexts (f : SourceFile) : List Bytes :=
  (f.declarations.filter (!·.declared.isImport)).map fun d => (Match.mk f d).text

/-- The other declarations of a file, in order: what each declares, and its source without its doc comment. -/
def SourceFile.others (f : SourceFile) : List (Declared × Bytes) :=
  (f.declarations.filter (!·.declared.isImport)).map fun d => (d.declared, slice f.source d.start d.stop)

section Parts

variable {name : List Char} {ps : List Part}

theorem Declared.specs_moved (n : Nat) (d : Declared) : (d.moved n).specs = d.specs := by
  cases d with
  | imports specs close => simp [Declared.moved, Declared.specs, ImportSpec.moved, Function.comp_def]
  | _ => rfl

theorem Declared.isImport_moved (n : Nat) (d : Declared) : (d.moved n).isImport = d.isImport := by
  cases d <;> rfl

theorem imports_fileOf (filename : String) (name : List Char) (ps : List Part) :
    (fileOf filename name ps).imports = allSpecs ps := by
  show (spread Part.declarations (bodyStart name) ps).flatMap (·.declared.specs) = allSpecs ps
  generalize bodyStart name = o
  induction ps generalizing o with
  | nil => rfl
  | cons p ps ih =>
    rw [spread, List.flatMap_append, ih]
    congr 1
    cases p with
    | blank => rfl
    | paragraph g =>
      show (g.declared.moved _).specs ++ [] = g.declared.specs
      rw [List.append_nil, Declared.specs_moved]

/-- The texts of the paragraphs below some text. -/
theorem otherTexts_spread (hps : ∀ p ∈ ps, p.IsWhole) {f : SourceFile} {pre : List Char}
    (hf : f.source = Utf8.encode (pre ++ bodyText ps)) :
    ((spread Part.declarations (byteWidth pre) ps).filter (!·.declared.isImport)).map
      (fun d => (Match.mk f d).text) = allOtherTexts ps := by
  induction ps generalizing pre with
  | nil => rfl
  | cons p ps ih =>
    obtain ⟨hp, hps⟩ := List.forall_mem_cons.mp hps
    have hbody : bodyText (p :: ps) = p.text ++ bodyText ps := rfl
    have hsource : f.source = Utf8.encode (pre ++ p.text ++ bodyText ps) := by
      rw [hf, hbody, List.append_assoc]
    have hrest := ih hps hsource
    rw [spread, List.filter_append, List.map_append, ← byteWidth_append, hrest]
    show _ = p.otherTexts ++ allOtherTexts ps
    congr 1
    cases p with
    | blank => rfl
    | paragraph g =>
      have htext : (Match.mk f (g.declarationAt (byteWidth pre))).text = Utf8.encode g.text := by
        show slice f.source (g.declarationAt _).spliceStart (g.declarationAt _).stop = _
        rw [Paragraph.IsRead.spliceStart (Paragraph.IsWhole.toIsRead hp), stop_declarationAt, ← byteWidth_append, hf, hbody, Part.text,
          List.append_assoc, ← List.append_assoc]
        exact slice_encode pre g.text _
      show ((([g.declarationAt (byteWidth pre)]).filter _).map _) =
        if g.declared.isImport then [] else [Utf8.encode g.text]
      have hmoved : (g.declarationAt (byteWidth pre)).declared.isImport = g.declared.isImport :=
        Declared.isImport_moved _ _
      rw [List.filter_cons, hmoved]
      cases g.declared.isImport with
      | true => rfl
      | false => exact congrArg ([·]) htext

theorem otherTexts_fileOf (hps : ∀ p ∈ ps, p.IsWhole) (filename : String) (name : List Char) :
    (fileOf filename name ps).otherTexts = allOtherTexts ps :=
  otherTexts_spread hps rfl

end Parts

/-! ## The first import of each path -/

/-- The first import of each path, given the paths imported before. -/
def firstOfPaths : List String → List (String × String) → List (String × String)
  | _, [] => []
  | seen, x :: xs => (if seen.contains x.2 then [] else [x]) ++ firstOfPaths (x.2 :: seen) xs

namespace Part

variable {ps : List Part}

theorem specs_withoutRepeated (hps : ∀ p ∈ ps, p.IsSingle) (seen : List String) :
    allSpecs (withoutRepeated seen ps) = firstOfPaths seen (allSpecs ps) := by
  induction ps generalizing seen with
  | nil => rfl
  | cons p ps ih =>
    obtain ⟨hp, hps⟩ := List.forall_mem_cons.mp hps
    have hrest := ih hps (p.imported ++ seen)
    show (p.deduped seen).specs ++ allSpecs (withoutRepeated (p.imported ++ seen) ps) =
      firstOfPaths seen (p.specs ++ allSpecs ps)
    rw [hrest]
    cases p with
    | blank => rfl
    | paragraph g =>
      cases hd : g.declared with
      | imports specs close =>
        obtain ⟨n, q, -, -, rfl⟩ := Paragraph.IsSingle.imports hp specs close hd
        have hany : (importedBy (importParagraph n q).declared).any seen.contains =
            seen.contains (String.ofList q) := Bool.or_false _
        show _ = (if seen.contains (String.ofList q) then [] else [(String.ofList n, String.ofList q)]) ++ _
        rw [deduped, hany]
        by_cases hseen : seen.contains (String.ofList q)
        · rw [if_pos hseen, if_pos hseen]
          rfl
        · rw [if_neg hseen, if_neg hseen]
          rfl
      | _ =>
        unfold deduped imported specs
        dsimp only
        rw [hd]
        show g.declared.specs ++ _ = _
        rw [hd]
        rfl

/-- What imports no path twice is left alone, whatever part of what was imported is known. -/
theorem withoutRepeated_again {seen seen' : List String} (h : ∀ x ∈ seen', x ∈ seen) (ps : List Part) :
    withoutRepeated seen' (withoutRepeated seen ps) = withoutRepeated seen ps := by
  induction ps generalizing seen seen' with
  | nil => rfl
  | cons p ps ih =>
    show (p.deduped seen).deduped seen' :: withoutRepeated ((p.deduped seen).imported ++ seen')
      (withoutRepeated (p.imported ++ seen) ps) = _
    have hdeduped : (p.deduped seen).deduped seen' = p.deduped seen ∧
        ∀ x ∈ (p.deduped seen).imported, x ∈ p.imported := by
      cases p with
      | blank => exact ⟨rfl, fun _ h => h⟩
      | paragraph g =>
        rw [deduped]
        by_cases hany : (importedBy g.declared).any seen.contains
        · rw [if_pos hany]
          exact ⟨rfl, List.forall_mem_nil _⟩
        · rw [if_neg hany]
          refine ⟨?_, fun _ h => h⟩
          have hnone : ¬ (importedBy g.declared).any seen'.contains := by
            intro hany'
            rw [List.any_eq_true] at hany hany'
            obtain ⟨x, hx, hmem⟩ := hany'
            exact hany ⟨x, hx, List.contains_iff_mem.mpr (h x (List.contains_iff_mem.mp hmem))⟩
          rw [deduped, if_neg hnone]
    rw [hdeduped.1, ih fun x hx => ?_]
    · rfl
    · rcases List.mem_append.mp hx with hx | hx
      · exact List.mem_append_left _ (hdeduped.2 x hx)
      · exact List.mem_append_right _ (h x hx)

end Part

/-! ## Files of packages -/

namespace Package

section Regular

variable {p q r : Package} {layers : Layers} {modulePath directory : String} {settings : Settings}
  {formatter : Formatter} {ts : List Transform} {f : SourceFile}

/-- An import that was added to a file of a package that began without files is its last import. -/
theorem addImport_afterAll (hin : layers.input = .memory .empty) (hout : layers.output = .memory .empty)
    (hp : create layers modulePath directory settings formatter = .ok p)
    (hname : IsIdentifier p.nameOfPath.toList) (hts : ∀ t ∈ ts, IsRegular t)
    (hload : load (afterAll ts p) = (.ok (), q)) (hf : f ∈ q.files) {a : ImportAddition}
    (hfile : a.filename = f.filename) (hlocal : IsImportName a.name.toList)
    (hpath : IsPlainText a.path.toList) (h : addImport a q = (.ok (), r)) :
    ∃ f', r.read f.filename = .ok f'.source ∧
      SourceFile.parse f.filename f'.source true = .ok f' ∧
      f'.imports = f.imports ++ [(a.name, a.path)] ∧ f'.otherTexts = f.otherTexts := by
  obtain ⟨q', parts, hload', hq⟩ := load_afterAll hin hout hp hname hts
  rw [hload, Prod.mk.injEq] at hload'
  obtain rfl := hload'.2
  obtain ⟨x, hplain, hx, he⟩ := hq.files f hf
  have hmember : q.files.file? a.filename = some (fileOf a.filename p.nameOfPath.toList (parts x)) := by
    rw [hfile, ← he]
    exact (load_eq_ok hload).file?_eq hf
  obtain ⟨ps, hok, hsame, hspecs⟩ := withImport_fileOf hmember (hfile ▸ hq.contents _ x hplain hx)
    (hq.single x) hlocal hpath
  have hwhole : ∀ b ∈ ps, b.IsWhole := fun b hb => (hsame.single b hb).isWhole
  rw [addImport_eq, hok] at h
  obtain ⟨-, y, hy, hw⟩ := written_of_write hq.inMemory h
  refine ⟨fileOf f.filename p.nameOfPath.toList ps, hfile ▸ hw.read hy,
    parse_fileText hname.isNameText hwhole _ _, ?_, ?_⟩
  · rw [he, imports_fileOf, imports_fileOf, hspecs]
  · rw [he, otherTexts_fileOf hwhole, otherTexts_fileOf fun b hb => (hq.single x b hb).isWhole,
      hsame.otherTexts]

/-- Without its repeated imports a file of a package that began without files imports each path
once, under the name it first had, and is otherwise the same. -/
theorem withoutRepeated_afterAll (hin : layers.input = .memory .empty)
    (hout : layers.output = .memory .empty)
    (hp : create layers modulePath directory settings formatter = .ok p)
    (hname : IsIdentifier p.nameOfPath.toList) (hts : ∀ t ∈ ts, IsRegular t)
    (hload : load (afterAll ts p) = (.ok (), q)) (hf : f ∈ q.files) :
    ∃ f', SourceFile.parse f.filename f.withoutRepeatedImports true = .ok f' ∧
      f'.imports = firstOfPaths [] f.imports ∧ f'.otherTexts = f.otherTexts ∧
      f'.withoutRepeatedImports = f'.source := by
  obtain ⟨q', parts, hload', hq⟩ := load_afterAll hin hout hp hname hts
  rw [hload, Prod.mk.injEq] at hload'
  obtain rfl := hload'.2
  obtain ⟨x, -, -, he⟩ := hq.files f hf
  have hsame := sameButImports_withoutRepeated (hq.single x) []
  have hwhole : ∀ b ∈ withoutRepeated [] (parts x), b.IsWhole := fun b hb => (hsame.single b hb).isWhole
  refine ⟨fileOf f.filename p.nameOfPath.toList (withoutRepeated [] (parts x)), ?_, ?_, ?_, ?_⟩
  · conv => lhs; rw [he]
    rw [withoutRepeatedImports_fileOf (hq.single x)]
    exact parse_fileText hname.isNameText hwhole _ _
  · rw [he, imports_fileOf, imports_fileOf, specs_withoutRepeated (hq.single x)]
  · rw [he, otherTexts_fileOf hwhole, otherTexts_fileOf fun b hb => (hq.single x b hb).isWhole,
      hsame.otherTexts]
  · rw [withoutRepeatedImports_fileOf hsame.single, withoutRepeated_again fun _ h => h]
    rfl

end Regular

end Package

end GoSplice
