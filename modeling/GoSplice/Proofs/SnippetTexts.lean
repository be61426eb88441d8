import GoSplice.Proofs.Snippets
import Mathlib.Data.List.Forall2

/-!
# The texts of transforms

A snippet is taken apart without loss: its declarations stand for its transforms,
one by one, and the text of an added declaration is a snippet for it alone, if
the items of the snippet end with their lines:

    parse f text = ok ts → ts is what the declarations of text stand for, in order
    .add a ∈ ts → parse f (a.text ++ "\n") = ok [.add a]                  (parse_decomposes)
-/

namespace GoSplice

open Syntax GoSplice.Part

/-! ## Items and declarations -/

namespace Declaration

/-- There is a declaration for each item that is no package clause, in its place. -/
theorem ofSiblings_places {source : Bytes} {comments : List Comment} {lines : LineIndex}
    {before after : List Sibling} {ds : List Declaration}
    (h : ofSiblings source comments lines before after = .ok ds) :
    ds.map (fun d => (d.start, d.stop)) = ((after.filterMap Sibling.node?).filter
      (·.label != .packageClause)).map fun t => (t.start, t.stop) := by
  induction after generalizing before ds with
  | nil =>
    cases h
    rfl
  | cons x after ih =>
    cases x with
    | comment c => exact ih h
    | item t =>
      unfold ofSiblings at h
      dsimp only at h
      rw [List.filterMap_cons_some (show Sibling.node? (.item t) = some t from rfl)]
      split at h
      · next hl =>
        rw [List.filter_cons_of_neg (by simp [hl])]
        exact ih h
      · next hl =>
        cases hd : declaredBy source comments t with
        | error e => rw [hd] at h; cases h
        | ok d =>
          cases hrest : ofSiblings source comments lines (.item t :: before) after with
          | error e => rw [hd, hrest] at h; cases h
          | ok rest =>
            rw [hd, hrest] at h
            cases h
            rw [List.filter_cons_of_pos (by simpa using hl), List.map_cons, List.map_cons, ih hrest]

end Declaration

/-- The items of a text that are no package clause. -/
def topLevel (s : List Char) : List Node :=
  (textItems s).nodes.filter (·.label != .packageClause)

theorem Parsed.places {filename : String} {source : Bytes} {strict : Bool} {f : SourceFile}
    {s : List Char} (h : Parsed filename source strict f s) :
    f.declarations.map (fun d => (d.start, d.stop)) = (topLevel s).map fun t => (t.start, t.stop) := by
  have hplaces := Declaration.ofSiblings_places h.declarations
  rw [Declaration.filterMap_siblings] at hplaces
  exact hplaces

theorem forall₂_of_mapM {α β ε : Type} {f : α → Except ε β} {R : α → β → Prop}
    (hf : ∀ x y, f x = .ok y → R x y) {xs : List α} {ys : List β} (h : xs.mapM f = .ok ys) :
    List.Forall₂ R xs ys := by
  induction xs generalizing ys with
  | nil =>
    cases h
    exact .nil
  | cons x xs ih =>
    obtain ⟨y, ys, hx, hxs, rfl⟩ := mapM_cons_eq_ok h
    exact .cons (hf x y hx) (ih hxs)

namespace Snippet

/-! ## Declarations that stand for the same -/

/-- What a declaration stands for depends on its text and on what it declares, wherever it is. -/
theorem transformsOf_moved {filename : String} {source source' : Bytes} {d d' : Declaration}
    {e : Declared} {n n' : Nat} {a : Addition} (hd : d.declared = e.moved n) (hd' : d'.declared = e.moved n')
    (htext : declarationText source' d' = declarationText source d)
    (h : transformsOf filename source d = .ok [.add a]) :
    transformsOf filename source' d' = .ok [.add a] := by
  unfold transformsOf at h ⊢
  rw [hd] at h
  rw [hd', htext]
  cases e with
  | imports specs close =>
    cases specs with
    | nil => cases h
    | cons s specs => cases h
  | func | value | type | other => exact h

/-! ## Declarations alone -/

section Alone

variable {g : Paragraph}

/-- The text of a paragraph as it stands where snippets are read. -/
def aloneText (g : Paragraph) : List Char := fileText "snippet__".toList [.blank, .paragraph g]

theorem aloneText_eq (g : Paragraph) :
    aloneText g = "package snippet__\n\n".toList ++ (g.text ++ ['\n']) := by
  rw [aloneText, fileText_eq]
  simp [bodyText, Part.text]

theorem isNameText_header : IsNameText "snippet__".toList := by
  have hall : "snippet__".toList.all Text.isWordChar := by decide
  exact ⟨⟨⟨'s', "nippet__".toList, rfl, by decide⟩, List.all_eq_true.mp hall⟩, by decide⟩

theorem parse_alone (hg : g.IsRead) (filename : String) (strict : Bool) :
    SourceFile.parse filename (Utf8.encode (aloneText g)) strict =
      .ok (fileOf filename "snippet__".toList [.blank, .paragraph g]) := by
  have hclause : FileScan "snippet__".toList [.blank] :=
    fileScan isNameText_header (List.forall_mem_singleton.mpr trivial)
  exact parse_of_fileRead (hclause.lastParagraph hg)
    (List.forall_mem_cons.mpr ⟨trivial, List.forall_mem_singleton.mpr hg⟩) filename strict

/-- The text that a snippet takes out of a paragraph is the paragraph. -/
theorem declarationText_declarationAt (hg : g.IsRead) (htight : g.IsTight) (pre post : List Char) :
    declarationText (Utf8.encode (pre ++ (g.text ++ post))) (g.declarationAt (byteWidth pre)) =
      String.ofList g.text := by
  have htext : pre ++ (g.text ++ post) = pre ++ texts g.doc ++ texts g.code ++ post := by
    rw [Paragraph.text, texts_append]
    simp only [List.append_assoc]
  have hcode : slice (Utf8.encode (pre ++ (g.text ++ post))) (g.declarationAt (byteWidth pre)).start
      (g.declarationAt (byteWidth pre)).stop = Utf8.encode (texts g.code) := by
    have hslice := slice_encode (pre ++ texts g.doc) (texts g.code) post
    rw [byteWidth_append, byteWidth_append, byteWidth_append] at hslice
    rw [htext]
    exact hslice
  rcases htight with hnone | ⟨d, l, hdoc, hl⟩
  · have hbare : (g.declarationAt (byteWidth pre)).doc = none := by
      rw [Paragraph.declarationAt, Paragraph.docComments, hnone]
      rfl
    unfold declarationText
    rw [hcode, hbare]
    dsimp only
    rw [textOf_encode, Paragraph.text, hnone, List.nil_append]
  · have hlast : (place 0 none g.doc).comments.getLast? =
        some ⟨byteWidth (texts d), byteWidth (texts (d ++ [l]))⟩ := by
      have hend : (place (0 + byteWidth (texts d)) none [l, ⟨.newline, ['\n']⟩]).comments =
          [⟨byteWidth (texts d), byteWidth (texts (d ++ [l]))⟩] := by
        rw [Nat.zero_add, place]
        dsimp only
        rw [hl]
        simp [place, texts_append, byteWidth_append]
      rw [hdoc, place_comments_append, hend, List.getLast?_concat]
    have hrange : (g.declarationAt (byteWidth pre)).doc =
        some ⟨byteWidth pre, byteWidth (texts (d ++ [l])) + byteWidth pre⟩ := by
      rw [Paragraph.declarationAt, Paragraph.docComments, hlast]
      rfl
    have hmem : l ∈ lexemes g.text := by
      rw [hg.declaration.lexemes_eq, hdoc]
      simp
    have hslice : slice (Utf8.encode (pre ++ (g.text ++ post))) (byteWidth pre)
        (byteWidth (texts (d ++ [l])) + byteWidth pre) = Utf8.encode (texts (d ++ [l])) := by
      have hslice := slice_encode pre (texts (d ++ [l])) ('\n' :: texts g.code ++ post)
      rw [byteWidth_append, Nat.add_comm] at hslice
      rw [htext, hdoc]
      simpa [texts_append] using hslice
    rw [declarationText_eq hmem hl hrange hslice hcode, Paragraph.text, hdoc]

/-- A paragraph is a snippet that stands for what it declares. -/
theorem parse_text (hg : g.IsRead) (htight : g.IsTight) {filename : String} {source : Bytes} {d : Declaration}
    {n : Nat} {a : Addition} (hd : d.declared = g.declared.moved n)
    (htext : declarationText source d = String.ofList g.text)
    (h : transformsOf filename source d = .ok [.add a]) :
    parse filename (String.ofList g.text ++ "\n") = .ok [.add a] := by
  have hsource : bytesOf (header ++ (String.ofList g.text ++ "\n")) = Utf8.encode (aloneText g) := by
    rw [aloneText_eq]
    show Utf8.encode (header ++ (String.ofList g.text ++ "\n")).toList = _
    simp [header]
  have hdecls : (fileOf filename "snippet__".toList [.blank, .paragraph g]).declarations =
      [g.declarationAt (byteWidth "package snippet__\n\n".toList)] := rfl
  have hread : transformsOf filename (Utf8.encode (aloneText g))
      (g.declarationAt (byteWidth "package snippet__\n\n".toList)) = .ok [.add a] := by
    refine transformsOf_moved hd rfl ?_ h
    rw [aloneText_eq, declarationText_declarationAt hg htight, htext]
  unfold parse
  dsimp only
  rw [hsource, parse_alone hg]
  show (do
    let groups ← (fileOf filename "snippet__".toList [.blank, .paragraph g]).declarations.mapM
      (transformsOf filename (Utf8.encode (aloneText g)))
    return groups.flatten : Except PatchError _) = _
  rw [hdecls, List.mapM_cons, hread]
  rfl

end Alone

/-! ## Snippets taken apart -/

/-- The transforms of a snippet are what its declarations stand for, in order, and these are its
items but for package clauses; if the items end with their lines, the text of each added
declaration, and a line end, is a snippet that stands for the same. -/
theorem parse_decomposes {filename text : String} {ts : List Transform} (h : parse filename text = .ok ts) :
    (∃ f groups, SourceFile.parse filename (bytesOf (header ++ text)) false = .ok f ∧
      f.declarations.map (fun d => (d.start, d.stop)) =
        (topLevel (header ++ text).toList).map (fun t => (t.start, t.stop)) ∧
      List.Forall₂ (StandsFor filename (bytesOf (header ++ text))) f.declarations groups ∧
      ts = groups.flatten) ∧
    (EndsByLine (header ++ text).toList →
      ∀ a, .add a ∈ ts → parse filename (a.text ++ "\n") = .ok [.add a]) := by
  obtain ⟨f, groups, hf, hgroups, rfl⟩ := parse_eq_ok h
  obtain ⟨s, hs⟩ := parse_eq_ok_iff.mp hf
  obtain rfl : (header ++ text).toList = s := Utf8.encode_injective hs.encode_eq
  refine ⟨⟨f, groups, hf, hs.places, forall₂_of_mapM (fun _ _ => standsFor_of_transformsOf) hgroups, rfl⟩,
    fun hends a ha => ?_⟩
  obtain ⟨group, hgroup, ha⟩ := List.mem_flatten.mp ha
  obtain ⟨d, hd, hg⟩ := (mem_of_mapM hgroups).2 group hgroup
  obtain ⟨g, hread, htight, -, ⟨n, hdeclared⟩, htext⟩ :=
    exists_paragraph hs hends (isOpened_of_transforms hs hgroups) hd
  cases standsFor_of_transformsOf hg with
  | imports specs close hspecs =>
    obtain ⟨x, -, hx⟩ := List.mem_map.mp ha
    cases hx
  | add subject hsubject =>
    rw [List.mem_singleton, Transform.add.injEq] at ha
    subst ha
    show parse filename (declarationText (bytesOf (header ++ text)) d ++ "\n") = _
    have hparse := parse_text hread htight hdeclared htext hg
    rw [htext] at hparse ⊢
    exact hparse

/-- Two imports, a function with comments around it and a semicolon inside, and two constants. -/
def mixedSnippet : String :=
  "import (\n\t\"fmt\"\n\tm \"math\"\n)\n\n/* F */ // loops.\nfunc F() \x7b f(); g() \x7d // done\n\nconst A, B = 1, 2\n"

theorem mixedSnippet_decomposes : ∃ ts, parse "a.go" mixedSnippet = .ok ts ∧ ts.length = 4 ∧
    (∃ f groups, SourceFile.parse "a.go" (bytesOf (header ++ mixedSnippet)) false = .ok f ∧
      f.declarations.map (fun d => (d.start, d.stop)) =
        (topLevel (header ++ mixedSnippet).toList).map (fun t => (t.start, t.stop)) ∧
      List.Forall₂ (StandsFor "a.go" (bytesOf (header ++ mixedSnippet))) f.declarations groups ∧
      ts = groups.flatten) ∧
    ∀ a, .add a ∈ ts → parse "a.go" (a.text ++ "\n") = .ok [.add a] := by
  have hlength : (parse "a.go" mixedSnippet).toOption.map List.length = some 4 := by decide +kernel
  have hends : EndsByLine (header ++ mixedSnippet).toList := by
    unfold EndsByLine
    decide +kernel
  cases hts : parse "a.go" mixedSnippet with
  | error e =>
    rw [hts] at hlength
    cases hlength
  | ok ts =>
    rw [hts] at hlength
    obtain ⟨hparts, hstable⟩ := parse_decomposes hts
    exact ⟨ts, rfl, Option.some.inj hlength, hparts, hstable hends⟩

end Snippet

end GoSplice
