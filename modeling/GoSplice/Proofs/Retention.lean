import GoSplice.Proofs.Batches
import GoSplice.Proofs.Coverings
import GoSplice.Proofs.ExistingFiles
import GoSplice.Proofs.Validity
import GoSplice.Proofs.ValueGroups
import Mathlib.Data.List.Infix

/-!
# Declarations that a snippet adds

No declaration of a snippet gets lost: behind a run that succeeds its text is in
the file, as it was given, or the package had a declaration of the same identity
when the turn of this one came.

    applyTransforms (us ++ .add a :: vs) p = (ok (), r) →
      a declaration was there behind us, or r.read filename = ok data, a.text in data
                                                                 (applyTransforms_retains)

Identities are receivers and names of functions, names of types, and any name of a
group of values: `init` and the blank identifier are names as others are.
-/

namespace GoSplice

open Syntax Syntax.Segment

/-! ## New files -/

namespace Syntax

theorem Kind.isSound_ofWord (s : List Char) : (Kind.ofWord s).isSound := by
  unfold Kind.ofWord
  dsimp only
  split
  · rfl
  · split
    · rfl
    · split <;> rfl

/-- Blank lines alone. -/
theorem compact_lines (n : Nat) : Compact (List.replicate n ⟨.newline, ['\n']⟩) := by
  induction n with
  | zero => exact ⟨fun _ => rfl, List.forall_mem_nil _, rfl⟩
  | succ n ih => exact ih.line

theorem bodyText_blanks (n : Nat) : Part.bodyText (List.replicate n .blank) = List.replicate n '\n' := by
  induction n with
  | zero => rfl
  | succ n ih => exact congrArg ('\n' :: ·) ih

theorem texts_lines (n : Nat) : texts (List.replicate n ⟨.newline, ['\n']⟩) = List.replicate n '\n' := by
  induction n with
  | zero => rfl
  | succ n ih => exact congrArg ('\n' :: ·) ih

/-- The package clause of a new file ends behind its stretches. -/
theorem clauseNode_stop (name : List Char) (ps : List Part) :
    (clauseNode name).stop = byteWidth (orderMark (fileText name ps) ++ texts (clauseStretches name)) := by
  have htexts : texts (clauseStretches name) = "package ".toList ++ name := by simp [clauseStretches, space]
  have hmark : orderMark (fileText name ps) = [] := by
    rw [fileText_eq]
    rfl
  rw [htexts, hmark, List.nil_append, byteWidth_append]
  rfl

/-- A package line and blank lines below it. -/
theorem tailed_clause {name : List Char} (hn : IsWordText name) (n : Nat) :
    Tailed (fileText name (List.replicate n .blank))
      (clauseStretches name ++ ⟨.newline, ['\n']⟩ :: List.replicate n ⟨.newline, ['\n']⟩) [] := by
  have hfile : fileText name (List.replicate n .blank) =
      texts (clauseStretches name) ++ texts (⟨.newline, ['\n']⟩ :: List.replicate n ⟨.newline, ['\n']⟩) := by
    rw [fileText, clauseLine, bodyText_blanks, ← texts_lines, List.append_assoc]
    rfl
  have hlexemes : stretches (fileText name (List.replicate n .blank)) =
      clauseStretches name ++ ⟨.newline, ['\n']⟩ :: List.replicate n ⟨.newline, ['\n']⟩ := by
    have hlines := (compact_lines n).line.lexemes_eq []
    rw [List.append_nil, lexemes_nil, List.append_nil] at hlines
    have hcut := lexemes_clause hn (y := texts (⟨.newline, ['\n']⟩ :: List.replicate n ⟨.newline, ['\n']⟩))
      (by rintro c ⟨⟩; decide)
    rw [hlines] at hcut
    rw [stretches_eq, hfile]
    exact hcut
  have hall : ∀ l ∈ clauseStretches name ++ ⟨.newline, ['\n']⟩ :: List.replicate n ⟨.newline, ['\n']⟩, l.cls.isSound := by
    rw [clauseStretches, List.forall_mem_append]
    exact ⟨List.forall_mem_cons.mpr ⟨rfl, List.forall_mem_cons.mpr ⟨rfl, List.forall_mem_singleton.mpr
      (Kind.isSound_ofWord name)⟩⟩, (compact_lines n).line.isSound⟩
  refine ⟨hlexemes.trans (List.append_nil _).symm, by rwa [List.append_nil],
    opensComment_line (opensComment_clause hn) (compact_lines n).closed,
    ⟨clauseStretches name ++ List.replicate n ⟨.newline, ['\n']⟩, ?_⟩, .inl rfl, .nil, .inr ?_⟩
  · rw [← List.replicate_succ, List.replicate_succ', List.append_assoc]
  · exact ⟨[⟨.token (.keyword .packageK), "package".toList⟩, space], ⟨.token (.ofWord name), name⟩, [], _, [], _,
      rfl, rfl, List.not_mem_nil, rfl, List.not_mem_nil⟩

end Syntax

namespace Package

variable {p q r : Package}

/-- A name of a package is a word, and a line end may follow it. -/
theorem wordText_of_isName {s : List Char} (h : isName s) :
    ∃ w n, IsWordText w ∧ s = w ++ List.replicate n '\n' := by
  obtain ⟨c, r, hc, hr, hs⟩ := exists_word_of_isName h
  have hword := isWordText_of_isNameStart hc hr
  rcases hs with rfl | rfl
  · exact ⟨_, 0, hword, (List.append_nil _).symm⟩
  · exact ⟨_, 1, hword, rfl⟩

/-- A new file of a loaded package is its package line and blank lines. -/
theorem Loaded.exists_newFile (h : Loaded p q) :
    ∃ w n, IsWordText w ∧ q.newFile = Utf8.encode (fileText w (List.replicate (n + 1) .blank)) := by
  obtain ⟨w, n, hw, hname⟩ := wordText_of_isName (deriveName_eq_ok.mp h.localName).2
  refine ⟨w, n, hw, ?_⟩
  have hlines : List.replicate n '\n' ++ '\n' :: Part.bodyText [.blank] = '\n' :: List.replicate (n + 1) '\n' :=
    List.replicate_append_replicate (m := 2)
  rw [newFile_eq String.ofList_toList.symm, hname, fileText_eq, fileText_eq, bodyText_blanks, ← hlines]
  simp only [List.append_assoc]

/-! ## Files with declarations at their end -/

/-- Whether a file of a package ends with some stretches, or is not there if there are none. -/
inductive EndsWith (p : Package) (filename : String) : List Lexeme → Prop
  | absent : (∀ data, p.read filename ≠ .ok data) → EndsWith p filename []
  | there {s : List Char} {a b : List Lexeme} : p.read filename = .ok (Utf8.encode s) → Tailed s a b →
      EndsWith p filename b

section EndsWith

variable {filename : String} {b : List Lexeme}

theorem EndsWith.of_read (h : EndsWith p filename b) (hread : q.read filename = p.read filename) :
    EndsWith q filename b := by
  cases h with
  | absent hnone => exact .absent (by rwa [hread])
  | there hdata htailed => exact .there (hread.trans hdata) htailed

/-- A file that is not there is not loaded either, and is a new one. -/
theorem Loaded.file?_of_missing (hl : Loaded p q) (h : ∀ data, p.read filename ≠ .ok data) :
    q.files.file? filename = none ∧ q.contentsOrNew filename = q.newFile := by
  have hnone : ∀ f ∈ q.files, f.filename ≠ filename := fun f hf hname => h _ (hname ▸ (hl.files f hf).1)
  exact ⟨List.find?_eq_none.mpr fun f hf => by simpa using hnone f hf, hl.contentsOrNew_of_notMem hnone⟩

/-- A loaded file that ends with stretches, as it is read. -/
theorem Loaded.exists_outline_of_read (hp : p.OverTrees) (hl : Loaded p q) (hn : IsFileName filename) {s : List Char}
    (hread : p.read filename = .ok (Utf8.encode s)) : ∃ f lead gs, q.files.file? filename = some f ∧
      q.contentsOrNew filename = Utf8.encode s ∧ Parsed filename (Utf8.encode s) true f s ∧ Outline s lead gs := by
  obtain ⟨f, hf, rfl, hsource⟩ := hl.exists_file_of_read hp hn hread
  obtain ⟨s', hs⟩ := parse_eq_ok_iff.mp (hl.files f hf).2
  rw [hsource] at hs
  obtain rfl := Utf8.encode_injective hs.encode_eq
  obtain ⟨lead, gs, ho⟩ := hs.exists_outline
  exact ⟨f, lead, gs, hl.file?_eq hf, (hl.contentsOrNew_of_mem hf).trans hsource, hs, ho⟩

/-- Whether a text covers a file, if the file is there. -/
def CoversFile (p : Package) (filename : String) (s' : List Char) : Prop :=
  ∀ s, p.read filename = .ok (Utf8.encode s) → ∃ lead gs, Outline s lead gs ∧
    ∀ lead' hs, Outline s' lead' hs → Covers gs hs

theorem coversFile_of_missing (h : ∀ data, p.read filename ≠ .ok data) (s' : List Char) : p.CoversFile filename s' :=
  fun _ hread => absurd hread (h _)

/-- What a loaded package has for a file, new or not, ends with the stretches; and it has an outline,
if it is there, or is read with something behind it. -/
theorem EndsWith.contents (h : EndsWith p filename b) (hp : p.OverTrees) (hl : Loaded p q) (hn : IsFileName filename) :
    ∃ s a, q.contentsOrNew filename = Utf8.encode s ∧ Tailed s a b ∧
      (∀ s', p.read filename = .ok (Utf8.encode s') → s' = s ∧ ∃ lead gs, Outline s lead gs) ∧
      ∀ source f t, Parsed filename source true f (s ++ t) → ∃ lead gs, Outline s lead gs := by
  cases h with
  | there hread htailed =>
    obtain ⟨f, lead, gs, -, hcontents, -, ho⟩ := hl.exists_outline_of_read hp hn hread
    refine ⟨_, _, hcontents, htailed, fun s' hread' => ⟨?_, lead, gs, ho⟩, fun _ _ _ _ => ⟨lead, gs, ho⟩⟩
    exact Utf8.encode_injective (Except.ok.inj (hread'.symm.trans hread))
  | absent hnone =>
    obtain ⟨w, n, hw, hnew⟩ := hl.exists_newFile
    exact ⟨_, _, (hl.file?_of_missing hnone).2.trans hnew, tailed_clause hw (n + 1),
      fun s' hread => absurd hread (hnone _), fun _ _ _ hparsed => hparsed.exists_outline_new hw⟩

/-- A loaded file with an import ends with the stretches that it ended with, covers the file, and
imports the path. -/
theorem EndsWith.withImport {i : ImportAddition} (h : EndsWith p i.filename b) (hp : p.OverTrees) (hl : Loaded p q)
    (hn : IsFileName i.filename) (hname : IsImportName i.name.toList) (hpath : IsPlainText i.path.toList) :
    ∃ s a, q.withImport i = .ok (Utf8.encode s) ∧ Tailed s a b ∧ p.CoversFile i.filename s ∧
      ∀ lead hs, Outline s lead hs → i.path ∈ hs.flatMap paths := by
  cases h with
  | there hread htailed =>
    obtain ⟨f, lead, gs, hfile, hcontents, hparsed, ho⟩ := hl.exists_outline_of_read hp hn hread
    obtain ⟨s', a', heq, htailed, hcovers⟩ := htailed.withImport hparsed ho hfile hcontents hname hpath
    refine ⟨s', a', heq, htailed, fun s hread' => ?_, fun lead' hs ho' => (hcovers lead' hs ho').2⟩
    obtain rfl := Utf8.encode_injective (Except.ok.inj (hread.symm.trans hread'))
    exact ⟨lead, gs, ho, fun lead' hs ho' => (hcovers lead' hs ho').1⟩
  | absent hnone =>
    obtain ⟨hfile, hcontents⟩ := hl.file?_of_missing hnone
    obtain ⟨w, n, hw, hnew⟩ := hl.exists_newFile
    obtain ⟨heq, htailed⟩ := (tailed_clause hw (n + 1)).importAfterClause hname hpath rfl
    rw [← clauseNode_stop] at heq
    refine ⟨_, _, ?_, htailed, coversFile_of_missing hnone _, fun lead hs ho => ?_⟩
    · unfold Package.withImport
      simp only [hfile, hcontents, hnew, packageLineEnd?_fileText hw, importText_eq, heq]
    · have hn := ho.isNameText hw (htailed.stretches_eq.trans (List.append_assoc _ _ _))
      have hclause : .keyword .importK ∉ kindsOf (clauseStretches w ++ [⟨.newline, ['\n']⟩, ⟨.newline, ['\n']⟩]) := by
        show .keyword .importK ∉ [.keyword .packageK, Kind.ofWord w]
        intro hmem
        have hkind := hn.kind
        rw [← (List.mem_singleton.mp ((List.mem_cons.mp hmem).resolve_left nofun))] at hkind
        revert hkind
        decide
      have hmem := ho.mem_paths_first hname hpath (y := ⟨.newline, ['\n']⟩ :: ⟨.newline, ['\n']⟩ ::
        List.replicate (n + 1) ⟨.newline, ['\n']⟩) (htailed.stretches_eq.trans (by simp)) hclause
      rwa [String.ofList_toList] at hmem

/-- A file that was written ends with what it was written with. -/
theorem endsWith_of_write {s : List Char} {a : List Lexeme} (hq : q.OverTrees) (ht : Tailed s a b)
    (h : write filename (Utf8.encode s) q = (.ok (), r)) : r.OverTrees ∧ EndsWith r filename b :=
  ⟨hq.write h, .there (read_of_write h) ht⟩

/-- A text that was put to the end of a file is in the file. -/
theorem EndsWith.exists_infix {t : List Char} {c : List Lexeme} (h : EndsWith p filename (b ++ lexemes t ++ c))
    (ht : lexemes t ≠ []) : ∃ data, p.read filename = .ok data ∧ Utf8.encode t <:+: data := by
  generalize hd : b ++ lexemes t ++ c = d at h
  cases h with
  | absent =>
    rw [List.append_eq_nil_iff, List.append_eq_nil_iff] at hd
    exact absurd hd.1.2 ht
  | @there s a _ hread htailed =>
    refine ⟨_, hread, Utf8.encode (orderMark s ++ texts (a ++ b)), Utf8.encode (texts c), ?_⟩
    conv => rhs; rw [← orderMark_append_texts s, htailed.stretches_eq, ← hd]
    simp only [texts_append, texts_lexemes, Utf8.encode_append, List.append_assoc]

/-! ## Transforms -/

/-- Whether a loaded package has a declaration that what is to be added counts as. -/
def HasAlready (q : Package) (a : Addition) : Prop :=
  ∃ f ∈ q.files, ∃ d ∈ f.declarations, a.subject.isDeclaredBy d.declared ∧ exceeds a d.declared = none

/-- Stretches that begin a comment begin it before the end of a file, or behind it. -/
theorem EndsWith.opensComment_cases (h : EndsWith p filename b) {c : List Lexeme} (ho : opensComment (b ++ c)) :
    opensComment b ∨ opensComment c := by
  cases h with
  | absent => exact .inr ho
  | there _ htailed =>
    rcases htailed.tailLine with rfl | ⟨x, rfl⟩
    · exact .inr ho
    · by_contra hnone
      obtain ⟨hb, hc⟩ := not_or.mp hnone
      have hx : opensComment x = false := Bool.eq_false_iff.mpr fun hx => hb (opensComment_append _ hx)
      rw [List.append_assoc, List.singleton_append, opensComment_line hx (Bool.eq_false_iff.mpr hc)] at ho
      cases ho

/-- A declaration is added to the end of its file, or the package has it already. -/
theorem EndsWith.addDeclaration {a : Addition} (h : EndsWith p a.filename b) (hp : p.OverTrees) (hl : Loaded p q)
    (hn : IsFileName a.filename) (hreplace : a.replace = false) (ht : TailText a.text.toList)
    (hopen : opensComment b → blockCommentLength? (a.text.toList ++ ['\n']) = none)
    (hrun : addDeclaration a q = (.ok (), r)) :
    r = q ∧ q.HasAlready a ∨
      r.OverTrees ∧ EndsWith r a.filename (b ++ lexemes (a.text.toList ++ ['\n'])) := by
  rcases addDeclaration_eq_ok.mp hrun with ⟨-, happend⟩ | ⟨hm, hexceeds, -, rfl⟩ | ⟨-, -, htrue, -, -, -⟩
  · right
    obtain ⟨s, c, hcontents, htailed, -⟩ := h.contents hp hl hn
    have hdata : Utf8.encode s ++ bytesOf a.text ++ [LineIndex.lineFeed] =
        Utf8.encode (s ++ (a.text.toList ++ ['\n'])) := by
      rw [Utf8.encode_append, Utf8.encode_append, ← List.append_assoc]
      rfl
    rw [append_eq, hcontents, hdata] at happend
    exact endsWith_of_write (hp.loaded hl) (htailed.append ht hopen) happend
  · obtain ⟨hf, hd, hsubject⟩ := mem_of_findSubject? hm
    exact .inl ⟨rfl, _, hf, _, hd, hsubject, hexceeds⟩
  · rw [hreplace] at htrue
    cases htrue

/-- Whether no text of some transforms ends a comment that stretches begin. -/
def Awaits (b : List Lexeme) (ts : List Transform) : Prop :=
  opensComment b → ∀ t ∈ ts, blockCommentLength? t.addedText = none

/-- A transform of a snippet adds stretches to those at the end of the file. -/
theorem EndsWith.applyTransform (h : EndsWith p filename b) (hp : p.OverTrees) (hn : IsFileName filename)
    {t : Transform} {ts : List Transform} (ht : t.PutsInto filename) (hawaits : Awaits b (t :: ts))
    (hbefore : ∀ u ∈ ts, t.StandsBefore u) (hrun : applyTransform t p = (.ok (), r)) :
    r.OverTrees ∧ ∃ c, EndsWith r filename (b ++ c) ∧ Awaits (b ++ c) ts := by
  obtain ⟨_, q, hload, happly⟩ := bind_eq_ok.mp hrun
  have hl := load_eq_ok hload
  have hq := hp.loaded hl
  have hrest : Awaits b ts := fun ho u hu => hawaits ho u (List.mem_cons_of_mem t hu)
  cases ht with
  | add hfilename hreplace htext =>
    subst hfilename
    rcases h.addDeclaration hp hl hn hreplace htext (fun ho => hawaits ho _ List.mem_cons_self) happly with
      ⟨rfl, -⟩ | ⟨hr, hends⟩
    · obtain ⟨hlayers, hdirectory⟩ := layers_of_load hload
      refine ⟨hq, [], ?_⟩
      rw [List.append_nil]
      exact ⟨h.of_read (read_of_layers hlayers hdirectory _), hrest⟩
    · exact ⟨hr, _, hends, fun ho u hu => (h.opensComment_cases ho).elim (hrest · u hu) (hbefore u hu)⟩
  | addImport hfilename hname hpath =>
    subst hfilename
    obtain ⟨s, a, hdata, htailed, -⟩ := h.withImport hp hl hn hname hpath
    change addImport _ q = _ at happly
    rw [addImport_eq, hdata] at happly
    obtain ⟨hr, hends⟩ := endsWith_of_write hq htailed happly
    refine ⟨hr, [], ?_⟩
    rw [List.append_nil]
    exact ⟨hends, hrest⟩

theorem EndsWith.applyTransforms (h : EndsWith p filename b) (hp : p.OverTrees) (hn : IsFileName filename)
    {ts us : List Transform} (hts : ∀ t ∈ ts, t.PutsInto filename) (hawaits : Awaits b (ts ++ us))
    (hpairwise : (ts ++ us).Pairwise Transform.StandsBefore) (hrun : applyTransforms ts p = (.ok (), r)) :
    r.OverTrees ∧ ∃ c, EndsWith r filename (b ++ c) ∧ Awaits (b ++ c) us := by
  induction ts generalizing p b with
  | nil =>
    cases hrun
    refine ⟨hp, [], ?_⟩
    rw [List.append_nil]
    exact ⟨h, hawaits⟩
  | cons t ts ih =>
    obtain ⟨ht, hts⟩ := List.forall_mem_cons.mp hts
    obtain ⟨hbefore, hpairwise⟩ := List.pairwise_cons.mp hpairwise
    obtain ⟨q, hfirst, hrest⟩ := applyTransforms_cons_eq_ok.mp hrun
    obtain ⟨hq, c, hends, hawaits⟩ := h.applyTransform hp hn ht hawaits hbefore hfirst
    obtain ⟨hr, d, hends, hawaits⟩ := ih hends hq hts hawaits hpairwise hrest
    refine ⟨hr, c ++ d, ?_⟩
    rw [← List.append_assoc]
    exact ⟨hends, hawaits⟩

end EndsWith

/-! ## Runs -/

/-- Whether imports and declarations can be put into a file as they are: it ends its last line,
no comment is left open in it, and, where it has no import, the line of its package clause ends
between two tokens. -/
structure IsReady (s : List Char) : Prop where
  lineEnd : s.getLast? = some '\n'
  closed : opensComment (stretches s) = false
  clause : .keyword .importK ∈ kindsOf (stretches s) ∨ EndsClauseLine (stretches s)

/-- A file that is ready has nothing at its end that must stay there. -/
theorem endsWith_nil {filename : String} (hp : p.OverTrees) (hl : Loaded p q) (hn : IsFileName filename)
    (hready : ∀ s, p.read filename = .ok (Utf8.encode s) → IsReady s) : EndsWith p filename [] := by
  cases hread : p.read filename with
  | error e => exact .absent fun data h => by rw [hread] at h; cases h
  | ok data =>
    obtain ⟨f, hf, rfl, rfl⟩ := hl.exists_file_of_read hp hn hread
    obtain ⟨s, hs⟩ := parse_eq_ok_iff.mp (hl.files f hf).2
    rw [hs.encode_eq] at hread
    obtain ⟨hline, hclosed, hclause⟩ := hready s hread
    exact .there hread
      (tailed_nil hline (isSound_of_mem_stretches (read_textItems hs.refusal) hs.isOpened) hclosed hclause)

theorem exists_load_of_run {ts : List Transform} (hts : ts ≠ []) (h : applyTransforms ts p = (.ok (), r)) :
    ∃ q, load p = (.ok (), q) := by
  obtain ⟨t, ts, rfl⟩ := List.exists_cons_of_ne_nil hts
  obtain ⟨q, ht, -⟩ := applyTransforms_cons_eq_ok.mp h
  obtain ⟨_, l, hload, -⟩ := bind_eq_ok.mp ht
  exact ⟨l, hload⟩

/-- A declaration that is added stays in its file while other transforms of the snippet are applied. -/
theorem EndsWith.retains {a : Addition} {vs : List Transform} {l q' : Package} {b : List Lexeme}
    (h : EndsWith q a.filename b) (hq : q.OverTrees) (hn : IsFileName a.filename)
    (hputs : ∀ t ∈ .add a :: vs, t.PutsInto a.filename) (hawaits : Awaits b (.add a :: vs))
    (hpairwise : (.add a :: vs).Pairwise Transform.StandsBefore) (hload : load q = (.ok (), l))
    (hadd : Package.addDeclaration a l = (.ok (), q')) (hvs : Package.applyTransforms vs q' = (.ok (), r)) :
    l.HasAlready a ∨ ∃ data, r.read a.filename = .ok data ∧ bytesOf (a.text ++ "\n") <:+: data := by
  obtain ⟨hputsA, hputsVs⟩ := List.forall_mem_cons.mp hputs
  obtain ⟨hbefore, hpairwise⟩ := List.pairwise_cons.mp hpairwise
  cases hputsA with
  | add _ hreplace htext =>
    rcases h.addDeclaration hq (load_eq_ok hload) hn hreplace htext (fun ho => hawaits ho _ List.mem_cons_self)
      hadd with ⟨-, hhas⟩ | ⟨hq', hends⟩
    · exact .inl hhas
    · have hrest : Awaits (b ++ lexemes (a.text.toList ++ ['\n'])) vs := fun ho u hu =>
        (h.opensComment_cases ho).elim (hawaits · u (List.mem_cons_of_mem _ hu)) (hbefore u hu)
      obtain ⟨-, c, hends, -⟩ := hends.applyTransforms hq' hn hputsVs
        (show Awaits _ (vs ++ []) by rwa [List.append_nil]) (by rwa [List.append_nil]) hvs
      obtain ⟨data, hread, hinfix⟩ := hends.exists_infix (by
        obtain ⟨x, hx⟩ := htext.line
        rw [hx]
        exact List.append_ne_nil_of_right_ne_nil x (List.cons_ne_nil _ _))
      exact .inr ⟨data, hread, by rwa [bytesOf, String.toList_append]⟩

/-- Each declaration of a snippet is in its file behind a run that succeeds, as the snippet has it,
or the package had one that it counts as when its turn came. -/
theorem applyTransforms_retains {filename snippet : String} {ts us vs : List Transform} {a : Addition}
    (hp : p.OverTrees) (hname : isSourceName filename)
    (hready : ∀ s, p.read filename = .ok (Utf8.encode s) → IsReady s)
    (hparse : Snippet.parse filename snippet = .ok ts) (hpath : ∀ t ∈ ts, t.HasPlainPath)
    (hts : ts = us ++ .add a :: vs) (hrun : applyTransforms ts p = (.ok (), r)) :
    (∃ q l, applyTransforms us p = (.ok (), q) ∧ load q = (.ok (), l) ∧ l.HasAlready a) ∨
      ∃ data, r.read filename = .ok data ∧ bytesOf (a.text ++ "\n") <:+: data := by
  have hputs : ∀ t ∈ ts, t.PutsInto filename := fun t ht => Snippet.putsInto_of_parse hparse ht (hpath t ht)
  have hpairwise := Snippet.pairwise_of_parse hparse
  subst hts
  obtain ⟨q, hus, hrest⟩ := applyTransforms_append_eq_ok.mp hrun
  obtain ⟨q', ha, hvs⟩ := applyTransforms_cons_eq_ok.mp hrest
  obtain ⟨_, l, hload, happly⟩ := bind_eq_ok.mp ha
  change addDeclaration a l = _ at happly
  obtain ⟨hputsUs, hputs⟩ := List.forall_mem_append.mp hputs
  obtain ⟨rfl, hreplace⟩ : a.filename = filename ∧ a.replace = false := by
    cases hputs _ List.mem_cons_self with
    | add hfilename hreplace => exact ⟨hfilename, hreplace⟩
  by_cases hplain : hasDirectory a.filename = false
  · have hn : IsFileName a.filename := ⟨hname, hplain⟩
    obtain ⟨l₀, hl₀⟩ := exists_load_of_run (by simp) hrun
    obtain ⟨hq, b, hends, hawaits⟩ := (endsWith_nil hp (load_eq_ok hl₀) hn hready).applyTransforms hp hn hputsUs
      nofun hpairwise hus
    exact (hends.retains hq hn hputs hawaits (List.pairwise_append.mp hpairwise).2.1 hload happly hvs).imp_left
      fun hhas => ⟨q, l, hus, hload, hhas⟩
  · -- nothing is written under such a name
    refine .inl ⟨q, l, hus, hload, ?_⟩
    rcases addDeclaration_eq_ok.mp happly with ⟨-, happend⟩ | ⟨hm, hexceeds, -, -⟩ | ⟨-, -, htrue, -, -, -⟩
    · exact absurd (write_eq_ok happend).1 hplain
    · obtain ⟨hf, hd, hsubject⟩ := mem_of_findSubject? hm
      exact ⟨_, hf, _, hd, hsubject, hexceeds⟩
    · rw [hreplace] at htrue
      cases htrue

theorem printerSnippet_retained : ∃ ts us a vs r, Snippet.parse "a.go" printerSnippet = .ok ts ∧
    ts = us ++ .add a :: vs ∧ us.length = 1 ∧
    applyTransforms ts (oneFile "package a\n\nimport \"io\"\n") = (.ok (), r) ∧
    ((∃ q l, applyTransforms us (oneFile "package a\n\nimport \"io\"\n") = (.ok (), q) ∧ load q = (.ok (), l) ∧
        l.HasAlready a) ∨
      ∃ data, r.read "a.go" = .ok data ∧ bytesOf (a.text ++ "\n") <:+: data) := by
  have hparse := parse_printerSnippet "a.go"
  have hrun : (applyTransforms [.addImport ⟨"a.go", "", "fmt"⟩,
      .add ⟨"a.go", .func "" "F", "// F prints.\nfunc F() \x7b fmt.Println() \x7d", false⟩]
      (oneFile "package a\n\nimport \"io\"\n")).1.isOk := by decide +kernel
  refine ⟨_, [_], _, [], _, hparse, rfl, rfl, eq_ok_of_isOk hrun, applyTransforms_retains (oneFile_inMemory _).overTrees
    (by decide) (fun s hs => ?_) hparse ?_ rfl (eq_ok_of_isOk hrun)⟩
  · obtain rfl : "package a\n\nimport \"io\"\n".toList = s := Utf8.encode_injective (Except.ok.inj hs)
    exact ⟨by decide, by decide +kernel, .inl (by decide +kernel)⟩
  · refine List.forall_mem_cons.mpr ⟨?_, List.forall_mem_singleton.mpr trivial⟩
    show ∀ c ∈ ['f', 'm', 't'], c ≠ '"' ∧ c ≠ '\n' ∧ c ≠ '\\'
    simp

/-! ### What is lost -/

/-- Whether a loaded package declares what is to be added: a name that only one declaration can
have, or all names of a group of values. -/
def declaresSame (q : Package) (a : Addition) : Bool :=
  let declares (s : Subject) : Bool := q.declarations.any fun d => s.isDeclaredBy d.declared
  match a.subject with
  | .func receiver name => name != "_" && !(receiver = "" && name = "init") && declares (.func receiver name)
  | .type name => name != "_" && declares (.type name)
  | .value kind names => names.all fun n => n = "_" || declares (.value kind [n])

/-- Whether each declaration of a snippet is in its file behind a run that succeeds, or the package
declared the same when its turn came. -/
def KeepsDeclarations (p : Package) (filename snippet : String) : Prop :=
  ∀ ts us a vs r, (load p).1.isOk → Snippet.parse filename snippet = .ok ts → ts = us ++ .add a :: vs →
    applyTransforms ts p = (.ok (), r) →
      (∃ q l, applyTransforms us p = (.ok (), q) ∧ load q = (.ok (), l) ∧ l.declaresSame a) ∨
        ∃ data, r.read filename = .ok data ∧ bytesOf a.text <:+: data

/-- Whether a run on a package succeeds without the declaration at some place of a snippet. -/
def loses (p : Package) (filename snippet : String) (n : Nat) (a : Addition) : Bool :=
  (Snippet.parse filename snippet).toOption.any fun ts =>
    let before := load (applyTransforms (ts.take n) p).2
    let run := applyTransforms ts p
    ts[n]? = some (.add a) && (load p).1.isOk && run.1.isOk && !before.2.declaresSame a &&
      (run.2.read filename).toOption.all fun data => !decide (bytesOf a.text <:+: data)

theorem not_keepsDeclarations {filename snippet : String} {n : Nat} {a : Addition}
    (h : loses p filename snippet n a) : ¬ KeepsDeclarations p filename snippet := by
  intro hkeeps
  obtain ⟨ts, hts, h⟩ := (Option.any_eq_true _ _).mp h
  simp only [Bool.and_eq_true, Bool.not_eq_true', decide_eq_true_eq] at h
  obtain ⟨⟨⟨⟨ha, hload⟩, hrun⟩, hsame⟩, hdata⟩ := h
  have hparse : Snippet.parse filename snippet = .ok ts := by
    cases hparse : Snippet.parse filename snippet with
    | error e =>
      rw [hparse] at hts
      cases hts
    | ok us =>
      rw [hparse] at hts
      cases hts
      rfl
  obtain ⟨hn, hget⟩ := List.getElem?_eq_some_iff.mp ha
  have hsplit : ts = ts.take n ++ .add a :: ts.drop (n + 1) := by
    rw [← hget, ← List.drop_eq_getElem_cons hn, List.take_append_drop]
  rcases hkeeps ts _ a _ _ hload hparse hsplit (eq_ok_of_isOk hrun) with ⟨q, l, hus, hl, hdeclares⟩ | ⟨data, hread, hin⟩
  · rw [hus, hl, hdeclares] at hsame
    cases hsame
  · rw [hread] at hdata
    simp [Except.toOption, hin] at hdata

/-- Declarations of a snippet get lost: a second `init`, names of a group of values that shares
another; and those that imports are put into, because the file does not end its last line, or has
a comment on the line of its package clause, or one that the snippet ends, or because an import has
an odd path. -/
theorem not_all_kept :
    ¬ KeepsDeclarations (oneFile "package a\n") "a.go" "func init() \x7b\x7d\n\nfunc init() \x7b return \x7d\n" ∧
    ¬ KeepsDeclarations (oneFile "package a\n\nvar x = 1\n") "a.go" "var x, y = 1, 2\n" ∧
    ¬ KeepsDeclarations (oneFile "package a // c") "a.go" "// F.\nfunc F() \x7b\x7d\n\nimport \"io\"\n" ∧
    ¬ KeepsDeclarations (oneFile "package a /*\n*/\n") "a.go"
      "const C = `\nimport \"x\"\nconst D = ` + \"`//\"\n\nimport \"*/; var V = `\"\n\nimport \"io\"\n" ∧
    ¬ KeepsDeclarations (oneFile "package a\n\nvar p = a /*b\n") "a.go"
      "const C = `*/\nimport \"x\"\nconst D = ` + \"`//\"\n\nimport \"io\"\n" ∧
    ¬ KeepsDeclarations (oneFile "package a\n") "a.go"
      "const C = `\nimport \"x\"\nconst D = ` + \"`//\"\n\nimport \"\\\"; var V = `\"\n\nimport \"io\"\n" :=
  ⟨not_keepsDeclarations (n := 1) (a := ⟨"a.go", .func "" "init", "func init() \x7b return \x7d", false⟩)
      (by decide +kernel),
    not_keepsDeclarations (n := 0) (a := ⟨"a.go", .value .var ["x", "y"], "var x, y = 1, 2", false⟩) (by decide +kernel),
    not_keepsDeclarations (n := 0) (a := ⟨"a.go", .func "" "F", "// F.\nfunc F() \x7b\x7d", false⟩) (by decide +kernel),
    not_keepsDeclarations (n := 0)
      (a := ⟨"a.go", .value .const ["C"], "const C = `\nimport \"x\"\nconst D = ` + \"`//\"", false⟩) (by decide +kernel),
    not_keepsDeclarations (n := 0)
      (a := ⟨"a.go", .value .const ["C"], "const C = `*/\nimport \"x\"\nconst D = ` + \"`//\"", false⟩) (by decide +kernel),
    not_keepsDeclarations (n := 0)
      (a := ⟨"a.go", .value .const ["C"], "const C = `\nimport \"x\"\nconst D = ` + \"`//\"", false⟩) (by decide +kernel)⟩

end Package

end GoSplice
