import GoSplice.Proofs.Additions
import GoSplice.Proofs.ExistingFiles
import GoSplice.Proofs.Snippets

/-!
# Replaced additions

A declaration that was added to a file, and is then replaced by one of the same
subject in whichever file, takes nothing of the file along but comments: those
on its last line, which became its doc comment.

    applyTransform (.add a) p = (ok (), r), a from a snippet, new in p →
      applyTransform (.add a') r = (ok (), r'), a'.subject = a.subject →
        the file of a in r' begins with its bytes in p up to closingGroup,
        and with all of them if no comment ends on its last line  (applyTransform_replaced)
-/

namespace GoSplice

open Syntax

/-! ## Texts behind a file -/

theorem Syntax.LexemeClass.ne_token {c : LexemeClass} (h : c.isFiller)
    (hc : c ≠ .token (.operator .semicolon)) (k : Kind) : c ≠ .token k := by
  rintro rfl
  exact hc (congrArg _ (of_decide_eq_true h))

namespace Paragraph.IsTaken

variable {filename : String} {source : Bytes} {f f' : SourceFile} {s : List Char} {g : Paragraph}

theorem isSound_text (hg : g.IsTaken) : ∀ l ∈ lexemes g.text, l.cls.isSound := by
  rw [hg.lexemes_eq, List.forall_mem_append]
  refine ⟨fun l hl => ?_, hg.isSound⟩
  have hfiller := hg.filler l hl
  cases hc : l.cls with
  | blank | newline | comment => rfl
  | token k =>
    rw [hc] at hfiller
    rw [show k = .operator .semicolon from of_decide_eq_true hfiller]
    rfl

/-- A paragraph behind a file that takes it has no semicolon above its code if the file with it is
one of declarations. -/
theorem isRead_of_parse (hg : g.IsTaken) (h : Parsed filename source true f s) (ht : Takes s g.text)
    (hparse : SourceFile.parse filename (source ++ Utf8.encode (g.text ++ ['\n'])) true = .ok f') : g.IsRead := by
  cases hfirst : g.doc.find? (fun l => l.cls = .token (.operator .semicolon)) with
  | none =>
    refine hg.isRead fun l hl => LexemeClass.ne_token (hg.filler l hl) fun hc => ?_
    exact List.find?_eq_none.mp hfirst l hl (decide_eq_true hc)
  | some l =>
    obtain ⟨hl, cs, ls, hdoc, hcs⟩ := List.find?_eq_some_iff_append.mp hfirst
    obtain ⟨s', hs'⟩ := parse_eq_ok_iff.mp hparse
    obtain rfl : s ++ (g.text ++ ['\n']) = s' := by
      refine Utf8.encode_injective ?_
      rw [Utf8.encode_append, ← h.encode_eq]
      exact hs'.encode_eq
    have hlexemes : lexemes g.text = cs ++ l :: (ls ++ g.code) := by
      rw [hg.lexemes_eq, hdoc, List.append_assoc, List.cons_append]
    refine absurd hs'.isOpened (not_opened_of_semicolon ht.lineEnd h.refusal h.isOpened ht.comment hg.isSound_text
      hlexemes (fun x hx => ?_) (of_decide_eq_true hl) hs'.refusal)
    refine LexemeClass.ne_token (hg.filler x (by rw [hdoc]; exact List.mem_append_left _ hx)) fun hc => ?_
    have hnot := hcs x hx
    rw [decide_eq_true hc] at hnot
    cases hnot

end Paragraph.IsTaken

namespace Package

variable {p q r r' : Package} {name other : String} {front data : Bytes}

/-! ## Files that keep their beginning -/

/-- Whether a file of the output layer begins with some bytes and is known to the package as it is. -/
def Begins (front : Bytes) (name : String) (p : Package) : Prop :=
  ∃ x data, p.path name = .ok x ∧ p.layers.output.read x = .ok data ∧ p.contentsOrNew name = data ∧
    front <+: data

theorem begins_of_write (hfront : front <+: data) (h : write name data p = (.ok (), q)) : Begins front name q := by
  obtain ⟨x, hx, hread⟩ := output_of_write h
  exact ⟨x, data, hx, hread, (contentsOrNew_of_write h name).trans (if_pos rfl), hfront⟩

theorem Begins.read (h : Begins front name p) : ∃ data, p.read name = .ok data ∧ front <+: data := by
  obtain ⟨x, data, hx, hread, -, hfront⟩ := h
  exact ⟨data, read_of_output hx hread, hfront⟩

/-- A write keeps the beginning of a file, if it does so where it writes that file. -/
theorem Begins.write (h : Begins front name p) (hp : p.OverTrees) (hn : IsFileName name) (ho : isSourceName other)
    (hsame : other = name → front <+: data) (hw : write other data p = (.ok (), q)) : Begins front name q := by
  by_cases hname : other = name
  · subst hname
    exact begins_of_write (hsame rfl) hw
  · obtain ⟨x, old, hx, hread, hcontents, hfront⟩ := h
    have hother : IsFileName other := ⟨ho, (write_eq_ok hw).1⟩
    obtain ⟨hx', hread'⟩ := output_of_write_ne hp.directory hn.isPlain hother.isPlain (Ne.symm hname) hx hw
    refine ⟨x, old, hx', hread'.trans hread, ?_, hfront⟩
    rw [contentsOrNew_of_write hw, if_neg (Ne.symm hname), hcontents]

theorem Begins.append (h : Begins front name p) (hp : p.OverTrees) (hn : IsFileName name) (ho : isSourceName other)
    {text : String} (hw : append other text p = (.ok (), q)) : Begins front name q := by
  rw [append_eq] at hw
  refine h.write hp hn ho ?_ hw
  rintro rfl
  obtain ⟨-, old, -, -, hcontents, hfront⟩ := h
  rw [hcontents, List.append_assoc]
  exact hfront.trans (List.prefix_append _ _)

/-- A file of the output layer is loaded as it is. -/
theorem Begins.loaded (h : Begins front name p) (hp : p.OverTrees) (hn : IsFileName name) (hl : Loaded p q) :
    Begins front name q := by
  obtain ⟨x, data, hx, hread, -, hfront⟩ := h
  obtain ⟨before, hbefore, hcontents⟩ :=
    hl.contents_of_hasFile hp ⟨hn.plain, x, data, hx, Or.inl hread⟩ hn.suffix
  rw [read_of_output hx hread, Except.ok.injEq] at hbefore
  refine ⟨x, data, (hl.path name).trans hx, ?_, hcontents.trans hbefore.symm, hfront⟩
  rw [hl.layers]
  exact hread

/-! ## Cutting out what was added -/

section Added

variable {a : Addition} {f : SourceFile} {s : List Char} {g : Paragraph} {m : Match}

/-- A declaration that is found behind a file, and was not there, is cut out with no more of the
file than its last group of comments. -/
theorem take_prefix_cut (hl : Loaded p q) (hf : f ∈ q.files) (hs : f.source = Utf8.encode s)
    (hmiss : q.files.findSubject? a.subject = none) (hg : g.IsTaken) (htakes : Takes s g.text)
    (hread : r.read f.filename = .ok (f.source ++ Utf8.encode (g.text ++ ['\n']))) (hl' : Loaded r r')
    (hm : r'.files.findSubject? a.subject = some m) (hsame : m.file.filename = f.filename) :
    f.source.take (closingGroup s) <+: Splice.cut m.file.source m.declaration := by
  obtain ⟨hmem, hdecl, hdeclared⟩ := mem_of_findSubject? hm
  obtain ⟨hread', hparse⟩ := hl'.files m.file hmem
  rw [hsame, hread, Except.ok.injEq] at hread'
  rw [hsame, ← hread'] at hparse
  obtain ⟨s', hs'⟩ := parse_eq_ok_iff.mp (hl.files f hf).2
  obtain rfl : s' = s := Utf8.encode_injective (hs'.encode_eq.symm.trans hs)
  obtain ⟨f', hparse', hgrown⟩ := parse_grown hs' (hg.isRead_of_parse hs' htakes hparse) htakes
  rw [hparse, Except.ok.injEq] at hparse'
  subst hparse'
  have hcut : closingGroup s' ≤ m.declaration.spliceStart :=
    (hgrown.spliceStart s' hs m.declaration hdecl).resolve_left fun hold =>
      not_isDeclaredBy hmiss hf hold hdeclared
  have hlength : closingGroup s' ≤ f.source.length := by
    rw [hs, ← byteWidth_eq]
    exact closingGroup_le s'
  unfold Splice.cut
  rw [← hread', ← List.take_append_of_le_length hlength]
  exact (List.take_prefix_take_left hcut).trans (List.prefix_append _ _)

end Added

/-! ## Runs -/

/-- A declaration of a snippet that is added to a file of a package, and then replaced by one of
the same subject in whichever file, leaves the bytes of the file up to its last group of comments.
These have all of its code; and they are all of the file if no comment ends on its last line. -/
theorem applyTransform_replaced {a a' : Addition} {f : SourceFile} {s : List Char} {snippet : String}
    {ts : List Transform} (hp : p.OverTrees) (hload : load p = (.ok (), q)) (hf : f ∈ q.files)
    (hs : f.source = Utf8.encode s) (hts : Snippet.parse f.filename snippet = .ok ts) (ha : .add a ∈ ts)
    (htakes : Takes s a.text.toList) (hmiss : q.files.findSubject? a.subject = none)
    (h : applyTransform (.add a) p = (.ok (), r)) (hsubject : a'.subject = a.subject)
    (hn : isSourceName a'.filename) (h' : applyTransform (.add a') r = (.ok (), r')) :
    ∃ data, r'.read f.filename = .ok data ∧ f.source.take (closingGroup s) <+: data ∧
      (f.clauseEnd ≤ closingGroup s ∧ ∀ d ∈ f.declarations, d.stop ≤ closingGroup s) ∧
      (EndsBare s → f.source <+: data) := by
  have hl := load_eq_ok hload
  obtain ⟨hname, -, g, hg, -, htext, -⟩ := Snippet.exists_taken_of_parse hts ha
  rw [htext, String.toList_ofList] at htakes
  -- the text was put behind the file
  rw [applyTransform_of_load hload] at h
  change addDeclaration a q = _ at h
  rw [addDeclaration_of_none hmiss, append_eq, hname, hl.contentsOrNew_of_mem hf] at h
  have hdata : f.source ++ bytesOf a.text ++ [LineIndex.lineFeed] =
      f.source ++ Utf8.encode (g.text ++ ['\n']) := by
    rw [htext, List.append_assoc, Utf8.encode_append, bytesOf, String.toList_ofList]
    rfl
  rw [hdata] at h
  have hfile : IsFileName f.filename := ⟨hl.hasSourceName hf, (write_eq_ok h).1⟩
  have hr : r.OverTrees := (hp.loaded hl).write h
  have hread := read_of_write h
  have hbegins : Begins (f.source.take (closingGroup s)) f.filename r :=
    begins_of_write ((List.take_prefix _ _).trans (List.prefix_append _ _)) h
  -- and is found there, if anywhere in the file, when the package is loaded again
  unfold applyTransform at h'
  rw [bind_eq_ok] at h'
  obtain ⟨_, q', hload', h'⟩ := h'
  have hl' := load_eq_ok hload'
  have hq' := hr.loaded hl'
  replace hbegins := hbegins.loaded hr hfile hl'
  have hfinal : Begins (f.source.take (closingGroup s)) f.filename r' := by
    cases addDeclaration_eq_ok.mp h' with
    | new _ happend => exact hbegins.append hq' hfile hn happend
    | kept _ _ _ hkept => exact hkept ▸ hbegins
    | @replaced m p' hm _ _ _ hremove happend =>
      rw [hsubject] at hm
      obtain ⟨hmem, -, -⟩ := mem_of_findSubject? hm
      rw [remove_eq, hl'.contentsOrNew_of_mem hmem] at hremove
      have hcut := hbegins.write hq' hfile (hl'.hasSourceName hmem)
        (fun hsame => take_prefix_cut hl hf hs hmiss hg htakes hread hl' hm hsame) hremove
      exact hcut.append (hq'.write hremove) hfile hn happend
  obtain ⟨data, hdata', hfront⟩ := hfinal.read
  obtain ⟨s', hs'⟩ := parse_eq_ok_iff.mp (hl.files f hf).2
  obtain rfl : s' = s := Utf8.encode_injective (hs'.encode_eq.symm.trans hs)
  refine ⟨data, hdata', hfront, ⟨?_, fun d hd => ?_⟩, fun hbare => ?_⟩
  · obtain ⟨t, ht, -, hend⟩ := hs'.clause
    rw [hend]
    exact stop_le_closingGroup hs'.refusal (List.mem_of_find?_eq_some ht)
  · obtain ⟨pre, t, post, -, ht, hat⟩ := hs'.readInOrder hd
    rw [hat.stop]
    exact stop_le_closingGroup hs'.refusal ht
  · rwa [closingGroup_eq_byteWidth hbare, byteWidth_eq, ← hs, List.take_length] at hfront

/-- Other limits in the place of those that were added. -/
def widerLimits : Addition := ⟨"a.go", .value .var ["low", "high"], "var low, high = 0, 99", true⟩

theorem limits_replaced : ∃ r r' data, applyTransform (.add (limits "a.go")) onePrivateFile = (.ok (), r) ∧
    applyTransform (.add widerLimits) r = (.ok (), r') ∧ r'.read "a.go" = .ok data ∧
    Utf8.encode functionText <+: data := by
  obtain ⟨q, f, hload, hf, hname, hs, hmiss⟩ := load_onePrivateFile
  obtain ⟨r, r', hrun, hrun'⟩ : ∃ r r', applyTransform (.add (limits "a.go")) onePrivateFile = (.ok (), r) ∧
      applyTransform (.add widerLimits) r = (.ok (), r') :=
    ⟨_, _, eq_ok_of_isOk (by decide +kernel), eq_ok_of_isOk (by decide +kernel)⟩
  have hparse : Snippet.parse f.filename limitsSnippet = .ok [.add (limits "a.go")] := by
    rw [hname]
    rfl
  have hsame : widerLimits.subject = (limits "a.go").subject := rfl
  have hbare : EndsBare functionText := by
    unfold EndsBare
    decide +kernel
  obtain ⟨data, hread, -, -, hfront⟩ := applyTransform_replaced onePrivateFile_inMemory.overTrees hload hf hs
    hparse List.mem_cons_self functionText_takes hmiss hrun hsame (show isSourceName "a.go" by decide) hrun'
  rw [hname] at hread
  rw [hs] at hfront
  exact ⟨r, r', data, hrun, hrun', hread, hfront hbare⟩

end Package

end GoSplice
