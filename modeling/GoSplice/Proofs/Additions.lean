import GoSplice.Proofs.Growth
import GoSplice.Proofs.MemberReads
import GoSplice.Proofs.OtherFiles
import GoSplice.Proofs.Validity

/-!
# Added declarations

A declaration of a snippet that was added to a file which takes it is found there
when the package is loaded again, and what was there is found as before.  Added
once more it changes nothing, also in a new file or in one that is no source file:

    load p = (ok (), q) → applyTransform (.add a) p = (ok (), r) →
      load r = (ok (), r'), Adds q a r'                                (applyTransform_adds)
      applyTransform (.add a) r = (ok (), r'), r'.layers = r.layers    (applyTransform_twice)
-/

namespace GoSplice

open Syntax GoSplice.Part

/-! ## Subjects -/

/-- Whether a subject names something: a group of values may have no name at all. -/
def Subject.IsNamed (s : Subject) : Prop := ∀ kind, s ≠ .value kind []

/-- The subjects under which a declaration is looked up: what it declares, or one of the types
that it declares. -/
inductive Declared.Names : Declared → Subject → Prop
  | func (name receiver : String) (simple : Bool) : Names (.func name receiver simple) (.func receiver name)
  | value (kind : ValueKind) {names : List String} : names ≠ [] → Names (.value kind names) (.value kind names)
  | type {name : String} {names : List String} : name ∈ names → Names (.type names) (.type name)

section Subjects

variable {d e : Declared} {s t : Subject}

theorem Declared.names_of_subject? (h : d.subject? = some s) (hs : s.IsNamed) : d.Names s := by
  cases d with
  | func name receiver simple =>
    cases h
    exact .func name receiver simple
  | value kind names =>
    cases h
    exact .value kind fun hnil => hs kind (hnil ▸ rfl)
  | type names =>
    rcases names with _ | ⟨n, _ | ⟨m, ns⟩⟩
    · cases h
    · cases h
      exact .type List.mem_cons_self
    · cases h
  | imports => cases h
  | other => cases h

theorem Declared.Names.isDeclaredBy (h : d.Names s) : s.isDeclaredBy d := by
  cases h with
  | func => simp [Subject.isDeclaredBy]
  | @value kind names hne =>
    obtain ⟨n, hn⟩ := List.exists_mem_of_ne_nil names hne
    rw [Subject.isDeclaredBy, Bool.and_eq_true, beq_iff_eq, List.any_eq_true]
    exact ⟨rfl, n, hn, List.contains_iff_mem.mpr hn⟩
  | type hmem => exact List.contains_iff_mem.mpr hmem

/-- If a declaration declares what another is looked up under, the other declares its subject. -/
theorem Declared.Names.isDeclaredBy_symm (hd : d.Names s) (he : e.subject? = some t)
    (h : s.isDeclaredBy e) : t.isDeclaredBy d := by
  cases hd with
  | func name receiver simple =>
    cases e with
    | func name' receiver' simple' =>
      cases he
      rw [Subject.isDeclaredBy, Bool.and_eq_true, beq_iff_eq, beq_iff_eq] at h ⊢
      exact ⟨h.1.symm, h.2.symm⟩
    | _ => cases h
  | @value kind names hne =>
    cases e with
    | value kind' names' =>
      cases he
      rw [Subject.isDeclaredBy, Bool.and_eq_true, beq_iff_eq, List.any_eq_true] at h ⊢
      obtain ⟨hkind, n, hn, hmem⟩ := h
      exact ⟨hkind.symm, n, List.contains_iff_mem.mp hmem, List.contains_iff_mem.mpr hn⟩
    | _ => cases h
  | @type name names hmem =>
    cases e with
    | type names' =>
      rcases names' with _ | ⟨n, _ | ⟨m, ns⟩⟩
      · cases he
      · cases he
        rw [Subject.isDeclaredBy, List.contains_iff_mem, List.mem_singleton] at h
        exact List.contains_iff_mem.mpr (h ▸ hmem)
      · cases he
    | _ => cases h

end Subjects

/-! ## Look-ups -/

/-- The source of a declaration that was found, with its doc comment. -/
def Match.text (m : Match) : Bytes := slice m.file.source m.declaration.spliceStart m.declaration.stop

/-- The source of a declaration that was found, without its doc comment. -/
def Match.code (m : Match) : Bytes := slice m.file.source m.declaration.start m.declaration.stop

namespace Members

/-- Files with one in the place of that of its name. -/
def put (f : SourceFile) (files : Members) : Members :=
  files.map fun g => if g.filename = f.filename then f else g

theorem findSubject?_cons (f : SourceFile) (files : Members) (s : Subject) :
    findSubject? (f :: files) s =
      ((f.declarations.find? (s.isDeclaredBy ·.declared)).map (⟨f, ·⟩)).or (findSubject? files s) := by
  unfold findSubject? find?
  rw [List.findSome?_cons]
  cases f.declarations.find? (s.isDeclaredBy ·.declared) <;> rfl

/-- A look-up passes over a declaration more that does not declare what is sought. -/
theorem findSubject?_put {f f' : SourceFile} {files : Members} {s : Subject}
    (hall : ∀ g ∈ files, g.filename = f'.filename → g = f)
    (hsame : f'.declarations.find? (s.isDeclaredBy ·.declared) =
      f.declarations.find? (s.isDeclaredBy ·.declared)) :
    (put f' files).findSubject? s = (files.findSubject? s).map fun m =>
      ⟨if m.file.filename = f'.filename then f' else m.file, m.declaration⟩ := by
  induction files with
  | nil => rfl
  | cons g files ih =>
    obtain ⟨hg, hall⟩ := List.forall_mem_cons.mp hall
    have hput : put f' (g :: files) = (if g.filename = f'.filename then f' else g) :: put f' files := rfl
    rw [hput, findSubject?_cons, findSubject?_cons, ih hall]
    by_cases hname : g.filename = f'.filename
    · rw [if_pos hname, hsame, hg hname]
      cases f.declarations.find? (s.isDeclaredBy ·.declared) with
      | none => rfl
      | some d =>
        rw [hg hname] at hname
        rw [Option.map_some, Option.some_or, Option.map_some, Option.some_or, Option.map_some, if_pos hname]
    · rw [if_neg hname]
      cases g.declarations.find? (s.isDeclaredBy ·.declared) with
      | none => rfl
      | some d =>
        rw [Option.map_some, Option.some_or, Option.some_or, Option.map_some, if_neg hname]

/-- What is declared once is found. -/
theorem findSubject?_of_unique {files : Members} {s : Subject} {f : SourceFile} {d : Declaration}
    (hf : f ∈ files) (hd : d ∈ f.declarations) (hs : s.isDeclaredBy d.declared)
    (honly : ∀ g ∈ files, ∀ e ∈ g.declarations, s.isDeclaredBy e.declared → g = f ∧ e = d) :
    files.findSubject? s = some ⟨f, d⟩ := by
  cases hm : files.findSubject? s with
  | none => exact absurd hs (Package.not_isDeclaredBy hm hf hd)
  | some m =>
    obtain ⟨hfile, hdecl, hdeclared⟩ := Package.mem_of_findSubject? hm
    obtain ⟨h1, h2⟩ := honly m.file hfile m.declaration hdecl hdeclared
    rw [← h1, ← h2]

end Members

/-- Lists with the same keys, the elements of one being given by those of the other. -/
theorem eq_map_of_keys {α β : Type} {key : α → β} {F : α → α} {xs ys : List α}
    (hkeys : xs.map key = ys.map key)
    (h : ∀ x ∈ xs, ∀ y ∈ ys, key x = key y → x = F y) : xs = ys.map F := by
  induction xs generalizing ys with
  | nil =>
    cases ys with
    | nil => rfl
    | cons y ys => cases hkeys
  | cons x xs ih =>
    cases ys with
    | nil => cases hkeys
    | cons y ys =>
      rw [List.map_cons, List.map_cons, List.cons.injEq] at hkeys
      rw [List.map_cons, h x List.mem_cons_self y List.mem_cons_self hkeys.1,
        ih hkeys.2 fun x hx y hy => h x (List.mem_cons_of_mem _ hx) y (List.mem_cons_of_mem _ hy)]

namespace Package

variable {p q r : Package}

/-- Files of a package that was loaded again, in their order. -/
theorem Reloaded.files_eq (h : Reloaded q f r) (hl : Loaded p q) (hf : ∃ g ∈ q.files, g.filename = f.filename) :
    r.files = Members.put f q.files := by
  refine eq_map_of_keys (h.order hf) fun x hx y hy hname => ?_
  rcases (h.files x).mp hx with rfl | ⟨hx, hne⟩
  · rw [if_pos hname.symm]
  · rw [if_neg (hname ▸ hne), hl.eq_of_filename hx hy hname]

/-! ## Files that are added to -/

/-- The file that a package adds to under a name: a member that takes a text, or a new file of
a package whose name is an identifier. -/
inductive Receives (q : Package) (text : List Char) : String → SourceFile → Prop
  | member {f : SourceFile} {s : List Char} :
      f ∈ q.files → f.source = Utf8.encode s → Takes s text → Receives q text f.filename f
  | new {filename : String} : (∀ f ∈ q.files, f.filename ≠ filename) →
      IsIdentifier q.localName.toList →
      Receives q text filename (fileOf filename q.localName.toList [.blank])

theorem Receives.contents {text : List Char} {filename : String} {f : SourceFile}
    (h : Receives q text filename f) (hl : Loaded p q) :
    q.contentsOrNew filename = f.source ∧ f.filename = filename := by
  cases h with
  | member hf => exact ⟨hl.contentsOrNew_of_mem hf, rfl⟩
  | new hnone => exact ⟨(hl.contentsOrNew_of_notMem hnone).trans (newFile_eq String.ofList_toList.symm), rfl⟩

theorem Receives.parsed {text : List Char} {filename : String} {f : SourceFile}
    (h : Receives q text filename f) (hl : Loaded p q) :
    ∃ s, Parsed filename f.source true f s ∧ Takes s text := by
  cases h with
  | @member f s hf hs htakes =>
    obtain ⟨s', hs'⟩ := parse_eq_ok_iff.mp (hl.files f hf).2
    obtain rfl : s' = s := Utf8.encode_injective (hs'.encode_eq.symm.trans hs)
    exact ⟨s', hs', htakes⟩
  | new _ hname =>
    have hwhole : ∀ b ∈ [Part.blank], b.IsWhole := List.forall_mem_singleton.mpr trivial
    have hscan := fileScan hname.isNameText hwhole
    obtain ⟨s, hs⟩ := parse_eq_ok_iff.mp (parse_fileText hname.isNameText hwhole filename true)
    obtain rfl : s = _ := Utf8.encode_injective hs.encode_eq.symm
    exact ⟨_, hs, hscan.lineEnd, fun ho => by rw [hscan.closed] at ho; cases ho⟩

/-- A package with a text at the end of a file is loaded again if the file can be read with it. -/
theorem load_of_receives (hp : p.OverTrees) (hl : Loaded p q) (hfiles : ∀ g ∈ q.files, IsFileName g.filename)
    {filename : String} (hn : isSourceName filename) {text : List Char} {f f' : SourceFile} (hf : Receives q text filename f)
    (hparse : SourceFile.parse filename (f.source ++ Utf8.encode (text ++ ['\n'])) true = .ok f')
    (hname : f'.packageName = f.packageName) (h : append filename (String.ofList text) q = (.ok (), r)) :
    ∃ r', load r = (.ok (), r') ∧ Reloaded q f' r' := by
  rw [append_eq, (hf.contents hl).1] at h
  have hdata : f.source ++ bytesOf (String.ofList text) ++ [LineIndex.lineFeed] =
      f.source ++ Utf8.encode (text ++ ['\n']) := by
    rw [List.append_assoc, Utf8.encode_append, bytesOf, String.toList_ofList]
    rfl
  rw [hdata] at h
  have hold : ∀ g ∈ q.files, g.filename = filename → g.packageName = f'.packageName := by
    intro g hg hsame
    rw [hname]
    cases hf with
    | member hmem => rw [hl.eq_of_filename hg hmem hsame]
    | new hnone => exact absurd hsame (hnone g hg)
  have hnew : (∃ g ∈ q.files, g.packageName = f'.packageName) ∨ f'.packageName = q.localName := by
    rw [hname]
    cases hf with
    | member hmem => exact Or.inl ⟨f, hmem, rfl⟩
    | new => exact Or.inr String.ofList_toList
  exact load_of_write hp hl hfiles hn h hparse hold hnew

/-- A package with a declaration at the end of a file that takes it is loaded again. -/
theorem load_of_append (hp : p.OverTrees) (hl : Loaded p q) (hfiles : ∀ g ∈ q.files, IsFileName g.filename)
    {filename : String} (hn : isSourceName filename) {g : Paragraph} (hg : g.IsRead) {f : SourceFile} (hf : Receives q g.text filename f)
    (h : append filename (String.ofList g.text) q = (.ok (), r)) :
    ∃ r' f', load r = (.ok (), r') ∧ Reloaded q f' r' ∧ GrownBy g f f' := by
  obtain ⟨s, hs, htakes⟩ := hf.parsed hl
  obtain ⟨f', hparse, hgrown⟩ := parse_grown hs hg htakes
  obtain ⟨r', hload, hr⟩ := load_of_receives hp hl hfiles hn hf hparse hgrown.packageName h
  exact ⟨r', f', hload, hr, hgrown⟩

/-- What a file that is added to declares was there before; a new file declares nothing. -/
theorem Receives.mem_of_mem {text : List Char} {filename : String} {f : SourceFile}
    (h : Receives q text filename f) {d : Declaration} (hd : d ∈ f.declarations) : f ∈ q.files := by
  cases h with
  | member hf => exact hf
  | new => cases hd

/-! ## Adding -/

/-- What is found, and not to be replaced, is left alone. -/
theorem addDeclaration_found {a : Addition} {m : Match} (h : q.files.findSubject? a.subject = some m)
    (hreplace : a.replace = false) : addDeclaration a q = throwIf (exceeds a m.declaration.declared) q := by
  rw [addDeclaration_of_some h, hreplace, bind_apply]
  cases exceeds a m.declaration.declared <;> rfl

/-- What is added does not exceed itself. -/
theorem exceeds_eq_none {a : Addition} {d : Declared} (h : d.subject? = some a.subject) :
    exceeds a d = none := by
  unfold exceeds
  split
  · next kind names kind' existing hsubject =>
    rw [hsubject] at h
    cases h
    rw [if_pos (List.all_eq_true.mpr fun n hn => List.contains_iff_mem.mpr hn)]
  · rfl

/-- What an added declaration does to a loaded package: `r` has what `q` has, finds it as before,
and finds the declaration in its file, with the code of its text. -/
structure Adds (q : Package) (a : Addition) (r : Package) : Prop where
  kept : ∀ f ∈ q.files, ∀ d ∈ f.declarations, ∃ f' ∈ r.files, f'.filename = f.filename ∧
    d ∈ f'.declarations ∧ (Match.mk f' d).text = (Match.mk f d).text
  stillFound : ∀ s m, q.files.findSubject? s = some m → m.declaration.declared.Names s →
    ∃ m', r.files.findSubject? s = some m' ∧ m'.file.filename = m.file.filename ∧
      m'.declaration = m.declaration ∧ m'.text = m.text
  found : ∃ m doc code, r.files.findSubject? a.subject = some m ∧ m.file.filename = a.filename ∧
    m.code = Utf8.encode code ∧ IsFiller doc ∧ a.text = String.ofList (doc ++ code)

/-- What is above the code of a paragraph is no code. -/
theorem isFiller_doc {g : Paragraph} (hg : g.IsRead) : IsFiller (texts g.doc) := by
  obtain ⟨l, r, k, hcode, hl, -⟩ := hg.declaration.declares.head
  have hlexemes := hg.declaration.lexemes_eq
  rw [hcode] at hlexemes
  refine isFiller_texts hlexemes hl fun x hx => ?_
  have hblank := hg.declaration.blank x hx
  cases hc : x.cls with
  | blank | newline | comment => rfl
  | token k => exact absurd hc (hblank k)

/-- The texts of a file that took a declaration stay. -/
theorem text_grown {f f' : SourceFile} {g : Paragraph} (hl : Loaded p q) (hf : f ∈ q.files)
    (h : GrownBy g f f') {d : Declaration} (hd : d ∈ f.declarations) :
    (Match.mk f' d).text = (Match.mk f d).text := by
  obtain ⟨s, hs⟩ := parse_eq_ok_iff.mp (hl.files f hf).2
  exact h.slice_eq (hs.wellPlaced hd).stop_le

section Grown

variable {a : Addition} {f f' : SourceFile} {g : Paragraph} {t : Subject}

/-- The added declaration is the only one in the package that its subject names. -/
theorem Reloaded.findSubject? (hr : Reloaded q f' r) (hgrown : GrownBy g f f')
    (hf : ∀ d ∈ f.declarations, f ∈ q.files) (hmiss : q.files.findSubject? t = none)
    (ht : t.isDeclaredBy g.declared) : ∃ d, r.files.findSubject? t = some ⟨f', d⟩ ∧
      d.declared = g.declared.moved d.start ∧ d.start = (g.declarationAt f.source.length).start ∧
      d.stop = (g.declarationAt f.source.length).stop := by
  obtain ⟨doc, hdecls⟩ := hgrown.declarations
  refine ⟨{ g.declarationAt f.source.length with doc }, ?_, rfl, rfl, rfl⟩
  refine Members.findSubject?_of_unique ((hr.files f').mpr (Or.inl rfl)) ?_ ?_ ?_
  · rw [hdecls]
    exact List.mem_append_right _ List.mem_cons_self
  · show t.isDeclaredBy (g.declared.moved _)
    rw [isDeclaredBy_moved]
    exact ht
  · intro h hh e he hdeclared
    rcases (hr.files h).mp hh with rfl | ⟨hh, -⟩
    · rw [hdecls, List.mem_append, List.mem_singleton] at he
      rcases he with he | he
      · exact absurd hdeclared (not_isDeclaredBy hmiss (hf e he) he)
      · exact ⟨rfl, he⟩
    · exact absurd hdeclared (not_isDeclaredBy hmiss hh he)

/-- The files of the name of one that grew. -/
theorem Loaded.eq_of_grown (hl : Loaded p q) (hf : f ∈ q.files) (hgrown : GrownBy g f f') :
    ∀ h ∈ q.files, h.filename = f'.filename → h = f :=
  fun _ hh hsame => hl.eq_of_filename hh hf (hsame.trans hgrown.filename)

/-- The declarations of a package stay when one of its files grows. -/
theorem Reloaded.kept (hr : Reloaded q f' r) (hl : Loaded p q) (hf : f ∈ q.files) (hgrown : GrownBy g f f')
    {h : SourceFile} (hh : h ∈ q.files) {d : Declaration} (hd : d ∈ h.declarations) :
    ∃ h' ∈ r.files, h'.filename = h.filename ∧ d ∈ h'.declarations ∧
      (Match.mk h' d).text = (Match.mk h d).text := by
  by_cases hsame : h.filename = f'.filename
  · obtain rfl := hl.eq_of_grown hf hgrown h hh hsame
    obtain ⟨doc, hdecls⟩ := hgrown.declarations
    refine ⟨f', (hr.files f').mpr (Or.inl rfl), hgrown.filename, ?_, text_grown hl hh hgrown hd⟩
    rw [hdecls]
    exact List.mem_append_left _ hd
  · exact ⟨h, (hr.files h).mpr (Or.inr ⟨hh, hsame⟩), rfl, hd, rfl⟩

/-- What the declaration behind a file does not declare is found as before. -/
theorem Reloaded.stillFound (hr : Reloaded q f' r) (hl : Loaded p q) (hf : f ∈ q.files)
    (hgrown : GrownBy g f f') {m : Match} (hm : q.files.findSubject? t = some m)
    (ht : ¬ t.isDeclaredBy g.declared) : ∃ m', r.files.findSubject? t = some m' ∧
      m'.file.filename = m.file.filename ∧ m'.declaration = m.declaration ∧ m'.text = m.text := by
  obtain ⟨hfile, hdecl, -⟩ := mem_of_findSubject? hm
  have hone := hl.eq_of_grown hf hgrown
  have hsame : f'.declarations.find? (t.isDeclaredBy ·.declared) =
      f.declarations.find? (t.isDeclaredBy ·.declared) := by
    obtain ⟨doc, hdecls⟩ := hgrown.declarations
    rw [hdecls, List.find?_append, List.find?_eq_none.mpr (List.forall_mem_singleton.mpr ?_), Option.or_none]
    show ¬ t.isDeclaredBy (g.declared.moved _)
    rw [isDeclaredBy_moved]
    exact ht
  have hfound : r.files.findSubject? t =
      some ⟨if m.file.filename = f'.filename then f' else m.file, m.declaration⟩ := by
    rw [hr.files_eq hl ⟨f, hf, hgrown.filename.symm⟩, Members.findSubject?_put hone hsame, hm]
    rfl
  by_cases hname : m.file.filename = f'.filename
  · rw [if_pos hname] at hfound
    have hmf := hone m.file hfile hname
    rw [hmf] at hdecl
    refine ⟨_, hfound, hname.symm, rfl, (text_grown hl hf hgrown hdecl).trans ?_⟩
    rw [← hmf]
  · rw [if_neg hname] at hfound
    exact ⟨_, hfound, rfl, rfl, rfl⟩

/-- A declaration that a file of a package takes is found in it, and all others as before. -/
theorem Reloaded.adds (hr : Reloaded q f' r) (hl : Loaded p q) (hf : f ∈ q.files)
    (hname : f.filename = a.filename) (hgrown : GrownBy g f f')
    (hmiss : q.files.findSubject? a.subject = none) (hg : g.IsRead) (htext : a.text = String.ofList g.text)
    (hsubject : g.declared.subject? = some a.subject) (hnamed : a.subject.IsNamed) : Adds q a r := by
  refine ⟨fun h hh d hd => hr.kept hl hf hgrown hh hd, fun t m hm hnames => ?_, ?_⟩
  · refine hr.stillFound hl hf hgrown hm fun ht => ?_
    obtain ⟨hfile, hdecl, -⟩ := mem_of_findSubject? hm
    exact not_isDeclaredBy hmiss hfile hdecl (hnames.isDeclaredBy_symm hsubject ht)
  · obtain ⟨d, hd, -, hstart, hstop⟩ := hr.findSubject? hgrown (fun _ _ => hf) hmiss
      (Declared.names_of_subject? hsubject hnamed).isDeclaredBy
    obtain ⟨s, hs⟩ := parse_eq_ok_iff.mp (hl.files f hf).2
    refine ⟨_, texts g.doc, texts g.code, hd, hgrown.filename.trans hname, ?_, isFiller_doc hg, ?_⟩
    · show slice f'.source d.start d.stop = _
      rw [hstart, hstop]
      exact hgrown.slice_code ⟨s, hs.encode_eq⟩
    · rw [htext, Paragraph.text, texts_append]

end Grown

/-! ## Runs -/

/-- A declaration that a file of a package takes, and that the package does not have, is there
when the package is loaded again. -/
theorem applyTransform_adds {a : Addition} {f : SourceFile} {s : List Char} {snippet : String} {ts : List Transform}
    (hp : p.OverTrees) (hload : load p = (.ok (), q)) (hfiles : ∀ g ∈ q.files, IsFileName g.filename)
    (hts : Snippet.parse a.filename snippet = .ok ts) (ha : .add { a with replace := false } ∈ ts)
    (hsemicolon : ¬ LeadsSemicolon (lexemes a.text.toList)) (hnamed : a.subject.IsNamed)
    (hf : f ∈ q.files) (hname : f.filename = a.filename) (hs : f.source = Utf8.encode s)
    (htakes : Takes s a.text.toList) (hmiss : q.files.findSubject? a.subject = none)
    (h : applyTransform (.add a) p = (.ok (), r)) :
    ∃ r', load r = (.ok (), r') ∧ r'.layers = r.layers ∧ Adds q a r' := by
  obtain ⟨-, -, g, hg, -, htext, hsubject⟩ := Snippet.exists_taken_of_parse hts ha
  change a.text = _ at htext
  rw [htext, String.toList_ofList] at hsemicolon htakes
  have hg := hg.isRead_of_not_leadsSemicolon hsemicolon
  have hl := load_eq_ok hload
  have hrun : append f.filename (String.ofList g.text) q = (.ok (), r) := by
    rw [hname, ← htext, ← addDeclaration_of_none hmiss, ← h, applyTransform_of_load hload]
    rfl
  obtain ⟨r', f', hload', hr, hgrown⟩ :=
    load_of_append hp hl hfiles (hl.hasSourceName hf) hg (.member hf hs htakes) hrun
  exact ⟨r', hload', (load_eq_ok hload').layers, hr.adds hl hf hname hgrown hmiss hg htext hsubject hnamed⟩

/-- A group of variables with a doc comment. -/
def limitsSnippet : String := "// The limits.\nvar (\n\tlow  = 1\n\thigh = 9\n)\n"

/-- That group, to be added to a file. -/
def limits (filename : String) : Addition :=
  ⟨filename, .value .var ["low", "high"], "// The limits.\nvar (\n\tlow  = 1\n\thigh = 9\n)", false⟩

theorem parse_limitsSnippet (filename : String) :
    Snippet.parse filename limitsSnippet = .ok [.add (limits filename)] := rfl

theorem limitsSnippet_endsByLine : EndsByLine (Snippet.header ++ limitsSnippet).toList := by
  unfold EndsByLine
  decide +kernel

theorem limits_not_leadsSemicolon : ¬ LeadsSemicolon (lexemes (limits "a.go").text.toList) := by
  unfold LeadsSemicolon
  decide +kernel

theorem limits_isNamed : (limits "a.go").subject.IsNamed := by rintro kind ⟨⟩

/-- The text of the file of `onePrivateFile`. -/
def functionText : List Char := "package a\n\nfunc F() \x7b\x7d\n".toList

theorem functionText_takes : Takes functionText (limits "a.go").text.toList :=
  ⟨by decide, fun ho => absurd ho (by decide +kernel)⟩

theorem load_onePrivateFile : ∃ q f, load onePrivateFile = (.ok (), q) ∧ f ∈ q.files ∧
    f.filename = "a.go" ∧ f.source = Utf8.encode functionText ∧
    q.files.findSubject? (limits "a.go").subject = none := by
  have hload := eq_ok_of_isOk (show (load onePrivateFile).1.isOk by decide +kernel)
  have hfiles : (load onePrivateFile).2.files.any (fun f =>
      f.filename = "a.go" && f.source = Utf8.encode functionText) := by decide +kernel
  obtain ⟨f, hf, h⟩ := List.any_eq_true.mp hfiles
  rw [Bool.and_eq_true, decide_eq_true_eq, decide_eq_true_eq] at h
  refine ⟨_, f, hload, hf, h.1, h.2, Option.isNone_iff_eq_none.mp ?_⟩
  decide +kernel

theorem limits_added : ∃ q r r', load onePrivateFile = (.ok (), q) ∧
    applyTransform (.add (limits "a.go")) onePrivateFile = (.ok (), r) ∧
    load r = (.ok (), r') ∧ r'.layers = r.layers ∧ Adds q (limits "a.go") r' := by
  obtain ⟨q, f, hload, hf, hname, hs, hmiss⟩ := load_onePrivateFile
  have hrun := eq_ok_of_isOk
    (show (applyTransform (.add (limits "a.go")) onePrivateFile).1.isOk by decide +kernel)
  obtain ⟨r', hadds⟩ := applyTransform_adds (a := limits "a.go") onePrivateFile_inMemory.overTrees hload
    (onePrivateFile_inMemory.isFileName_of_loaded (load_eq_ok hload)) (parse_limitsSnippet "a.go") List.mem_cons_self
    limits_not_leadsSemicolon limits_isNamed hf hname hs functionText_takes hmiss hrun
  exact ⟨q, _, r', hload, hrun, hadds⟩

/-- A text that is added to a file which is no source file is added there again, which changes nothing. -/
theorem append_aside {a : Addition} (hp : p.OverTrees) (hl : Loaded p q) (hfiles : ∀ f ∈ q.files, IsFileName f.filename)
    (hn : ¬ isSourceName a.filename) (hmiss : q.files.findSubject? a.subject = none)
    (h : append a.filename a.text q = (.ok (), r)) :
    ∃ r', applyTransform (.add a) r = (.ok (), r') ∧ r'.layers = r.layers := by
  rw [append_eq] at h
  obtain ⟨l, hload⟩ := load_of_write_aside hp hl hfiles hn h
  have hl' := load_eq_ok hload
  have hview := hl.sameView_of_write hp (fun hfile => hn hfile.suffix) h hl'
  obtain ⟨r', hwrite, hlayers⟩ := write_again (hp.loaded hl).directory (hp.isPlain_of_write hl h) h hl'.layers
    (show l.directory = r.directory by rw [hl'.eq]; rfl)
  refine ⟨r', ?_, hlayers⟩
  rw [applyTransform_of_load hload]
  show addDeclaration a l = _
  rw [addDeclaration_of_none (hview.files.symm ▸ hmiss), append_eq, ← hwrite]
  unfold contentsOrNew newFile
  rw [hview.contents, hview.localName]

/-- A declaration that is added twice, and not to replace what is there, is added once. -/
theorem applyTransform_twice {a : Addition} {snippet : String} {ts : List Transform} (hp : p.OverTrees)
    (hload : load p = (.ok (), q)) (hfiles : ∀ f ∈ q.files, IsFileName f.filename)
    (hts : Snippet.parse a.filename snippet = .ok ts) (ha : .add a ∈ ts)
    (hends : EndsByLine (Snippet.header ++ snippet).toList) (hnamed : a.subject.IsNamed)
    (hf : isSourceName a.filename → ∃ f, Receives q a.text.toList a.filename f)
    (h : applyTransform (.add a) p = (.ok (), r)) :
    ∃ r', applyTransform (.add a) r = (.ok (), r') ∧ r'.layers = r.layers := by
  have hl := load_eq_ok hload
  obtain ⟨-, hreplace, g, -, hg, htext, hsubject⟩ := Snippet.exists_taken_of_parse hts ha
  rw [applyTransform_of_load hload] at h
  change addDeclaration a q = _ at h
  cases hm : q.files.findSubject? a.subject with
  | some m =>
    have hsame : r = q := by
      rw [addDeclaration_found hm hreplace] at h
      exact throwIf_eq_ok h
    subst hsame
    exact ⟨r, (applyTransform_of_load hl.load).trans h, rfl⟩
  | none =>
    rw [addDeclaration_of_none hm] at h
    by_cases hn : isSourceName a.filename
    · obtain ⟨f, hf⟩ := hf hn
      rw [htext] at h
      rw [htext, String.toList_ofList] at hf
      obtain ⟨r', f', hload', hr, hgrown⟩ := load_of_append hp hl hfiles hn (hg hends) hf h
      obtain ⟨d, hd, hdeclared, -⟩ := hr.findSubject? hgrown (fun _ hd => hf.mem_of_mem hd) hm
        (Declared.names_of_subject? hsubject hnamed).isDeclaredBy
      have hexact : exceeds a d.declared = none := by
        refine exceeds_eq_none ?_
        rw [hdeclared, Declared.subject?_moved, hsubject]
      refine ⟨r', ?_, (load_eq_ok hload').layers⟩
      rw [applyTransform_of_load hload']
      show addDeclaration a r' = _
      rw [addDeclaration_found hd hreplace]
      show throwIf (exceeds a d.declared) r' = _
      rw [hexact]
      rfl
    · exact append_aside hp hl hfiles hn hm h

theorem limits_twice : ∃ r r', applyTransform (.add (limits "a.go")) onePrivateFile = (.ok (), r) ∧
    applyTransform (.add (limits "a.go")) r = (.ok (), r') ∧ r'.layers = r.layers := by
  obtain ⟨q, f, hload, hf, hname, hs, -⟩ := load_onePrivateFile
  have hrun := eq_ok_of_isOk
    (show (applyTransform (.add (limits "a.go")) onePrivateFile).1.isOk by decide +kernel)
  have hreceives : Receives q (limits "a.go").text.toList "a.go" f :=
    hname ▸ .member hf hs functionText_takes
  exact ⟨_, _, hrun, (applyTransform_twice (a := limits "a.go") onePrivateFile_inMemory.overTrees hload
    (onePrivateFile_inMemory.isFileName_of_loaded (load_eq_ok hload)) (parse_limitsSnippet "a.go") List.mem_cons_self
    limitsSnippet_endsByLine limits_isNamed (fun _ => ⟨f, hreceives⟩) hrun).choose_spec⟩

end Package

end GoSplice
