import GoSplice.Proofs.Batches
import GoSplice.Proofs.Coverings
import GoSplice.Proofs.ImportLists
import GoSplice.Proofs.StoredFiles
import GoSplice.Proofs.Tails
import GoSplice.Proofs.ValueGroups

/-!
# Additions that commute

A text put to the end of a file leaves what the package declared, and the name of the package; so
additions of different subjects to different files do not see each other:

    append filename text q = (ok (), r) → load r = (ok (), l) → Gains q filename ft l
                                                                     (gains_of_append)
    applyTransforms [.add a, .add b] p = (ok (), s) →
      applyTransforms [.add b, .add a] p = (ok (), s') →
        s and s' store the same files                                (applyTransforms_commute)

The name of a package without files may end with a line end, which the first file that is added
takes for the end of its package line: of such packages the statement is not true.
-/

namespace GoSplice

open Syntax

/-! ## Subjects -/

/-- Whether a declaration declares what a subject names and nothing else; the commas of a group
are read as names. -/
inductive Subject.IsExactly : Subject → Declared → Prop
  | func (receiver name : String) (simple : Bool) : IsExactly (.func receiver name) (.func name receiver simple)
  | value {kind : ValueKind} {names declared : List String} : (∃ n ∈ declared, n ∈ names) →
      (∀ n ∈ declared, n ∈ names ∨ n = ",") → IsExactly (.value kind names) (.value kind declared)
  | type (name : String) : IsExactly (.type name) (.type [name])

/-- Whether subjects name different things. -/
def Subject.IsDisjoint : Subject → Subject → Prop
  | .func receiver name, .func receiver' name' => receiver ≠ receiver' ∨ name ≠ name'
  | .value kind names, .value kind' names' => kind ≠ kind' ∨ ∀ n ∈ names, n ∉ names'
  | .type name, .type name' => name ≠ name'
  | _, _ => True

section Subjects

variable {s t : Subject} {d : Declared}

theorem Subject.IsDisjoint.symm (h : s.IsDisjoint t) : t.IsDisjoint s := by
  cases s <;> cases t <;> try trivial
  · exact h.imp Ne.symm Ne.symm
  · exact h.imp Ne.symm fun hall n hn hmem => hall n hmem hn
  · exact Ne.symm h

theorem Subject.isDeclaredBy_value {kind kind' : ValueKind} {names declared : List String} :
    (Subject.value kind names).isDeclaredBy (.value kind' declared) ↔ kind' = kind ∧ ∃ n ∈ declared, n ∈ names := by
  simp [Subject.isDeclaredBy]

theorem Subject.IsExactly.isDeclaredBy (h : s.IsExactly d) : s.isDeclaredBy d := by
  cases h with
  | func => simp [Subject.isDeclaredBy]
  | value hshared _ => exact Subject.isDeclaredBy_value.mpr ⟨rfl, hshared⟩
  | type => simp [Subject.isDeclaredBy]

/-- What declares one subject alone declares another, disjoint one only where both are values. -/
theorem Subject.IsExactly.values_of_isDeclaredBy (h : s.IsExactly d) (hd : t.IsDisjoint s) (ht : t.isDeclaredBy d) :
    ∃ kind names names', s = .value kind names ∧ t = .value kind names' ∧ ∀ n ∈ names', n ∉ names := by
  cases h with
  | func receiver name simple =>
    cases t with
    | func receiver' name' =>
      rw [Subject.isDeclaredBy, Bool.and_eq_true, beq_iff_eq, beq_iff_eq] at ht
      exact (hd.elim (· ht.1.symm) (· ht.2.symm)).elim
    | value | type => cases ht
  | @value kind names declared _ _ =>
    cases t with
    | value kind' names' =>
      obtain ⟨rfl, -⟩ := Subject.isDeclaredBy_value.mp ht
      exact ⟨kind, names, names', rfl, rfl, hd.resolve_left fun hne => hne rfl⟩
    | func | type => cases ht
  | type name =>
    cases t with
    | type name' =>
      rw [Subject.isDeclaredBy, List.contains_iff_mem, List.mem_singleton] at ht
      exact (hd ht).elim
    | func | value => cases ht

/-- A group shares names with two lists of names together if it does with one of them. -/
theorem isDeclaredBy_append {kind : ValueKind} {names names' : List String} :
    (Subject.value kind (names ++ names')).isDeclaredBy d =
      ((Subject.value kind names).isDeclaredBy d || (Subject.value kind names').isDeclaredBy d) := by
  cases d with
  | value kind' declared =>
    rw [Bool.eq_iff_iff, Bool.or_eq_true]
    simp only [Subject.isDeclaredBy_value, List.mem_append]
    constructor
    · rintro ⟨hkind, n, hn, hmem⟩
      exact hmem.imp (fun h => ⟨hkind, n, hn, h⟩) fun h => ⟨hkind, n, hn, h⟩
    · rintro (⟨hkind, n, hn, h⟩ | ⟨hkind, n, hn, h⟩)
      · exact ⟨hkind, n, hn, .inl h⟩
      · exact ⟨hkind, n, hn, .inr h⟩
  | func | type | imports | other => rfl

end Subjects

/-- Elements that are counted just as often by a wider test are those that it counts. -/
theorem of_countP_eq {α : Type} {p q : α → Bool} {l : List α} (h : ∀ x, p x → q x) (hcount : l.countP p = l.countP q)
    {x : α} (hx : x ∈ l) (hq : q x) : p x := by
  have hsub : (l.filter p).Sublist (l.filter q) := List.monotone_filter_right l h
  rw [List.countP_eq_length_filter, List.countP_eq_length_filter] at hcount
  exact (List.mem_filter.mp (hsub.eq_of_length hcount ▸ List.mem_filter.mpr ⟨hx, hq⟩)).2

namespace Package

variable {p q r l : Package} {filename text : String} {ft f g : SourceFile}

/-! ## What a package gains -/

/-- What a package that is loaded again has with a text put to the end of a file. -/
structure Gains (q : Package) (filename : String) (ft : SourceFile) (l : Package) : Prop where
  old : ∀ f ∈ l.files, f ∈ q.files ∨
    ∃ g, (g ∈ q.files ∨ g.declarations = []) ∧ ∀ s, f.count s = g.count s + ft.count s
  kept : ∀ g ∈ q.files, ∃ f ∈ l.files, ∀ s, g.count s ≤ f.count s
  localName : l.localName = q.localName
  contents : ∀ name, IsFileName name → name ≠ filename → l.contentsOrNew name = q.contentsOrNew name

theorem count_eq_zero {s : Subject} (hnone : q.files.findSubject? s = none) (hg : g ∈ q.files ∨ g.declarations = []) :
    g.count s = 0 := by
  rcases hg with hg | hg
  · exact List.countP_eq_zero.mpr fun d hd => not_isDeclaredBy hnone hg hd
  · rw [SourceFile.count, hg]
    rfl

/-- What was found is found. -/
theorem Gains.found {s : Subject} (h : Gains q filename ft l) (hs : q.files.findSubject? s ≠ none) :
    l.files.findSubject? s ≠ none := by
  intro hnone
  obtain ⟨m, hm⟩ := Option.ne_none_iff_exists'.mp hs
  obtain ⟨hfile, hdecl, hdeclared⟩ := mem_of_findSubject? hm
  obtain ⟨f, hf, hcount⟩ := h.kept m.file hfile
  have hzero : f.count s = 0 := count_eq_zero hnone (.inl hf)
  have hpos : 0 < m.file.count s := List.countP_pos_iff.mpr ⟨m.declaration, hdecl, hdeclared⟩
  have := hcount s
  omega

/-- A group that is found for an addition, where the package had nothing that it shares names with
and gained the text of a disjoint one, has names of that text: the addition exceeds it. -/
theorem Gains.exceeds {a b : Addition} {m : Match} (h : Gains q filename ft l)
    (ha : ∀ d ∈ ft.declarations, a.subject.IsExactly d.declared) (hdisjoint : b.subject.IsDisjoint a.subject)
    (hmissa : q.files.findSubject? a.subject = none) (hmissb : q.files.findSubject? b.subject = none)
    (hm : l.files.findSubject? b.subject = some m) : exceeds b m.declaration.declared ≠ none := by
  obtain ⟨hfile, hdecl, hdeclared⟩ := mem_of_findSubject? hm
  obtain ⟨g, hg, hcount⟩ := (h.old m.file hfile).resolve_left fun hmem => not_isDeclaredBy hmissb hmem hdecl hdeclared
  have hall : ∀ s, q.files.findSubject? s = none → m.file.count s = ft.count s := by
    intro s hs
    rw [hcount, count_eq_zero hs hg, Nat.zero_add]
  obtain ⟨d, hd, hboth⟩ : ∃ d ∈ ft.declarations, b.subject.isDeclaredBy d.declared := by
    have hpos : 0 < m.file.count b.subject := List.countP_pos_iff.mpr ⟨m.declaration, hdecl, hdeclared⟩
    rw [hall _ hmissb] at hpos
    exact List.countP_pos_iff.mp hpos
  obtain ⟨kind, names, names', hsa, hsb, hnames⟩ := (ha d hd).values_of_isDeclaredBy hdisjoint hboth
  rw [hsa] at hmissa
  rw [hsb] at hmissb hdeclared
  -- in the file of the match, all that shares names with either list shares some with the first
  have hmiss : q.files.findSubject? (.value kind (names ++ names')) = none := by
    rw [Members.findSubject?_eq_none, Members.count, List.countP_eq_zero] at hmissa hmissb ⊢
    intro d hd
    rw [isDeclaredBy_append, Bool.or_eq_true]
    exact not_or.mpr ⟨hmissa d hd, hmissb d hd⟩
  have hwider : ∀ d : Declared, (Subject.value kind names).isDeclaredBy d →
      (Subject.value kind (names ++ names')).isDeclaredBy d := by
    intro d hd
    rw [isDeclaredBy_append, hd, Bool.true_or]
  have hall' : ∀ d ∈ ft.declarations, (Subject.value kind names).isDeclaredBy d.declared :=
    fun d hd => hsa ▸ (ha d hd).isDeclaredBy
  have hcounts : m.file.count (.value kind names) = m.file.count (.value kind (names ++ names')) := by
    rw [hall _ hmissa, hall _ hmiss, SourceFile.count, SourceFile.count, List.countP_eq_length.mpr hall',
      List.countP_eq_length.mpr fun d hd => hwider _ (hall' d hd)]
  have hfirst : (Subject.value kind names).isDeclaredBy m.declaration.declared := by
    refine of_countP_eq (p := fun d : Declaration => (Subject.value kind names).isDeclaredBy d.declared)
      (fun d => hwider d.declared) hcounts hdecl ?_
    rw [isDeclaredBy_append, hdeclared, Bool.or_true]
  cases hd : m.declaration.declared with
  | value kind' declared =>
    rw [hd] at hfirst
    obtain ⟨-, n, hn, hmem⟩ := Subject.isDeclaredBy_value.mp hfirst
    intro hnone
    unfold Package.exceeds at hnone
    rw [hsb] at hnone
    dsimp only at hnone
    split at hnone
    · next hcontained =>
      exact hnames n (List.contains_iff_mem.mp (List.all_eq_true.mp hcontained n hn)) hmem
    · cases hnone
  | func | type | imports | other =>
    rw [hd] at hfirst
    cases hfirst

section Appended

/-- The bytes of a file with a text at its end. -/
def extended (q : Package) (filename text : String) : Bytes :=
  q.contentsOrNew filename ++ bytesOf text ++ [LineIndex.lineFeed]

/-- Whether a source file of a package takes a text, if there is a file of its name. -/
def MayTake (q : Package) (filename text : String) : Prop :=
  ∀ f ∈ q.files, f.filename = filename → ∃ s, f.source = Utf8.encode s ∧ Takes s text.toList

theorem extended_eq (hl : Loaded p q) (hf : f ∈ q.files) :
    q.extended f.filename text = f.source ++ Utf8.encode (text.toList ++ ['\n']) := by
  rw [extended, hl.contentsOrNew_of_mem hf, List.append_assoc, Utf8.encode_append]
  rfl

/-- A file behind a text put to the end of a file is the one before it, unless it is that file,
perhaps under another name; then it declares what the text does, too. -/
theorem eq_or_extended (hp : p.OverTrees) (hl : Loaded p q) (hn : isSourceName filename) (htakes : q.MayTake filename text)
    (ht : DeclaredAlone text ft) (h : append filename text q = (.ok (), r)) (hr : Loaded r l)
    (hg : g ∈ q.files) (hf : f ∈ l.files) (hname : f.filename = g.filename) :
    f = g ∨ q.path g.filename = q.path filename ∧ f.packageName = g.packageName ∧
      ∀ s, f.count s = g.count s + ft.count s := by
  have hfile : IsFileName filename := ⟨hn, (write_eq_ok h).1⟩
  refine (hl.eq_or_written hp hfile h hr hg hf hname).imp_right fun ⟨hpath, hread, hwritten⟩ => ⟨hpath, ?_⟩
  -- the file has the bytes of the one of that name, and those with the text
  obtain ⟨k, hk, rfl, hsource⟩ := hl.exists_file_of_read hp hfile hread
  have hbehind : f.source = g.source ++ Utf8.encode (text.toList ++ ['\n']) := by
    rw [hwritten, ← hsource]
    exact extended_eq hl hk
  obtain ⟨s, hs, hs'⟩ := htakes k hk rfl
  have hreceives : Receives q text.toList g.filename g := .member hg (hsource ▸ hs) hs'
  obtain ⟨f', hparse, hpackage, hcount⟩ := hreceives.parse_text hl ht
  have hparse' := (hr.files f hf).2
  rw [hname, hbehind, hparse, Except.ok.injEq] at hparse'
  exact hparse' ▸ ⟨hpackage, hcount⟩

/-- A new file of a package whose name has no line end declares what its text does. -/
theorem new_extended (hl : Loaded p q) (hline : q.localName.toList.getLast? ≠ some '\n') (ht : DeclaredAlone text ft)
    (hnone : ∀ f ∈ q.files, f.filename ≠ filename) (h : append filename text q = (.ok (), r)) (hr : Loaded r l)
    (hf : f ∈ l.files) (hname : f.filename = filename) :
    f.packageName = q.localName ∧ ∀ s, f.count s = ft.count s := by
  have hlocal := (deriveName_eq_ok.mp hl.localName).2
  have hbytes : q.extended filename text =
      Utf8.encode (fileText q.localName.toList [.blank] ++ (text.toList ++ ['\n'])) := by
    rw [extended, hl.contentsOrNew_of_notMem hnone, newFile_eq String.ofList_toList.symm, List.append_assoc,
      Utf8.encode_append, Utf8.encode_append]
    rfl
  obtain ⟨hread, hparse⟩ := hr.files f hf
  rw [hname, read_of_write h, Except.ok.injEq] at hread
  rw [hname, ← hread, show q.contentsOrNew filename ++ bytesOf text ++ [LineIndex.lineFeed] = _ from hbytes] at hparse
  -- the name stands in the clause of a file that is read
  have hidentifier : IsIdentifier q.localName.toList := by
    obtain ⟨s, hs⟩ := parse_eq_ok_iff.mp hparse
    obtain rfl := Utf8.encode_injective hs.encode_eq
    refine isIdentifier_of_isName hlocal hline (hs.isNameText ?_)
    obtain ⟨c, cs, hc, hcs, hword | hword⟩ := exists_word_of_isName hlocal
    · exact hword ▸ isWordText_of_isNameStart hc hcs
    · exact absurd (hword ▸ List.getLast?_concat) hline
  have hreceives : Receives q text.toList filename (fileOf filename q.localName.toList [.blank]) :=
    .new hnone hidentifier
  obtain ⟨f', hparse', hpackage, hcount⟩ := hreceives.parse_text hl ht
  rw [show (fileOf filename q.localName.toList [.blank]).source ++ Utf8.encode (text.toList ++ ['\n']) =
      Utf8.encode (fileText q.localName.toList [.blank] ++ (text.toList ++ ['\n'])) from
    (Utf8.encode_append _ _).symm, hparse, Except.ok.injEq] at hparse'
  rw [hparse']
  refine ⟨hpackage.trans String.ofList_toList, fun s => ?_⟩
  rw [hcount]
  exact Nat.zero_add _

/-- What a package gains by a text at the end of a file. -/
theorem gains_of_append (hp : p.OverTrees) (hl : Loaded p q) (hn : isSourceName filename)
    (hline : q.localName.toList.getLast? ≠ some '\n') (htakes : q.MayTake filename text) (ht : DeclaredAlone text ft)
    (h : append filename text q = (.ok (), r)) (hr : Loaded r l) : Gains q filename ft l := by
  have hq := hp.loaded hl
  have hfile : IsFileName filename := ⟨hn, (write_eq_ok h).1⟩
  have hmem := fun n => hl.exists_behind hp hfile h hr (n := n)
  -- the file of a name, before and behind the text
  have hbehind : ∀ g ∈ q.files, ∃ f ∈ l.files, f.filename = g.filename := fun g hg =>
    (hmem g.filename).mpr (.inr ⟨g, hg, rfl⟩)
  have hbefore : ∀ f ∈ l.files, (∃ g ∈ q.files, g.filename = f.filename) ∨
      f.filename = filename ∧ ∀ g ∈ q.files, g.filename ≠ filename := by
    intro f hf
    by_cases hold : ∃ g ∈ q.files, g.filename = f.filename
    · exact .inl hold
    · rcases (hmem f.filename).mp ⟨f, hf, rfl⟩ with hname | hmem
      · exact .inr ⟨hname, fun g hg hsame => hold ⟨g, hg, hsame.trans hname.symm⟩⟩
      · exact (hold hmem).elim
  have hsame : ∀ {f g}, g ∈ q.files → f ∈ l.files → f.filename = g.filename → f = g ∨
      q.path g.filename = q.path filename ∧ f.packageName = g.packageName ∧ ∀ s, f.count s = g.count s + ft.count s :=
    fun hg hf => eq_or_extended hp hl hn htakes ht h hr hg hf
  have hpackage : ∀ {f g}, g ∈ q.files → f ∈ l.files → f.filename = g.filename → f.packageName = g.packageName := by
    intro f g hg hf hname
    rcases hsame hg hf hname with rfl | ⟨-, hpackage, -⟩
    · rfl
    · exact hpackage
  have hlocalName : l.localName = q.localName := by
    have hne : l.files ≠ [] := by
      obtain ⟨f, hf, -⟩ := (hmem filename).mpr (.inl rfl)
      exact List.ne_nil_of_mem hf
    have hnameOf : IsNameOf (r.withFiles l.files) (l.files.map (·.packageName)) q.localName := by
      refine hl.isNameOf hne (fun g hg => ?_) fun f hf => ?_
      · obtain ⟨f, hf, hname⟩ := hbehind g hg
        exact ⟨f, hf, hpackage hg hf hname⟩
      · rcases hbefore f hf with ⟨g, hg, hname⟩ | ⟨hname, hnone⟩
        · exact .inl ⟨g, hg, (hpackage hg hf hname.symm).symm⟩
        · exact .inr (new_extended hl hline ht hnone h hr hf hname).1
    have hderived := deriveName_eq_ok_iff.mpr ⟨hnameOf, (deriveName_eq_ok.mp hl.localName).2⟩
    exact Except.ok.inj (hr.localName.symm.trans hderived)
  refine ⟨fun f hf => ?_, fun g hg => ?_, hlocalName, fun name hname hne => ?_⟩
  · rcases hbefore f hf with ⟨g, hg, hname⟩ | ⟨hname, hnone⟩
    · rcases hsame hg hf hname.symm with rfl | ⟨-, -, hcount⟩
      · exact .inl hg
      · exact .inr ⟨g, .inl hg, hcount⟩
    · refine .inr ⟨fileOf filename q.localName.toList [.blank], .inr rfl, fun s => ?_⟩
      rw [(new_extended hl hline ht hnone h hr hf hname).2 s]
      exact (Nat.zero_add _).symm
  · obtain ⟨f, hf, hname⟩ := hbehind g hg
    refine ⟨f, hf, fun s => ?_⟩
    rcases hsame hg hf hname with rfl | ⟨-, -, hcount⟩
    · exact Nat.le_refl _
    · rw [hcount]
      exact Nat.le_add_right _ _
  · by_cases hold : ∃ g ∈ q.files, g.filename = name
    · obtain ⟨g, hg, rfl⟩ := hold
      obtain ⟨f, hf, hfname⟩ := hbehind g hg
      rcases hsame hg hf hfname with rfl | ⟨hpath, -, -⟩
      · rw [hr.contentsOrNew_of_mem hf, hl.contentsOrNew_of_mem hg]
      · obtain ⟨ss, hss, hd⟩ := hq.directory
        have hx := path_spell hss hd hfile.isPlain
        exact (path_ne hq.directory hname.isPlain hne hfile.plain hx (hpath.trans hx) rfl).elim
    · have hnone : ∀ g ∈ q.files, g.filename ≠ name := fun g hg hsame => hold ⟨g, hg, hsame⟩
      have hnone' : ∀ f ∈ l.files, f.filename ≠ name := by
        intro f hf hsame
        rcases hbefore f hf with ⟨g, hg, hgname⟩ | ⟨hfname, -⟩
        · exact hold ⟨g, hg, hgname.trans hsame⟩
        · exact hne (hsame.symm.trans hfname)
      rw [hr.contentsOrNew_of_notMem hnone', hl.contentsOrNew_of_notMem hnone, newFile, newFile, hlocalName]

end Appended

/-! ## Two additions -/

/-- Whether an addition leaves what there is, and its text declares what it names and nothing else,
for a source file that takes the text or is not there. -/
structure IsSimple (q : Package) (a : Addition) : Prop where
  keeps : a.replace = false
  isSourceName : isSourceName a.filename
  mayTake : q.MayTake a.filename a.text
  declares : ∃ ft, DeclaredAlone a.text ft ∧ ∀ d ∈ ft.declarations, a.subject.IsExactly d.declared

section Both

variable {a b : Addition} {s s' : Package}

/-- An addition that leaves what there is does nothing where its subject is found. -/
theorem eq_of_found (hkeeps : a.replace = false) (hfound : q.files.findSubject? a.subject ≠ none)
    (h : addDeclaration a q = (.ok (), r)) : r = q := by
  cases addDeclaration_eq_ok.mp h with
  | new hm => exact absurd hm hfound
  | kept _ _ _ hr => exact hr
  | replaced _ _ hreplace =>
    rw [hkeeps] at hreplace
    cases hreplace

/-- What a package gains by an addition of something that it does not have. -/
theorem IsSimple.gains (ha : q.IsSimple a) (hp : p.OverTrees) (hl : Loaded p q)
    (hline : q.localName.toList.getLast? ≠ some '\n') (hmiss : q.files.findSubject? a.subject = none)
    (h : addDeclaration a q = (.ok (), r)) (hload : load r = (.ok (), l)) :
    ∃ ft, (∀ d ∈ ft.declarations, a.subject.IsExactly d.declared) ∧ Gains q a.filename ft l := by
  obtain ⟨ft, ht, hall⟩ := ha.declares
  rw [addDeclaration_of_none hmiss] at h
  exact ⟨ft, hall, gains_of_append hp hl ha.isSourceName hline ha.mayTake ht h (load_eq_ok hload)⟩

/-- What is found is found behind another addition, and left. -/
theorem IsSimple.layers_eq (hb : q.IsSimple b) (hp : p.OverTrees) (hl : Loaded p q)
    (hline : q.localName.toList.getLast? ≠ some '\n') (hkeeps : a.replace = false)
    (hfound : q.files.findSubject? a.subject ≠ none) (hfirst : addDeclaration b q = (.ok (), r))
    (hload : load r = (.ok (), l)) (hsecond : addDeclaration a l = (.ok (), s)) : s.layers = r.layers := by
  have hfound' : l.files.findSubject? a.subject ≠ none := by
    by_cases hmiss : q.files.findSubject? b.subject = none
    · obtain ⟨ft, -, hgains⟩ := hb.gains hp hl hline hmiss hfirst hload
      exact hgains.found hfound
    · obtain rfl := eq_of_found hb.keeps hmiss hfirst
      rw [hl.load] at hload
      cases hload
      exact hfound
  rw [eq_of_found hkeeps hfound' hsecond]
  exact (load_eq_ok hload).layers

/-- What two additions store, one behind the other, if the package has neither subject. -/
theorem IsSimple.stored?_both (ha : q.IsSimple a) (hb : q.IsSimple b) (hp : p.OverTrees) (hl : Loaded p q)
    (hline : q.localName.toList.getLast? ≠ some '\n') (hne : b.filename ≠ a.filename)
    (hdisjoint : b.subject.IsDisjoint a.subject) (hmissa : q.files.findSubject? a.subject = none)
    (hmissb : q.files.findSubject? b.subject = none) (hfirst : addDeclaration a q = (.ok (), r))
    (hload : load r = (.ok (), l)) (hsecond : addDeclaration b l = (.ok (), s)) :
    ∃ x y, q.path a.filename = .ok x ∧ q.path b.filename = .ok y ∧ y ≠ x ∧
      s.layers = q.layers.withOutput s.layers.output ∧ ∀ z, IsLayerPath z → s.layers.output.stored? z =
        if z = y then some ⟨q.extended b.filename b.text, q.layers.modeBehind y⟩
        else if z = x then some ⟨q.extended a.filename a.text, q.layers.modeBehind x⟩
        else q.layers.output.stored? z := by
  obtain ⟨ft, hall, hgains⟩ := ha.gains hp hl hline hmissa hfirst hload
  have hmissb' : l.files.findSubject? b.subject = none := by
    cases hm : l.files.findSubject? b.subject with
    | none => rfl
    | some m =>
      refine absurd ?_ (hgains.exceeds hall hdisjoint hmissa hmissb hm)
      cases addDeclaration_eq_ok.mp hsecond with
      | new hnone =>
        rw [hm] at hnone
        cases hnone
      | kept hm' hexceeds | replaced hm' hexceeds =>
        rw [hm, Option.some.injEq] at hm'
        exact hm' ▸ hexceeds
  rw [addDeclaration_of_none hmissa] at hfirst
  rw [addDeclaration_of_none hmissb'] at hsecond
  have hfilea : IsFileName a.filename := ⟨ha.isSourceName, (write_eq_ok hfirst).1⟩
  have hfileb : IsFileName b.filename := ⟨hb.isSourceName, (write_eq_ok hsecond).1⟩
  have hd := (hp.loaded hl).directory
  obtain ⟨ss, hss, hspell⟩ := id hd
  have hx := path_spell hss hspell hfilea.isPlain
  have hy := path_spell hss hspell hfileb.isPlain
  have hne' := path_ne hd hfileb.isPlain hne hfilea.plain hx hy
  -- the second is written to the package that was loaded behind the first
  have hstores := stores_of_write hd hx hfirst
  obtain ⟨hlayers, hdirectory⟩ := layers_of_load hload
  have hdirectory' : l.directory = q.directory := hdirectory.trans hstores.directory
  have hstores' := stores_of_write (hdirectory' ▸ hd) ((path_eq_of_directory hdirectory' _).trans hy) hsecond
  have hextended : l.extended b.filename b.text = q.extended b.filename b.text := by
    rw [extended, hgains.contents b.filename hfileb hne, extended]
  refine ⟨_, _, hx, hy, hne', ?_, fun z hz => ?_⟩
  · rw [hstores'.layers, hlayers, hstores.layers, Layers.withOutput_withOutput, Layers.output_withOutput]
  · rw [hstores'.stored z hz, hlayers, hstores.stored z hz, hstores.modeBehind_eq (isLayerPath_path hy) hne',
      ← hextended]
    rfl

/-- Additions of different subjects to different files may be applied in either order: where both
orders succeed, they leave the same files with the same bytes and permission bits.  This does not
hold of a package without files whose name ends with a line end. -/
theorem applyTransforms_commute (hp : p.OverTrees) (hload : load p = (.ok (), q))
    (hline : q.localName.toList.getLast? ≠ some '\n') (ha : q.IsSimple a) (hb : q.IsSimple b)
    (hfiles : a.filename ≠ b.filename) (hsubjects : a.subject.IsDisjoint b.subject)
    (h : applyTransforms [.add a, .add b] p = (.ok (), s)) (h' : applyTransforms [.add b, .add a] p = (.ok (), s')) :
    s.layers.SameFiles s'.layers := by
  have hl := load_eq_ok hload
  have hsteps : ∀ {a b : Addition} {s : Package}, applyTransforms [.add a, .add b] p = (.ok (), s) →
      ∃ r l, addDeclaration a q = (.ok (), r) ∧ load r = (.ok (), l) ∧ addDeclaration b l = (.ok (), s) := by
    intro a b s h
    obtain ⟨r, hfirst, h⟩ := applyTransforms_cons_eq_ok.mp h
    obtain ⟨s', hsecond, h⟩ := applyTransforms_cons_eq_ok.mp h
    cases h
    rw [applyTransform_of_load hload] at hfirst
    obtain ⟨_, l, hload', hsecond⟩ := bind_eq_ok.mp hsecond
    exact ⟨r, l, hfirst, hload', hsecond⟩
  -- one order, and the other
  obtain ⟨r, l, hfirst, hr, hsecond⟩ := hsteps h
  obtain ⟨r', l', hfirst', hr', hsecond'⟩ := hsteps h'
  by_cases hmissa : q.files.findSubject? a.subject = none
  · by_cases hmissb : q.files.findSubject? b.subject = none
    · obtain ⟨x, y, hx, hy, hne, hlayers, hstored⟩ :=
        ha.stored?_both hb hp hl hline hfiles.symm hsubjects.symm hmissa hmissb hfirst hr hsecond
      obtain ⟨y', x', hy', hx', -, hlayers', hstored'⟩ :=
        hb.stored?_both ha hp hl hline hfiles hsubjects hmissb hmissa hfirst' hr' hsecond'
      rw [hx, Except.ok.injEq] at hx'
      rw [hy, Except.ok.injEq] at hy'
      subst hx' hy'
      rw [hlayers, hlayers']
      refine Layers.sameFiles_withOutput _ fun z hz => ?_
      rw [hstored z hz, hstored' z hz]
      by_cases hzx : z = x
      · rw [if_neg fun hzy => hne (hzy.symm.trans hzx), if_pos hzx, if_pos hzx]
      · rw [if_neg hzx, if_neg hzx]
    · -- nothing is done for `b`, at once or behind `a`
      refine .of_eq ?_
      obtain rfl := eq_of_found hb.keeps hmissb hfirst'
      rw [hl.load] at hr'
      cases hr'
      rw [ha.layers_eq hp hl hline hb.keeps hmissb hfirst hr hsecond]
      rw [hfirst] at hsecond'
      cases hsecond'
      rfl
  · refine .of_eq ?_
    obtain rfl := eq_of_found ha.keeps hmissa hfirst
    rw [hl.load] at hr
    cases hr
    rw [hb.layers_eq hp hl hline ha.keeps hmissa hfirst' hr' hsecond']
    rw [hfirst'] at hsecond
    cases hsecond
    rfl

/-- A function for a file. -/
def emptyF : Addition := ⟨"a.go", .func "" "F", "func F() \x7b\x7d", false⟩

/-- A text that is read as one declaration declares a subject alone if the declaration does. -/
theorem exists_declaredAlone {text : String} {subject : Subject} {d : Declared} (hd : subject.IsExactly d)
    (h : ((SourceFile.parse "" (bytesOf (Snippet.header ++ text ++ "\n")) true).toOption.map
      fun f => f.declarations.map (·.declared)) = some [d]) :
    ∃ ft, DeclaredAlone text ft ∧ ∀ d ∈ ft.declarations, subject.IsExactly d.declared := by
  cases hparse : SourceFile.parse "" (bytesOf (Snippet.header ++ text ++ "\n")) true with
  | error e =>
    rw [hparse] at h
    cases h
  | ok ft =>
    rw [hparse] at h
    refine ⟨ft, ⟨"", hparse⟩, fun e he => ?_⟩
    have hmem : e.declared ∈ [d] := Option.some.inj h ▸ List.mem_map_of_mem he
    rw [List.mem_singleton.mp hmem]
    exact hd

/-- A package without files. -/
def emptyPackage : Package :=
  ⟨.overlay (.memory .empty) (.memory .empty), "m", "d", .standard, fun _ _ => .missing, [], [], "",
    ⟨[], []⟩⟩

theorem emptyPackage_created :
    create emptyPackage.layers "m" "d" .standard emptyPackage.formatter = .ok emptyPackage := rfl

theorem functionAndLimits_commute : ∃ q s s', emptyPackage.OverTrees ∧ load emptyPackage = (.ok (), q) ∧
    q.localName.toList.getLast? ≠ some '\n' ∧ q.IsSimple emptyF ∧ q.IsSimple (limits "b.go") ∧
    emptyF.filename ≠ (limits "b.go").filename ∧ emptyF.subject.IsDisjoint (limits "b.go").subject ∧
    applyTransforms [.add emptyF, .add (limits "b.go")] emptyPackage = (.ok (), s) ∧
    applyTransforms [.add (limits "b.go"), .add emptyF] emptyPackage = (.ok (), s') ∧ s.layers.SameFiles s'.layers := by
  have hempty : Layer.IsTree (.memory .empty) := MemoryLayer.Built.empty
  have hp : emptyPackage.OverTrees := by
    refine overTrees_of_create ?_ ?_ emptyPackage_created <;> exact hempty
  have hload := eq_ok_of_isOk (show (load emptyPackage).1.isOk by decide +kernel)
  have hline : (load emptyPackage).2.localName.toList.getLast? ≠ some '\n' := by decide +kernel
  have hnone : (load emptyPackage).2.files = [] := List.isEmpty_iff.mp (by decide +kernel)
  have htakes : ∀ filename text, (load emptyPackage).2.MayTake filename text := by
    intro filename text f hf
    rw [hnone] at hf
    cases hf
  have ha : (load emptyPackage).2.IsSimple emptyF :=
    ⟨rfl, by decide, htakes _ _, exists_declaredAlone (.func "" "F" true) (by decide +kernel)⟩
  have hb : (load emptyPackage).2.IsSimple (limits "b.go") := by
    refine ⟨rfl, by decide, htakes _ _, exists_declaredAlone (d := .value .var ["low", "high"]) (.value ?_ ?_) ?_⟩
    · exact ⟨"low", by simp, by simp⟩
    · exact fun n hn => .inl hn
    · decide +kernel
  have hfirst := eq_ok_of_isOk
    (show (applyTransforms [.add emptyF, .add (limits "b.go")] emptyPackage).1.isOk by decide +kernel)
  have hsecond := eq_ok_of_isOk
    (show (applyTransforms [.add (limits "b.go"), .add emptyF] emptyPackage).1.isOk by decide +kernel)
  have hfiles : emptyF.filename ≠ (limits "b.go").filename := by decide
  exact ⟨_, _, _, hp, hload, hline, ha, hb, hfiles, trivial, hfirst, hsecond,
    applyTransforms_commute hp hload hline ha hb hfiles trivial hfirst hsecond⟩

end Both

end Package

end GoSplice
