import GoSplice.Proofs.Additions
import GoSplice.Proofs.FileEdits
import GoSplice.Proofs.SnippetTexts

/-!
# Groups of values

The names of a group of values that is added are declared once when the package
is loaded again, if they were declared at most once before, and if the group has
a place: a file that takes its text, and a line end behind what it replaces.

    load p = (ok (), q) → names declared at most once in q → HasPlace q a →
      applyTransform (.add a) p = (ok (), r) →
        load r = (ok (), r'), DeclaresOnce q a kind names r'     (applyTransform_declaresOnce)

A group that shares a name with the one added is left as it is unless it is to be
replaced, and then only one of such groups is: without these conditions names
are declared twice or not at all (bounds_not_addsOnce).
-/

namespace GoSplice

open Syntax

/-! ## How often a package declares something -/

/-- How many declarations of a package declare what a subject names. -/
def Members.count (files : Members) (s : Subject) : Nat :=
  (files.flatMap (·.declarations)).countP (s.isDeclaredBy ·.declared)

namespace Members

variable {files : Members} {s : Subject}

theorem count_cons (f : SourceFile) (files : Members) (s : Subject) :
    count (f :: files) s = f.count s + count files s := by
  rw [count, List.flatMap_cons, List.countP_append]
  rfl

theorem count_perm {files' : Members} (h : files.Perm files') (s : Subject) : files.count s = files'.count s :=
  (h.flatMap_right _).countP_eq _

theorem count_le {t : Subject} (h : ∀ d, s.isDeclaredBy d → t.isDeclaredBy d) (files : Members) :
    files.count s ≤ files.count t :=
  List.countP_mono_left fun d _ => h d.declared

/-- What is declared nowhere is not found. -/
theorem findSubject?_eq_none : files.findSubject? s = none ↔ files.count s = 0 := by
  simp only [findSubject?, find?, List.findSome?_eq_none_iff, Option.map_eq_none_iff, List.find?_eq_none, count,
    List.countP_eq_zero, List.mem_flatMap]
  exact ⟨fun h d ⟨f, hf, hd⟩ => h f hf d hd, fun h f hf d hd => h d ⟨f, hf, hd⟩⟩

end Members

/-- The names that a group of a kind declares. -/
def Declared.valueNames (kind : ValueKind) : Declared → List String
  | .value kind' names => if kind' = kind then names else []
  | _ => []

theorem Declared.mem_valueNames {kind : ValueKind} {d : Declared} {n : String} :
    n ∈ d.valueNames kind ↔ (Subject.value kind [n]).isDeclaredBy d := by
  cases d with
  | value kind' names =>
    by_cases hkind : kind' = kind <;> simp [Declared.valueNames, Subject.isDeclaredBy, hkind]
  | _ => simp [Declared.valueNames, Subject.isDeclaredBy]

namespace Package

variable {p q r : Package} {f g : SourceFile}

/-! ## Files of packages that are loaded again -/

theorem Loaded.nodup (h : Loaded p q) : q.files.Nodup :=
  (List.pairwise_map.mp h.nodup_filenames).imp fun hne heq => hne (congrArg _ heq)

/-- The files of a package with other names than one. -/
def others (q : Package) (filename : String) : Members := q.files.filter (·.filename ≠ filename)

theorem mem_others {filename : String} : f ∈ q.others filename ↔ f ∈ q.files ∧ f.filename ≠ filename := by
  rw [others, List.mem_filter, decide_eq_true_eq]

theorem nodup_cons_others (hq : q.files.Nodup) {filename : String} (hf : f.filename = filename) :
    (f :: q.others filename).Nodup :=
  List.nodup_cons.mpr ⟨fun hmem => (mem_others.mp hmem).2 hf, hq.filter _⟩

/-- A package that was loaded again has one file written, and its other files. -/
theorem Reloaded.perm (h : Reloaded q f r) (hq : q.files.Nodup) (hr : r.files.Nodup) :
    r.files.Perm (f :: q.others f.filename) := by
  refine (List.perm_ext_iff_of_nodup hr (nodup_cons_others hq rfl)).mpr fun g => ?_
  rw [h.files, List.mem_cons, mem_others]

/-- What a package declares when one of its files was written. -/
theorem Reloaded.count_of_mem (h : Reloaded q f r) (hl : Loaded p q) (hr : r.files.Nodup)
    (hg : g ∈ q.files) (hname : g.filename = f.filename) (s : Subject) :
    r.files.count s + g.count s = q.files.count s + f.count s := by
  have hq := hl.nodup
  have hperm : q.files.Perm (g :: q.others f.filename) := by
    refine (List.perm_ext_iff_of_nodup hq (nodup_cons_others hq hname)).mpr fun k => ?_
    rw [List.mem_cons, mem_others]
    constructor
    · intro hk
      by_cases hsame : k.filename = f.filename
      · exact Or.inl (hl.eq_of_filename hk hg (hsame.trans hname.symm))
      · exact Or.inr ⟨hk, hsame⟩
    · rintro (rfl | ⟨hk, -⟩)
      · exact hg
      · exact hk
  rw [Members.count_perm (h.perm hq hr), Members.count_perm hperm, Members.count_cons, Members.count_cons]
  omega

/-- What a package declares when a file was added. -/
theorem Reloaded.count_of_new (h : Reloaded q f r) (hq : q.files.Nodup) (hr : r.files.Nodup)
    (hnew : ∀ g ∈ q.files, g.filename ≠ f.filename) (s : Subject) :
    r.files.count s = q.files.count s + f.count s := by
  have hall : q.others f.filename = q.files := List.filter_eq_self.mpr fun g hg => decide_eq_true (hnew g hg)
  rw [Members.count_perm (h.perm hq hr), hall, Members.count_cons, Nat.add_comm]

/-! ## Writing to a package that is not loaded again -/

/-- A package with other files, contents and package name than those it has loaded. -/
def withLoaded (p : Package) (files : Members) (contents : List (String × Bytes)) (localName : String) : Package :=
  { p with files, contents, localName }

section WithLoaded

variable {files : Members} {contents : List (String × Bytes)} {localName : String}

theorem Loaded.eq_withLoaded (h : Loaded p q) : q = p.withLoaded q.files q.contents q.localName := by
  conv => lhs; rw [h.eq, withFiles, ← h.contents]
  rfl

/-- A load does not depend on what was loaded before. -/
theorem load_of_withLoaded (h : load (p.withLoaded files contents localName) = (.ok (), q)) :
    load p = (.ok (), q) := by
  have hl := load_eq_ok h
  have hload := load_apply (p := p) hl.names (parseFiles_map hl.files) hl.localName
  rw [hload, hl.eq]
  rfl

variable (files contents localName) in
/-- A write does not depend on what was loaded before. -/
theorem write_withLoaded {filename : String} {data : Bytes} (h : write filename data p = (.ok (), q)) :
    write filename data (p.withLoaded files contents localName) =
      (.ok (), q.withLoaded files (Entries.put filename data contents) localName) := by
  obtain ⟨hplain, x, o, mode, o', hx, ho, hmode, ho', rfl⟩ := write_eq_ok h
  have hpath : (p.withLoaded files contents localName).path filename = .ok x := hx
  have hdirs : (p.withLoaded files contents localName).layers.output.makeDirs
      (p.withLoaded files contents localName).directory defaultDirMode = .ok o := ho
  have hkept : ((p.withLoaded files contents localName).onto o).fileMode x = .ok mode := hmode
  have hwrite : ((p.withLoaded files contents localName).onto o).layers.output.write x data mode = .ok o' := ho'
  rw [write_apply data hplain hpath, hdirs]
  dsimp only
  rw [hkept]
  dsimp only
  rw [hwrite]
  rfl

/-- A text that is added to a package can be added to it when it was loaded again. -/
theorem append_of_loaded {filename text : String} (hl : Loaded p q)
    (hcontents : q.contentsOrNew filename = p.contentsOrNew filename) (h : append filename text p = (.ok (), r)) :
    ∃ r', append filename text q = (.ok (), r') ∧ ∀ x, load r' = (.ok (), x) → load r = (.ok (), x) := by
  rw [append_eq, ← hcontents] at h
  have hq := write_withLoaded q.files q.contents q.localName h
  rw [← hl.eq_withLoaded] at hq
  exact ⟨_, hq, fun x hx => load_of_withLoaded hx⟩

end WithLoaded

/-! ## Texts put behind files -/

/-- What a text declares where snippets are read. -/
def DeclaredAlone (text : String) (f : SourceFile) : Prop :=
  ∃ filename, SourceFile.parse filename (bytesOf (Snippet.header ++ text ++ "\n")) true = .ok f

section Extended

variable {filename : String} {text : String} {ft : SourceFile}

/-- A file with a text behind it declares what the text does, too. -/
theorem Receives.parse_text (h : Receives q text.toList filename f) (hl : Loaded p q) (ht : DeclaredAlone text ft) :
    ∃ f', SourceFile.parse filename (f.source ++ Utf8.encode (text.toList ++ ['\n'])) true = .ok f' ∧
      f'.packageName = f.packageName ∧ ∀ s, f'.count s = f.count s + ft.count s := by
  obtain ⟨s, hs, htakes⟩ := h.parsed hl
  obtain ⟨filename', ht⟩ := ht
  have hsource : bytesOf (Snippet.header ++ text ++ "\n") =
      Utf8.encode (fileText "snippet__".toList [.blank] ++ (text.toList ++ ['\n'])) := by
    rw [fileText_eq, bytesOf]
    simp [Snippet.header, Part.bodyText, Part.text]
  rw [hsource] at ht
  exact parse_appended hs Snippet.isNameText_header ht htakes

/-- A package with a text behind one of its files declares what the text does, too. -/
theorem load_of_text (hp : p.OverTrees) (hl : Loaded p q) (hfiles : ∀ g ∈ q.files, IsFileName g.filename)
    (hn : isSourceName filename) (hf : Receives q text.toList filename f) (ht : DeclaredAlone text ft)
    (h : append filename text q = (.ok (), r)) : ∃ r', load r = (.ok (), r') ∧
      ∀ s, r'.files.count s = q.files.count s + ft.count s := by
  obtain ⟨f', hparse, hname, hcount⟩ := hf.parse_text hl ht
  rw [← String.ofList_toList (s := text)] at h
  obtain ⟨r', hload, hreload⟩ := load_of_receives hp hl hfiles hn hf hparse hname h
  have hnodup := (load_eq_ok hload).nodup
  have hfilename : f'.filename = filename := (parse_eq_ok_iff.mp hparse).choose_spec.filename_eq
  refine ⟨r', hload, fun s => ?_⟩
  cases hf with
  | member hmem =>
    have hfiles := hreload.count_of_mem hl hnodup hmem hfilename.symm s
    have := hcount s
    omega
  | new hnone _ =>
    rw [hreload.count_of_new hl.nodup hnodup (hfilename ▸ hnone), hcount]
    exact congrArg _ (Nat.zero_add _)

end Extended

/-! ## Declarations cut out of files -/

/-- Whether a declaration that was found stands apart in its file. -/
def IsDetached (m : Match) : Prop := ∃ s, m.file.source = Utf8.encode s ∧ Detached s m.declaration

section Removed

variable {m : Match}

/-- A file that had a declaration cut out, in a package that was loaded again. -/
structure Removed (q : Package) (m : Match) (f : SourceFile) (r r' : Package) : Prop where
  overTrees : r.OverTrees
  load : load r = (.ok (), r')
  reloaded : Reloaded q f r'
  filename : f.filename = m.file.filename
  contents : ∀ n, r.contentsOrNew n = if n = m.file.filename then f.source else q.contentsOrNew n
  count : ∀ s, f.count s + (s.isDeclaredBy m.declaration.declared).toNat = m.file.count s
  takes : ∀ {s t}, m.file.source = Utf8.encode s → Takes s t → ∃ s', f.source = Utf8.encode s' ∧ Takes s' t

/-- A package without a declaration that stands apart is loaded again. -/
theorem exists_removed (hp : p.OverTrees) (hl : Loaded p q) (hfiles : ∀ g ∈ q.files, IsFileName g.filename)
    (hfile : m.file ∈ q.files) (hdecl : m.declaration ∈ m.file.declarations) (hdetached : IsDetached m)
    (h : remove m q = (.ok (), r)) : ∃ f r', Removed q m f r r' := by
  obtain ⟨s, hs⟩ := parse_eq_ok_iff.mp (hl.files m.file hfile).2
  obtain ⟨s', hs', hdetached⟩ := hdetached
  obtain rfl : s' = s := Utf8.encode_injective (hs'.symm.trans hs.encode_eq)
  obtain ⟨f, s', hparse, hsource, hname, hcount, htakes⟩ := parse_cut hs hdecl hdetached
  obtain ⟨_, hparsed⟩ := parse_eq_ok_iff.mp hparse
  rw [remove_eq, hl.contentsOrNew_of_mem hfile] at h
  have hold : ∀ g ∈ q.files, g.filename = m.file.filename → g.packageName = f.packageName := by
    intro g hg hsame
    rw [hl.eq_of_filename hg hfile hsame, hname]
  obtain ⟨r', hload, hreload⟩ := load_of_write hp hl hfiles (hl.hasSourceName hfile) h hparse hold
    (Or.inl ⟨m.file, hfile, hname.symm⟩)
  refine ⟨f, r', (hp.loaded hl).write h, hload, hreload, hparsed.filename_eq, fun n => ?_, hcount, fun {s t} hst ht => ?_⟩
  · rw [contentsOrNew_of_write h, hparsed.source_eq]
  · obtain rfl := Utf8.encode_injective (hst.symm.trans hs')
    exact ⟨s', hsource, htakes t ht⟩

/-- The files of a package keep their names where a declaration was cut out. -/
theorem Removed.isFileName {r' : Package} (h : Removed q m f r r') (hfile : m.file ∈ q.files)
    (hfiles : ∀ g ∈ q.files, IsFileName g.filename) : ∀ g ∈ r'.files, IsFileName g.filename := by
  intro g hg
  rcases (h.reloaded.files g).mp hg with rfl | ⟨hg, -⟩
  · exact h.filename ▸ hfiles m.file hfile
  · exact hfiles g hg

theorem Removed.count_eq {r' : Package} (h : Removed q m f r r') (hl : Loaded p q)
    (hfile : m.file ∈ q.files) (s : Subject) :
    r'.files.count s + (s.isDeclaredBy m.declaration.declared).toNat = q.files.count s := by
  have hfiles := h.reloaded.count_of_mem hl (load_eq_ok h.load).nodup hfile h.filename.symm s
  have := h.count s
  omega

/-- What took a text takes it when a declaration was cut out. -/
theorem Removed.receives {r' : Package} (h : Removed q m f r r') (hl : Loaded p q) (hfile : m.file ∈ q.files)
    {text : List Char} {filename : String} (hg : Receives q text filename g) :
    ∃ g', Receives r' text filename g' ∧ r.contentsOrNew filename = g'.source := by
  have hcontents := hg.contents hl
  cases hg with
  | member hmem hs htakes =>
    by_cases hsame : g.filename = m.file.filename
    · obtain rfl := hl.eq_of_filename hmem hfile hsame
      obtain ⟨s', hs', htakes'⟩ := h.takes hs htakes
      refine ⟨f, h.filename ▸ .member ((h.reloaded.files f).mpr (Or.inl rfl)) hs' htakes', ?_⟩
      rw [h.contents, if_pos rfl]
    · refine ⟨g, .member ((h.reloaded.files g).mpr (Or.inr ⟨hmem, h.filename ▸ hsame⟩)) hs htakes, ?_⟩
      rw [h.contents, if_neg hsame, hcontents.1]
  | new hnone hname =>
    have hne := hnone m.file hfile
    have hnone' : ∀ k ∈ r'.files, k.filename ≠ filename := by
      intro k hk
      rcases (h.reloaded.files k).mp hk with rfl | ⟨hk, -⟩
      · exact h.filename ▸ hne
      · exact hnone k hk
    have hnew : Receives r' text filename (fileOf filename q.localName.toList [.blank]) :=
      h.reloaded.localName ▸ .new hnone' (h.reloaded.localName ▸ hname)
    refine ⟨_, hnew, ?_⟩
    rw [h.contents, if_neg (Ne.symm hne), hcontents.1]

end Removed

/-! ## Added declarations -/

/-- Whether an addition is left out: what it would replace is there, and it is not to replace it. -/
def LeftOut (q : Package) (a : Addition) : Prop := a.replace = false ∧ q.files.findSubject? a.subject ≠ none

/-- Whether there is a place for an addition: a source file that takes its text, and what it
replaces stands apart. -/
structure HasPlace (q : Package) (a : Addition) : Prop where
  isSourceName : isSourceName a.filename
  receives : ∃ f, Receives q a.text.toList a.filename f
  isDetached : ∀ m, q.files.findSubject? a.subject = some m → IsDetached m

/-- How many declarations of a subject are cut out for an addition that is not left out. -/
def removedCount (q : Package) (a : Addition) (s : Subject) : Nat :=
  (q.files.findSubject? a.subject).elim 0 fun m => (s.isDeclaredBy m.declaration.declared).toNat

/-- A declaration that is replaced is gone when the package is loaded again, and what the text
declares is there. -/
theorem load_of_replace {filename text : String} {ft : SourceFile} {m : Match} {q1 : Package}
    (hp : p.OverTrees) (hl : Loaded p q) (hfiles : ∀ g ∈ q.files, IsFileName g.filename) (hfile : m.file ∈ q.files)
    (hdecl : m.declaration ∈ m.file.declarations) (hdetached : IsDetached m) (hn : isSourceName filename)
    (hf : Receives q text.toList filename f) (ht : DeclaredAlone text ft)
    (hremove : remove m q = (.ok (), q1)) (h : append filename text q1 = (.ok (), r)) :
    ∃ r', load r = (.ok (), r') ∧ ∀ s, r'.files.count s =
      q.files.count s - (s.isDeclaredBy m.declaration.declared).toNat + ft.count s := by
  obtain ⟨f1, q1', hremoved⟩ := exists_removed hp hl hfiles hfile hdecl hdetached hremove
  obtain ⟨g, hg, hcontents⟩ := hremoved.receives hl hfile hf
  have hl1 := load_eq_ok hremoved.load
  -- the text is put behind the file without a load in between, which makes no difference
  obtain ⟨r1, happend, hsame⟩ := append_of_loaded hl1 ((hg.contents hl1).1.trans hcontents.symm) h
  obtain ⟨r', hload, hcount⟩ := load_of_text hremoved.overTrees hl1 (hremoved.isFileName hfile hfiles) hn hg ht happend
  refine ⟨r', hsame r' hload, fun s => ?_⟩
  have hbefore := hremoved.count_eq hl hfile s
  have := hcount s
  omega

/-- A package declares what an addition to it declares, and what it did, but for what was cut out. -/
theorem load_of_addition {a : Addition} {ft : SourceFile} (hp : p.OverTrees) (hl : Loaded p q)
    (hfiles : ∀ g ∈ q.files, IsFileName g.filename) (hnot : ¬ LeftOut q a) (hplace : HasPlace q a) (ht : DeclaredAlone a.text ft)
    (h : addDeclaration a q = (.ok (), r)) : ∃ r', load r = (.ok (), r') ∧
      ∀ s, r'.files.count s = q.files.count s - removedCount q a s + ft.count s := by
  obtain ⟨hn, ⟨f, hf⟩, hdetached⟩ := hplace
  cases addDeclaration_eq_ok.mp h with
  | new hm happend =>
    obtain ⟨r', hload, hcount⟩ := load_of_text hp hl hfiles hn hf ht happend
    refine ⟨r', hload, fun s => ?_⟩
    rw [hcount, removedCount, hm]
    rfl
  | @kept m hm _ hreplace _ => exact absurd ⟨hreplace, by rw [hm]; nofun⟩ hnot
  | @replaced m q1 hm _ _ _ hremove happend =>
    obtain ⟨hfile, hdecl, -⟩ := mem_of_findSubject? hm
    obtain ⟨r', hload, hcount⟩ := load_of_replace hp hl hfiles hfile hdecl (hdetached m hm) hn hf ht hremove
      happend
    refine ⟨r', hload, fun s => ?_⟩
    rw [hcount, removedCount, hm]
    rfl

/-! ## Names declared once -/

/-- Whether a name is a name of its own: not the blank one, nor the comma that groups of constants
list as a name. -/
def IsOwnName (n : String) : Prop := n ≠ "_" ∧ n ≠ ","

/-- Whether a text declares some names by one declaration of a kind each, and no others. -/
def DeclaresNames (kind : ValueKind) (names : List String) (text : String) : Prop :=
  ∃ f, DeclaredAlone text f ∧ ∀ n, IsOwnName n → f.count (.value kind [n]) = if n ∈ names then 1 else 0

/-- Whether the names of a group of values that is added are declared once each afterwards,
whatever groups the package has. -/
def AddsOnce (p : Package) (a : Addition) : Prop :=
  ∀ kind names q r, a.subject = .value kind names → load p = (.ok (), q) →
    (∀ kind n, IsOwnName n → q.files.count (.value kind [n]) ≤ 1) → DeclaresNames kind names a.text →
    applyTransform (.add a) p = (.ok (), r) → ∃ r', load r = (.ok (), r') ∧
      (∀ n ∈ names, IsOwnName n → 1 ≤ r'.files.count (.value kind [n])) ∧
      ∀ n, IsOwnName n → r'.files.count (.value kind [n]) ≤ 1

/-- Names that differ are declared once each. -/
theorem count_le_one {files : Members} {kind : ValueKind}
    (h : ((files.flatMap (·.declarations)).flatMap (·.declared.valueNames kind)).Nodup) (n : String) :
    files.count (.value kind [n]) ≤ 1 := by
  refine Nat.le_trans ?_ (List.nodup_iff_count.mp h n)
  unfold Members.count
  generalize files.flatMap (·.declarations) = ds
  induction ds with
  | nil => exact Nat.le_refl _
  | cons d ds ih =>
    rw [List.countP_cons, List.flatMap_cons, List.count_append, Nat.add_comm]
    refine Nat.add_le_add ?_ ?_
    · split
      · next hd => exact List.count_pos_iff.mpr (Declared.mem_valueNames.mpr hd)
      · exact Nat.zero_le _
    · exact ih

/-- A text declares the names of the only declaration in it. -/
theorem declaresNames_of_declared {kind : ValueKind} {names : List String} {text filename : String}
    (h : (SourceFile.parse filename (bytesOf (Snippet.header ++ text ++ "\n")) true).toOption.map
      (·.declarations.map (·.declared)) = some [.value kind names]) : DeclaresNames kind names text := by
  obtain ⟨f, hf, hdecls⟩ := Option.map_eq_some_iff.mp h
  refine ⟨f, ⟨filename, ?_⟩, fun n _ => ?_⟩
  · cases hp : SourceFile.parse filename (bytesOf (Snippet.header ++ text ++ "\n")) true with
    | error e => rw [hp] at hf; cases hf
    | ok g => rw [hp] at hf; cases hf; rfl
  · have hcount : f.count (.value kind [n]) =
        (f.declarations.map (·.declared)).countP (Subject.value kind [n]).isDeclaredBy := by
      rw [List.countP_map]
      rfl
    have hmem : (Subject.value kind [n]).isDeclaredBy (.value kind names) = decide (n ∈ names) := by
      rw [Bool.eq_iff_iff, decide_eq_true_eq, ← Declared.mem_valueNames, Declared.valueNames, if_pos rfl]
    rw [hcount, hdecls, List.countP_singleton, hmem]
    simp

/-- A package of one file, over an empty output layer. -/
def oneFile (text : String) : Package :=
  ⟨.overlay (.memory ⟨[("a.go", ⟨bytesOf text, 0o600⟩)], ["."]⟩) (.memory .empty), "m", ".", .standard,
    fun _ _ => .missing, [], [], "", ⟨[], []⟩⟩

theorem oneFile_inMemory (text : String) : (oneFile text).InMemory :=
  ⟨.write .empty (rfl : MemoryLayer.empty.write "a.go" _ 0o600 = .ok _), ⟨_, rfl, .empty⟩,
    ⟨[], List.forall_mem_nil _, rfl⟩⟩

/-- Two variables to be added to a file. -/
def bounds (filename : String) (replace : Bool) : Addition :=
  ⟨filename, .value .var ["low", "high"], "var low, high = 1, 9 /* The bounds. */", replace⟩

theorem bounds_declaresNames (filename : String) (replace : Bool) :
    DeclaresNames .var ["low", "high"] (bounds filename replace).text :=
  declaresNames_of_declared (show (SourceFile.parse "a.go"
    (bytesOf (Snippet.header ++ "var low, high = 1, 9 /* The bounds. */" ++ "\n")) true).toOption.map
      (·.declarations.map (·.declared)) = some [.value .var ["low", "high"]] by decide +kernel)

/-- Whether a package that declares its names once does not declare an upper bound once when the
bounds are added. -/
def misses (p : Package) (a : Addition) : Bool :=
  let declared := (load p).2.files.flatMap (·.declarations)
  let after := load (applyTransform (.add a) p).2
  (load p).1.isOk && (applyTransform (.add a) p).1.isOk &&
    [ValueKind.const, .var].all (fun kind => (declared.flatMap (·.declared.valueNames kind)).Nodup) &&
    (!after.1.isOk || after.2.files.count (.value .var ["high"]) != 1)

theorem not_addsOnce {p : Package} {filename : String} {replace : Bool} (h : misses p (bounds filename replace)) :
    ¬ AddsOnce p (bounds filename replace) := by
  intro honce
  simp only [misses, Bool.and_eq_true, List.all_eq_true, decide_eq_true_eq] at h
  obtain ⟨⟨⟨hload, hrun⟩, hnames⟩, hafter⟩ := h
  have hfew : ∀ kind n, (load p).2.files.count (.value kind [n]) ≤ 1 := fun kind n =>
    count_le_one (hnames kind (by cases kind <;> simp)) n
  obtain ⟨r', hload', hall, hone⟩ := honce .var ["low", "high"] _ _ rfl (eq_ok_of_isOk hload)
    (fun kind n _ => hfew kind n) (bounds_declaresNames filename replace) (eq_ok_of_isOk hrun)
  have hown : IsOwnName "high" := ⟨by decide, by decide⟩
  have heq : r'.files.count (.value .var ["high"]) = 1 :=
    Nat.le_antisymm (hone "high" hown) (hall "high" (by simp) hown)
  rw [hload'] at hafter
  simp [heq, Except.isOk, Except.toBool] at hafter

/-- A package on disk with two names of one file. -/
def twoNames : Package :=
  ⟨.shared (.disk ⟨.dir 0o755 [(".\\a.go", .file ⟨[], 0o644⟩), ("a.go", .file ⟨bytesOf "package a\n", 0o644⟩)], []⟩),
    "m", ".", .standard, fun _ _ => .missing, [], [], "", ⟨[], []⟩⟩

theorem fileNames_twoNames : twoNames.fileNames = .ok [".\\a.go", "a.go"] := by
  have hsorted : ([".\\a.go", "a.go"].mergeSort fun a b => a ≤ b) = [".\\a.go", "a.go"] :=
    List.mergeSort_of_pairwise (by decide)
  have hlist : twoNames.layers.output.list "." = .ok [".\\a.go", "a.go"] := by
    show Except.ok ([".\\a.go", "a.go"].mergeSort _) = _
    rw [hsorted]
  have hnames : twoNames.namesIn twoNames.layers.output = .ok [".\\a.go", "a.go"] := by
    unfold namesIn
    rw [show twoNames.directory = "." from rfl, hlist]
    rfl
  rw [fileNames_of_namesIn hnames hnames]
  exact congrArg Except.ok hsorted

/-- That package, loaded. -/
def twoNamesLoaded : Package :=
  { twoNames.withFiles ((twoNames.parseFiles [".\\a.go", "a.go"]).toOption.getD []) with localName := "a" }

theorem load_twoNames : load twoNames = (.ok (), twoNamesLoaded) :=
  load_of_packages ["a"] fileNames_twoNames (by decide +kernel) rfl

theorem append_twoNames : ∃ r, append "a.go" (bounds "a.go" false).text twoNamesLoaded = (.ok (), r) ∧
    (r.parseFiles [".\\a.go", "a.go"]).toOption.all fun files => files.count (.value .var ["high"]) = 2 :=
  ⟨_, eq_ok_of_isOk (by decide +kernel), by decide +kernel⟩

/-- What is added to one name of a file is declared by both. -/
theorem twoNames_not_addsOnce : ¬ AddsOnce twoNames (bounds "a.go" false) := by
  intro honce
  have hnone : twoNamesLoaded.files.flatMap (·.declarations) = [] := List.isEmpty_iff.mp (by decide +kernel)
  have hcount : ∀ s, twoNamesLoaded.files.count s = 0 := fun s => by rw [Members.count, hnone]; rfl
  obtain ⟨r, happend, htwice⟩ := append_twoNames
  have hrun := (applyTransform_of_load (t := .add (bounds "a.go" false)) load_twoNames).trans
    (addDeclaration_eq_ok.mpr (.new (Members.findSubject?_eq_none.mpr (hcount _)) happend))
  obtain ⟨r', hload', -, hone⟩ := honce .var ["low", "high"] _ _ rfl load_twoNames
    (fun kind n _ => Nat.le_trans (Nat.le_of_eq (hcount _)) (Nat.zero_le 1)) (bounds_declaresNames "a.go" false) hrun
  -- the package has the members that it had
  have hp : twoNames.OverTrees := ⟨trivial, trivial, ⟨[], List.forall_mem_nil _, rfl⟩⟩
  have hstanding := (load_eq_ok load_twoNames).isStanding hp trivial
  rw [show twoNamesLoaded.files.map (·.filename) = [".\\a.go", "a.go"] by decide +kernel] at hstanding
  have hl := load_eq_ok hload'
  have hnames := hl.names.symm.trans (hstanding.fileNames_of_write (by decide) (append_eq _ ▸ happend))
  rw [← Except.ok.inj hnames, parseFiles_map hl.files, Except.toOption, Option.all_some, decide_eq_true_eq] at htwice
  exact absurd (hone "high" ⟨by decide, by decide⟩) (by rw [htwice]; decide)

/-- Adding a group of values does not always leave its names declared once each: a group that
shares a name is not replaced, or there are two of them; the file does not end its last line, or
with a comment that the text ends; a semicolon is behind what is replaced; the package has a
keyword for its name, or the file is no source file, or it is a member by two names. -/
theorem bounds_not_addsOnce : ¬ AddsOnce (oneFile "package a\n\nvar low = 1\n") (bounds "a.go" false) ∧
    ¬ AddsOnce (oneFile "package a\n\nvar low = 1\nvar high = 9\n") (bounds "a.go" true) ∧
    ¬ AddsOnce (oneFile "package a\n\nvar mid = 5") (bounds "a.go" false) ∧
    ¬ AddsOnce (oneFile "package a\n\nvar mid = low /*high\n") (bounds "a.go" false) ∧
    ¬ AddsOnce (oneFile "package a\n\nvar low = 1;\n") (bounds "a.go" true) ∧
    ¬ AddsOnce { oneFile "" with directory := "func" } (bounds "a.go" false) ∧
    ¬ AddsOnce (oneFile "package a\n") (bounds "b.txt" false) ∧
    ¬ AddsOnce twoNames (bounds "a.go" false) :=
  ⟨not_addsOnce (by decide +kernel), not_addsOnce (by decide +kernel), not_addsOnce (by decide +kernel),
    not_addsOnce (by decide +kernel), not_addsOnce (by decide +kernel), not_addsOnce (by decide +kernel),
    not_addsOnce (by decide +kernel), twoNames_not_addsOnce⟩

/-- What a package declares when a group of values was added: the names of the group are declared,
and none twice, if the group replaces all declarations of its names. -/
structure DeclaresOnce (q : Package) (a : Addition) (kind : ValueKind) (names : List String) (r : Package) :
    Prop where
  leftOut : LeftOut q a → r = q
  declared : ¬ LeftOut q a → ∀ n ∈ names, IsOwnName n → 1 ≤ r.files.count (.value kind [n])
  once : ∀ n, IsOwnName n → (n ∈ names → a.replace = true → ∀ m, q.files.findSubject? (.value kind [n]) = some m →
    q.files.findSubject? a.subject = some m) → r.files.count (.value kind [n]) ≤ 1

/-- A group that declares a name declares one of any names with it. -/
theorem isDeclaredBy_of_mem (kind : ValueKind) {names : List String} {n : String} (hn : n ∈ names) {d : Declared}
    (h : (Subject.value kind [n]).isDeclaredBy d) : (Subject.value kind names).isDeclaredBy d := by
  cases d with
  | value kind' names' =>
    simp only [Subject.isDeclaredBy, Bool.and_eq_true, List.any_eq_true, List.contains_iff_mem,
      List.mem_singleton] at h ⊢
    obtain ⟨hkind, k, hk, rfl⟩ := h
    exact ⟨hkind, k, hk, hn⟩
  | _ => cases h

/-- A name of a group that is added is not declared besides what is cut out, if nothing else was
found to declare it. -/
theorem count_le_removed {a : Addition} {kind : ValueKind} {names : List String} {n : String}
    (hsubject : a.subject = .value kind names) (hn : n ∈ names) (honce : q.files.count (.value kind [n]) ≤ 1)
    (hnot : ¬ LeftOut q a) (honly : a.replace = true → ∀ m, q.files.findSubject? (.value kind [n]) = some m →
      q.files.findSubject? a.subject = some m) :
    q.files.count (.value kind [n]) ≤ removedCount q a (.value kind [n]) := by
  cases hfound : q.files.findSubject? (.value kind [n]) with
  | none =>
    rw [Members.findSubject?_eq_none.mp hfound]
    exact Nat.zero_le _
  | some m =>
    obtain ⟨-, -, hdeclares⟩ := mem_of_findSubject? hfound
    have hsome : q.files.findSubject? a.subject ≠ none := by
      rw [hsubject, Ne, Members.findSubject?_eq_none]
      intro hnone
      have hle := Members.count_le (fun _ => isDeclaredBy_of_mem kind hn) q.files
      have hne := mt Members.findSubject?_eq_none.mpr (by rw [hfound]; nofun)
      omega
    have hreplace : a.replace = true := Bool.of_not_eq_false fun hkeep => hnot ⟨hkeep, hsome⟩
    rw [removedCount, honly hreplace m hfound, Option.elim_some, hdeclares]
    exact honce

/-- The names of a group of values that is added are declared once. -/
theorem applyTransform_declaresOnce {a : Addition} {kind : ValueKind} {names : List String} (hp : p.OverTrees)
    (hload : load p = (.ok (), q)) (hfiles : ∀ g ∈ q.files, IsFileName g.filename) (hsubject : a.subject = .value kind names)
    (honce : ∀ n, IsOwnName n → q.files.count (.value kind [n]) ≤ 1) (htext : DeclaresNames kind names a.text)
    (hplace : ¬ LeftOut q a → HasPlace q a) (h : applyTransform (.add a) p = (.ok (), r)) :
    ∃ r', load r = (.ok (), r') ∧ DeclaresOnce q a kind names r' := by
  have hl := load_eq_ok hload
  obtain ⟨ft, ht, hcount⟩ := htext
  rw [applyTransform_of_load hload] at h
  change addDeclaration a q = _ at h
  by_cases hout : LeftOut q a
  · cases addDeclaration_eq_ok.mp h with
    | new hm _ => exact absurd hm hout.2
    | kept _ _ _ hr =>
      subst hr
      exact ⟨r, hl.load, fun _ => rfl, fun hnot => absurd hout hnot, fun n hown _ => honce n hown⟩
    | replaced _ _ hreplace _ _ _ => exact absurd (hreplace.symm.trans hout.1) nofun
  · obtain ⟨r', hload', hadded⟩ := load_of_addition hp hl hfiles hout (hplace hout) ht h
    refine ⟨r', hload', fun hleft => absurd hleft hout, fun _ n hn hown => ?_, fun n hown honly => ?_⟩
    · rw [hadded, hcount n hown, if_pos hn]
      exact Nat.le_add_left 1 _
    · have hle := honce n hown
      rw [hadded, hcount n hown]
      split
      · next hn =>
        have hcut := count_le_removed hsubject hn hle hout (honly hn)
        omega
      · omega

/-- A declaration stands apart if its line ends right behind it. -/
theorem detached_of_line {s : List Char} {d : Declaration} (n : Nat)
    (hline : (stretches s)[n]?.map (·.cls) = some .newline)
    (hstop : d.stop = byteWidth (orderMark s ++ texts ((stretches s).take n))) : Detached s d := by
  obtain ⟨l, hl, hcls⟩ := Option.map_eq_some_iff.mp hline
  obtain ⟨hn, rfl⟩ := List.getElem?_eq_some_iff.mp hl
  refine .line (x := []) (b := (stretches s).drop (n + 1)) ?_ hstop (List.forall_mem_nil _) hcls
  rw [List.nil_append, ← List.drop_eq_getElem_cons hn, List.take_append_drop]

/-- The text of a file with a variable. -/
def variableText : List Char := "package a\n\n// The bound.\nvar low = 1\n".toList

def oneVariable : Package := oneFile "package a\n\n// The bound.\nvar low = 1\n"

theorem variableText_takes : Takes variableText (bounds "a.go" true).text.toList :=
  ⟨by decide, fun ho => absurd ho (by decide +kernel)⟩

theorem load_oneVariable : ∃ q f m, load oneVariable = (.ok (), q) ∧ f ∈ q.files ∧ f.filename = "a.go" ∧
    f.source = Utf8.encode variableText ∧ q.files.findSubject? (bounds "a.go" true).subject = some m ∧
    m.file.source = Utf8.encode variableText ∧ m.declaration.stop = 36 ∧
    ∀ kind n, q.files.count (.value kind [n]) ≤ 1 := by
  have hload := eq_ok_of_isOk (show (load oneVariable).1.isOk by decide +kernel)
  have hfiles : (load oneVariable).2.files.any (fun f =>
      f.filename = "a.go" && f.source = Utf8.encode variableText) := by decide +kernel
  have hfound : ((load oneVariable).2.files.findSubject? (bounds "a.go" true).subject).any (fun m =>
      m.file.source = Utf8.encode variableText && m.declaration.stop = 36) := by decide +kernel
  have hone : ((load oneVariable).2.files.flatMap (·.declarations)).length ≤ 1 := by decide +kernel
  obtain ⟨f, hf, h⟩ := List.any_eq_true.mp hfiles
  rw [Bool.and_eq_true, decide_eq_true_eq, decide_eq_true_eq] at h
  obtain ⟨m, hm, hfound⟩ := (Option.any_eq_true _ _).mp hfound
  rw [Bool.and_eq_true, decide_eq_true_eq, decide_eq_true_eq] at hfound
  exact ⟨_, f, m, hload, hf, h.1, h.2, hm, hfound.1, hfound.2, fun _ _ => Nat.le_trans List.countP_le_length hone⟩

theorem bounds_hasPlace {q : Package} {f : SourceFile} {m : Match} (hf : f ∈ q.files) (hname : f.filename = "a.go")
    (hs : f.source = Utf8.encode variableText) (hm : q.files.findSubject? (bounds "a.go" true).subject = some m)
    (hms : m.file.source = Utf8.encode variableText) (hstop : m.declaration.stop = 36) :
    HasPlace q (bounds "a.go" true) := by
  refine ⟨by decide, ⟨f, show Receives q _ "a.go" f from hname ▸ .member hf hs variableText_takes⟩, fun m' hm' => ?_⟩
  obtain rfl := Option.some.inj (hm.symm.trans hm')
  exact ⟨_, hms, detached_of_line 14 (by decide +kernel) (hstop.trans (by decide +kernel))⟩

theorem bounds_declaredOnce : ∃ q r r', load oneVariable = (.ok (), q) ∧
    applyTransform (.add (bounds "a.go" true)) oneVariable = (.ok (), r) ∧ load r = (.ok (), r') ∧
    DeclaresOnce q (bounds "a.go" true) .var ["low", "high"] r' := by
  obtain ⟨q, f, m, hload, hf, hname, hs, hm, hms, hstop, honce⟩ := load_oneVariable
  have hrun := eq_ok_of_isOk (show (applyTransform (.add (bounds "a.go" true)) oneVariable).1.isOk by decide +kernel)
  obtain ⟨r', hload', hdeclares⟩ := applyTransform_declaresOnce (oneFile_inMemory _).overTrees hload
    ((oneFile_inMemory _).isFileName_of_loaded (load_eq_ok hload)) rfl (fun n _ => honce .var n) (bounds_declaresNames "a.go" true)
    (fun _ => bounds_hasPlace hf hname hs hm hms hstop) hrun
  exact ⟨q, _, r', hload, hrun, hload', hdeclares⟩

end Package

end GoSplice
