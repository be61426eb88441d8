import GoSplice.Proofs.BatchErrors
import GoSplice.Proofs.ValueGroups

/-!
# Loads that fail

A load takes the files of a package as a whole.  It fails before it changes anything if one of them
cannot be listed, read or parsed; when all are read it puts them in the place of the old ones, and fails
if they have no name, which leaves new files beside the old name:

    load p = (error e, q), e is not about a name → q = p
    load p = (error e, q), e is about a name     → q.HoldsFiles, and the rest of q is that of p
    load p = (ok (), q)                          → q.HoldsFiles, and q is named after these files
                                                                                        (load_keeps)
-/

namespace GoSplice

/-- Whether an error says that the files of a package give it no name. -/
def PatchError.isAboutName : PatchError → Bool
  | .ambiguousPackageName _ | .invalidPackageName _ => true
  | _ => false

/-- A package whose files are those of its layers: there is one under each name that is found, it is the
parse of the contents that are kept under that name, and these are what is read. -/
structure Package.HoldsFiles (q : Package) : Prop where
  names : q.fileNames = .ok (q.files.map (·.filename))
  keys : q.contents.map (·.1) = q.files.map (·.filename)
  parsed : ∀ f ∈ q.files, ∃ data, q.contents.lookup f.filename = some data ∧ q.read f.filename = .ok data ∧
    SourceFile.parse f.filename data true = .ok f

/-! ## Errors of steps -/

section Steps

variable {α β ε ε' : Type}

/-- Two steps fail where the first one fails, or the second one behind it. -/
theorem steps_eq_error {x : Except ε α} {f : α → Except ε β} {e : ε} :
    x >>= f = .error e ↔ x = .error e ∨ ∃ a, x = .ok a ∧ f a = .error e := by
  cases x with
  | ok a => simp [bind, Except.bind]
  | error fault => simp [bind, Except.bind]

theorem mapError_eq_error {x : Except ε α} {f : ε → ε'} {e : ε'} :
    x.mapError f = .error e ↔ ∃ fault, x = .error fault ∧ f fault = e := by
  cases x with
  | ok a => simp [Except.mapError]
  | error fault => simp [Except.mapError]

theorem ifFound_eq_error {r : Except PatchError α} {e : PatchError} (h : ifFound r = .error e) : r = .error e := by
  unfold ifFound at h
  split at h
  · cases h
  · split at h
    · cases h
    · cases h
      rfl

end Steps

/-! ## Reading -/

namespace Layer

variable {path : String} {e : PatchError}

theorem isAboutName_of_resolve (h : MemoryLayer.resolve path = .error e) : e.isAboutName = false := by
  obtain ⟨fault, -, rfl⟩ := mapError_eq_error.mp h
  rfl

theorem isAboutName_of_onTree {α : Type} {d : DiskLayer} {run : DiskTree → List String → Except LayerProblem α}
    (h : d.onTree path run = .error e) : e.isAboutName = false := by
  rcases steps_eq_error.mp h with hclean | ⟨c, -, h⟩
  · exact isAboutName_of_resolve hclean
  · split at h
    · cases h
      rfl
    · obtain ⟨problem, -, rfl⟩ := mapError_eq_error.mp h
      rfl

theorem isAboutName_of_readMemory {m : MemoryLayer} (h : m.read path = .error e) : e.isAboutName = false := by
  rcases steps_eq_error.mp h with hclean | ⟨c, -, h⟩
  · exact isAboutName_of_resolve hclean
  · cases hf : m.file? c with
    | some f =>
      rw [hf] at h
      cases h
    | none =>
      rw [hf] at h
      cases h
      rfl

theorem isAboutName_of_listMemory {m : MemoryLayer} (h : m.list path = .error e) : e.isAboutName = false := by
  rcases steps_eq_error.mp h with hclean | ⟨c, -, h⟩
  · exact isAboutName_of_resolve hclean
  · split at h
    · cases h
    · cases h
      rfl

/-- What a layer says of a file or directory that it cannot give is not about a package's name. -/
theorem isAboutName_of_read {l : Layer} (h : l.read path = .error e) : e.isAboutName = false := by
  cases l with
  | memory m | readOnly m => exact isAboutName_of_readMemory h
  | disk d => exact isAboutName_of_onTree h

theorem isAboutName_of_list {l : Layer} (h : l.list path = .error e) : e.isAboutName = false := by
  cases l with
  | memory m | readOnly m => exact isAboutName_of_listMemory h
  | disk d => exact isAboutName_of_onTree h

end Layer

namespace Package

variable {p q : Package} {e : PatchError} {name : String} {names : List String}

theorem isAboutName_of_namesIn {l : Layer} (h : p.namesIn l = .error e) : e.isAboutName = false := by
  rcases steps_eq_error.mp h with hfound | ⟨found, -, h⟩
  · exact Layer.isAboutName_of_list (ifFound_eq_error hfound)
  · cases h

theorem isAboutName_of_fileNames (h : p.fileNames = .error e) : e.isAboutName = false := by
  rcases steps_eq_error.mp h with hwritten | ⟨written, -, h⟩
  · exact isAboutName_of_namesIn hwritten
  · rcases steps_eq_error.mp h with hgiven | ⟨given, -, h⟩
    · exact isAboutName_of_namesIn hgiven
    · cases h

theorem isAboutName_of_packageRead (h : p.read name = .error e) : e.isAboutName = false := by
  rcases steps_eq_error.mp h with hpath | ⟨x, -, h⟩
  · obtain ⟨fault, -, rfl⟩ := mapError_eq_error.mp hpath
    rfl
  · rcases steps_eq_error.mp h with hfound | ⟨found, -, h⟩
    · exact Layer.isAboutName_of_read (ifFound_eq_error hfound)
    · cases found with
      | some bs => cases h
      | none => exact Layer.isAboutName_of_read h

/-- Neither reading nor parsing a file is about the package's name. -/
theorem isAboutName_of_parseFiles (h : p.parseFiles names = .error e) : e.isAboutName = false := by
  obtain ⟨name, -, hread | ⟨source, -, hparse⟩⟩ := parseFiles_eq_error h
  · exact isAboutName_of_packageRead hread
  · obtain ⟨fault, rfl⟩ | ⟨rfl, -⟩ := parse_eq_error hparse
    · rfl
    · rfl

theorem isAboutName_of_deriveName (h : p.deriveName names = .error e) : e.isAboutName := by
  rcases deriveName_eq_error h with rfl | ⟨n, rfl⟩
  · rfl
  · rfl

/-! ## Loading -/

/-- A package holds the files that it was given, if these are what it reads. -/
theorem holdsFiles_of_parseFiles {files : Members} (hnames : p.fileNames = .ok names)
    (hfiles : p.parseFiles names = .ok files) (localName : String) : HoldsFiles { p.withFiles files with localName } := by
  obtain ⟨hmap, hall⟩ := parseFiles_eq_ok hfiles
  refine ⟨?_, ?_, fun f hf => ?_⟩
  · rw [← hmap] at hnames
    exact hnames
  · show (files.map fun f => (f.filename, f.source)).map (·.1) = _
    rw [List.map_map]
    rfl
  · obtain ⟨hread, hparse⟩ := hall f hf
    refine ⟨f.source, ?_, hread, hparse⟩
    have hmem : f.filename ∈ files.map (·.filename) := List.mem_map_of_mem hf
    rcases @lookup_contents files f.filename with ⟨g, hg, hname, hlookup⟩ | ⟨hnone, -⟩
    · -- files of one name are read from the same bytes
      obtain ⟨hread', -⟩ := hall g hg
      rw [hname, hread, Except.ok.injEq] at hread'
      rw [hread']
      exact hlookup
    · exact absurd rfl (hnone f hf)

/-- A load that fails leaves the package as it was, unless the error is about its name: then the package
holds the files that were read, which have no name that it can have, and is otherwise as it was.  A load
that succeeds names the package after the files that it then holds. -/
theorem load_keeps (p : Package) :
    (∀ e q, load p = (.error e, q) →
      (e.isAboutName = false → q = p) ∧
      (e.isAboutName → q.HoldsFiles ∧ q = { p with files := q.files, contents := q.contents } ∧
        ∀ n, IsNameOf q (q.files.map (·.packageName)) n → ¬ isName n.toList)) ∧
    ∀ q, load p = (.ok (), q) →
      q.HoldsFiles ∧ q = { p with files := q.files, contents := q.contents, localName := q.localName } ∧
        IsNameOf q (q.files.map (·.packageName)) q.localName ∧ isName q.localName.toList := by
  refine ⟨fun e q h => ?_, fun q h => ?_⟩
  · rcases load_eq_error h with ⟨rfl, hfail⟩ | ⟨names, files, hnames, hfiles, hname, rfl⟩
    · have hother : e.isAboutName = false := by
        rcases hfail with hfail | ⟨names, -, hfail⟩
        · exact isAboutName_of_fileNames hfail
        · exact isAboutName_of_parseFiles hfail
      refine ⟨fun _ => rfl, fun habout => ?_⟩
      rw [hother] at habout
      cases habout
    · refine ⟨fun hother => ?_, fun _ => ⟨holdsFiles_of_parseFiles hnames hfiles p.localName, rfl, fun n hn hvalid => ?_⟩⟩
      · rw [isAboutName_of_deriveName hname] at hother
        cases hother
      · have hderived : (p.withFiles files).deriveName (files.map (·.packageName)).eraseDups = .ok n :=
          deriveName_eq_ok_iff.mpr ⟨hn, hvalid⟩
        change p.deriveName _ = _ at hderived
        rw [hname] at hderived
        cases hderived
  · have hl := load_eq_ok h
    have hholds := holdsFiles_of_parseFiles hl.names (parseFiles_map hl.files) q.localName
    rw [← hl.eq] at hholds
    obtain ⟨hname, hvalid⟩ := deriveName_eq_ok_iff.mp hl.deriveName
    refine ⟨hholds, hl.eq.trans ?_, hname, hvalid⟩
    rw [hl.contents]
    rfl

/-- A package whose file was written since it was loaded. -/
def changed (text : String) : Package := { (load (oneFile "package a\n")).2 with layers := (oneFile text).layers }

/-- Whether a load fails over a name; none if it does not fail. -/
def failsOverName? (p : Package) : Option Bool :=
  match (load p).1 with
  | .ok _ => none
  | .error e => some e.isAboutName

theorem exists_error_of_failsOverName {b : Bool} (h : p.failsOverName? = some b) :
    ∃ e, load p = (.error e, (load p).2) ∧ e.isAboutName = b := by
  unfold failsOverName? at h
  cases hload : load p with
  | mk result q =>
    rw [hload] at h
    cases result with
    | ok u => cases h
    | error e => exact ⟨e, rfl, Option.some.inj h⟩

/-- The file now has no clause, one with a name that no package can have, or one with another name. -/
theorem load_keeps_changed :
    (∃ e, load (changed "func F()\n") = (.error e, changed "func F()\n")) ∧
    (∃ e q, load (changed "package \u00e9\n") = (.error e, q) ∧ q.HoldsFiles ∧
      q.files.map (·.packageName) = ["\u00e9"] ∧ q.localName = "a") ∧
    ∃ q, load (changed "package b\n") = (.ok (), q) ∧ q.HoldsFiles ∧ IsNameOf q ["b"] q.localName := by
  refine ⟨?_, ?_, ?_⟩
  · have hfails : (changed "func F()\n").failsOverName? = some false := by decide +kernel
    obtain ⟨e, hload, hother⟩ := exists_error_of_failsOverName hfails
    have hsame := ((load_keeps _).1 _ _ hload).1 hother
    rw [hsame] at hload
    exact ⟨e, hload⟩
  · have hfails : (changed "package \u00e9\n").failsOverName? = some true := by decide +kernel
    obtain ⟨e, hload, habout⟩ := exists_error_of_failsOverName hfails
    obtain ⟨hholds, -, -⟩ := ((load_keeps _).1 _ _ hload).2 habout
    exact ⟨e, _, hload, hholds, by decide +kernel, by decide +kernel⟩
  · have hload : load (changed "package b\n") = (.ok (), (load (changed "package b\n")).2) :=
      eq_ok_of_isOk (by decide +kernel)
    obtain ⟨hholds, -, hname, -⟩ := (load_keeps _).2 _ hload
    have hfiles : (load (changed "package b\n")).2.files.map (·.packageName) = ["b"] := by decide +kernel
    rw [hfiles] at hname
    exact ⟨_, hload, hholds, hname⟩

end Package

end GoSplice
