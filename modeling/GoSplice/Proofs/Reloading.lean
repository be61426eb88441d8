import GoSplice.Proofs.PackageNames
import GoSplice.Proofs.Preservation

/-!
# Loading again

A package that was loaded is loaded again as it is. `Reloaded q f r` says what is loaded where one of its files
was written: that file as it is now, and the others as they were.

    Loaded p q → load q = (ok (), q)                                     (Loaded.load)
-/

namespace GoSplice.Package

variable {p q r : Package}

/-! ## Files -/

/-- Files that are read under one name are the same. -/
theorem eq_of_read {f g : SourceFile}
    (hf : p.read f.filename = .ok f.source ∧ SourceFile.parse f.filename f.source true = .ok f)
    (hg : p.read g.filename = .ok g.source ∧ SourceFile.parse g.filename g.source true = .ok g)
    (hname : f.filename = g.filename) : f = g := by
  obtain ⟨hread, hparse⟩ := hf
  obtain ⟨hread', hparse'⟩ := hg
  rw [hname, hread', Except.ok.injEq] at hread
  rw [hname, ← hread, hparse', Except.ok.injEq] at hparse
  exact hparse.symm

/-- Loaded files of one name are the same. -/
theorem Loaded.eq_of_filename (h : Loaded p q) {f g : SourceFile} (hf : f ∈ q.files) (hg : g ∈ q.files)
    (hname : f.filename = g.filename) : f = g :=
  eq_of_read (h.files f hf) (h.files g hg) hname

/-- The files of a loaded package have different names. -/
theorem Loaded.nodup_filenames (h : Loaded p q) : (q.files.map (·.filename)).Nodup := by
  obtain ⟨written, given, -, -, hnames⟩ := h.names_eq
  rw [hnames, sortedNames]
  exact (List.mergeSort_perm _ _).nodup_iff.mpr (nodup_eraseDups _)

theorem Loaded.file?_eq (h : Loaded p q) {f : SourceFile} (hf : f ∈ q.files) :
    q.files.file? f.filename = some f := by
  cases hg : q.files.file? f.filename with
  | none => exact absurd (decide_eq_true rfl) (List.find?_eq_none.mp hg f hf)
  | some g =>
    obtain ⟨hmem, hname⟩ := Members.mem_of_file? hg
    rw [h.eq_of_filename hmem hf hname]

/-- A loaded package has the name that its files give it. -/
theorem Loaded.deriveName (h : Loaded p q) :
    q.deriveName (q.files.map (·.packageName)).eraseDups = .ok q.localName := by
  conv => lhs; arg 1; rw [h.eq]
  exact h.localName

/-- A loaded package is loaded again as it is. -/
theorem Loaded.load (h : Loaded p q) : load q = (.ok (), q) := by
  have hp : q.fileNames = p.fileNames ∧ ∀ n, q.read n = p.read n := by
    rw [h.eq]
    exact ⟨rfl, fun _ => rfl⟩
  have hfiles : q.parseFiles (q.files.map (·.filename)) = .ok q.files :=
    parseFiles_map fun f hf => by
      rw [hp.2]
      exact h.files f hf
  rw [load_apply (hp.1.trans h.names) hfiles h.deriveName, withFiles, ← h.contents]

/-- A package that was loaded again with one file written: that file, and the others as they were. -/
structure Reloaded (q : Package) (f : SourceFile) (r : Package) : Prop where
  files : ∀ g, g ∈ r.files ↔ g = f ∨ g ∈ q.files ∧ g.filename ≠ f.filename
  order : (∃ g ∈ q.files, g.filename = f.filename) →
    r.files.map (·.filename) = q.files.map (·.filename)
  localName : r.localName = q.localName

/-- Files of package names that there are, or of the name of the package, keep that name. -/
theorem Loaded.isNameOf (hl : Loaded p q) {files : Members} (hne : files ≠ [])
    (hold : ∀ g ∈ q.files, ∃ h ∈ files, h.packageName = g.packageName)
    (hnew : ∀ h ∈ files, (∃ g ∈ q.files, g.packageName = h.packageName) ∨ h.packageName = q.localName) :
    IsNameOf r (files.map (·.packageName)) q.localName := by
  refine (deriveName_eq_ok_iff.mp hl.localName).1.of_subset (fun m hm => ?_) (fun m hm => ?_) fun hnil => ?_
  · obtain ⟨g, hg, rfl⟩ := List.mem_map.mp hm
    obtain ⟨h, hh, hname⟩ := hold g hg
    exact hname ▸ List.mem_map_of_mem hh
  · obtain ⟨h, hh, rfl⟩ := List.mem_map.mp hm
    exact (hnew h hh).imp_left fun ⟨g, hg, hname⟩ => hname ▸ List.mem_map_of_mem hg
  · obtain ⟨h, hh⟩ := List.exists_mem_of_ne_nil files hne
    have hlocal : h.packageName = q.localName := by
      refine (hnew h hh).resolve_left ?_
      rw [List.map_eq_nil_iff.mp hnil]
      rintro ⟨g, ⟨⟩, -⟩
    exact hlocal ▸ List.mem_map_of_mem hh

end GoSplice.Package
