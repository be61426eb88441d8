import GoSplice.Proofs.Batches
import GoSplice.Proofs.PackageNames
import GoSplice.Proofs.StoredFiles

/-!
# Files that are no source files

A package loads its source files only.  A transform that adds to a file of another name, such as
`notes.txt` or `sub/a.go`, therefore meets the package as it was loaded first, also behind others that
add to that file.  What transforms leave there is what the last of them adds that adds anything:

    name is no source file's, write name data q = (ok (), r) → r loads what q has   (Loaded.sameView_of_write)
    applyTransforms ts p = (ok (), r) → LeavesAside name ts p q r                    (leavesAside)
-/

namespace GoSplice

/-- A transform that adds to a file of some name, and replaces nothing. -/
inductive Transform.AddsTo (filename : String) : Transform → Prop
  | add {a : Addition} : a.filename = filename → a.replace = false → AddsTo filename (.add a)
  | addImport {i : ImportAddition} : i.filename = filename → AddsTo filename (.addImport i)

namespace Package

variable {p q r l : Package} {name : String} {data : Bytes} {t : Transform} {ts : List Transform}

/-! ## What is loaded -/

/-- Whether two packages have loaded the same. -/
structure SameView (q l : Package) : Prop where
  files : l.files = q.files
  contents : l.contents = q.contents
  localName : l.localName = q.localName

theorem SameView.trans (h : SameView q l) (h' : SameView l r) : SameView q r :=
  ⟨h'.files.trans h.files, h'.contents.trans h.contents, h'.localName.trans h.localName⟩

/-- A file that is no source file is not loaded. -/
theorem Loaded.sameView_of_write (hp : p.OverTrees) (hl : Loaded p q) (hn : ¬ IsFileName name)
    (h : write name data q = (.ok (), r)) (hr : Loaded r l) : SameView q l := by
  have hplain := hp.isPlain_of_write hl h
  have hsource : ¬ isSourceName name := fun hs => hn ⟨hs, (write_eq_ok h).1⟩
  have hq := hp.loaded hl
  have hq' := load_eq_ok hl.load
  obtain ⟨x, hx⟩ : ∃ x, q.path name = .ok x := by
    obtain ⟨-, x, -, -, -, hx, -⟩ := write_eq_ok h
    exact ⟨x, hx⟩
  have hstores := stores_of_write hq.directory hx h
  -- the names are those there were
  have hnames : l.files.map (·.filename) = q.files.map (·.filename) := by
    obtain ⟨written, given, -, -, hsorted⟩ := hq'.names_eq
    obtain ⟨written', given', -, -, hsorted'⟩ := hr.names_eq
    have hmem := mem_fileNames_of_write hq hplain h hq'.names hr.names
    rw [hsorted, hsorted'] at hmem ⊢
    refine sortedNames_congr fun n => ?_
    rw [← mem_sortedNames, hmem, mem_sortedNames]
    exact or_iff_right fun hnew => hsource hnew.2
  -- so are the files
  have hfiles : l.files = q.files := by
    have hread : r.parseFiles (q.files.map (·.filename)) = .ok q.files := by
      refine parseFiles_map fun g hg => ⟨?_, (hl.files g hg).2⟩
      have hmem : g.filename ∈ l.files.map (·.filename) := hnames ▸ List.mem_map_of_mem hg
      obtain ⟨f, hf, hname⟩ := List.mem_map.mp hmem
      have hread := (hq'.files g hg).1
      have hread' := (hr.files f hf).1
      rw [hname] at hread'
      obtain ⟨y, hy⟩ := exists_path_of_read hread
      have hne : y ≠ x := by
        rintro rfl
        exact hsource (isSourceName_of_path hq.directory hplain hx (hl.hasSourceName hg) hy)
      rw [hread', hstores.read_unique hy hne hread hread']
    rw [← hnames, parseFiles_map hr.files] at hread
    exact Except.ok.inj hread
  refine ⟨hfiles, ?_, ?_⟩
  · rw [hr.contents, hfiles, ← hq'.contents]
  · have hlocal := hr.localName
    have hlocal' := hq'.localName
    obtain ⟨-, x', o, mode, o', -, -, -, -, rfl⟩ := write_eq_ok h
    rw [hfiles] at hlocal
    exact Except.ok.inj (hlocal.symm.trans hlocal')

/-! ## What is added -/

/-- What a transform that adds something writes to its file, where the package is loaded. -/
def added? (q : Package) : Transform → Option Bytes
  | .add a =>
    if (q.files.findSubject? a.subject).isSome then none
    else some (q.contentsOrNew a.filename ++ bytesOf a.text ++ [LineIndex.lineFeed])
  | .addImport i => (q.withImport i).toOption
  | _ => none

theorem SameView.added?_eq (h : SameView q l) (t : Transform) : l.added? t = q.added? t := by
  obtain ⟨hfiles, hcontents, hlocal⟩ := h
  have hcontentsOrNew : ∀ name, l.contentsOrNew name = q.contentsOrNew name := by
    intro name
    unfold contentsOrNew newFile
    rw [hcontents, hlocal]
  cases t with
  | add a =>
    unfold added?
    dsimp only
    rw [hfiles, hcontentsOrNew]
  | addImport i =>
    unfold added? withImport
    dsimp only
    rw [hfiles, hcontentsOrNew]
  | dedupImports | format => rfl

/-- A transform that adds something writes that, or does nothing. -/
theorem applyLoaded_of_addsTo (ht : t.AddsTo name) (h : applyLoaded t q = (.ok (), r)) :
    q.added? t = none ∧ r = q ∨ ∃ data, q.added? t = some data ∧ write name data q = (.ok (), r) := by
  cases ht with
  | @add a hfilename hreplace =>
    subst hfilename
    unfold added?
    dsimp only
    rcases addDeclaration_eq_ok.mp h with ⟨hm, happend⟩ | ⟨hm, -, -, rfl⟩ | ⟨-, -, htrue, -, -, -⟩
    · rw [hm]
      exact .inr ⟨_, rfl, happend⟩
    · rw [hm]
      exact .inl ⟨rfl, rfl⟩
    · rw [hreplace] at htrue
      cases htrue
  | @addImport i hfilename =>
    subst hfilename
    change addImport i q = _ at h
    rw [addImport_eq] at h
    unfold added?
    dsimp only
    cases hdata : q.withImport i with
    | error e =>
      rw [hdata] at h
      cases h
    | ok data =>
      rw [hdata] at h
      exact .inr ⟨data, rfl, h⟩

/-- What transforms leave that add to a file which is no source file: all other files, what is
loaded, and in that file what the last of them adds. -/
structure LeavesAside (name : String) (ts : List Transform) (p q r : Package) : Prop where
  overTrees : r.OverTrees
  others : ∀ other, Path.IsPlain other.toList → other ≠ name → r.read other = p.read other
  view : ∀ l, load r = (.ok (), l) → SameView q l
  target : r.read name = ((ts.filterMap q.added?).getLast?.map .ok).getD (p.read name)

theorem leavesAside (hp : p.OverTrees) (hn : ¬ IsFileName name) (hload : load p = (.ok (), q))
    (hts : ∀ t ∈ ts, t.AddsTo name) (h : applyTransforms ts p = (.ok (), r)) : LeavesAside name ts p q r := by
  induction ts using List.reverseRecOn generalizing r with
  | nil =>
    cases h
    refine ⟨hp, fun _ _ _ => rfl, fun l hload' => ?_, rfl⟩
    rw [hload] at hload'
    cases hload'
    exact ⟨rfl, rfl, rfl⟩
  | append_singleton ts t ih =>
    obtain ⟨hts, ht⟩ := List.forall_mem_append.mp hts
    obtain ⟨p', hrun, hlast⟩ := applyTransforms_append_eq_ok.mp h
    have hbefore := ih hts hrun
    obtain ⟨_, q', hload', happly⟩ := bind_eq_ok.mp (applyTransforms_singleton_eq_ok.mp hlast)
    have hl := load_eq_ok hload'
    have hview := hbefore.view q' hload'
    have htarget : ∀ o : Option Bytes, q'.added? t = o →
        (ts ++ [t]).filterMap q.added? = ts.filterMap q.added? ++ o.toList := by
      rintro o rfl
      rw [hview.added?_eq, List.filterMap_append, List.filterMap_cons, List.filterMap_nil]
      cases q.added? t <;> rfl
    rcases applyLoaded_of_addsTo (List.forall_mem_singleton.mp ht) happly with ⟨hnone, rfl⟩ | ⟨data, hsome, hwrite⟩
    · refine ⟨hbefore.overTrees.loaded hl, fun other ho hne => ?_, fun l hload'' => ?_, ?_⟩
      · rw [hl.read, hbefore.others other ho hne]
      · rw [hl.load] at hload''
        cases hload''
        exact hview
      · rw [hl.read, hbefore.target, htarget none hnone, Option.toList_none, List.append_nil]
    · have hover := hbefore.overTrees.loaded hl
      refine ⟨hover.write hwrite, fun other ho hne => ?_, fun l hload'' => ?_, ?_⟩
      · rw [read_of_write_ne hover.directory ho (hbefore.overTrees.isPlain_of_write hl hwrite) hne hwrite, hl.read,
          hbefore.others other ho hne]
      · exact hview.trans (hl.sameView_of_write hbefore.overTrees hn hwrite (load_eq_ok hload''))
      · rw [read_of_write hwrite, htarget (some data) hsome, Option.toList_some, List.getLast?_concat]
        rfl

end Package

end GoSplice
