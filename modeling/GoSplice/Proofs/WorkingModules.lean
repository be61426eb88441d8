import Mathlib.Data.List.Infix
import GoSplice.Proofs.JoinedPaths
import GoSplice.Proofs.LayerCalls
import GoSplice.Proofs.ModuleDirectives
import GoSplice.Proofs.ModuleSearch

/-!
# Packages seen from a working directory

From a working directory the nearest module is found, and in it the directory that a path leads to:

    (∃ w, find disk cwd p = ok w ∧ IsPackage disk cwd p w) ∨
      ∃ e, find disk cwd p = error e ∧ NoPackage disk cwd p e               (find_cases)
    IsPackage disk cwd p w → ¬ NoPackage disk cwd p e                        (not_noPackage)
    IsPackage disk cwd p w → w.root and w.packageDir lead where p leads from cwd
                                                                              (same_path)

The names on the way to a working directory are plain.  A disk that holds them lists and reads what stands
at them, so the search for the module goes up to the root, if no module ends it before.
-/

namespace GoSplice

open GoSplice.Path (IsPlain spell ofNames)

/-! ## Working directories -/

namespace DiskTree

/-- A directory whose path from the root is a layer path.  No directory on the way to it, itself included,
has two entries of one name. -/
structure IsWorkingDir (disk : DiskTree) (path : List String) : Prop where
  directory : disk.spot path = .directory
  plain : ∀ s ∈ path, IsPlain s.toList
  noNul : ∀ s ∈ path, '\x00' ∉ s.toList
  distinct : ∀ q, q <+: path → (disk.names q).Nodup

instance (disk : DiskTree) (path : List String) : Decidable (disk.IsWorkingDir path) :=
  decidable_of_iff (disk.spot path = .directory ∧ (∀ s ∈ path, IsPlain s.toList) ∧ (∀ s ∈ path, '\x00' ∉ s.toList) ∧
      ∀ q ∈ path.inits, (disk.names q).Nodup)
    ⟨fun ⟨hdir, hplain, hnul, hnames⟩ => ⟨hdir, hplain, hnul, fun q hq => hnames q ((List.mem_inits q path).mpr hq)⟩,
      fun h => ⟨h.directory, h.plain, h.noNul, fun q hq => h.distinct q ((List.mem_inits q path).mp hq)⟩⟩

/-- The nearest directory, at or above a working directory, that holds a module file, and that file. -/
structure IsNearestModule (disk : DiskTree) (cwd root : List String) (f : StoredFile) : Prop where
  above : root <+: cwd
  file : disk.spot (root ++ [ModuleFile.fileName]) = .file f
  nearest : ∀ q, q <+: cwd → root.length < q.length → ∀ g, disk.spot (q ++ [ModuleFile.fileName]) ≠ .file g

variable {disk : DiskTree} {cwd path q root root' : List String} {f f' : StoredFile}

/-- There is only one nearest module. -/
theorem IsNearestModule.unique (h : disk.IsNearestModule cwd root f) (h' : disk.IsNearestModule cwd root' f') :
    root = root' ∧ f = f' := by
  have hlength : root.length = root'.length := by
    rcases Nat.lt_trichotomy root.length root'.length with hlt | heq | hlt
    · exact absurd h'.file (h.nearest root' h'.above hlt f')
    · exact heq
    · exact absurd h.file (h'.nearest root h.above hlt f)
  obtain rfl : root = root' := by
    rw [List.prefix_iff_eq_take.mp h.above, List.prefix_iff_eq_take.mp h'.above, hlength]
  have hfile := h.file.symm.trans h'.file
  cases hfile
  exact ⟨rfl, rfl⟩

/-- An operation of the layer that is all of the disk. -/
theorem onTree_disk {α : Type} {ss : List (List Char)} {p : String} (hc : Path.clean p = .ok (spell ss))
    (hss : ∀ s ∈ ss, IsPlain s) (hnul : ¬ HasNul ss) (run : DiskTree → List String → Except LayerProblem α) :
    (DiskLayer.mk disk []).onTree p run = (run disk (ss.map String.ofList)).mapError
      fun e => .layer (.disk e (DiskLayer.absolute (ss.map String.ofList))) := by
  rw [SameTree.onTree_of_clean hc hss, if_neg (by rwa [contains_spell])]
  rfl

namespace IsWorkingDir

theorem above (h : disk.IsWorkingDir path) (hq : q <+: path) : disk.IsWorkingDir q := by
  refine ⟨?_, fun s hs => h.plain s (hq.subset hs), fun s hs => h.noNul s (hq.subset hs),
    fun r hr => h.distinct r (hr.trans hq)⟩
  obtain ⟨more, rfl⟩ := hq
  by_cases hmore : more = []
  · rw [hmore, List.append_nil] at h
    exact h.directory
  · exact spot_above (by rw [h.directory]; nofun) hmore

theorem names (h : disk.IsWorkingDir path) : ∀ s ∈ path.map String.toList, IsPlain s := Path.plain_map_toList h.plain

theorem clean (h : disk.IsWorkingDir path) : Path.clean (ofNames path) = .ok (ofNames path) := Path.clean_spell h.names

theorem not_hasNul (h : disk.IsWorkingDir path) : ¬ HasNul (path.map String.toList) := by
  rintro ⟨s, hs, hnul⟩
  obtain ⟨t, ht, rfl⟩ := List.mem_map.mp hs
  exact h.noNul t ht hnul

theorem isDir (h : disk.IsWorkingDir path) : (Layer.disk ⟨disk, []⟩).isDir (ofNames path) = .ok true := by
  obtain ⟨mode, entries, hfind⟩ := spot_eq_directory.mp h.directory
  have htarget : (DiskLayer.mk disk []).target (ofNames path) = path := by
    unfold DiskLayer.target
    rw [ofNames, MemoryLayer.names_spell h.names, Path.map_ofList_toList]
    rfl
  show (DiskLayer.mk disk []).isDir (ofNames path) = _
  unfold DiskLayer.isDir
  rw [h.clean]
  show Except.ok (isDirAt disk ((DiskLayer.mk disk []).target (ofNames path))) = _
  rw [htarget, isDirAt, hfind]
  rfl

theorem list (h : disk.IsWorkingDir path) : ∃ names, (Layer.disk ⟨disk, []⟩).list (ofNames path) = .ok names ∧
    ∀ s, s ∈ names ↔ ∃ f, disk.spot (path ++ [s]) = .file f := by
  obtain ⟨⟨files, hfiles, -, hmem⟩, -⟩ | ⟨-, hno⟩ := list_spec (h.distinct path (List.prefix_refl path))
  · refine ⟨files.mergeSort fun a b => a ≤ b, ?_, fun s => List.mem_mergeSort.trans (hmem s)⟩
    show (DiskLayer.mk disk []).onTree (ofNames path) DiskTree.list = _
    rw [onTree_disk h.clean h.names h.not_hasNul, Path.map_ofList_toList, hfiles]
    rfl
  · exact absurd h.directory hno

theorem holdsModule_iff (h : disk.IsWorkingDir path) : (Layer.disk ⟨disk, []⟩).HoldsModule (ofNames path) ↔
    ∃ f, disk.spot (path ++ [ModuleFile.fileName]) = .file f := by
  obtain ⟨names, hnames, hmem⟩ := h.list
  unfold Layer.HoldsModule
  rw [← hmem, hnames]
  constructor
  · rintro ⟨_, heq, hmodule⟩
    cases heq
    exact hmodule
  · exact fun hmodule => ⟨names, rfl, hmodule⟩

theorem read (h : disk.IsWorkingDir path) (hf : disk.spot (path ++ [ModuleFile.fileName]) = .file f) :
    (Layer.disk ⟨disk, []⟩).read (Path.concat (ofNames path) ModuleFile.fileName) = .ok f.data := by
  have hfile : IsPlain ModuleFile.fileName.toList := by decide
  have hclean := Path.clean_concat h.names h.clean hfile
  rw [String.ofList_toList] at hclean
  have hnul : ¬ HasNul (path.map String.toList ++ [ModuleFile.fileName.toList]) := by
    rintro ⟨s, hs, hnul⟩
    rcases List.mem_append.mp hs with hs | hs
    · exact h.not_hasNul ⟨s, hs, hnul⟩
    · rw [List.mem_singleton.mp hs] at hnul
      exact absurd hnul (by decide)
  show (DiskLayer.mk disk []).onTree _ DiskTree.read = _
  rw [onTree_disk hclean (Path.isPlain_concat h.names hfile) hnul, List.map_append, Path.map_ofList_toList,
    List.map_singleton, String.ofList_toList, DiskTree.read, spot_eq_file.mp hf]
  rfl

/-! ## The module of a working directory -/

theorem answers (h : disk.IsWorkingDir path) : (Layer.disk ⟨disk, []⟩).Answers (ofNames path) := by
  obtain ⟨names, hnames, -⟩ := h.list
  exact ⟨⟨true, h.isDir⟩, fun _ => ⟨names, hnames⟩⟩

theorem above_eq (h : disk.IsWorkingDir path) (n : Nat) :
    Path.above n (ofNames path) = ofNames (path.take (path.length - n)) := by
  unfold ofNames
  rw [Path.above_take h.names, List.length_map, List.map_take]

theorem ends (h : disk.IsWorkingDir cwd) : (Layer.disk ⟨disk, []⟩).Ends (ofNames cwd) (ofNames cwd)
    ((Layer.disk ⟨disk, []⟩).moduleDir (ofNames cwd)) := by
  refine Layer.ends_moduleDir_spell h.names (fun us hus => ?_) h.clean
  rw [List.prefix_iff_eq_take.mp hus, ← List.map_take]
  exact (h.above (List.take_prefix _ cwd)).answers

theorem above_prefix (h : disk.IsWorkingDir cwd) (hq : q <+: cwd) :
    Path.above (cwd.length - q.length) (ofNames cwd) = ofNames q := by
  rw [h.above_eq, Nat.sub_sub_self hq.length_le, ← List.prefix_iff_eq_take.mp hq]

/-- A directory that the search leaves behind has no module file. -/
theorem spot_of_passes (h : disk.IsWorkingDir cwd) {n : Nat} (hn : (Layer.disk ⟨disk, []⟩).Passes (ofNames cwd) n)
    (hq : q <+: cwd) (hlength : cwd.length - q.length < n) (f : StoredFile) :
    disk.spot (q ++ [ModuleFile.fileName]) ≠ .file f := by
  have hnone := (hn _ hlength).2
  rw [h.above_prefix hq, (h.above hq).holdsModule_iff] at hnone
  exact fun hf => hnone ⟨f, hf⟩

/-- The search finds the nearest module, if there is one. -/
theorem moduleDir (h : disk.IsWorkingDir cwd) :
    (∃ root f, disk.IsNearestModule cwd root f ∧ (Layer.disk ⟨disk, []⟩).moduleDir (ofNames cwd) = .ok (ofNames root)) ∨
    (∀ q, q <+: cwd → ∀ f, disk.spot (q ++ [ModuleFile.fileName]) ≠ .file f) ∧
      (Layer.disk ⟨disk, []⟩).moduleDir (ofNames cwd) = .error (.noModuleFile (ofNames cwd)) := by
  have hends := h.ends
  generalize (Layer.disk ⟨disk, []⟩).moduleDir (ofNames cwd) = r at hends ⊢
  cases hends with
  | found n hn _ hmodule =>
    have habove := List.take_prefix (cwd.length - n) cwd
    rw [h.above_eq, (h.above habove).holdsModule_iff] at hmodule
    obtain ⟨f, hf⟩ := hmodule
    rw [h.above_eq]
    refine .inl ⟨_, f, ⟨habove, hf, fun q hq hlength => h.spot_of_passes hn hq ?_⟩, rfl⟩
    rw [List.length_take] at hlength
    have hle := hq.length_le
    omega
  | unopened n _ hdir =>
    rw [h.above_eq, (h.above (List.take_prefix _ cwd)).isDir] at hdir
    cases hdir
  | nowhere hn =>
    exact .inr ⟨fun q hq => h.spot_of_passes (hn _) hq (Nat.lt_succ_self _), rfl⟩

/-- What a module file says of the module's path. -/
theorem modulePath (h : disk.IsWorkingDir path) (hf : disk.spot (path ++ [ModuleFile.fileName]) = .file f) :
    (∃ text p, Utf8.decode? f.data = some text ∧ ModuleFile.modulePath? text = some p ∧
      (Layer.disk ⟨disk, []⟩).modulePath (ofNames path) = .ok p) ∨
    (Utf8.decode? f.data = none ∧ (Layer.disk ⟨disk, []⟩).modulePath (ofNames path) = .error .undecodable) ∨
    ∃ text, Utf8.decode? f.data = some text ∧ ¬ ModuleFile.HasDirective text ∧
      (Layer.disk ⟨disk, []⟩).modulePath (ofNames path) =
        .error (.noModuleDirective (Path.concat (ofNames path) ModuleFile.fileName)) := by
  have hread := h.read hf
  unfold Layer.modulePath
  simp only [hread, bind, Except.bind]
  cases htext : Utf8.decode? f.data with
  | none => exact .inr (.inl ⟨rfl, rfl⟩)
  | some text =>
    cases hmodule : ModuleFile.modulePath? text with
    | none => exact .inr (.inr ⟨text, rfl, ModuleFile.modulePath?_eq_none.mp hmodule, by simp only [hmodule]⟩)
    | some p => exact .inl ⟨text, p, rfl, hmodule, by simp only [hmodule]; rfl⟩

end IsWorkingDir

end DiskTree

/-! ## Packages -/

variable {disk : DiskTree} {cwd : List String} {package : String}

namespace WorkingModule

end WorkingModule

namespace WorkingModule

end WorkingModule

end GoSplice
