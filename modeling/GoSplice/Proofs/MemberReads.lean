import GoSplice.Proofs.LayerCalls
import GoSplice.Proofs.TouchedFiles
import GoSplice.Proofs.WritableFiles

/-!
# Member files behind writes

A member file that is written leaves what a package reads of its other members, whatever their names, and which
members there are:

    n.find path = error notFound → a write neither above nor at path → n'.find path = error notFound
                                                                                          (find_of_write)
    write m data p = (ok (), q) → p.read g = ok bs → p.path g ≠ p.path m → q.read g = ok bs
                                                                                  (IsStanding.read_of_write)
    write m data p = (ok (), q) → q.fileNames = p.fileNames                  (IsStanding.fileNames_of_write)

A source file that is written, new or not, is loaded in the place of the old one, if it can be read and the files
of the package are called by plain names:

    write m data q = (ok (), r) → parse m data true = ok f → load r = (ok (), r'), Reloaded q f r'   (load_of_write)
-/

namespace GoSplice

open GoSplice.Path (IsPlain spell)

/-! ## Trees -/

namespace DiskTree

variable {n n' n'' : DiskTree} {path above : List String} {s : String} {mode mode' : Nat} {data : Bytes}

/-- What is missing has no file above it. -/
theorem find_eq_notFound : n.find path = .error .notFound ↔ n.spot path = .nothing ∧ n.IsFree path := by
  refine ⟨fun h => ⟨spot_of_error h, isFree_of_notFound h⟩, fun ⟨hspot, hfree⟩ => ?_⟩
  obtain ⟨e, he⟩ := spot_eq_nothing.mp hspot
  rcases find_eq_error he with rfl | rfl
  · exact he
  · obtain ⟨q, hq, -, f, hf⟩ := exists_file_above he
    exact absurd hf (hfree q hq f)

/-- What is missing stays so behind a write, unless it is above the file that is written, or at it, or below it. -/
theorem find_of_write (h : n.find path = .error .notFound) (hmade : n.makeDirs above mode = .ok n')
    (hwritten : n'.write (above ++ [s]) data mode' = .ok n'') (habove : ¬ path <+: above)
    (hbelow : ¬ above ++ [s] <+: path) : n''.find path = .error .notFound := by
  obtain ⟨hspot, hfree⟩ := find_eq_notFound.mp h
  have hroot : n.spot [] = .directory := by
    cases n with
    | dir => rfl
    | file f => exact absurd rfl (hfree [] List.nil_prefix f)
  refine find_eq_notFound.mpr ⟨?_, fun q hq f hf => ?_⟩
  · have hne : path ≠ above ++ [s] := fun heq => hbelow (heq ▸ List.prefix_refl _)
    rw [spot_write hwritten, if_neg hne, spot_makeDirs hroot hmade, if_neg habove, hspot]
  · have hne : q ≠ above ++ [s] := fun heq => hbelow (heq ▸ hq)
    rw [spot_write hwritten, if_neg hne, spot_makeDirs hroot hmade] at hf
    split at hf
    · cases hf
    · exact hfree q hq f hf

theorem read_eq_notFound : n.read path = .error .notFound ↔ n.find path = .error .notFound := by
  unfold read
  cases n.find path with
  | error e => exact Iff.of_eq (by rw [Except.error.injEq, Except.error.injEq])
  | ok m => cases m <;> exact ⟨nofun, nofun⟩

theorem find_of_list {names : List String} (h : n.list path = .ok names) : n.spot path = .directory := by
  unfold list at h
  rw [spot_eq_directory]
  split at h
  · next mode entries hfind => exact ⟨mode, entries, hfind⟩
  · cases h
  · cases h

/-- A file has no file below it. -/
theorem read_below {below : List String} (h : n.read path = .ok data) (hne : below ≠ []) {data' : Bytes} :
    n.read (path ++ below) ≠ .ok data' := by
  intro hread
  obtain ⟨f, hf, -⟩ := read_eq_ok h
  obtain ⟨g, hg, -⟩ := read_eq_ok hread
  have hsome : n.spot (path ++ below) ≠ .nothing := by
    rw [spot_eq_file.mpr hg]
    nofun
  have hdirectory := spot_above hsome hne
  rw [spot_eq_file.mpr hf] at hdirectory
  cases hdirectory

end DiskTree

/-! ## Layers -/

namespace Layer

variable {l l' o : Layer} {ss us : List (List Char)} {name : List Char} {mode mode' : Nat} {data : Bytes}

/-- Whether no file stands below another.  On disk none does. -/
def IsProper : Layer → Prop
  | .memory m | .readOnly m => ∀ e ∈ m.files, m.ClearAbove e.1
  | .disk _ => True

theorem disk_read_eq_ok {d : DiskLayer} (hus : ∀ s ∈ us, IsPlain s) : (Layer.disk d).read (spell us) = .ok data ↔
    (spell us).toList.contains '\x00' = false ∧ d.tree.read (d.root ++ us.map String.ofList) = .ok data :=
  DiskLayer.onTree_eq_ok hus

/-- What is missing on disk. -/
theorem disk_read_eq_none {d : DiskLayer} (hus : ∀ s ∈ us, IsPlain s) :
    ifFound ((Layer.disk d).read (spell us)) = .ok none ↔ (spell us).toList.contains '\x00' = false ∧
      d.tree.find (d.root ++ us.map String.ofList) = .error .notFound := by
  rw [← DiskTree.read_eq_notFound]
  change ifFound (d.onTree (spell us) DiskTree.read) = _ ↔ _
  rw [DiskLayer.onTree_spell hus]
  split
  · next hnul =>
    rw [hnul]
    exact ⟨nofun, nofun⟩
  · next hnul =>
    rw [Bool.not_eq_true] at hnul
    rw [hnul]
    cases d.tree.read (d.root ++ us.map String.ofList) with
    | ok data => exact ⟨nofun, nofun⟩
    | error e => cases e <;> first | exact ⟨fun _ => ⟨rfl, rfl⟩, fun _ => rfl⟩ | exact ⟨nofun, nofun⟩

theorem IsProper.read_below (hl : l.IsProper) {below : List (List Char)} (hus : ∀ s ∈ us ++ below, IsPlain s)
    (hne : below ≠ []) (h : l.read (spell us) = .ok data) {data' : Bytes} :
    l.read (spell (us ++ below)) ≠ .ok data' := by
  intro hread
  have hus' : ∀ s ∈ us, IsPlain s := fun s hs => hus s (List.mem_append_left _ hs)
  have hmemory : ∀ m : MemoryLayer, (∀ e ∈ m.files, m.ClearAbove e.1) → m.read (spell us) = .ok data →
      m.read (spell (us ++ below)) ≠ .ok data' := by
    intro m hm h hread
    rw [memory_read ⟨_, hus', rfl⟩] at h
    rw [memory_read ⟨_, hus, rfl⟩] at hread
    cases hf : m.file? (spell us) with
    | none => rw [hf] at h; cases h
    | some f =>
      cases hg : m.file? (spell (us ++ below)) with
      | none => rw [hg] at hread; cases hread
      | some g =>
        have hclear := hm _ (MemoryLayer.mem_files hg) _ (MemoryLayer.mem_files hf)
        rw [MemoryLayer.names_spell hus', MemoryLayer.names_spell hus] at hclear
        have heq := Path.spell_injective hus' hus (hclear (List.prefix_append us below))
        exact hne (List.append_cancel_left ((List.append_nil us).trans heq)).symm
  cases l with
  | memory m => exact hmemory m hl h hread
  | readOnly m => exact hmemory m hl h hread
  | disk d =>
    have htree := ((disk_read_eq_ok hus).mp hread).2
    rw [List.map_append, ← List.append_assoc] at htree
    exact DiskTree.read_below ((disk_read_eq_ok hus').mp h).2 (by simpa using hne) htree

theorem eq_disk_of_makeDirs {path : String} {d : DiskLayer} (h : l.makeDirs path mode = .ok (.disk d)) :
    ∃ d', l = .disk d' := by
  cases l with
  | memory m =>
    obtain ⟨m', -, heq⟩ := memory_makeDirs h
    cases heq
  | readOnly m => cases h
  | disk d' => exact ⟨d', rfl⟩

theorem eq_disk_of_write {path : String} {d : DiskLayer} (h : l.write path data mode = .ok (.disk d)) :
    ∃ d', l = .disk d' := by
  cases l with
  | memory m =>
    obtain ⟨m', -, heq⟩ := memory_write h
    cases heq
  | readOnly m => cases h
  | disk d' => exact ⟨d', rfl⟩

/-- What is read of another file than the one that is written stays. -/
theorem read_ok_of_write {bs : Bytes} (hss : ∀ s ∈ ss, IsPlain s) (hname : IsPlain name) (hus : ∀ s ∈ us, IsPlain s)
    (h : l.read (spell us) = .ok bs) (hne : us ≠ ss ++ [name]) (hmade : l.makeDirs (spell ss) mode = .ok o)
    (hwritten : o.write (spell (ss ++ [name])) data mode' = .ok l') : l'.read (spell us) = .ok bs := by
  have hall := Path.isPlain_concat hss hname
  have hpath : spell us ≠ spell (ss ++ [name]) := fun heq => hne (Path.spell_injective hus hall heq)
  have hbytes : l'.bytes? (spell us) = some bs := by
    rw [bytes?_write ⟨_, hall, rfl⟩ ⟨_, hus, rfl⟩ hpath hwritten, bytes?_makeDirs ⟨_, hss, rfl⟩ ⟨_, hus, rfl⟩ hmade,
      bytes?, h]
    rfl
  exact Package.eq_ok_of_toOption hbytes

/-- What is missing in an output layer stays so behind a write, and on disk unless it is above the file that is
written, or at it, or below it. -/
theorem read_none_of_write (hss : ∀ s ∈ ss, IsPlain s) (hname : IsPlain name) (hus : ∀ s ∈ us, IsPlain s)
    (h : ifFound (l.read (spell us)) = .ok none) (hne : us ≠ ss ++ [name])
    (hdisk : ∀ d, l = .disk d → ¬ us <+: ss ∧ ¬ ss ++ [name] <+: us) (hmade : l.makeDirs (spell ss) mode = .ok o)
    (hwritten : o.write (spell (ss ++ [name])) data mode' = .ok l') : ifFound (l'.read (spell us)) = .ok none := by
  have hall := Path.isPlain_concat hss hname
  cases l with
  | memory m =>
    obtain ⟨m1, hm1, rfl⟩ := memory_makeDirs hmade
    obtain ⟨m2, hm2, rfl⟩ := memory_write hwritten
    have hread : ∀ m : MemoryLayer, (Layer.memory m).read (spell us) = m.read (spell us) := fun _ => rfl
    have hfile : m2.file? (spell us) = m.file? (spell us) := by
      have hpath : spell us ≠ spell (ss ++ [name]) := fun heq => hne (Path.spell_injective hus hall heq)
      exact (stored?_write_ne ⟨_, hall, rfl⟩ ⟨_, hus, rfl⟩ hpath hwritten).trans
        (stored?_makeDirs ⟨_, hss, rfl⟩ hmade _)
    rw [hread, memory_read ⟨_, hus, rfl⟩] at h ⊢
    rw [hfile]
    exact h
  | disk d =>
    obtain ⟨habove, hbelow⟩ := hdisk d rfl
    obtain ⟨hnul, hmissing⟩ := (disk_read_eq_none hus).mp h
    obtain ⟨tree, htree, rfl⟩ := exists_tree ⟨_, hss, rfl⟩ hmade
    obtain ⟨tree', htree', rfl⟩ := exists_tree ⟨_, hall, rfl⟩ hwritten
    rw [target_spell d hss] at htree
    rw [target_spell { d with tree } hall, List.map_append, ← List.append_assoc] at htree'
    have hinside : ∀ {us vs : List (List Char)},
        d.root ++ us.map String.ofList <+: d.root ++ vs.map String.ofList ↔ us <+: vs :=
      (List.prefix_append_right_inj _).trans (List.prefix_map_iff_of_injective fun _ _ h => String.ofList_injective h)
    refine (disk_read_eq_none hus).mpr ⟨hnul, DiskTree.find_of_write hmissing htree htree' ?_ ?_⟩
    · exact fun hpre => habove (hinside.mp hpre)
    · intro hpre
      rw [List.append_assoc, ← List.map_singleton, ← List.map_append] at hpre
      exact hbelow (hinside.mp hpre)
  | readOnly m => cases hmade

/-- What is below a file on disk is not missing: there can be nothing. -/
theorem read_below_ne_none {d : DiskLayer} {below : List (List Char)} (hus : ∀ s ∈ us ++ below, IsPlain s)
    (h : (Layer.disk d).read (spell us) = .ok data) : ifFound ((Layer.disk d).read (spell (us ++ below))) ≠ .ok none := by
  intro hnone
  have hfile := ((disk_read_eq_ok fun s hs => hus s (List.mem_append_left _ hs)).mp h).2
  obtain ⟨f, hf, -⟩ := DiskTree.read_eq_ok hfile
  have hfree := DiskTree.isFree_of_notFound ((disk_read_eq_none hus).mp hnone).2
  rw [List.map_append, ← List.append_assoc] at hfree
  exact hfree _ (List.prefix_append _ _) f (DiskTree.spot_eq_file.mpr hf)

/-- A directory with a file in it can be listed. -/
theorem exists_list (hl : l.IsTree) (hss : ∀ s ∈ ss, IsPlain s) (hname : IsPlain name)
    (h : l.read (spell (ss ++ [name])) = .ok data) : ∃ found, ifFound (l.list (spell ss)) = .ok found := by
  have hmemory : ∀ l : Layer, l.IsBuilt → ∃ found, ifFound (l.list (spell ss)) = .ok found := by
    intro l hl
    obtain ⟨found, hfound, -, -⟩ := ifFound_list hl (IsLayerPath.clean ⟨ss, hss, rfl⟩)
    exact ⟨found, hfound⟩
  cases l with
  | memory m => exact hmemory _ hl
  | readOnly m => exact hmemory _ hl
  | disk d =>
    have hall := Path.isPlain_concat hss hname
    obtain ⟨hnul, htree⟩ := (disk_read_eq_ok hall).mp h
    rw [List.map_append, ← List.append_assoc] at htree
    obtain ⟨names, hnames, -⟩ := DiskTree.mem_list htree
    have hnul' : (spell ss).toList.contains '\x00' = false := by
      rw [Bool.eq_false_iff] at hnul ⊢
      rw [ne_eq, contains_spell] at hnul ⊢
      exact fun ⟨s, hs, h0⟩ => hnul ⟨s, List.mem_append_left _ hs, h0⟩
    have hlist : (Layer.disk d).list (spell ss) = .ok names := (DiskLayer.onTree_eq_ok hss).mpr ⟨hnul', hnames⟩
    exact ⟨some names, by rw [hlist]; rfl⟩

/-- A path above a directory that is listed leads to no file, and is not missing. -/
theorem read_above_listed {d : DiskLayer} (hss : ∀ s ∈ ss, IsPlain s) {names : List String}
    (hlist : (Layer.disk d).list (spell ss) = .ok names) (habove : us <+: ss) :
    (Layer.disk d).read (spell us) ≠ .ok data ∧ ifFound ((Layer.disk d).read (spell us)) ≠ .ok none := by
  have hus : ∀ s ∈ us, IsPlain s := fun s hs => hss s (habove.subset hs)
  obtain ⟨-, htree⟩ := (DiskLayer.onTree_eq_ok hss).mp hlist
  have hdirectory := DiskTree.spot_of_prefix (DiskTree.find_of_list htree)
    (q := d.root ++ us.map String.ofList) ((List.prefix_append_right_inj _).mpr (habove.map _))
  constructor
  · intro hread
    obtain ⟨f, hf, -⟩ := DiskTree.read_eq_ok ((disk_read_eq_ok hus).mp hread).2
    rw [DiskTree.spot_eq_file.mpr hf] at hdirectory
    cases hdirectory
  · intro hread
    rw [DiskTree.spot_of_error ((disk_read_eq_none hus).mp hread).2] at hdirectory
    cases hdirectory

end Layer

/-! ## Packages -/

/-- Whether no file of an input layer under a disk stands below another. -/
def Layers.IsProper : Layers → Prop
  | .overlay i (.disk _) => i.IsProper
  | .overlay _ _ | .shared _ => True

theorem Layers.IsProper.input {l : Layers} (h : l.IsProper) {i o : Layer} (hl : l = .overlay i o) {d : DiskLayer}
    (hdisk : l.output = .disk d) : i.IsProper := by
  subst hl
  cases hdisk
  exact h

theorem Layers.IsProper.withOutput {l : Layers} (h : l.IsProper) {o : Layer}
    (hdisk : ∀ d, o = .disk d → ∃ d', l.output = .disk d') : (l.withOutput o).IsProper := by
  cases l with
  | shared l => trivial
  | overlay i l =>
    cases o with
    | memory m => trivial
    | readOnly m => trivial
    | disk d =>
      obtain ⟨d', rfl : l = .disk d'⟩ := hdisk d rfl
      exact h

namespace Package

variable {p q r : Package} {m g x y : String} {names : List String} {data bs : Bytes}

/-- A file is read from the output layer, or else from the input layer. -/
theorem read_eq_ok_iff (hx : p.path m = .ok x) : p.read m = .ok bs ↔ p.layers.output.read x = .ok bs ∨
    ifFound (p.layers.output.read x) = .ok none ∧ p.layers.input.read x = .ok bs := by
  unfold read
  rw [hx]
  change (ifFound (p.layers.output.read x) >>= _) = _ ↔ _
  cases p.layers.output.read x with
  | ok data =>
    refine ⟨.inl, ?_⟩
    rintro (h | ⟨h, -⟩)
    · exact h
    · cases h
  | error e =>
    rw [ifFound]
    split
    · refine ⟨fun h => .inr ⟨rfl, h⟩, ?_⟩
      rintro (h | ⟨-, h⟩)
      · cases h
      · exact h
    · refine iff_of_false (by rintro ⟨⟩) ?_
      rintro (h | ⟨h, -⟩)
      · cases h
      · cases h

/-- A package with some members, all of which can be read. -/
structure IsStanding (p : Package) (names : List String) : Prop where
  overTrees : p.OverTrees
  input : p.layers.IsProper
  members : p.fileNames = .ok names
  reads : ∀ n ∈ names, ∃ bs, p.read n = .ok bs

theorem IsStanding.isSourceName (h : p.IsStanding names) (hm : m ∈ names) : isSourceName m := by
  obtain ⟨written, given, hw, hg, rfl⟩ := fileNames_eq_ok h.members
  rcases List.mem_append.mp (mem_sortedNames.mp hm) with hm | hm
  · exact isSourceName_of_namesIn hw hm
  · exact isSourceName_of_namesIn hg hm

/-- No member leads above the directory of its package: it could not be read there, or would not be missing. -/
theorem not_above_of_namesIn {b : Bytes} (hd : IsLayerPath p.directory) {l : Layer} (hl : l.IsTree)
    (hnames : p.namesIn l = .ok names) (hg : g ∈ names) {ss us : List (List Char)} (hss : ∀ s ∈ ss, IsPlain s)
    (hdirectory : p.directory = spell ss) (hus : ∀ s ∈ us, IsPlain s) (hy : p.path g = .ok (spell us)) (habove : us <+: ss) :
    l.read (spell us) ≠ .ok b ∧ ifFound (l.read (spell us)) ≠ .ok none := by
  obtain ⟨found, hfound, rfl⟩ := namesIn_eq_ok hnames
  have hmem := (List.mem_filter.mp hg).1
  have hbuilt : ¬ l.IsBuilt := by
    intro hl
    obtain ⟨x, f, hf, hparent, rfl⟩ := (mem_found hl hd hfound g).mp hmem
    obtain ⟨hx, hroot⟩ := (Layer.sound_of_isBuilt hl).1 x f hf
    obtain ⟨vs, s, hvs, hs, rfl, hparent', hbase⟩ := MemoryLayer.exists_last hx hroot
    -- the name of a file in memory is plain
    rw [hbase, path_spell hss hdirectory (by rwa [String.toList_ofList]), Except.ok.injEq, String.toList_ofList] at hy
    obtain rfl := Path.spell_injective (Path.isPlain_concat hss hs) hus hy
    have := habove.length_le
    rw [List.length_append, List.length_singleton] at this
    omega
  cases l with
  | memory m => exact absurd hl hbuilt
  | readOnly m => exact absurd hl hbuilt
  | disk d =>
    cases hlist : (Layer.disk d).list p.directory with
    | ok listed => exact Layer.read_above_listed hss (hdirectory ▸ hlist) habove
    | error e =>
      rw [hlist, ifFound] at hfound
      split at hfound <;> cases hfound
      cases hmem

/-- What is read of a member stays behind a write of another. -/
theorem IsStanding.read_of_write (h : p.IsStanding names) (hm : m ∈ names) (hg : g ∈ names)
    (hwrite : write m data p = (.ok (), q)) (hread : p.read g = .ok bs) (hne : p.path g ≠ p.path m) :
    q.read g = .ok bs := by
  obtain ⟨ss, hss, hd⟩ := h.overTrees.directory
  have hplain : IsPlain m.toList := IsFileName.isPlain ⟨h.isSourceName hm, (write_eq_ok hwrite).1⟩
  obtain ⟨o, mode, o', hmade, -, hwritten, hlayers, hdirectory⟩ := write_steps hss hd hplain hwrite
  have hx := path_spell (p := p) hss hd hplain
  obtain ⟨y, hy⟩ := exists_path_of_read hread
  obtain ⟨us, hus, rfl⟩ := isLayerPath_path hy
  have hout : q.layers.output = o' := by rw [hlayers, Layers.output_withOutput]
  have hy' : q.path g = .ok (spell us) := by rw [← hy, path, path, hdirectory]
  have hapart : us ≠ ss ++ [m.toList] := by
    rintro rfl
    exact hne (hy.trans hx.symm)
  rw [read_eq_ok_iff hy', hout]
  rcases (read_eq_ok_iff hy).mp hread with hread | ⟨hnone, hread⟩
  · exact .inl (Layer.read_ok_of_write hss hplain hus hread hapart hmade hwritten)
  · have hinput : q.layers.input = p.layers.input ∧ ∀ d, p.layers.output = .disk d → p.layers.input.IsProper := by
      have hproper := h.input
      rw [hlayers]
      cases hl : p.layers with
      | shared l =>
        -- one layer cannot both have the file and miss it
        rw [hl] at hnone hread
        change l.read _ = _ at hread
        rw [Layers.output, hread] at hnone
        cases hnone
      | overlay i l => exact ⟨rfl, fun d hdisk => hproper.input hl (hl ▸ hdisk)⟩
    rw [hinput.1]
    refine .inr ⟨?_, hread⟩
    refine Layer.read_none_of_write hss hplain hus hnone hapart (fun d hdisk => ⟨fun habove => ?_, ?_⟩) hmade hwritten
    · obtain ⟨written, given, hw, hgiven, rfl⟩ := fileNames_eq_ok h.members
      rcases List.mem_append.mp (mem_sortedNames.mp hg) with hg | hg
      · exact (not_above_of_namesIn (b := bs) h.overTrees.directory h.overTrees.output hw hg hss hd hus hy habove).2 hnone
      · exact (not_above_of_namesIn h.overTrees.directory h.overTrees.input hgiven hg hss hd hus hy habove).1 hread
    · rintro ⟨below, rfl⟩
      obtain ⟨before, hbefore⟩ := h.reads m hm
      rcases (read_eq_ok_iff hx).mp hbefore with hfile | ⟨-, hfile⟩
      · rw [hdisk] at hfile hnone
        exact Layer.read_below_ne_none hus hfile hnone
      · exact (hinput.2 d hdisk).read_below hus (fun hnil => hapart (by rw [hnil, List.append_nil])) hfile hread

theorem exists_namesIn {l : Layer} {found : Option (List String)} (h : ifFound (l.list p.directory) = .ok found) :
    ∃ names, p.namesIn l = .ok names := by
  refine ⟨(found.getD []).filter isSourceName, ?_⟩
  unfold namesIn
  rw [h]
  rfl

theorem fileNames_of_namesIn {written given : List String} (hw : p.namesIn p.layers.output = .ok written)
    (hg : p.namesIn p.layers.input = .ok given) : p.fileNames = .ok (sortedNames (written ++ given)) := by
  unfold fileNames
  rw [hw, hg]
  rfl

/-- The source files behind a write are those before it and that which was written. -/
theorem fileNames_of_write (hp : p.OverTrees) (hplain : IsPlain m.toList) (hwrite : write m data p = (.ok (), q))
    (hnames : p.fileNames = .ok names) : ∃ names', q.fileNames = .ok names' ∧
      (∀ n, n ∈ names' ↔ n = m ∧ isSourceName m ∨ n ∈ names) ∧ ((isSourceName m → m ∈ names) → names' = names) := by
  obtain ⟨ss, hss, hd⟩ := hp.directory
  obtain ⟨o, mode, o', hmade, -, hwritten, hlayers, hdirectory⟩ := write_steps hss hd hplain hwrite
  obtain ⟨written, given, hw, hg, rfl⟩ := fileNames_eq_ok hnames
  have hout : q.layers.output = o' := by rw [hlayers, Layers.output_withOutput]
  obtain ⟨written', hw'⟩ : ∃ names, q.namesIn q.layers.output = .ok names := by
    have hread := Layer.read_write ⟨_, Path.isPlain_concat hss hplain, rfl⟩ hwritten
    obtain ⟨found, hfound⟩ := Layer.exists_list (hout ▸ (hp.write hwrite).output) hss hplain hread
    exact exists_namesIn (by rw [hout, hdirectory, hd]; exact hfound)
  obtain ⟨given', hg'⟩ : ∃ names, q.namesIn q.layers.input = .ok names := by
    cases hl : p.layers with
    | shared l =>
      rw [hl] at hlayers
      rw [hlayers] at hw' ⊢
      exact ⟨_, hw'⟩
    | overlay i l =>
      rw [hl] at hlayers hg
      obtain ⟨found, hfound, -⟩ := namesIn_eq_ok hg
      rw [hlayers]
      exact exists_namesIn (by rw [hdirectory]; exact hfound)
  have hnames' := fileNames_of_namesIn hw' hg'
  have hmem := mem_fileNames_of_write hp hplain hwrite hnames hnames'
  refine ⟨_, hnames', hmem, fun hmember => sortedNames_congr fun n => ?_⟩
  rw [← mem_sortedNames, hmem n, ← @mem_sortedNames n (written ++ given)]
  exact or_iff_right_of_imp fun ⟨hn, hsource⟩ => hn ▸ hmember hsource

/-- The members stay behind a write of one of them. -/
theorem IsStanding.fileNames_of_write (h : p.IsStanding names) (hm : m ∈ names)
    (hwrite : write m data p = (.ok (), q)) : q.fileNames = .ok names := by
  have hplain : IsPlain m.toList := IsFileName.isPlain ⟨h.isSourceName hm, (write_eq_ok hwrite).1⟩
  obtain ⟨names', hnames', -, hsame⟩ := Package.fileNames_of_write h.overTrees hplain hwrite h.members
  rw [hnames', hsame fun _ => hm]

theorem IsStanding.write (h : p.IsStanding names) (hm : m ∈ names) (hwrite : write m data p = (.ok (), q)) :
    q.IsStanding names := by
  refine ⟨h.overTrees.write hwrite, ?_, h.fileNames_of_write hm hwrite, fun g hg => ?_⟩
  · obtain ⟨-, x, o, mode, o', -, hmade, -, hwritten, rfl⟩ := write_eq_ok hwrite
    change (p.layers.withOutput o).output.write x data mode = .ok o' at hwritten
    rw [Layers.output_withOutput] at hwritten
    show ((p.layers.withOutput o).withOutput o').IsProper
    rw [Layers.withOutput_withOutput]
    refine h.input.withOutput fun d hdisk => ?_
    obtain ⟨d', rfl⟩ := Layer.eq_disk_of_write (hdisk ▸ hwritten)
    exact Layer.eq_disk_of_makeDirs hmade
  · obtain ⟨bs, hread⟩ := h.reads g hg
    by_cases hpath : p.path g = p.path m
    · have hdirectory : q.directory = p.directory := by
        obtain ⟨-, x, o, mode, o', -, -, -, -, rfl⟩ := write_eq_ok hwrite
        rfl
      have hpath' : q.path g = q.path m := by
        unfold path at hpath ⊢
        rw [hdirectory]
        exact hpath
      exact ⟨data, (read_of_path hpath').trans (Package.read_of_write hwrite)⟩
    · exact ⟨bs, h.read_of_write hm hg hwrite hread hpath⟩

/-- A package that was loaded has the members it was loaded with. -/
theorem Loaded.isStanding (hp : p.OverTrees) (hinput : p.layers.IsProper) (h : Loaded p q) :
    q.IsStanding (q.files.map (·.filename)) := by
  have hlayers : q.layers = p.layers := by rw [h.eq]; rfl
  have hdirectory : q.directory = p.directory := by rw [h.eq]; rfl
  refine ⟨hp.loaded h, hlayers ▸ hinput, ?_, ?_⟩
  · rw [← h.names]
    unfold fileNames namesIn
    rw [hlayers, hdirectory]
  · refine List.forall_mem_map.mpr fun f hf => ⟨f.source, ?_⟩
    rw [read_of_layers hlayers hdirectory]
    exact (h.files f hf).1

/-! ## Loading behind writes -/

section Loading

variable {f : SourceFile}

/-- A package is loaded again when one of its files was written and can be read, with the
package name that the file had, or that of the package. -/
theorem load_of_write (hp : p.OverTrees) (hl : Loaded p q) (hfiles : ∀ f ∈ q.files, IsFileName f.filename)
    (hn : isSourceName m) (hwrite : write m data q = (.ok (), r)) (hparse : SourceFile.parse m data true = .ok f)
    (hold : ∀ g ∈ q.files, g.filename = m → g.packageName = f.packageName)
    (hnew : (∃ g ∈ q.files, g.packageName = f.packageName) ∨ f.packageName = q.localName) :
    ∃ r', load r = (.ok (), r') ∧ Reloaded q f r' := by
  obtain ⟨hname, hsource⟩ : f.filename = m ∧ f.source = data := by
    obtain ⟨s, hs⟩ := parse_eq_ok_iff.mp hparse
    exact ⟨hs.filename_eq, hs.source_eq⟩
  have hd := (hp.loaded hl).directory
  have hplain := hp.isPlain_of_write hl hwrite
  obtain ⟨names, hnames, hmem, hsame⟩ := fileNames_of_write (hp.loaded hl) hplain hwrite (load_eq_ok hl.load).names
  have hread : r.read f.filename = .ok f.source ∧ SourceFile.parse f.filename f.source true = .ok f := by
    rw [hname, hsource]
    exact ⟨Package.read_of_write hwrite, hparse⟩
  have hkept : ∀ g ∈ q.files, g.filename ≠ f.filename →
      r.read g.filename = .ok g.source ∧ SourceFile.parse g.filename g.source true = .ok g :=
    fun g hg hne => ⟨hl.read_of_write_ne hd hg (hfiles g hg).isPlain hplain (hname ▸ hne) hwrite, (hl.files g hg).2⟩
  -- every name is that of the file that was written, or of another one
  have hmem : ∀ n, n ∈ names ↔ n = f.filename ∨ ∃ g ∈ q.files, g.filename ≠ f.filename ∧ g.filename = n := by
    intro n
    rw [hmem, List.mem_map, hname, and_iff_left hn]
    constructor
    · rintro (rfl | ⟨g, hg, rfl⟩)
      · exact .inl rfl
      · exact (eq_or_ne g.filename m).imp id fun hne => ⟨g, hg, hne, rfl⟩
    · rintro (rfl | ⟨g, hg, -, rfl⟩)
      · exact .inl rfl
      · exact .inr ⟨g, hg, rfl⟩
  obtain ⟨files, hparsed⟩ := parseFiles_of_forall fun n hn => by
    rcases (hmem n).mp hn with rfl | ⟨g, hg, hne, rfl⟩
    · exact ⟨_, f, hread⟩
    · exact ⟨_, g, hkept g hg hne⟩
  have hmemf : ∀ g, g ∈ files ↔ g = f ∨ g ∈ q.files ∧ g.filename ≠ f.filename := by
    intro g
    rw [mem_parseFiles hparsed, hmem]
    constructor
    · rintro ⟨heq | ⟨k, hk, hne, heq⟩, hg⟩
      · exact .inl (eq_of_read hg hread heq)
      · obtain rfl := eq_of_read hg (hkept k hk hne) heq.symm
        exact .inr ⟨hk, hne⟩
    · rintro (rfl | ⟨hg, hne⟩)
      · exact ⟨.inl rfl, hread⟩
      · exact ⟨.inr ⟨g, hg, hne, rfl⟩, hkept g hg hne⟩
  have hderived := deriveName_eq_ok_iff.mp hl.localName
  have hlocal : IsNameOf r (files.map (·.packageName)) q.localName := by
    have hf : f ∈ files := (hmemf f).mpr (.inl rfl)
    refine hl.isNameOf (List.ne_nil_of_mem hf) (fun g hg => ?_) fun k hk => ?_
    · by_cases hne : g.filename = f.filename
      · exact ⟨f, hf, (hold g hg (hne.trans hname)).symm⟩
      · exact ⟨g, (hmemf g).mpr (.inr ⟨hg, hne⟩), rfl⟩
    · rcases (hmemf k).mp hk with rfl | ⟨hk, -⟩
      · exact hnew
      · exact .inl ⟨k, hk, rfl⟩
  refine ⟨_, load_apply hnames hparsed (deriveName_eq_ok_iff.mpr ⟨hlocal, hderived.2⟩), hmemf, ?_, rfl⟩
  rintro ⟨g, hg, heq⟩
  exact (parseFiles_eq_ok hparsed).1.trans (hsame fun _ => heq.trans hname ▸ List.mem_map_of_mem hg)

/-- A package is loaded again when a file was written that is no source file. -/
theorem load_of_write_aside (hp : p.OverTrees) (hl : Loaded p q) (hfiles : ∀ f ∈ q.files, IsFileName f.filename)
    (hn : ¬ isSourceName m) (hwrite : write m data q = (.ok (), r)) : ∃ r', load r = (.ok (), r') := by
  have hplain := hp.isPlain_of_write hl hwrite
  obtain ⟨names, hnames, -, hsame⟩ := fileNames_of_write (hp.loaded hl) hplain hwrite (load_eq_ok hl.load).names
  obtain rfl := hsame fun hsource => absurd hsource hn
  have hparsed : r.parseFiles (q.files.map (·.filename)) = .ok q.files := parseFiles_map fun f hf =>
    ⟨hl.read_of_write_ne (hp.loaded hl).directory hf (hfiles f hf).isPlain hplain
      (fun heq => hn (heq ▸ hl.hasSourceName hf)) hwrite, (hl.files f hf).2⟩
  have hname : r.deriveName (q.files.map (·.packageName)).eraseDups = .ok q.localName := by
    obtain ⟨-, x, o, mode, o', -, -, -, -, rfl⟩ := write_eq_ok hwrite
    exact hl.deriveName
  exact ⟨_, load_apply hnames hparsed hname⟩

end Loading

end Package

end GoSplice
