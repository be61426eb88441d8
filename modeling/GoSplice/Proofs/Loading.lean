import GoSplice.Proofs.Operations

/-!
# Loading packages

A package over layers in memory loads the source files of its directory, each
with the bytes that reading it gives:

    name ∈ names of p ↔ the layers have a source file of that name   (mem_fileNames)
    p.parseFiles names = ok files →
      (f ∈ files ↔ f is read under one of the names)                 (mem_parseFiles)
    load p = (ok (), q) → Loaded p q                                 (load_eq_ok)
-/

namespace GoSplice

namespace Package

/-! ## Paths of files -/

/-- Whether a name can be that of a source file of a package. -/
structure IsFileName (name : String) : Prop where
  suffix : isSourceName name
  plain : hasDirectory name = false

theorem not_mem_of_hasDirectory {name : String} (h : hasDirectory name = false) :
    '/' ∉ name.toList ∧ '\\' ∉ name.toList := by
  unfold hasDirectory at h
  rw [List.any_eq_false] at h
  constructor
  · intro hc
    exact absurd (h _ hc) (by decide)
  · intro hc
    exact absurd (h _ hc) (by decide)

theorem IsFileName.isPlain {name : String} (h : IsFileName name) : Path.IsPlain name.toList := by
  obtain ⟨hsuffix, hplain⟩ := h
  obtain ⟨t, ht⟩ := List.isSuffixOf_iff_suffix.mp hsuffix
  have hmem : 'o' ∈ name.toList := by
    rw [← ht]
    simp [sourceSuffix]
  obtain ⟨hslash, hback⟩ := not_mem_of_hasDirectory hplain
  refine ⟨?_, ?_, ?_, hslash, hback⟩
  · intro he
    rw [he] at hmem
    cases hmem
  · intro he
    rw [he] at hmem
    exact absurd hmem (by decide)
  · intro he
    rw [he] at hmem
    exact absurd hmem (by decide)

variable {p q : Package}

/-- A plain name is one name more behind those of the directory. -/
theorem path_spell {ss : List (List Char)} {name : String} (hss : ∀ s ∈ ss, Path.IsPlain s)
    (hd : p.directory = Path.spell ss) (hn : Path.IsPlain name.toList) :
    p.path name = .ok (Path.spell (ss ++ [name.toList])) := by
  have hclean := Path.clean_concat hss (Path.clean_spell hss) hn
  rw [String.ofList_toList] at hclean
  unfold path
  rw [hd, hclean]
  rfl

/-- A plain name of a package's file lies in its directory. -/
theorem InMemory.path_of_plain (hp : p.InMemory) {name : String} (hn : Path.IsPlain name.toList) :
    ∃ x, p.path name = .ok x ∧ IsLayerPath x ∧ Path.parent x = p.directory ∧
      Path.baseName x = name := by
  obtain ⟨ss, hss, hd⟩ := hp.directory
  refine ⟨Path.spell (ss ++ [name.toList]), path_spell hss hd hn, ⟨_, Path.isPlain_concat hss hn, rfl⟩, ?_, ?_⟩
  · rw [hd]
    exact Path.parent_spell hss hn
  · rw [Path.baseName_spell hss hn, String.ofList_toList]

/-- A source file of a package lies in its directory. -/
theorem InMemory.path_eq (hp : p.InMemory) {name : String} (hn : IsFileName name) :
    ∃ x, p.path name = .ok x ∧ IsLayerPath x ∧ Path.parent x = p.directory ∧
      Path.baseName x = name :=
  hp.path_of_plain hn.isPlain

/-- The layer path of a source file tells its name. -/
theorem InMemory.place_of_path (hp : p.InMemory) {name x : String} (hn : IsFileName name)
    (hx : p.path name = .ok x) : Path.parent x = p.directory ∧ Path.baseName x = name := by
  obtain ⟨y, hy, -, hplace⟩ := hp.path_eq hn
  rw [hx, Except.ok.injEq] at hy
  exact hy ▸ hplace

theorem InMemory.path_injective (hp : p.InMemory) {m n x : String} (hm : IsFileName m) (hn : IsFileName n)
    (hmx : p.path m = .ok x) (hnx : p.path n = .ok x) : m = n :=
  (hp.place_of_path hm hmx).2.symm.trans (hp.place_of_path hn hnx).2

/-- A new package has nothing loaded, and a layer path for its directory. -/
theorem create_eq_ok {layers : Layers} {modulePath directory : String} {settings : Settings}
    {formatter : Formatter} (h : create layers modulePath directory settings formatter = .ok p) :
    layers.output.isWritable ∧ ∃ d, Path.clean directory = .ok d ∧
      p = ⟨layers, modulePath, d, settings, formatter, [], [], "", ⟨[], []⟩⟩ := by
  unfold create at h
  split at h
  · cases h
  · next hw =>
    cases hd : Path.clean directory with
    | error e =>
      rw [hd] at h
      cases h
    | ok d =>
      rw [hd] at h
      cases h
      exact ⟨by simpa using hw, d, rfl, rfl⟩

theorem isLayerPath_path {name x : String} (h : p.path name = .ok x) : IsLayerPath x := by
  unfold path at h
  cases hc : Path.clean (Path.concat p.directory name) with
  | error e => rw [hc] at h; cases h
  | ok y =>
    rw [hc] at h
    cases h
    exact Path.clean_eq_ok hc

/-- A layer path of a directory is that of its name there. -/
theorem InMemory.path_baseName (hp : p.InMemory) {x : String} (hx : IsLayerPath x) (hroot : x ≠ ".")
    (hparent : Path.parent x = p.directory) : p.path (Path.baseName x) = .ok x := by
  obtain ⟨ss, hss, hd⟩ := hp.directory
  obtain ⟨ts, hts, rfl⟩ := hx
  rcases List.eq_nil_or_concat ts with rfl | ⟨us, name, rfl⟩
  · exact absurd rfl hroot
  · rw [List.concat_eq_append] at *
    have hus : ∀ s ∈ us, Path.IsPlain s := fun s hs => hts s (List.mem_append_left _ hs)
    have hname : Path.IsPlain name := hts name (by simp)
    rw [Path.parent_spell hus hname, hd] at hparent
    have heq := Path.spell_injective hus hss hparent
    subst heq
    unfold path
    rw [hd, Path.baseName_spell hus hname, Path.clean_concat hus (Path.clean_spell hus) hname]
    rfl

/-- A new package over layers in memory. -/
theorem inMemory_of_create {layers : Layers} {modulePath directory : String} {settings : Settings}
    {formatter : Formatter} (hin : layers.input.IsBuilt)
    (hout : ∃ l, layers.output = .memory l ∧ l.Built)
    (h : create layers modulePath directory settings formatter = .ok p) : p.InMemory := by
  obtain ⟨-, d, hd, rfl⟩ := create_eq_ok h
  exact ⟨hin, hout, Path.clean_eq_ok hd⟩

/-! ## Reading -/

theorem InMemory.output_isBuilt (hp : p.InMemory) : p.layers.output.IsBuilt := by
  obtain ⟨l, hl, hb⟩ := hp.output
  rw [hl]
  exact hb

/-- What a package reads is what its layers show. -/
theorem InMemory.read_eq (hp : p.InMemory) {name x : String} (hx : p.path name = .ok x) :
    p.read name = match p.layers.file? x with
      | some f => .ok f.data
      | none => MemoryLayer.fail .notFound x := by
  have hlp := isLayerPath_path hx
  have hout := Layer.ifFound_read hp.output_isBuilt hlp
  unfold read
  rw [hx]
  show (ifFound (p.layers.output.read x) >>= _) = _
  rw [hout]
  unfold Layers.file?
  cases ho : p.layers.output.file? x with
  | some f => rfl
  | none =>
    rw [Option.none_or]
    show p.layers.input.read x = _
    cases hi : p.layers.input.file? x with
    | some f => exact Layer.read_of_file? hp.input hlp hi
    | none => exact Layer.read_of_none hp.input hlp hi

/-- What is listed of a directory, nothing if it is missing, are the names of its files. -/
theorem mem_found {l : Layer} (hl : l.IsBuilt) {d : String} (hd : IsLayerPath d) {found : Option (List String)}
    (h : ifFound (l.list d) = .ok found) (n : String) : n ∈ found.getD [] ↔
      ∃ x f, l.file? x = some f ∧ Path.parent x = d ∧ Path.baseName x = n := by
  obtain ⟨names, hnames, hsome, hmem⟩ := Layer.ifFound_list hl hd.clean
  rw [hnames, Except.ok.injEq] at h
  subst h
  cases names with
  | some ns => exact hmem ns rfl n
  | none =>
    constructor
    · intro h
      cases h
    · rintro ⟨x, f, hf, hparent, -⟩
      -- a layer that has a file has its directory
      have hdir := (Layer.sound_of_isBuilt hl).2.1 x f hf
      rw [hparent] at hdir
      have := hsome.mpr hdir
      cases this

theorem namesIn_eq {l : Layer} (hl : l.IsBuilt) (hd : IsLayerPath p.directory) :
    ∃ names, p.namesIn l = .ok names ∧ ∀ n, n ∈ names ↔ isSourceName n ∧
      ∃ x f, l.file? x = some f ∧ Path.parent x = p.directory ∧ Path.baseName x = n := by
  obtain ⟨found, hfound, -, -⟩ := Layer.ifFound_list hl hd.clean
  refine ⟨(found.getD []).filter isSourceName, ?_, fun n => ?_⟩
  · unfold namesIn
    rw [hfound]
    rfl
  · rw [List.mem_filter, and_comm, mem_found hl hd hfound]

/-- Names in order, each once. -/
def sortedNames (names : List String) : List String :=
  names.eraseDups.mergeSort fun a b => a ≤ b

theorem mem_sortedNames {n : String} {names : List String} : n ∈ sortedNames names ↔ n ∈ names := by
  rw [sortedNames, List.mem_mergeSort, List.mem_eraseDups]

/-- The source files of a package are those of its directory in either layer. -/
theorem fileNames_eq (hp : p.InMemory) : ∃ names, p.fileNames = .ok (sortedNames names) ∧
    ∀ n, n ∈ names ↔ isSourceName n ∧ ∃ x f, p.layers.file? x = some f ∧
      Path.parent x = p.directory ∧ Path.baseName x = n := by
  obtain ⟨written, hw, hwm⟩ := namesIn_eq hp.output_isBuilt hp.directory
  obtain ⟨given, hg, hgm⟩ := namesIn_eq hp.input hp.directory
  refine ⟨written ++ given, by unfold fileNames; rw [hw, hg]; rfl, fun n => ?_⟩
  rw [List.mem_append, hwm, hgm, ← and_or_left]
  refine and_congr_right fun _ => ?_
  unfold Layers.file?
  constructor
  · rintro (⟨x, f, hf, h⟩ | ⟨x, f, hf, h⟩)
    · exact ⟨x, f, by rw [hf, Option.some_or], h⟩
    · cases ho : p.layers.output.file? x with
      | some g => exact ⟨x, g, by rw [ho, Option.some_or], h⟩
      | none => exact ⟨x, f, by rw [ho, Option.none_or, hf], h⟩
  · rintro ⟨x, f, hf, h⟩
    rcases Option.or_eq_some_iff.mp hf with hf | ⟨-, hf⟩
    · exact Or.inl ⟨x, f, hf, h⟩
    · exact Or.inr ⟨x, f, hf, h⟩

/-- The names that are found are those of the source files in either layer. -/
theorem fileNames_eq_ok {names : List String} (h : p.fileNames = .ok names) : ∃ written given,
    p.namesIn p.layers.output = .ok written ∧ p.namesIn p.layers.input = .ok given ∧
      names = sortedNames (written ++ given) := by
  unfold fileNames at h
  cases hw : p.namesIn p.layers.output with
  | error e =>
    rw [hw] at h
    cases h
  | ok written =>
    cases hg : p.namesIn p.layers.input with
    | error e =>
      rw [hw, hg] at h
      cases h
    | ok given =>
      rw [hw, hg] at h
      exact ⟨written, given, rfl, rfl, (Except.ok.inj h).symm⟩

theorem namesIn_eq_ok {l : Layer} {names : List String} (h : p.namesIn l = .ok names) :
    ∃ found, ifFound (l.list p.directory) = .ok found ∧ names = (found.getD []).filter isSourceName := by
  unfold namesIn at h
  cases hf : ifFound (l.list p.directory) with
  | error e =>
    rw [hf] at h
    cases h
  | ok found =>
    rw [hf] at h
    exact ⟨found, rfl, (Except.ok.inj h).symm⟩

theorem mem_fileNames (hp : p.InMemory) : ∃ names, p.fileNames = .ok names ∧
    ∀ n, n ∈ names ↔ isSourceName n ∧ ∃ x f, p.layers.file? x = some f ∧
      Path.parent x = p.directory ∧ Path.baseName x = n := by
  obtain ⟨names, hnames, hmem⟩ := fileNames_eq hp
  refine ⟨_, hnames, fun n => ?_⟩
  exact mem_sortedNames.trans (hmem n)

/-- A source file of a package lies in its directory. -/
theorem InMemory.place_of_mem (hp : p.InMemory) {names : List String} {name : String}
    (hnames : p.fileNames = .ok names) (h : name ∈ names) : isSourceName name ∧
      ∃ x, IsLayerPath x ∧ x ≠ "." ∧ Path.parent x = p.directory ∧ Path.baseName x = name := by
  obtain ⟨names', hnames', hmem⟩ := mem_fileNames hp
  rw [hnames, Except.ok.injEq] at hnames'
  obtain ⟨hsource, x, f, hf, hparent, hbase⟩ := (hmem name).mp (hnames' ▸ h)
  have hroot : IsLayerPath x ∧ x ≠ "." := by
    rcases Option.or_eq_some_iff.mp hf with hf | ⟨-, hf⟩
    · exact (Layer.sound_of_isBuilt hp.output_isBuilt).1 x f hf
    · exact (Layer.sound_of_isBuilt hp.input).1 x f hf
  exact ⟨hsource, x, hroot.1, hroot.2, hparent, hbase⟩

/-- A source file of a package has a layer path, which tells its name. -/
theorem InMemory.path_of_mem (hp : p.InMemory) {names : List String} {name : String}
    (hnames : p.fileNames = .ok names) (h : name ∈ names) :
    ∃ x, p.path name = .ok x ∧ Path.baseName x = name := by
  obtain ⟨-, x, hx, hroot, hparent, hbase⟩ := hp.place_of_mem hnames h
  exact ⟨x, hbase ▸ hp.path_baseName hx hroot hparent, hbase⟩

/-- The source files of a package are called by plain names. -/
theorem InMemory.isFileName_of_mem (hp : p.InMemory) {names : List String} {name : String}
    (hnames : p.fileNames = .ok names) (h : name ∈ names) : IsFileName name := by
  obtain ⟨hsource, x, ⟨ss, hss, rfl⟩, hroot, -, hbase⟩ := hp.place_of_mem hnames h
  rcases List.eq_nil_or_concat ss with rfl | ⟨us, s, rfl⟩
  · exact absurd rfl hroot
  · rw [List.concat_eq_append] at *
    have hs : Path.IsPlain s := hss s (by simp)
    rw [Path.baseName_spell (fun u hu => hss u (List.mem_append_left _ hu)) hs] at hbase
    refine ⟨hsource, ?_⟩
    rw [← hbase, hasDirectory, String.toList_ofList, List.any_eq_false]
    intro c hc hslash
    rw [Bool.or_eq_true, decide_eq_true_eq, decide_eq_true_eq] at hslash
    rcases hslash with rfl | rfl
    · exact hs.noSlash hc
    · exact hs.noBackslash hc

/-- What a package reads depends on its layers and its directory alone. -/
theorem read_of_layers (hlayers : q.layers = p.layers) (hdirectory : q.directory = p.directory)
    (name : String) : q.read name = p.read name := by
  unfold read path
  rw [hlayers, hdirectory]

/-! ## Loading -/

/-- The files of some names, each read and parsed. -/
theorem parseFiles_eq_ok {names : List String} {files : Members}
    (h : p.parseFiles names = .ok files) : files.map (·.filename) = names ∧
      ∀ f ∈ files, p.read f.filename = .ok f.source ∧
        SourceFile.parse f.filename f.source true = .ok f := by
  induction names generalizing files with
  | nil =>
    cases h
    exact ⟨rfl, fun f hf => nomatch hf⟩
  | cons name names ih =>
    unfold parseFiles at h
    cases hr : p.read name with
    | error e => rw [hr] at h; cases h
    | ok source =>
      cases hf : SourceFile.parse name source true with
      | error e => rw [hr] at h; simp only [hf, bind, Except.bind] at h; cases h
      | ok f =>
        cases hfs : p.parseFiles names with
        | error e => rw [hr] at h; simp only [hf, hfs, bind, Except.bind] at h; cases h
        | ok fs =>
          rw [hr] at h
          simp only [hf, hfs, bind, Except.bind] at h
          cases h
          obtain ⟨hnames, hall⟩ := ih hfs
          obtain ⟨s, hs⟩ := parse_eq_ok_iff.mp hf
          refine ⟨by rw [List.map_cons, hs.filename_eq, hnames], ?_⟩
          intro g hg
          rcases List.mem_cons.mp hg with rfl | hg
          · rw [hs.filename_eq, hs.source_eq]
            exact ⟨hr, hf⟩
          · exact hall g hg

/-- Files that can be read one by one can be read together. -/
theorem parseFiles_of_forall {names : List String}
    (h : ∀ n ∈ names, ∃ source f, p.read n = .ok source ∧ SourceFile.parse n source true = .ok f) :
    ∃ files, p.parseFiles names = .ok files := by
  induction names with
  | nil => exact ⟨[], rfl⟩
  | cons n names ih =>
    obtain ⟨source, f, hread, hparse⟩ := h n List.mem_cons_self
    obtain ⟨files, hfiles⟩ := ih fun m hm => h m (List.mem_cons_of_mem n hm)
    refine ⟨f :: files, ?_⟩
    rw [Package.parseFiles, hread, hfiles]
    show (SourceFile.parse n source true >>= _) = _
    rw [hparse]
    rfl

/-- The files of some names are all that are read under one of them. -/
theorem mem_parseFiles {names : List String} {files : Members} (h : p.parseFiles names = .ok files)
    {f : SourceFile} : f ∈ files ↔ f.filename ∈ names ∧ p.read f.filename = .ok f.source ∧
      SourceFile.parse f.filename f.source true = .ok f := by
  obtain ⟨hmap, hall⟩ := parseFiles_eq_ok h
  constructor
  · exact fun hf => ⟨hmap ▸ List.mem_map_of_mem hf, hall f hf⟩
  · rintro ⟨hmem, hread, hparse⟩
    rw [← hmap] at hmem
    obtain ⟨g, hg, hname⟩ := List.mem_map.mp hmem
    obtain ⟨hread', hparse'⟩ := hall g hg
    rw [hname, hread, Except.ok.injEq] at hread'
    rw [hname, ← hread', hparse, Except.ok.injEq] at hparse'
    exact hparse' ▸ hg

theorem parseFiles_map {files : Members}
    (h : ∀ f ∈ files, p.read f.filename = .ok f.source ∧
      SourceFile.parse f.filename f.source true = .ok f) :
    p.parseFiles (files.map (·.filename)) = .ok files := by
  induction files with
  | nil => rfl
  | cons f files ih =>
    obtain ⟨⟨hread, hparse⟩, hall⟩ := List.forall_mem_cons.mp h
    rw [List.map_cons, Package.parseFiles, hread, ih hall]
    show (SourceFile.parse f.filename f.source true >>= _) = _
    rw [hparse]
    rfl

/-- What loading does to a package. -/
structure Loaded (p q : Package) : Prop where
  names : p.fileNames = .ok (q.files.map (·.filename))
  files : ∀ f ∈ q.files, p.read f.filename = .ok f.source ∧
    SourceFile.parse f.filename f.source true = .ok f
  contents : q.contents = q.files.map fun f => (f.filename, f.source)
  localName : (p.withFiles q.files).deriveName (q.files.map (·.packageName)).eraseDups = .ok q.localName
  eq : q = { p.withFiles q.files with localName := q.localName }

theorem load_eq_ok (h : load p = (.ok (), q)) : Loaded p q := by
  unfold load at h
  rw [bind_eq_ok] at h
  obtain ⟨p', p'', hget, h⟩ := h
  cases hget
  rw [lift_bind_eq_ok] at h
  obtain ⟨names, hnames, h⟩ := h
  rw [lift_bind_eq_ok] at h
  obtain ⟨files, hfiles, h⟩ := h
  rw [bind_eq_ok] at h
  obtain ⟨u, p3, hset, h⟩ := h
  cases hset
  rw [lift_bind_eq_ok] at h
  obtain ⟨name, hname, h⟩ := h
  cases h
  obtain ⟨hmap, hall⟩ := parseFiles_eq_ok hfiles
  exact ⟨hmap ▸ hnames, hall, rfl, hname, rfl⟩

/-- The names of the files that are loaded are those in either layer. -/
theorem Loaded.names_eq (h : Loaded p q) : ∃ written given, p.namesIn p.layers.output = .ok written ∧
    p.namesIn p.layers.input = .ok given ∧ q.files.map (·.filename) = sortedNames (written ++ given) :=
  fileNames_eq_ok h.names

theorem isSourceName_of_namesIn {l : Layer} {names : List String} (h : p.namesIn l = .ok names) {name : String}
    (hn : name ∈ names) : isSourceName name := by
  obtain ⟨found, -, rfl⟩ := namesIn_eq_ok h
  exact (List.mem_filter.mp hn).2

/-- The files that are loaded are source files. -/
theorem Loaded.hasSourceName (h : Loaded p q) {f : SourceFile} (hf : f ∈ q.files) : isSourceName f.filename := by
  obtain ⟨written, given, hw, hg, hnames⟩ := h.names_eq
  have hmem : f.filename ∈ q.files.map (·.filename) := List.mem_map_of_mem hf
  rw [hnames, mem_sortedNames, List.mem_append] at hmem
  exact hmem.elim (isSourceName_of_namesIn hw) (isSourceName_of_namesIn hg)

/-- A load fails before it changes the package, or over the name when the package has the files that were read. -/
theorem load_eq_error {e : PatchError} (h : load p = (.error e, q)) :
    (q = p ∧ (p.fileNames = .error e ∨ ∃ names, p.fileNames = .ok names ∧ p.parseFiles names = .error e)) ∨
    ∃ names files, p.fileNames = .ok names ∧ p.parseFiles names = .ok files ∧
      p.deriveName (files.map (·.packageName)).eraseDups = .error e ∧ q = p.withFiles files := by
  unfold load at h
  rw [bind_apply, get_apply] at h
  dsimp only at h
  cases hn : p.fileNames with
  | error e' =>
    rw [lift_bind_of_error hn] at h
    cases h
    exact .inl ⟨rfl, .inl rfl⟩
  | ok names =>
    rw [lift_bind_of_ok hn] at h
    cases hf : p.parseFiles names with
    | error e' =>
      rw [lift_bind_of_error hf] at h
      cases h
      exact .inl ⟨rfl, .inr ⟨names, rfl, hf⟩⟩
    | ok files =>
      rw [lift_bind_of_ok hf] at h
      change (liftM (p.deriveName _) >>= _ : Operation Unit) (p.withFiles files) = _ at h
      cases hd : p.deriveName (files.map (·.packageName)).eraseDups with
      | error e' =>
        rw [lift_bind_of_error hd] at h
        cases h
        exact .inr ⟨names, files, rfl, hf, hd, rfl⟩
      | ok name =>
        rw [lift_bind_of_ok hd] at h
        cases h

/-- A load that fails leaves the package as it is, or with the files that were read. -/
theorem load_cases {result : Except PatchError Unit} (h : load p = (result, q)) :
    q = p ∨ ∃ names files localName, p.fileNames = .ok names ∧ p.parseFiles names = .ok files ∧
      q = { p.withFiles files with localName } := by
  cases result with
  | ok u =>
    have hl := load_eq_ok h
    exact .inr ⟨_, q.files, q.localName, hl.names, parseFiles_map hl.files, hl.eq⟩
  | error e =>
    rcases load_eq_error h with ⟨rfl, -⟩ | ⟨names, files, hnames, hfiles, -, rfl⟩
    · exact .inl rfl
    · exact .inr ⟨names, files, p.localName, hnames, hfiles, rfl⟩

/-- A load leaves the layers alone, also when it fails. -/
theorem layers_of_load {result : Except PatchError Unit} (h : load p = (result, q)) :
    q.layers = p.layers ∧ q.directory = p.directory := by
  rcases load_cases h with rfl | ⟨names, files, localName, -, -, rfl⟩
  · exact ⟨rfl, rfl⟩
  · exact ⟨rfl, rfl⟩

/-- The steps of a load. -/
theorem load_apply {names : List String} {files : Members} {n : String} (hnames : p.fileNames = .ok names)
    (hfiles : p.parseFiles names = .ok files)
    (hname : p.deriveName (files.map (·.packageName)).eraseDups = .ok n) :
    load p = (.ok (), { p.withFiles files with localName := n }) := by
  unfold load
  rw [bind_apply, get_apply]
  dsimp only
  rw [lift_bind_of_ok hnames, lift_bind_of_ok hfiles]
  show (liftM (p.deriveName _) >>= _ : Operation Unit) (p.withFiles files) = _
  rw [lift_bind_of_ok hname]
  rfl

/-- A load of a package, the files and package names of which are known. -/
theorem load_of_packages {names : List String} {n : String} (packages : List String) (hnames : p.fileNames = .ok names)
    (hpackages : (p.parseFiles names).toOption.any fun files => (files.map (·.packageName)).eraseDups == packages)
    (hname : p.deriveName packages = .ok n) :
    load p = (.ok (), { p.withFiles ((p.parseFiles names).toOption.getD []) with localName := n }) := by
  obtain ⟨files, hfiles, hpackages⟩ := (Option.any_eq_true _ _).mp hpackages
  rw [load_apply hnames (eq_ok_of_toOption hfiles) (beq_iff_eq.mp hpackages ▸ hname), hfiles]
  rfl

end Package

end GoSplice
