import GoSplice.Proofs.Loading

/-!
# Writing files of packages

A successful write leaves one file of the output layer with new bytes and the
permission bits it had in the package's eyes; all other files stay:

    write name data p = (ok (), q) → p.path name = ok x → Written p q name x data   (written_of_write)
    load p = (ok (), q) → q.contentsOrNew name =
      the bytes that p reads, or those of a new file                            (contentsOrNew_loaded)
    addDeclaration a p = (ok (), r) ↔ Added p a r                               (addDeclaration_eq_ok)
-/

namespace GoSplice

namespace Package

variable {p q r : Package}

/-! ## Contents -/

/-- The bytes of a file that a package reads, or others where there is none. -/
def bytesOr (p : Package) (new : Bytes) (name : String) : Bytes := (p.read name).toOption.getD new

theorem lookup_contents {files : Members} {name : String} :
    (∃ f ∈ files, f.filename = name ∧
      (files.map fun f => (f.filename, f.source)).lookup name = some f.source) ∨
    ((∀ f ∈ files, f.filename ≠ name) ∧
      (files.map fun f => (f.filename, f.source)).lookup name = none) := by
  induction files with
  | nil => exact Or.inr ⟨List.forall_mem_nil _, rfl⟩
  | cons f fs ih =>
    rw [List.map_cons, Entries.lookup_cons]
    by_cases hf : name = f.filename
    · left
      exact ⟨f, List.mem_cons_self, hf.symm, if_pos hf⟩
    · rw [if_neg hf]
      rcases ih with ⟨g, hg, hname, hl⟩ | ⟨hall, hl⟩
      · exact Or.inl ⟨g, List.mem_cons_of_mem _ hg, hname, hl⟩
      · right
        refine ⟨fun g hg => ?_, hl⟩
        rcases List.mem_cons.mp hg with rfl | hg
        · exact Ne.symm hf
        · exact hall g hg

/-- A file that was loaded has the contents that were read. -/
theorem Loaded.contentsOrNew_of_mem (h : Loaded p q) {f : SourceFile} (hf : f ∈ q.files) :
    q.contentsOrNew f.filename = f.source := by
  unfold contentsOrNew
  rw [h.contents]
  rcases @lookup_contents q.files f.filename with ⟨g, hg, hname, hl⟩ | ⟨hall, -⟩
  · have hread := (h.files g hg).1
    rw [hname, (h.files f hf).1, Except.ok.injEq] at hread
    rw [hl, hread]
    rfl
  · exact absurd rfl (hall f hf)

/-- A file that was not loaded has the contents of a new one. -/
theorem Loaded.contentsOrNew_of_notMem (h : Loaded p q) {name : String} (hnone : ∀ f ∈ q.files, f.filename ≠ name) :
    q.contentsOrNew name = q.newFile := by
  unfold contentsOrNew
  rw [h.contents]
  rcases @lookup_contents q.files name with ⟨f, hf, hname, -⟩ | ⟨-, hl⟩
  · exact absurd hname (hnone f hf)
  · rw [hl]
    rfl

/-- The source files that can be read are those that were loaded. -/
theorem Loaded.exists_file_iff (h : Loaded p q) (hp : p.InMemory) {name : String} (hn : IsFileName name) :
    (∃ f ∈ q.files, f.filename = name) ↔ ∃ data, p.read name = .ok data := by
  refine ⟨fun ⟨f, hf, hname⟩ => ⟨f.source, hname ▸ (h.files f hf).1⟩, fun ⟨data, hread⟩ => ?_⟩
  obtain ⟨x, hx, -, hparent, hbase⟩ := hp.path_eq hn
  obtain ⟨names, hnames, hmem⟩ := mem_fileNames hp
  have hnames' := h.names
  rw [hnames] at hnames'
  cases hnames'
  rw [hp.read_eq hx] at hread
  cases hfile : p.layers.file? x with
  | none =>
    rw [hfile] at hread
    cases hread
  | some f => exact List.mem_map.mp ((hmem name).mpr ⟨hn.suffix, x, f, hfile, hparent, hbase⟩)

/-- The contents of a source file are the bytes that are read, as far as there are any. -/
theorem contentsOrNew_loaded (hp : p.InMemory) (h : Loaded p q) {name : String}
    (hn : IsFileName name) : q.contentsOrNew name = p.bytesOr q.newFile name := by
  unfold bytesOr
  rcases @lookup_contents q.files name with ⟨f, hf, hname, -⟩ | ⟨hall, hl⟩
  · rw [← hname, h.contentsOrNew_of_mem hf, (h.files f hf).1]
    rfl
  · cases hread : p.read name with
    | error e =>
      unfold contentsOrNew
      rw [h.contents, hl]
      rfl
    | ok data =>
      obtain ⟨f, hf, hname⟩ := (h.exists_file_iff hp hn).mpr ⟨data, hread⟩
      exact absurd hname (hall f hf)

/-! ## Writing -/

/-- The permission bits of a file that is written: those it had, or those of a new file. -/
def keptMode (l : Layers) (x : String) : Nat := ((l.file? x).map (·.mode)).getD defaultFileMode

/-- What a write of some bytes at a layer path does to a package. -/
structure Written (p q : Package) (name x : String) (data : Bytes) : Prop where
  layers : q.layers = p.layers.withOutput q.layers.output
  output : ∀ y, q.layers.output.file? y =
    if y = x then some ⟨data, keptMode p.layers x⟩ else p.layers.output.file? y
  inMemory : q.InMemory
  directory : q.directory = p.directory
  files : q.files = p.files
  localName : q.localName = p.localName
  contents : q.contents = Entries.put name data p.contents

theorem InMemory.fileMode_eq (hp : p.InMemory) {x : String} (hx : IsLayerPath x) :
    p.fileMode x = .ok (keptMode p.layers x) := by
  unfold fileMode keptMode Layers.file?
  rw [Layer.mode?_layerPath hp.output_isBuilt hx]
  cases ho : p.layers.output.file? x with
  | some f => rfl
  | none =>
    show (p.layers.input.mode? x >>= _) = _
    rw [Layer.mode?_layerPath hp.input hx]
    rfl

/-- A package with another output layer. -/
def onto (p : Package) (o : Layer) : Package := { p with layers := p.layers.withOutput o }

/-- The steps of a write. -/
theorem write_apply {name x : String} (data : Bytes) (hplain : hasDirectory name = false)
    (hx : p.path name = .ok x) : write name data p =
      match p.layers.output.makeDirs p.directory defaultDirMode with
      | .error e => (.error e, p)
      | .ok o =>
        match (p.onto o).fileMode x with
        | .error e => (.error e, p.onto o)
        | .ok mode =>
          match (p.onto o).layers.output.write x data mode with
          | .error e => (.error e, p.onto o)
          | .ok o' => (.ok (), wrote ((p.onto o).onto o') name x data) := by
  unfold write
  rw [if_neg (by simp [hplain])]
  dsimp only
  rw [bind_apply, get_apply]
  dsimp only
  rw [lift_bind_of_ok hx]
  cases ho : p.layers.output.makeDirs p.directory defaultDirMode with
  | error e => exact lift_bind_of_error rfl _ _
  | ok o =>
    rw [lift_bind_of_ok rfl, bind_apply]
    unfold setOutput
    rw [modify_apply]
    dsimp only
    rw [bind_apply, get_apply]
    dsimp only
    show (liftM ((p.onto o).fileMode x) >>= _ : Operation Unit) (p.onto o) = _
    cases hmode : (p.onto o).fileMode x with
    | error e => exact lift_bind_of_error rfl _ _
    | ok mode =>
      rw [lift_bind_of_ok rfl]
      show (liftM ((p.onto o).layers.output.write x data mode) >>= _ : Operation Unit) (p.onto o) = _
      dsimp only
      cases ho' : (p.onto o).layers.output.write x data mode with
      | error e => exact lift_bind_of_error rfl _ _
      | ok o' => rfl

theorem write_eq_ok {name : String} {data : Bytes} (h : write name data p = (.ok (), q)) :
    hasDirectory name = false ∧ ∃ x o mode o', p.path name = .ok x ∧
      p.layers.output.makeDirs p.directory defaultDirMode = .ok o ∧
      (p.onto o).fileMode x = .ok mode ∧ (p.onto o).layers.output.write x data mode = .ok o' ∧
      q = wrote ((p.onto o).onto o') name x data := by
  cases hplain : hasDirectory name with
  | true =>
    unfold write at h
    rw [if_pos hplain, bind_eq_ok] at h
    obtain ⟨_, _, h, -⟩ := h
    cases h
  | false =>
    refine ⟨rfl, ?_⟩
    cases hx : p.path name with
    | error e =>
      unfold write at h
      rw [if_neg (by simp [hplain])] at h
      dsimp only at h
      rw [bind_apply, get_apply] at h
      dsimp only at h
      rw [lift_bind_of_error hx] at h
      cases h
    | ok x =>
      rw [write_apply data hplain hx] at h
      split at h
      · cases h
      next o ho =>
      split at h
      · cases h
      next mode hmode =>
      split at h
      · cases h
      next o' ho' =>
      cases h
      exact ⟨x, o, mode, o', rfl, ho, hmode, ho', rfl⟩

/-- A write that fails has at most made the package's directory. -/
theorem write_eq_error {name : String} {data : Bytes} {e : PatchError}
    (h : write name data p = (.error e, r)) :
    r = p ∨ ∃ o, p.layers.output.makeDirs p.directory defaultDirMode = .ok o ∧ r = p.onto o := by
  cases hplain : hasDirectory name with
  | true =>
    unfold write at h
    rw [if_pos hplain] at h
    cases h
    exact .inl rfl
  | false =>
    cases hx : p.path name with
    | error e =>
      unfold write at h
      rw [if_neg (by simp [hplain])] at h
      dsimp only at h
      rw [bind_apply, get_apply] at h
      dsimp only at h
      rw [lift_bind_of_error hx] at h
      cases h
      exact .inl rfl
    | ok x =>
      rw [write_apply data hplain hx] at h
      split at h
      · cases h
        exact .inl rfl
      next o ho =>
      split at h
      · cases h
        exact .inr ⟨o, ho, rfl⟩
      split at h
      · cases h
        exact .inr ⟨o, ho, rfl⟩
      · cases h

/-- A name that is not plain leads to a directory above the package's, or to that. -/
theorem InMemory.isPlain_or_above (hp : p.InMemory) {name x : String}
    (hplain : hasDirectory name = false) (hx : p.path name = .ok x) :
    Path.IsPlain name.toList ∨ ∀ m m' : MemoryLayer, m.hasDir "." →
      m.makeDirs p.directory = .ok m' → m'.hasDir x := by
  by_cases hn : Path.IsPlain name.toList
  · exact .inl hn
  · right
    intro m m' hroot hm
    obtain ⟨ss, hss, hd⟩ := hp.directory
    unfold path at hx
    cases hc : Path.clean (Path.concat p.directory name) with
    | error e => rw [hc] at hx; cases hx
    | ok y =>
      rw [hc] at hx
      cases hx
      rw [hd, ← String.ofList_toList (s := name)] at hc
      obtain ⟨us, hus, rfl⟩ := Path.clean_concat_above hss (Path.clean_spell hss) (not_mem_of_hasDirectory hplain) hn hc
      exact MemoryLayer.hasDir_of_makeDirs hss hus hroot (hd ▸ hm)

/-- A file that is no directory lies in the package's directory. -/
theorem InMemory.directory_of_write (hp : p.InMemory) {name x : String}
    (hplain : hasDirectory name = false) (hx : p.path name = .ok x) :
    Path.parent x = p.directory ∨ ∀ m m' : MemoryLayer, m.hasDir "." →
      m.makeDirs p.directory = .ok m' → m'.hasDir x := by
  refine (hp.isPlain_or_above hplain hx).imp_left fun hn => ?_
  obtain ⟨y, hy, -, hparent, -⟩ := hp.path_of_plain hn
  rw [hx, Except.ok.injEq] at hy
  exact hy ▸ hparent

/-- A package over another output layer in memory. -/
theorem InMemory.onto (hp : p.InMemory) {m : MemoryLayer} (hm : m.Built) : (p.onto (.memory m)).InMemory := by
  refine ⟨?_, ⟨m, Layers.output_withOutput _ _, hm⟩, hp.directory⟩
  show (p.layers.withOutput (.memory m)).input.IsBuilt
  cases hl : p.layers with
  | shared l => exact hm
  | overlay i l =>
    have hi := hp.input
    rw [hl] at hi
    exact hi

/-- Directories that are made hide no file. -/
theorem InMemory.makeDirs (hp : p.InMemory) {path : String} {mode : Nat} {o : Layer}
    (h : p.layers.output.makeDirs path mode = .ok o) :
    ∃ m, o = .memory m ∧ m.Built ∧ ∀ y, (Layer.memory m).file? y = p.layers.output.file? y := by
  obtain ⟨m, hm, hbuilt⟩ := hp.output
  rw [hm] at h ⊢
  obtain ⟨m', hm', rfl⟩ := Layer.memory_makeDirs h
  refine ⟨m', rfl, hbuilt.makeDirs hm', fun y => ?_⟩
  obtain ⟨d, -, -, rfl⟩ := MemoryLayer.makeDirs_eq_ok.mp hm'
  show MemoryLayer.file? _ y = m.file? y
  unfold MemoryLayer.file?
  rw [(MemoryLayer.foldl_putDir _ _).1]

/-- A write puts one file into the output layer. -/
theorem written_of_write (hp : p.InMemory) {name : String} {data : Bytes}
    (h : write name data p = (.ok (), q)) :
    hasDirectory name = false ∧ ∃ x, p.path name = .ok x ∧ Written p q name x data := by
  obtain ⟨hplain, x, o, mode, o', hx, ho, hmode, ho', rfl⟩ := write_eq_ok h
  refine ⟨hplain, x, hx, ?_⟩
  have hlp := isLayerPath_path hx
  obtain ⟨m, rfl, hbuilt, hfile⟩ := hp.makeDirs ho
  have hp1 := hp.onto hbuilt
  have hmode' : mode = keptMode p.layers x := by
    rw [hp1.fileMode_eq hlp, Except.ok.injEq] at hmode
    rw [← hmode]
    unfold keptMode Package.onto
    rw [Layers.file?_withOutput (hfile x)]
  subst hmode'
  unfold Package.onto at ho'
  rw [Layers.output_withOutput] at ho'
  obtain ⟨m', hm', rfl⟩ := Layer.memory_write ho'
  have hp2 := hp1.onto (hbuilt.write hm')
  refine ⟨?_, fun y => ?_, ⟨hp2.input, hp2.output, hp.directory⟩, rfl, rfl, rfl, rfl⟩
  · show (p.layers.withOutput _).withOutput _ = _
    rw [Layers.withOutput_withOutput]
    simp [wrote, Package.onto]
  · show ((p.layers.withOutput _).withOutput (.memory m')).output.file? y = _
    rw [Layers.output_withOutput, ← hfile]
    exact MemoryLayer.file?_write hm' hlp.clean y

/-- Only plain names are those of files that can be written. -/
theorem isPlain_of_write (hp : p.InMemory) {name : String} {data : Bytes}
    (h : write name data p = (.ok (), q)) : Path.IsPlain name.toList := by
  obtain ⟨hplain, x, o, mode, o', hx, ho, -, ho', -⟩ := write_eq_ok h
  refine (hp.isPlain_or_above hplain hx).resolve_right fun habove => ?_
  obtain ⟨l, hl, hb⟩ := hp.output
  rw [hl] at ho
  obtain ⟨m, hm, rfl⟩ := Layer.memory_makeDirs ho
  unfold Package.onto at ho'
  rw [Layers.output_withOutput] at ho'
  obtain ⟨m', hm', -⟩ := Layer.memory_write ho'
  obtain ⟨y, hy, hdir, -⟩ := MemoryLayer.write_eq_ok.mp hm'
  rw [(isLayerPath_path hx).clean, Except.ok.injEq] at hy
  exact hdir (hy ▸ habove l m hb.sound.root hm)

theorem Written.file? {name x : String} {data : Bytes} (h : Written p q name x data) (y : String) :
    q.layers.file? y = if y = x then some ⟨data, keptMode p.layers x⟩ else p.layers.file? y := by
  have hy := h.output y
  rw [h.layers]
  split
  · next hyx =>
    rw [if_pos hyx] at hy
    exact Layers.file?_withOutput_some hy
  · next hyx =>
    rw [if_neg hyx] at hy
    exact Layers.file?_withOutput hy

/-! ## Operations that write -/

theorem mem_of_findSubject? {files : Members} {s : Subject} {m : Match}
    (h : files.findSubject? s = some m) :
    m.file ∈ files ∧ m.declaration ∈ m.file.declarations ∧ s.isDeclaredBy m.declaration.declared := by
  obtain ⟨f, hf, hm⟩ := List.exists_of_findSome?_eq_some h
  obtain ⟨d, hd, rfl⟩ := Option.map_eq_some_iff.mp hm
  exact ⟨hf, List.mem_of_find?_eq_some hd, by simpa using List.find?_some hd⟩

/-- What is not found is declared nowhere. -/
theorem not_isDeclaredBy {files : Members} {s : Subject} (h : files.findSubject? s = none)
    {f : SourceFile} (hf : f ∈ files) {d : Declaration} (hd : d ∈ f.declarations) :
    ¬ s.isDeclaredBy d.declared := by
  have hnone := List.findSome?_eq_none_iff.mp h f hf
  rw [Option.map_eq_none_iff, List.find?_eq_none] at hnone
  exact hnone d hd

theorem Members.mem_of_file? {files : Members} {name : String} {f : SourceFile}
    (h : files.file? name = some f) : f ∈ files ∧ f.filename = name :=
  ⟨List.mem_of_find?_eq_some h, by simpa using List.find?_some h⟩

theorem mem_of_selected {filenames : Option (List String)} {f : SourceFile} (h : f ∈ q.selected filenames) :
    f ∈ q.files := by
  cases filenames with
  | none => exact h
  | some ns =>
    obtain ⟨n, -, hf⟩ := List.mem_filterMap.mp h
    exact (Members.mem_of_file? hf).1

theorem throwIf_eq_ok_iff {e : Option PatchError} : throwIf e p = (.ok (), q) ↔ e = none ∧ q = p := by
  cases e with
  | none => exact ⟨fun h => by cases h; exact ⟨rfl, rfl⟩, fun h => by rw [h.2]; rfl⟩
  | some e => exact ⟨nofun, nofun⟩

theorem throwIf_eq_ok {e : Option PatchError} (h : throwIf e p = (.ok (), q)) : q = p :=
  (throwIf_eq_ok_iff.mp h).2

theorem throwIf_eq_error {c : Option PatchError} {e : PatchError} (h : throwIf c p = (.error e, r)) :
    r = p := by
  cases c with
  | none => cases h
  | some c => cases h; rfl

theorem append_eq {name text : String} (p : Package) : append name text p =
    write name (p.contentsOrNew name ++ bytesOf text ++ [LineIndex.lineFeed]) p := rfl

theorem remove_eq (m : Match) (p : Package) : remove m p =
    write m.file.filename (Splice.cut (p.contentsOrNew m.file.filename) m.declaration) p := rfl

theorem addDeclaration_of_none {a : Addition} (h : p.files.findSubject? a.subject = none) :
    addDeclaration a p = append a.filename a.text p := by
  unfold addDeclaration
  rw [bind_apply, get_apply]
  dsimp only
  rw [h]

theorem addDeclaration_of_some {a : Addition} {m : Match} (h : p.files.findSubject? a.subject = some m) :
    addDeclaration a p = (do
      throwIf (exceeds a m.declaration.declared)
      if a.replace then
        throwIf (sharesGroup a m.declaration.declared)
        remove m
        append a.filename a.text : Operation Unit) p := by
  unfold addDeclaration
  rw [bind_apply, get_apply]
  dsimp only
  rw [h]

/-- What adding a declaration does when it succeeds: the text is added, or what is found is left,
or it is cut out before the text is added. -/
inductive Added (p : Package) (a : Addition) (r : Package) : Prop
  | new : p.files.findSubject? a.subject = none → append a.filename a.text p = (.ok (), r) → Added p a r
  | kept {m : Match} : p.files.findSubject? a.subject = some m → exceeds a m.declaration.declared = none →
      a.replace = false → r = p → Added p a r
  | replaced {m : Match} {p' : Package} : p.files.findSubject? a.subject = some m →
      exceeds a m.declaration.declared = none → a.replace = true → sharesGroup a m.declaration.declared = none →
      remove m p = (.ok (), p') → append a.filename a.text p' = (.ok (), r) → Added p a r

theorem addDeclaration_eq_ok {a : Addition} : addDeclaration a p = (.ok (), r) ↔ Added p a r := by
  constructor
  · intro h
    cases hm : p.files.findSubject? a.subject with
    | none => exact .new hm (by rwa [addDeclaration_of_none hm] at h)
    | some m =>
      rw [addDeclaration_of_some hm, bind_eq_ok] at h
      obtain ⟨_, p1, hthrow, h⟩ := h
      obtain ⟨hexceeds, rfl⟩ := throwIf_eq_ok_iff.mp hthrow
      split at h
      · next hreplace =>
        rw [bind_eq_ok] at h
        obtain ⟨_, p2, hthrow, h⟩ := h
        obtain ⟨hshares, rfl⟩ := throwIf_eq_ok_iff.mp hthrow
        rw [bind_eq_ok] at h
        obtain ⟨_, q, hremove, happend⟩ := h
        exact .replaced hm hexceeds hreplace hshares hremove happend
      · next hreplace =>
        cases h
        exact .kept hm hexceeds (Bool.eq_false_iff.mpr hreplace) rfl
  · rintro (⟨hm, happend⟩ | ⟨hm, hexceeds, hreplace, rfl⟩ | ⟨hm, hexceeds, hreplace, hshares, hremove, happend⟩)
    · rwa [addDeclaration_of_none hm]
    · rw [addDeclaration_of_some hm, bind_eq_ok, hreplace]
      exact ⟨(), r, throwIf_eq_ok_iff.mpr ⟨hexceeds, rfl⟩, rfl⟩
    · rw [addDeclaration_of_some hm, bind_eq_ok, hreplace, if_pos rfl]
      refine ⟨(), p, throwIf_eq_ok_iff.mpr ⟨hexceeds, rfl⟩, ?_⟩
      rw [bind_eq_ok]
      refine ⟨(), p, throwIf_eq_ok_iff.mpr ⟨hshares, rfl⟩, ?_⟩
      rw [bind_eq_ok]
      exact ⟨(), _, hremove, happend⟩

theorem addImport_eq (a : ImportAddition) (p : Package) : addImport a p =
    match p.withImport a with
    | .ok data => write a.filename data p
    | .error e => (.error e, p) := by
  unfold addImport
  rw [bind_apply, get_apply]
  dsimp only
  rw [bind_apply, lift_apply]
  cases p.withImport a <;> rfl

end Package

end GoSplice
