import GoSplice.Proofs.StoredFiles
import GoSplice.Proofs.Footprints
import GoSplice.Session

/-!
# Files that an application touches

An application closes with passes over the files that its transforms name.  Its transforms may
reach others, and those are all that the closing passes miss:

    w.apply sources o ends well → its transforms ts take the package p to q →
      the bytes of a file differ on q and p → the closing passes list it, or some transform
      of ts reached it                                                     (apply_covers)

That holds in place, on disk, as well as in a dry run, in memory over the disk.
-/

namespace GoSplice

open GoSplice.Path (IsPlain spell)

/-! ## Bytes in layers -/

theorem toOption_mapError {ε ε' α : Type} (f : ε → ε') (x : Except ε α) : (x.mapError f).toOption = x.toOption := by
  cases x <;> rfl

namespace Layer

variable {l l' : Layer} {x y : String} {mode : Nat} {data : Bytes}

/-- The bytes of the file at a path. -/
def bytes? (l : Layer) (x : String) : Option Bytes := (l.read x).toOption

theorem bytes?_memory {m : MemoryLayer} (hx : IsLayerPath x) :
    (Layer.memory m).bytes? x = ((Layer.memory m).stored? x).map (·.data) := by
  show (m.read x).toOption = (m.file? x).map (·.data)
  rw [memory_read hx]
  cases m.file? x <;> rfl

theorem bytes?_disk {d : DiskLayer} (hx : IsLayerPath x) : (Layer.disk d).bytes? x =
    if x.toList.contains '\x00' then none else ((Layer.disk d).stored? x).map (·.data) := by
  obtain ⟨ss, hss, rfl⟩ := hx
  show (d.onTree (spell ss) DiskTree.read).toOption = if (spell ss).toList.contains '\x00' then none
    else (d.tree.spot (d.target (spell ss))).file?.map (·.data)
  rw [DiskLayer.onTree_spell hss, target_spell d hss]
  split
  · rfl
  · rw [toOption_mapError, DiskTree.read_toOption]

/-- Directories that are made leave the bytes of all files. -/
theorem bytes?_makeDirs (hx : IsLayerPath x) (hy : IsLayerPath y) (h : l.makeDirs x mode = .ok l') :
    l'.bytes? y = l.bytes? y := by
  have hsame := stored?_makeDirs hx h y
  cases l with
  | memory m =>
    obtain ⟨m', -, rfl⟩ := memory_makeDirs h
    rw [bytes?_memory hy, bytes?_memory hy, hsame]
  | disk d =>
    obtain ⟨tree, -, rfl⟩ := exists_tree hx h
    rw [bytes?_disk hy, bytes?_disk hy, hsame]
  | readOnly m => cases h

/-- A file that is written leaves the bytes of all others. -/
theorem bytes?_write (hx : IsLayerPath x) (hy : IsLayerPath y) (hne : y ≠ x) (h : l.write x data mode = .ok l') :
    l'.bytes? y = l.bytes? y := by
  have hsame := stored?_write_ne hx hy hne h
  cases l with
  | memory m =>
    obtain ⟨m', -, rfl⟩ := memory_write h
    rw [bytes?_memory hy, bytes?_memory hy, hsame]
  | disk d =>
    obtain ⟨tree, -, rfl⟩ := exists_tree hx h
    rw [bytes?_disk hy, bytes?_disk hy, hsame]
  | readOnly m => cases h

end Layer

/-! ## Bytes in packages -/

/-- Layers of an application: one that is changed in place, or one in memory over another. -/
inductive Layers.IsWorking : Layers → Prop
  | inPlace (l : Layer) : IsWorking (.shared l)
  | dryRun (i : Layer) (m : MemoryLayer) : IsWorking (.overlay i (.memory m))

theorem Layers.IsWorking.withOutput {l : Layers} (h : l.IsWorking) {o : Layer}
    (ho : ∀ m, l.output = .memory m → ∃ m', o = .memory m') : (l.withOutput o).IsWorking := by
  cases h with
  | inPlace l => exact .inPlace o
  | dryRun i m =>
    obtain ⟨m', rfl⟩ := ho m rfl
    exact .dryRun i m'

namespace Package

variable {p q r : Package} {name : String} {names : String → Prop}

/-- The bytes of a file of the package. -/
def bytes? (p : Package) (name : String) : Option Bytes := (p.read name).toOption

/-- The bytes do not depend on what a package has loaded. -/
theorem bytes?_congr (hlayers : q.layers = p.layers) (hdirectory : q.directory = p.directory) (name : String) :
    q.bytes? name = p.bytes? name := by
  unfold bytes? read path
  rw [hlayers, hdirectory]

/-- A package over layers of an application. -/
structure IsWorking (p : Package) : Prop where
  layers : p.layers.IsWorking
  directory : IsLayerPath p.directory

/-- The bytes of a file are those in the output layer, or else those in the input layer. -/
theorem IsWorking.bytes?_eq (hp : p.IsWorking) {x : String} (hx : p.path name = .ok x) :
    p.bytes? name = (p.layers.output.bytes? x).or (p.layers.input.bytes? x) := by
  unfold bytes? read
  rw [hx]
  show Except.toOption (ifFound (p.layers.output.read x) >>= _) = _
  have hlayers := hp.layers
  generalize p.layers = layers at hlayers
  cases hlayers with
  | inPlace l =>
    show Except.toOption (ifFound (l.read x) >>= _) = Option.or (l.read x).toOption (l.read x).toOption
    cases hread : l.read x with
    | ok data => rfl
    | error e =>
      show Except.toOption ((if e.isNotFound then .ok none else .error e) >>= _) = none
      split
      · exact congrArg Except.toOption hread
      · rfl
  | dryRun i m =>
    show Except.toOption (ifFound (m.read x) >>= _) = _
    rw [Layers.output, Layer.bytes?, show (Layer.memory m).read x = m.read x from rfl,
      Layer.memory_read (isLayerPath_path hx)]
    cases m.file? x <;> rfl

/-- A package over another output layer. -/
theorem IsWorking.onto (hp : p.IsWorking) {o : Layer}
    (ho : ∀ m, p.layers.output = .memory m → ∃ m', o = .memory m') : (p.onto o).IsWorking :=
  ⟨hp.layers.withOutput ho, hp.directory⟩

theorem IsWorking.bytes?_onto (hp : p.IsWorking) {o : Layer}
    (ho : ∀ m, p.layers.output = .memory m → ∃ m', o = .memory m') {x : String} (hx : p.path name = .ok x)
    (hsame : o.bytes? x = p.layers.output.bytes? x) : (p.onto o).bytes? name = p.bytes? name := by
  rw [(hp.onto ho).bytes?_eq hx, hp.bytes?_eq hx]
  show ((p.layers.withOutput o).output.bytes? x).or ((p.layers.withOutput o).input.bytes? x) = _
  cases hl : p.layers with
  | shared l =>
    rw [hl] at hsame
    show (o.bytes? x).or (o.bytes? x) = _
    rw [hsame]
    rfl
  | overlay i l =>
    rw [hl] at hsame
    show (o.bytes? x).or (i.bytes? x) = _
    rw [hsame]
    rfl

/-! ## Changes -/

/-- What writing files of some names leaves: the bytes of the files of other names. -/
structure ChangesOnly (names : String → Prop) (p q : Package) : Prop where
  isWorking : q.IsWorking
  directory : q.directory = p.directory
  bytes : ∀ name, IsPlain name.toList → ¬ names name → q.bytes? name = p.bytes? name

theorem ChangesOnly.refl (hp : p.IsWorking) : ChangesOnly names p p := ⟨hp, rfl, fun _ _ _ => rfl⟩

theorem ChangesOnly.trans (h : ChangesOnly names p q) (h' : ChangesOnly names q r) : ChangesOnly names p r :=
  ⟨h'.isWorking, h'.directory.trans h.directory, fun name hn hno => (h'.bytes name hn hno).trans (h.bytes name hn hno)⟩

theorem ChangesOnly.of_layers (h : ChangesOnly names p q) (hlayers : r.layers = q.layers)
    (hdirectory : r.directory = q.directory) : ChangesOnly names p r := by
  refine ⟨⟨hlayers ▸ h.isWorking.layers, hdirectory ▸ h.isWorking.directory⟩, hdirectory.trans h.directory, ?_⟩
  intro name hn hno
  rw [bytes?_congr hlayers hdirectory, h.bytes name hn hno]

/-- Making the package's directory changes no file. -/
theorem IsWorking.changesOnly_makeDirs (hp : p.IsWorking) {o : Layer} {mode : Nat}
    (h : p.layers.output.makeDirs p.directory mode = .ok o) : ChangesOnly names p (p.onto o) := by
  have hsort : ∀ m, p.layers.output = .memory m → ∃ m', o = .memory m' := by
    intro m hm
    rw [hm] at h
    obtain ⟨m', -, rfl⟩ := Layer.memory_makeDirs h
    exact ⟨m', rfl⟩
  refine ⟨hp.onto hsort, rfl, fun name hn _ => ?_⟩
  obtain ⟨ss, hss, hd⟩ := hp.directory
  have hx := path_spell hss hd hn
  exact hp.bytes?_onto hsort hx (Layer.bytes?_makeDirs hp.directory (isLayerPath_path hx) h)

theorem IsWorking.changesOnly_write (hp : p.IsWorking) {other : String} (ho : names other) (data : Bytes) :
    ChangesOnly names p (write other data p).2 := by
  cases h : write other data p with
  | mk result r =>
    cases result with
    | error e =>
      rcases write_eq_error h with rfl | ⟨o, hmade, rfl⟩
      · exact .refl hp
      · exact hp.changesOnly_makeDirs hmade
    | ok u =>
      obtain ⟨hplain, x, o, mode, o', hx, hmade, -, hwritten, rfl⟩ := write_eq_ok h
      have hp1 : ChangesOnly names p (p.onto o) := hp.changesOnly_makeDirs hmade
      refine hp1.trans ?_
      have hsort : ∀ m, (p.onto o).layers.output = .memory m → ∃ m', o' = .memory m' := by
        intro m hm
        rw [hm] at hwritten
        obtain ⟨m', -, rfl⟩ := Layer.memory_write hwritten
        exact ⟨m', rfl⟩
      refine ⟨⟨(hp1.isWorking.onto hsort).layers, hp.directory⟩, rfl, fun name hn hno => ?_⟩
      obtain ⟨ss, hss, hd⟩ := hp.directory
      have hy := path_spell (p := p) hss hd hn
      have hne : name ≠ other := fun heq => hno (heq ▸ ho)
      exact hp1.isWorking.bytes?_onto hsort hy (Layer.bytes?_write (isLayerPath_path hx) (isLayerPath_path hy)
        (path_ne ⟨ss, hss, hd⟩ hn hne hplain hx hy) hwritten)

/-! ## Transforms -/

/-- A transform changes the files that it writes. -/
theorem IsWorking.changesOnly_applyLoaded (hp : p.IsWorking) (t : Transform) :
    ChangesOnly (Writes p t) p (applyLoaded t p).2 :=
  holds_applyLoaded (P := ChangesOnly (Writes p t) p) (fun _ hn data _ hq => hq.trans (hq.isWorking.changesOnly_write hn data))
    (fun _ _ hq => hq.of_layers rfl rfl) (.refl hp)

/-- Whether some transform of a batch reaches a file, in the package as it then is. -/
def ReachedBy (p : Package) (ts : List Transform) (name : String) : Prop :=
  ∃ us t vs q l, ts = us ++ t :: vs ∧ applyTransforms us p = (.ok (), q) ∧ load q = (.ok (), l) ∧ Reaches l t name

/-- The files whose bytes a batch changes are those that its transforms name, and those they reach. -/
theorem IsWorking.written_or_reached (hp : p.IsWorking) {ts : List Transform} (h : applyTransforms ts p = (.ok (), q))
    (hn : IsPlain name.toList) (hne : q.bytes? name ≠ p.bytes? name) :
    (∃ t ∈ ts, t.filename? = some name) ∨ ReachedBy p ts name := by
  induction ts generalizing p with
  | nil =>
    cases h
    exact absurd rfl hne
  | cons t ts ih =>
    obtain ⟨r, ht, hts⟩ := applyTransforms_cons_eq_ok.mp h
    have hfirst := ht
    unfold applyTransform at ht
    rw [bind_eq_ok] at ht
    obtain ⟨_, l, hload, ht⟩ := ht
    obtain ⟨hlayers, hdirectory⟩ := layers_of_load hload
    have hl : l.IsWorking := ⟨hlayers ▸ hp.layers, hdirectory ▸ hp.directory⟩
    have hr := hl.changesOnly_applyLoaded t
    rw [ht] at hr
    by_cases hwrites : Writes l t name
    · rcases hwrites with hnamed | hreach
      · exact .inl ⟨t, List.mem_cons_self, hnamed⟩
      · exact .inr ⟨[], t, ts, p, l, rfl, rfl, hload, hreach⟩
    · have hsame : r.bytes? name = p.bytes? name := by
        rw [hr.bytes name hn hwrites, bytes?_congr hlayers hdirectory]
      have hrest : q.bytes? name ≠ r.bytes? name := by rwa [hsame]
      rcases ih hr.isWorking hts hrest with ⟨u, hu, hnamed⟩ | ⟨us, u, vs, s, l', rfl, hus, hload', hreach⟩
      · exact .inl ⟨u, List.mem_cons_of_mem t hu, hnamed⟩
      · exact .inr ⟨t :: us, u, vs, s, l', rfl, applyTransforms_cons_eq_ok.mpr ⟨r, hfirst, hus⟩, hload', hreach⟩

end Package

/-! ## Applications -/

namespace Session

open Package

variable {w : Session} {sources : List Source} {o : ApplyOptions}

/-- The files that transforms add to, each once. -/
def touched (ts : List Transform) : List String := (ts.filterMap Transform.filename?).eraseDups

theorem mem_touched {ts : List Transform} {name : String} : name ∈ touched ts ↔ ∃ t ∈ ts, t.filename? = some name := by
  unfold touched
  rw [List.mem_eraseDups, List.mem_filterMap]

/-- The passes that close an application. -/
def closingPasses (ts : List Transform) : List Transform := [.dedupImports (some (touched ts)), .format (some (touched ts))]

theorem allTransforms_eq_ok {ts : List Transform} (h : allTransforms sources o = .ok ts) :
    ∃ groups, sources.mapM (sourceTransforms · o.file o.replace) = .ok groups ∧
      ts = groups.flatten ++ .dedupImports (some (touched groups.flatten)) ::
        if o.noFormat then [] else [.format (some (touched groups.flatten))] := by
  unfold allTransforms at h
  cases hgroups : sources.mapM (sourceTransforms · o.file o.replace) with
  | error e =>
    rw [hgroups] at h
    cases h
  | ok groups =>
    rw [hgroups] at h
    cases h
    exact ⟨groups, rfl, rfl⟩

theorem isWorking_of_open {m : WorkingModule} {dryRun : Bool} {p : Package} (h : w.openPackage m dryRun = .ok p) :
    p.IsWorking := by
  unfold openPackage at h
  cases hlayers : w.layers m dryRun with
  | error e =>
    rw [hlayers] at h
    cases h
  | ok layers =>
    have hworking : layers.IsWorking := by
      unfold Session.layers at hlayers
      cases dryRun with
      | false =>
        cases hlayers
        exact .inPlace _
      | true =>
        cases hmade : MemoryLayer.empty.makeDirs m.packageDir with
        | error e =>
          rw [hmade] at hlayers
          cases hlayers
        | ok made =>
          rw [hmade] at hlayers
          cases hlayers
          exact .dryRun _ made
    rw [hlayers] at h
    cases hsettings : Settings.ofEnvironment w.environment with
    | error e =>
      rw [hsettings] at h
      cases h
    | ok settings =>
      rw [hsettings] at h
      change create layers m.modulePath m.packageDir settings w.formatter = .ok p at h
      obtain ⟨-, d, hd, rfl⟩ := create_eq_ok h
      exact ⟨hworking, Path.clean_eq_ok hd⟩

/-- What an application needs before it applies anything. -/
def prepare (w : Session) (sources : List Source) (o : ApplyOptions) :
    Except PatchError (WorkingModule × Package × List Transform) := do
  let m ← WorkingModule.find w.disk w.workingDir o.package
  let p ← w.openPackage m o.dryRun
  return (m, p, ← allTransforms sources o)

theorem prepare_eq_ok {m : WorkingModule} {p : Package} {ts : List Transform}
    (h : w.prepare sources o = .ok (m, p, ts)) : WorkingModule.find w.disk w.workingDir o.package = .ok m ∧
      w.openPackage m o.dryRun = .ok p ∧ allTransforms sources o = .ok ts := by
  unfold prepare at h
  cases hm : WorkingModule.find w.disk w.workingDir o.package with
  | error e =>
    rw [hm] at h
    cases h
  | ok m' =>
    rw [hm] at h
    cases hp : w.openPackage m' o.dryRun with
    | error e =>
      simp only [hp, bind, Except.bind] at h
      cases h
    | ok p' =>
      cases hts : allTransforms sources o with
      | error e =>
        simp only [hp, hts, bind, Except.bind] at h
        cases h
      | ok ts' =>
        simp only [hp, hts, bind, Except.bind] at h
        cases h
        exact ⟨rfl, hp, rfl⟩

theorem failWith_status (w : Session) (e : PatchError) : (w.failWith e).status = 1 := by
  unfold failWith
  split <;> rfl

/-- How an application that is prepared goes on. -/
theorem apply_of_prepare {m : WorkingModule} {p : Package} {ts : List Transform}
    (h : w.prepare sources o = .ok (m, p, ts)) : w.apply sources o = match applyTransforms ts p with
      | (.error e, r) => (w.failWith e).behind r
      | (.ok _, r) =>
        match report m r ts.length o.dryRun with
        | .error e => Outcome.behind ⟨1, "", some e, w.disk, []⟩ r
        | .ok text => (w.finish 0 text).behind r := by
  unfold prepare at h
  unfold apply
  simp only [h]
  rfl

theorem apply_of_error {e : PatchError} (h : w.prepare sources o = .error e) : (w.apply sources o).status = 1 := by
  unfold prepare at h
  unfold apply
  simp only [h]
  cases e with
  | validation issues => rfl
  | _ => exact failWith_status w _

/-- An application that ends well has found its package and applied all its transforms. -/
theorem apply_eq_ok (h : (w.apply sources o).status = 0) : ∃ m p ts r text,
    WorkingModule.find w.disk w.workingDir o.package = .ok m ∧ w.openPackage m o.dryRun = .ok p ∧
      allTransforms sources o = .ok ts ∧ applyTransforms ts p = (.ok (), r) ∧
      w.apply sources o = (w.finish 0 text).behind r := by
  cases hprepared : w.prepare sources o with
  | error e =>
    rw [apply_of_error hprepared] at h
    cases h
  | ok prepared =>
    obtain ⟨m, p, ts⟩ := prepared
    obtain ⟨hm, hp, hts⟩ := prepare_eq_ok hprepared
    have happly := apply_of_prepare hprepared
    cases hrun : applyTransforms ts p with
    | mk result r =>
      rw [hrun] at happly
      cases result with
      | error e =>
        have hstatus : (w.apply sources o).status = 1 := by
          rw [happly]
          exact failWith_status w e
        rw [hstatus] at h
        cases h
      | ok u =>
        dsimp only at happly
        cases hreport : report m r ts.length o.dryRun with
        | error e =>
          rw [hreport] at happly
          rw [happly] at h
          cases h
        | ok text =>
          rw [hreport] at happly
          exact ⟨m, p, ts, r, text, hm, hp, hts, hrun, happly⟩

/-- Where an application ends well, its transforms have taken its package to one that its closing
passes ran on; and the files whose bytes the transforms changed are those that these passes list,
and those that some transform reached without naming them. -/
theorem apply_covers (h : (w.apply sources o).status = 0) (hformat : o.noFormat = false) :
    ∃ m p groups q r text, WorkingModule.find w.disk w.workingDir o.package = .ok m ∧
      w.openPackage m o.dryRun = .ok p ∧ sources.mapM (sourceTransforms · o.file o.replace) = .ok groups ∧
      applyTransforms groups.flatten p = (.ok (), q) ∧
      applyTransforms (closingPasses groups.flatten) q = (.ok (), r) ∧
      w.apply sources o = (w.finish 0 text).behind r ∧
      ∀ name, IsPlain name.toList → q.bytes? name ≠ p.bytes? name →
        name ∈ touched groups.flatten ∨ ReachedBy p groups.flatten name := by
  obtain ⟨m, p, ts, r, text, hm, hp, hts, hrun, hend⟩ := apply_eq_ok h
  obtain ⟨groups, hgroups, rfl⟩ := allTransforms_eq_ok hts
  rw [hformat] at hrun
  obtain ⟨q, hfirst, hclosing⟩ := applyTransforms_append_eq_ok.mp hrun
  refine ⟨m, p, groups, q, r, text, hm, hp, hgroups, hfirst, hclosing, hend, fun name hn hne => ?_⟩
  rw [mem_touched]
  exact (isWorking_of_open hp).written_or_reached hfirst hn hne

/-- A module with a package of one file, and a formatter that leaves everything as it is. -/
def oneFileSession : Session where
  disk := .dir 0o755 [("go.mod", .file ⟨bytesOf "module m\n", 0o644⟩),
    ("p", .dir 0o755 [("a.go", .file ⟨bytesOf "package p\n\nfunc F() \x7b\x7d\n", 0o600⟩)])]
  workingDir := []
  environment := []
  formatter := fun _ run => .exited 0 run.input []

/-- A snippet with another function in the place of that of the file. -/
def renewingSource : Source := ⟨"a.tmpl", bytesOf "func F() \x7b return \x7d\n"⟩

def replacingOptions : ApplyOptions := ⟨"p", none, true, false, false⟩

theorem renewingSource_covered : ∃ m p groups q r text,
    WorkingModule.find oneFileSession.disk oneFileSession.workingDir replacingOptions.package = .ok m ∧
      oneFileSession.openPackage m replacingOptions.dryRun = .ok p ∧
      [renewingSource].mapM (sourceTransforms · replacingOptions.file replacingOptions.replace) = .ok groups ∧
      applyTransforms groups.flatten p = (.ok (), q) ∧
      applyTransforms (closingPasses groups.flatten) q = (.ok (), r) ∧
      oneFileSession.apply [renewingSource] replacingOptions = (oneFileSession.finish 0 text).behind r ∧
      ∀ name, IsPlain name.toList → q.bytes? name ≠ p.bytes? name →
        name ∈ touched groups.flatten ∨ ReachedBy p groups.flatten name := by
  have hstatus : (oneFileSession.apply [renewingSource] replacingOptions).status = 0 := by decide +kernel
  exact apply_covers hstatus rfl

end Session

end GoSplice
