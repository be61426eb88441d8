import GoSplice.Package.Find
import GoSplice.Proofs.Footprints
import GoSplice.Proofs.Reloading

/-!
# Contents and layers

A package keeps the contents of files beside the layers, and parsed files beside
both.  After any calls, those that failed included, the contents that are kept are
those that the layers hold, and no bytes are spliced but those that were parsed:

    (afterCalls calls p).contents.lookup name = some data →
      (afterCalls calls p).read name = ok data
    c.runVia passOn         = c.run
    c.runVia (insist stale) = c.run after all calls          (afterCalls_coherent)

`runVia` runs a call with a probe that is asked for the bytes before every splice:
`passOn` gives back those it was shown, and `insist` fails where they are not the
source of the parsed file, or not what the layers hold.
-/

namespace GoSplice

namespace Package

variable {p q r : Package}

/-! ## What lasts -/

/-- What every load, every write and every run of the formatter keeps, whether it fails or not. -/
structure Lasts (P : Package → Prop) : Prop where
  load : ∀ p, P p → P (load p).2
  write : ∀ name data p, P p → P (write name data p).2
  journal : ∀ journal p, P p → P { p with journal }

namespace Lasts

variable {P : Package → Prop} (h : Lasts P)

include h

theorem applyTransform (t : Transform) (hp : P p) : P (applyTransform t p).2 := by
  refine holds_bind (h.load p hp) fun _ q _ hq => ?_
  exact holds_applyLoaded (fun name _ data => h.write name data) h.journal hq

theorem applyAt (total index : Nat) (t : Transform) (hp : P p) : P (applyAt total index t p).2 := by
  have hstep := h.applyTransform t hp
  unfold Package.applyAt
  rw [tryCatch_apply]
  revert hstep
  cases Package.applyTransform t p with
  | mk result q => cases result <;> exact id

theorem applyFrom (total index : Nat) (ts : List Transform) (hp : P p) : P (applyFrom total index ts p).2 := by
  induction ts generalizing p index with
  | nil => exact hp
  | cons t ts ih =>
    rw [applyFrom_cons]
    exact holds_bind (h.applyAt total index t hp) fun _ q _ hq => ih (index + 1) hq

theorem findType (name : String) (hp : P p) : P (findType name p).2 := by
  refine holds_bind (h.load p hp) fun _ q _ hq => ?_
  refine holds_bind (P := P) (x := get) hq fun s r _ hr => ?_
  cases s.typeInfo? name <;> exact hr

theorem findTypeLoose (search : String) (hp : P p) : P (findTypeLoose search p).2 := by
  refine holds_bind (h.load p hp) fun _ q _ hq => ?_
  refine holds_bind (P := P) (x := get) hq fun s r _ hr => ?_
  cases (levels s.settings.separator (searchName search)).findSome? (s.files.typeNames.find? ·) with
  | none => exact hr
  | some found =>
    dsimp only
    cases s.typeInfo? found <;> exact hr

end Lasts

/-! ## Contents that are kept -/

/-- A package that keeps contents as its layers hold them. -/
structure Coherent (p : Package) : Prop where
  inMemory : p.InMemory
  path : ∀ name data, p.contents.lookup name = some data → ∃ x, p.path name = .ok x ∧ Path.baseName x = name
  read : ∀ name data, p.contents.lookup name = some data → p.read name = .ok data

theorem coherent_of_create {layers : Layers} {modulePath directory : String} {settings : Settings}
    {formatter : Formatter} (hin : layers.input.IsBuilt) (hout : ∃ l, layers.output = .memory l ∧ l.Built)
    (h : create layers modulePath directory settings formatter = .ok p) : p.Coherent := by
  have hnil : p.contents = [] := by
    obtain ⟨-, d, -, rfl⟩ := create_eq_ok h
    rfl
  refine ⟨inMemory_of_create hin hout h, ?_, ?_⟩
  · rw [hnil]
    nofun
  · rw [hnil]
    nofun

theorem Coherent.load (h : p.Coherent) : (load p).2.Coherent := by
  rcases load_cases (p := p) (q := (Package.load p).2) rfl with hq | ⟨names, files, localName, hnames, hfiles, hq⟩
  · rw [hq]
    exact h
  · rw [hq]
    obtain ⟨hmap, hall⟩ := parseFiles_eq_ok hfiles
    have hmem : ∀ name data, (files.map fun f => (f.filename, f.source)).lookup name = some data →
        ∃ f ∈ files, f.filename = name ∧ f.source = data := by
      intro name data hl
      rcases @lookup_contents files name with ⟨f, hf, hname, hl'⟩ | ⟨-, hl'⟩
      · rw [hl, Option.some.injEq] at hl'
        exact ⟨f, hf, hname, hl'.symm⟩
      · rw [hl] at hl'
        cases hl'
    refine ⟨⟨h.inMemory.input, h.inMemory.output, h.inMemory.directory⟩, fun name data hl => ?_, fun name data hl => ?_⟩
    · obtain ⟨f, hf, rfl, rfl⟩ := hmem name data hl
      exact h.inMemory.path_of_mem hnames (hmap ▸ List.mem_map_of_mem hf)
    · obtain ⟨f, hf, rfl, rfl⟩ := hmem name data hl
      exact (hall f hf).1

theorem Coherent.write (h : p.Coherent) (name : String) (data : Bytes) : (write name data p).2.Coherent := by
  cases hw : Package.write name data p with
  | mk result q =>
    cases result with
    | ok u =>
      obtain ⟨-, x, hx, hwritten⟩ := written_of_write h.inMemory hw
      obtain ⟨y, hy, -, -, hbase⟩ := h.inMemory.path_of_plain (isPlain_of_write h.inMemory hw)
      rw [hx, Except.ok.injEq] at hy
      subst hy
      have hpath := path_eq_of_directory hwritten.directory
      refine ⟨hwritten.inMemory, fun n d hl => ?_, fun n d hl => ?_⟩
      · rw [hwritten.contents, Entries.lookup_put] at hl
        rw [hpath]
        split at hl
        · next hn => exact ⟨x, hn ▸ hx, hn ▸ hbase⟩
        · exact h.path n d hl
      · rw [hwritten.contents, Entries.lookup_put] at hl
        split at hl
        · next hn =>
          cases hl
          exact hn ▸ hwritten.read hx
        · next hn =>
          obtain ⟨y, hy, hbase'⟩ := h.path n d hl
          rw [hwritten.read_of_ne h.inMemory hy (fun he => hn (by rw [← hbase', he, hbase]))]
          exact h.read n d hl
    | error e =>
      rcases write_eq_error hw with rfl | ⟨o, ho, rfl⟩
      · exact h
      · obtain ⟨m, rfl, hbuilt, hsame⟩ := h.inMemory.makeDirs ho
        have hmemory := h.inMemory.onto hbuilt
        refine ⟨hmemory, h.path, fun n d hl => ?_⟩
        obtain ⟨x, hx, -⟩ := h.path n d hl
        have hread := h.read n d hl
        rw [h.inMemory.read_eq hx] at hread
        have hfile : (p.onto (.memory m)).layers.file? x = p.layers.file? x := Layers.file?_withOutput (hsame x)
        rw [hmemory.read_eq (show (p.onto (.memory m)).path n = .ok x from hx), hfile]
        exact hread

theorem lasts_coherent : Lasts Coherent where
  load _ h := h.load
  write name data _ h := h.write name data
  journal _ _ h := ⟨⟨h.inMemory.input, h.inMemory.output, h.inMemory.directory⟩, h.path, h.read⟩

/-! ## Splices that are watched -/

/-- What is asked before bytes are spliced at offsets of a parsed file.  The bytes it gives
are spliced. -/
abbrev Probe := SourceFile → Bytes → Operation Bytes

/-- Fails unless the bytes are those that the file was parsed from, and those that the layers hold. -/
def insist (stale : PatchError) : Probe := fun f source => do
  let p ← get
  if source = f.source ∧ (p.read f.filename).toOption = some f.source then return source else throw stale

section Watched

variable (probe : Probe)

def removeVia (m : Match) : Operation Unit := do
  let p ← get
  let source ← probe m.file (p.contentsOrNew m.file.filename)
  write m.file.filename (Splice.cut source m.declaration)

def addDeclarationVia (a : Addition) : Operation Unit := do
  let p ← get
  match p.files.findSubject? a.subject with
  | none => append a.filename a.text
  | some m =>
    throwIf (exceeds a m.declaration.declared)
    if a.replace then
      throwIf (sharesGroup a m.declaration.declared)
      removeVia probe m
      append a.filename a.text

/-- The bytes of a parsed file that an import is put between. -/
def importSource (p : Package) (f : SourceFile) : Bytes :=
  if (Splice.lastImport? f).isSome then f.source else p.contentsOrNew f.filename

/-- Bytes with an import at the place that a parsed file has for it. -/
def importInto (f : SourceFile) (source text : Bytes) : Bytes :=
  match Splice.lastImport? f with
  | some (_, some close) => Splice.importInside source close text
  | some (stop, none) => Splice.importBelow source stop text
  | none => Splice.importAfterClause source (min (Splice.lineEnd source f.clauseEnd) source.length) text

def addImportVia (a : ImportAddition) : Operation Unit := do
  let p ← get
  match p.files.file? a.filename with
  | none => addImport a
  | some f =>
    let source ← probe f (p.importSource f)
    write a.filename (importInto f source (importText a))

def dedupFileVia (f : SourceFile) : Operation Unit := do
  let source ← probe f f.source
  let out := Splice.delete source 0 (RepeatedImports.ranges [] f.declarations)
  if out ≠ f.source then write f.filename out

def dedupImportsVia (filenames : Option (List String)) : Operation Unit := do
  ((← get).selected filenames).forM (dedupFileVia probe)

def applyLoadedVia : Transform → Operation Unit
  | .addImport a => addImportVia probe a
  | .add a => addDeclarationVia probe a
  | .dedupImports filenames => dedupImportsVia probe filenames
  | .format filenames => format filenames

def applyTransformVia (t : Transform) : Operation Unit := do
  load
  applyLoadedVia probe t

def applyFromVia (total : Nat) : Nat → List Transform → Operation Unit
  | _, [] => pure ()
  | index, t :: ts => do
    tryCatch (applyTransformVia probe t) fun e => throw (located t index total e)
    applyFromVia total (index + 1) ts

end Watched

/-! ### A probe that changes nothing -/

/-- Gives the bytes on. -/
def passOn : Probe := fun _ source => pure source

theorem addDeclarationVia_passOn (a : Addition) : addDeclarationVia passOn a = addDeclaration a := rfl

theorem addImportVia_passOn (a : ImportAddition) : addImportVia passOn a = addImport a := by
  funext p
  rw [addImport_eq]
  unfold addImportVia
  rw [bind_apply, get_apply]
  dsimp only
  cases hf : p.files.file? a.filename with
  | none => exact addImport_eq a p
  | some f =>
    have hname := (Members.mem_of_file? hf).2
    show write a.filename (importInto f (p.importSource f) (importText a)) p = _
    unfold withImport importInto importSource
    rw [hf, hname]
    dsimp only
    cases Splice.lastImport? f with
    | none => rfl
    | some place =>
      obtain ⟨stop, close⟩ := place
      cases close <;> rfl

theorem applyTransformVia_passOn (t : Transform) : applyTransformVia passOn t = applyTransform t := by
  cases t with
  | addImport a => exact congrArg (load >>= fun _ => ·) (addImportVia_passOn a)
  | add a => rfl
  | dedupImports filenames => rfl
  | format filenames => rfl

theorem applyFromVia_passOn (total index : Nat) (ts : List Transform) :
    applyFromVia passOn total index ts = applyFrom total index ts := by
  induction ts generalizing index with
  | nil => rfl
  | cons t ts ih => rw [applyFromVia, applyTransformVia_passOn, ih, applyFrom_cons, applyAt]

/-! ### A probe that insists -/

/-- Whether the layers hold a file as it was parsed. -/
def Holds (p : Package) (f : SourceFile) : Prop := p.read f.filename = .ok f.source

theorem insist_of_holds {f : SourceFile} {source : Bytes} (hsource : source = f.source) (h : p.Holds f)
    (stale : PatchError) : insist stale f source p = (.ok source, p) := by
  unfold insist
  rw [bind_apply, get_apply]
  dsimp only
  rw [show p.read f.filename = .ok f.source from h, if_pos ⟨hsource, rfl⟩]
  rfl

/-- Where the probe gives the bytes on, the rest goes on as it would. -/
theorem insist_bind {f : SourceFile} {source : Bytes} (hsource : source = f.source) (h : p.Holds f)
    (stale : PatchError) (g : Bytes → Operation Unit) : (insist stale f source >>= g) p = g source p := by
  rw [bind_apply, insist_of_holds hsource h]

theorem Loaded.holds (h : Loaded p q) {f : SourceFile} (hf : f ∈ q.files) : q.Holds f := by
  unfold Holds
  rw [h.read]
  exact (h.files f hf).1

theorem addDeclarationVia_insist (hl : Loaded p q) (stale : PatchError) (a : Addition) :
    addDeclarationVia (insist stale) a q = addDeclaration a q := by
  cases hm : q.files.findSubject? a.subject with
  | none =>
    rw [addDeclaration_of_none hm]
    unfold addDeclarationVia
    rw [bind_apply, get_apply]
    dsimp only
    rw [hm]
  | some m =>
    have hfile := (mem_of_findSubject? hm).1
    have hremove : removeVia (insist stale) m q = remove m q := by
      unfold removeVia
      rw [bind_apply, get_apply]
      exact insist_bind (hl.contentsOrNew_of_mem hfile) (hl.holds hfile) stale _
    rw [addDeclaration_of_some hm]
    unfold addDeclarationVia
    rw [bind_apply, get_apply]
    dsimp only
    rw [hm]
    refine bind_congr_of_ok fun _ q1 h1 => ?_
    rw [throwIf_eq_ok h1]
    split
    · refine bind_congr_of_ok fun _ q2 h2 => ?_
      rw [throwIf_eq_ok h2, bind_apply, bind_apply, hremove]
    · rfl

theorem addImportVia_insist (hl : Loaded p q) (stale : PatchError) (a : ImportAddition) :
    addImportVia (insist stale) a q = addImport a q := by
  rw [← addImportVia_passOn]
  unfold addImportVia
  rw [bind_apply, get_apply, bind_apply, get_apply]
  dsimp only
  cases hf : q.files.file? a.filename with
  | none => rfl
  | some f =>
    obtain ⟨hmem, -⟩ := Members.mem_of_file? hf
    have hsource : q.importSource f = f.source := by
      unfold importSource
      rw [hl.contentsOrNew_of_mem hmem, ite_self]
    exact insist_bind hsource (hl.holds hmem) stale _

/-- Files of different names that the layers hold as they were parsed. -/
structure Untouched (p : Package) (fs : List SourceFile) : Prop where
  inMemory : p.InMemory
  nodup : (fs.map (·.filename)).Nodup
  path : ∀ f ∈ fs, ∃ x, p.path f.filename = .ok x ∧ Path.baseName x = f.filename
  holds : ∀ f ∈ fs, p.Holds f

/-- A write of the first of some files leaves the others untouched. -/
theorem Untouched.write {f : SourceFile} {fs : List SourceFile} {data : Bytes} (h : p.Untouched (f :: fs))
    (hw : Package.write f.filename data p = (.ok (), q)) : q.Untouched fs := by
  obtain ⟨hp, hnodup, hpath, hholds⟩ := h
  obtain ⟨-, x, hx, hwritten⟩ := written_of_write hp hw
  rw [List.map_cons, List.nodup_cons] at hnodup
  obtain ⟨⟨y, hy, hbase⟩, hpath⟩ := List.forall_mem_cons.mp hpath
  rw [hx, Except.ok.injEq] at hy
  subst hy
  refine ⟨hwritten.inMemory, hnodup.2, fun g hg => ?_, fun g hg => ?_⟩
  · rw [path_eq_of_directory hwritten.directory]
    exact hpath g hg
  · obtain ⟨y, hy, hbase'⟩ := hpath g hg
    have hne : y ≠ x := by
      rintro rfl
      rw [← hbase, hbase'] at hnodup
      exact hnodup.1 (List.mem_map_of_mem hg)
    unfold Holds
    rw [hwritten.read_of_ne hp hy hne]
    exact hholds g (List.mem_cons_of_mem f hg)

theorem Untouched.tail {f : SourceFile} {fs : List SourceFile} (h : p.Untouched (f :: fs)) : p.Untouched fs :=
  ⟨h.inMemory, (List.nodup_cons.mp h.nodup).2, (List.forall_mem_cons.mp h.path).2, (List.forall_mem_cons.mp h.holds).2⟩

theorem Untouched.dedupFile {f : SourceFile} {fs : List SourceFile} (h : p.Untouched (f :: fs))
    (hd : Package.dedupFile f p = (.ok (), q)) : q.Untouched fs := by
  unfold Package.dedupFile at hd
  split at hd
  · exact h.write hd
  · cases hd
    exact h.tail

theorem Untouched.forM_dedupFileVia {fs : List SourceFile} (h : p.Untouched fs) (stale : PatchError) :
    fs.forM (dedupFileVia (insist stale)) p = fs.forM Package.dedupFile p := by
  induction fs generalizing p with
  | nil => rfl
  | cons f fs ih =>
    have hfirst : dedupFileVia (insist stale) f p = Package.dedupFile f p :=
      insist_bind rfl (h.holds f List.mem_cons_self) stale _
    show (dedupFileVia (insist stale) f >>= fun _ => fs.forM (dedupFileVia (insist stale))) p = _
    rw [bind_apply, hfirst, ← bind_apply]
    exact bind_congr_of_ok fun _ q hq => ih (h.dedupFile hq)

theorem Loaded.untouched (hp : p.InMemory) (hl : Loaded p q) (filenames : Option (List String)) :
    q.Untouched (q.selected filenames) := by
  have hmem : ∀ f ∈ q.selected filenames, f ∈ q.files := fun f hf => mem_of_selected hf
  refine ⟨hl.inMemory hp, ?_, fun f hf => ?_, fun f hf => hl.holds (hmem f hf)⟩
  · cases filenames with
    | none => exact hl.nodup_filenames
    | some names =>
      show ((names.eraseDups.filterMap q.files.file?).map (·.filename)).Nodup
      rw [List.map_filterMap]
      refine List.Pairwise.filterMap _ (fun n n' hne m hm m' hm' => ?_) (nodup_eraseDups names)
      obtain ⟨f, hf, rfl⟩ := Option.map_eq_some_iff.mp hm
      obtain ⟨f', hf', rfl⟩ := Option.map_eq_some_iff.mp hm'
      rw [(Members.mem_of_file? hf).2, (Members.mem_of_file? hf').2]
      exact hne
  · rw [hl.path]
    exact hl.path_filename hp (hmem f hf)

theorem applyTransformVia_insist (hp : p.InMemory) (stale : PatchError) (t : Transform) :
    applyTransformVia (insist stale) t p = applyTransform t p := by
  refine bind_congr_of_ok fun _ q hload => ?_
  have hl := load_eq_ok hload
  cases t with
  | addImport a => exact addImportVia_insist hl stale a
  | add a => exact addDeclarationVia_insist hl stale a
  | dedupImports filenames => exact (hl.untouched hp filenames).forM_dedupFileVia stale
  | format filenames => rfl

theorem applyFromVia_insist (hp : p.Coherent) (stale : PatchError) (total index : Nat) (ts : List Transform) :
    applyFromVia (insist stale) total index ts p = applyFrom total index ts p := by
  induction ts generalizing p index with
  | nil => rfl
  | cons t ts ih =>
    have hfirst : tryCatch (applyTransformVia (insist stale) t) (fun e => throw (located t index total e)) p =
        applyAt total index t p := by
      unfold applyAt
      rw [tryCatch_apply, tryCatch_apply, applyTransformVia_insist hp.inMemory]
    rw [applyFromVia, applyFrom_cons, bind_apply, hfirst, ← bind_apply]
    refine bind_congr_of_ok fun _ q hq => ih ?_ (index + 1)
    have hc := lasts_coherent.applyAt total index t hp
    rw [hq] at hc
    exact hc

/-! ## Calls -/

/-- What can be asked of a package. -/
inductive Call where
  | load
  | write (filename : String) (data : Bytes)
  | applyTransform (t : Transform)
  | applyTransforms (ts : List Transform)
  | findType (name : String)
  | findTypeLoose (search : String)

namespace Call

/-- What a call does, without what it finds. -/
def run : Call → Operation Unit
  | .load => Package.load
  | .write filename data => Package.write filename data
  | .applyTransform t => Package.applyTransform t
  | .applyTransforms ts => Package.applyTransforms ts
  | .findType name => discard (Package.findType name)
  | .findTypeLoose search => discard (Package.findTypeLoose search)

/-- A call with a probe asked before every splice. -/
def runVia (probe : Probe) : Call → Operation Unit
  | .applyTransform t => applyTransformVia probe t
  | .applyTransforms ts => applyFromVia probe ts.length 0 ts
  | c => c.run

/-- A probe that gives all bytes on goes unnoticed. -/
theorem runVia_passOn (c : Call) : c.runVia passOn = c.run := by
  cases c with
  | applyTransform t => exact applyTransformVia_passOn t
  | applyTransforms ts => exact applyFromVia_passOn ts.length 0 ts
  | load => rfl
  | write filename data => rfl
  | findType name => rfl
  | findTypeLoose search => rfl

end Call

theorem Coherent.run (h : p.Coherent) (c : Call) : (c.run p).2.Coherent := by
  cases c with
  | load => exact h.load
  | write filename data => exact h.write filename data
  | applyTransform t => exact lasts_coherent.applyTransform t h
  | applyTransforms ts => exact lasts_coherent.applyFrom ts.length 0 ts h
  | findType name => exact holds_bind (lasts_coherent.findType name h) fun _ _ _ hq => hq
  | findTypeLoose search => exact holds_bind (lasts_coherent.findTypeLoose search h) fun _ _ _ hq => hq

theorem Coherent.runVia_insist (h : p.Coherent) (stale : PatchError) (c : Call) :
    c.runVia (insist stale) p = c.run p := by
  cases c with
  | applyTransform t => exact applyTransformVia_insist h.inMemory stale t
  | applyTransforms ts => exact applyFromVia_insist h stale ts.length 0 ts
  | load => rfl
  | write filename data => rfl
  | findType name => rfl
  | findTypeLoose search => rfl

/-- A package after some calls, those that fail included. -/
def afterCalls (calls : List Call) (p : Package) : Package := calls.foldl (fun p c => (c.run p).2) p

theorem Coherent.afterCalls (h : p.Coherent) (calls : List Call) : (afterCalls calls p).Coherent := by
  induction calls generalizing p with
  | nil => exact h
  | cons c calls ih => exact ih (h.run c)

/-- Whatever was called on a new package over layers in memory, and whatever failed, the contents
that it keeps are those that its layers hold, and the next call splices no other bytes than those
that its file was parsed from and that the layers hold. -/
theorem afterCalls_coherent {layers : Layers} {modulePath directory : String} {settings : Settings}
    {formatter : Formatter} (hin : layers.input.IsBuilt) (hout : ∃ l, layers.output = .memory l ∧ l.Built)
    (h : create layers modulePath directory settings formatter = .ok p) (calls : List Call) :
    (∀ name data, (afterCalls calls p).contents.lookup name = some data →
      (afterCalls calls p).read name = .ok data) ∧
    ∀ c : Call, c.runVia passOn = c.run ∧
      ∀ stale, c.runVia (insist stale) (afterCalls calls p) = c.run (afterCalls calls p) := by
  have hc := (coherent_of_create hin hout h).afterCalls calls
  exact ⟨hc.read, fun c => ⟨c.runVia_passOn, fun stale => hc.runVia_insist stale c⟩⟩

/-- A function is replaced below a new import, what cannot be written is written, and a missing type
is sought. -/
def failingCalls : List Call :=
  [.applyTransforms [.addImport ⟨"a.go", "", "io"⟩, .add ⟨"a.go", .func "" "F", "func F() { return }", true⟩],
    .write ".." [], .findType "T"]

theorem failingCalls_coherent :
    create onePrivateFile.layers "m" "." .standard onePrivateFile.formatter = .ok onePrivateFile ∧
    (((afterCalls failingCalls onePrivateFile).contents.lookup "a.go").isSome ∧
      ∀ c ∈ failingCalls.drop 1, (c.run (afterCalls (failingCalls.take 1) onePrivateFile)).1.isOk = false) ∧
    (∀ name data, (afterCalls failingCalls onePrivateFile).contents.lookup name = some data →
      (afterCalls failingCalls onePrivateFile).read name = .ok data) ∧
    ∀ c : Call, c.runVia passOn = c.run ∧ ∀ stale,
      c.runVia (insist stale) (afterCalls failingCalls onePrivateFile) =
        c.run (afterCalls failingCalls onePrivateFile) := by
  obtain ⟨hin, hout, -⟩ := onePrivateFile_inMemory
  have hcreate : create onePrivateFile.layers "m" "." .standard onePrivateFile.formatter = .ok onePrivateFile := rfl
  refine ⟨hcreate, ⟨by decide +kernel, ?_⟩, afterCalls_coherent hin hout hcreate failingCalls⟩
  simp only [failingCalls, List.drop_succ_cons, List.drop_zero, List.forall_mem_cons]
  exact ⟨by decide +kernel, by decide +kernel, List.forall_mem_nil _⟩

end Package

end GoSplice
