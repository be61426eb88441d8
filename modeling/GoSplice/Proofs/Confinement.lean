import GoSplice.Proofs.Footprints

/-!
# Where packages write

Whatever names a batch brings along, and whether it succeeds or not, it changes
files of the package's directory only, and makes no other directories than that
one and those above it:

    applyTransforms ts p = (result, q) →
      a file that differs lies in the package's directory, under the file name of a
      transform or the name of a file that was there;
      a directory that is new is that of the package or above it   (applyTransforms_confined)

The name of a directory is refused where a file is written: `..` and `.` lead to
directories that were just made.
-/

namespace GoSplice

open GoSplice.Path (IsPlain spell)

/-! ## Directories above others -/

/-- Whether a directory is another one, or lies above it. -/
def IsAbove (d directory : String) : Prop :=
  ∃ us ss, (∀ s ∈ ss, IsPlain s) ∧ us <+: ss ∧ d = spell us ∧ directory = spell ss

namespace MemoryLayer

/-- A directory on the way to a path is spelled by the first of its names. -/
theorem exists_prefix_of_mem_chain {ss : List (List Char)} {d : String} (h : d ∈ chain ss) :
    ∃ us, us <+: ss ∧ us ≠ [] ∧ d = String.ofList (Path.join us) := by
  induction ss generalizing d with
  | nil => cases h
  | cons s ss ih =>
    rcases List.mem_cons.mp h with rfl | h
    · exact ⟨[s], List.prefix_append [s] ss, List.cons_ne_nil s [], rfl⟩
    · obtain ⟨e, he, rfl⟩ := List.mem_map.mp h
      obtain ⟨us, hus, hne, rfl⟩ := ih he
      refine ⟨s :: us, (List.prefix_cons_inj s).mpr hus, List.cons_ne_nil s us, ?_⟩
      obtain ⟨u, us, rfl⟩ := List.exists_cons_of_ne_nil hne
      have hjoin : Path.join (s :: u :: us) = s ++ (['/'] ++ Path.join (u :: us)) := rfl
      rw [hjoin, String.ofList_append, String.ofList_append, ← String.append_assoc]

theorem isAbove_of_mem_wayTo {x d : String} (hx : IsLayerPath x) (hd : d ∈ wayTo x) : IsAbove d x := by
  obtain ⟨ss, hss, rfl⟩ := hx
  unfold wayTo at hd
  rw [names_spell hss] at hd
  obtain ⟨us, hus, hne, rfl⟩ := exists_prefix_of_mem_chain hd
  refine ⟨us, ss, hss, hus, ?_, rfl⟩
  exact (Path.spell_eq_join (fun s hs => hss s (hus.subset hs)) hne).symm

end MemoryLayer

namespace Package

variable {p q r : Package} {names : String → Prop}

/-! ## Writing -/

/-- What writing files of some names does: each file that it changes lies in the package's
directory under one of the names, and each directory that it makes is that one or above it. -/
structure Confined (names : String → Prop) (p q : Package) : Prop where
  inMemory : q.InMemory
  directory : q.directory = p.directory
  layers : q.layers = p.layers.withOutput q.layers.output
  file : ∀ x, q.layers.output.file? x ≠ p.layers.output.file? x →
    Path.parent x = p.directory ∧ names (Path.baseName x)
  dir : ∀ d, q.layers.output.hasDir d → p.layers.output.hasDir d ∨ IsAbove d p.directory

theorem Confined.refl (hp : p.InMemory) : Confined names p p := by
  refine ⟨hp, rfl, ?_, fun x hx => absurd rfl hx, fun d hd => .inl hd⟩
  cases p.layers <;> rfl

/-- What is confined does not depend on what a package has loaded. -/
theorem Confined.of_layers (h : Confined names p q) (hlayers : r.layers = q.layers)
    (hdirectory : r.directory = q.directory) : Confined names p r := by
  obtain ⟨⟨hin, hout, hd⟩, hdir, hl, hfile, hdirs⟩ := h
  refine ⟨⟨hlayers ▸ hin, hlayers ▸ hout, hdirectory ▸ hd⟩, hdirectory.trans hdir, ?_, ?_, ?_⟩
  · rw [hlayers]
    exact hl
  · rw [hlayers]
    exact hfile
  · rw [hlayers]
    exact hdirs

/-- Making the package's directory makes no others than those above it. -/
theorem InMemory.isAbove_of_makeDirs (hp : p.InMemory) {mode : Nat} {o : Layer} {d : String}
    (h : p.layers.output.makeDirs p.directory mode = .ok o) (hd : o.hasDir d) :
    p.layers.output.hasDir d ∨ IsAbove d p.directory := by
  obtain ⟨m, hm, -⟩ := hp.output
  rw [hm] at h ⊢
  obtain ⟨m', hm', rfl⟩ := Layer.memory_makeDirs h
  obtain ⟨x, hx, -, rfl⟩ := MemoryLayer.makeDirs_eq_ok.mp hm'
  rw [hp.directory.clean, Except.ok.injEq] at hx
  subst hx
  exact (((MemoryLayer.foldl_putDir _ m).2 d).mp hd).imp_right (MemoryLayer.isAbove_of_mem_wayTo hp.directory)

/-- A write, whether it fails or not, makes the package's directory at most. -/
theorem isAbove_of_write (hp : p.InMemory) {name d : String} {data : Bytes}
    (hd : (write name data p).2.layers.output.hasDir d) :
    p.layers.output.hasDir d ∨ IsAbove d p.directory := by
  cases h : write name data p with
  | mk result q =>
    rw [h] at hd
    cases result with
    | ok u =>
      obtain ⟨-, x, o, mode, o', -, ho, -, ho', rfl⟩ := write_eq_ok h
      refine hp.isAbove_of_makeDirs ho ?_
      obtain ⟨m, rfl, -⟩ := hp.makeDirs ho
      unfold Package.onto at ho'
      rw [Layers.output_withOutput] at ho'
      obtain ⟨m', hm', rfl⟩ := Layer.memory_write ho'
      obtain ⟨y, -, -, -, rfl⟩ := MemoryLayer.write_eq_ok.mp hm'
      simp only [wrote, Package.onto, Layers.output_withOutput] at hd
      exact hd
    | error e =>
      rcases write_eq_error h with rfl | ⟨o, ho, rfl⟩
      · exact .inl hd
      · simp only [Package.onto, Layers.output_withOutput] at hd
        exact hp.isAbove_of_makeDirs ho hd

/-- A write of a file of one of the names. -/
theorem Confined.write (h : Confined names p q) {name : String} (hn : names name) (data : Bytes) :
    Confined names p (write name data q).2 := by
  have hdir : ∀ d, (Package.write name data q).2.layers.output.hasDir d →
      p.layers.output.hasDir d ∨ IsAbove d p.directory := fun d hd =>
    (isAbove_of_write h.inMemory hd).elim (h.dir d) fun habove => .inr (h.directory ▸ habove)
  cases hw : Package.write name data q with
  | mk result r =>
    rw [hw] at hdir
    cases result with
    | ok u =>
      obtain ⟨-, x, hx, hwritten⟩ := written_of_write h.inMemory hw
      refine ⟨hwritten.inMemory, hwritten.directory.trans h.directory, ?_, fun y hy => ?_, hdir⟩
      · show r.layers = _
        rw [hwritten.layers, h.layers, Layers.withOutput_withOutput, Layers.output_withOutput]
      · change r.layers.output.file? y ≠ _ at hy
        by_cases hyx : y = x
        · obtain ⟨z, hz, -, hparent, hbase⟩ := h.inMemory.path_of_plain (isPlain_of_write h.inMemory hw)
          rw [hx, Except.ok.injEq] at hz
          rw [hyx, hz]
          exact ⟨hparent.trans h.directory, hbase.symm ▸ hn⟩
        · rw [hwritten.output, if_neg hyx] at hy
          exact h.file y hy
    | error e =>
      rcases write_eq_error hw with rfl | ⟨o, ho, rfl⟩
      · exact h
      · obtain ⟨m, rfl, hbuilt, hsame⟩ := h.inMemory.makeDirs ho
        refine ⟨h.inMemory.onto hbuilt, h.directory, ?_, fun y hy => ?_, hdir⟩
        · show q.layers.withOutput _ = p.layers.withOutput (q.layers.withOutput _).output
          rw [Layers.output_withOutput, h.layers, Layers.withOutput_withOutput]
        · change (q.layers.withOutput (.memory m)).output.file? y ≠ _ at hy
          rw [Layers.output_withOutput, hsame] at hy
          exact h.file y hy

/-! ## Members -/

/-- Whether a package has a source file of a name in one of its layers. -/
def IsMember (p : Package) (name : String) : Prop := ∃ ns, p.fileNames = .ok ns ∧ name ∈ ns

/-- The source files of a package that was written to are those it had and those written. -/
theorem Confined.isMember (h : Confined names p q) (hp : p.InMemory) {name : String} (hn : q.IsMember name) :
    names name ∨ p.IsMember name := by
  obtain ⟨ns, hns, hmem⟩ := hn
  obtain ⟨ns', hns', hiff⟩ := mem_fileNames h.inMemory
  rw [hns, Except.ok.injEq] at hns'
  obtain ⟨hsource, x, f, hf, hparent, hbase⟩ := (hiff name).mp (hns' ▸ hmem)
  by_cases hx : q.layers.output.file? x = p.layers.output.file? x
  · right
    rw [h.layers, Layers.file?_withOutput hx] at hf
    obtain ⟨given, hgiven, hmem'⟩ := mem_fileNames hp
    exact ⟨given, hgiven, (hmem' name).mpr ⟨hsource, x, f, hf, hparent.trans h.directory, hbase⟩⟩
  · exact .inl (hbase ▸ (h.file x hx).2)

/-- A package whose files, those it has loaded included, have some names. -/
structure Within (names : String → Prop) (p q : Package) : Prop extends Confined names p q where
  files : ∀ f ∈ q.files, names f.filename
  contents : ∀ name ∈ q.contents.map (·.1), names name

theorem Confined.load (h : Confined names p q) : Confined names p (load q).2 := by
  obtain ⟨hlayers, hdirectory⟩ := layers_of_load (p := q) rfl
  exact h.of_layers hlayers hdirectory

theorem Confined.within (h : Confined names p q) (hp : p.InMemory) (hmembers : ∀ name, p.IsMember name → names name)
    (hload : Package.load q = (.ok (), r)) : Within names p r := by
  have hl := load_eq_ok hload
  have hfiles : ∀ name ∈ r.files.map (·.filename), names name := fun name hn =>
    (h.isMember hp ⟨_, hl.names, hn⟩).elim id (hmembers name)
  have hloaded := h.load
  rw [hload] at hloaded
  refine ⟨hloaded, fun f hf => hfiles _ (List.mem_map_of_mem hf), fun name hn => ?_⟩
  rw [hl.contents, List.map_map] at hn
  exact hfiles name hn

/-! ## Transforms -/

/-- What a transform writes has the name of the transform, or is a file that was loaded. -/
theorem Within.of_writes (h : Within names p q) {t : Transform} (ht : ∀ name ∈ t.filename?, names name) {name : String}
    (hn : Writes q t name) : names name := by
  rcases hn with hn | hn
  · exact ht name hn
  · rcases hn.mem with hfile | hcontents
    · obtain ⟨f, hf, rfl⟩ := List.mem_map.mp hfile
      exact h.files f hf
    · exact h.contents name hcontents

/-- A transform writes files of its own name, and of those that the package had. -/
theorem Confined.applyTransform (h : Confined names p q) (hp : p.InMemory)
    (hmembers : ∀ name, p.IsMember name → names name) {t : Transform}
    (ht : ∀ name ∈ t.filename?, names name) : Confined names p (applyTransform t q).2 := by
  refine holds_bind h.load fun _ r hload _ => ?_
  have hr := h.within hp hmembers hload
  refine holds_applyLoaded (fun name hn data s hs => ?_) (fun _ _ hs => hs.of_layers rfl rfl) hr.toConfined
  exact hs.write (hr.of_writes ht hn) data

/-! ## Batches -/

theorem Confined.applyAt (h : Confined names p q) (hp : p.InMemory)
    (hmembers : ∀ name, p.IsMember name → names name) {t : Transform}
    (ht : ∀ name ∈ t.filename?, names name) (total index : Nat) :
    Confined names p (applyAt total index t q).2 := by
  have hstep := h.applyTransform hp hmembers ht
  unfold Package.applyAt
  rw [tryCatch_apply]
  revert hstep
  cases Package.applyTransform t q with
  | mk result r => cases result <;> exact id

theorem Confined.applyFrom (h : Confined names p q) (hp : p.InMemory)
    (hmembers : ∀ name, p.IsMember name → names name) {ts : List Transform}
    (hts : ∀ t ∈ ts, ∀ name ∈ t.filename?, names name) (total index : Nat) :
    Confined names p (applyFrom total index ts q).2 := by
  induction ts generalizing q index with
  | nil => exact h
  | cons t ts ih =>
    obtain ⟨ht, hts⟩ := List.forall_mem_cons.mp hts
    rw [applyFrom_cons]
    exact holds_bind (h.applyAt hp hmembers ht total index) fun _ r _ hr => ih hr hts (index + 1)

/-- A batch, whether it fails or not, changes files of the package's directory only, under the
names of its transforms and of the files that were there, and makes only directories that lead
to the package's. -/
theorem applyTransforms_confined {ts : List Transform} {result : Except PatchError Unit} (hp : p.InMemory)
    (h : applyTransforms ts p = (result, q)) :
    (∀ x, q.layers.output.file? x ≠ p.layers.output.file? x → Path.parent x = p.directory ∧
      ((∃ t ∈ ts, t.filename? = some (Path.baseName x)) ∨ p.IsMember (Path.baseName x))) ∧
    ∀ d, q.layers.output.hasDir d → p.layers.output.hasDir d ∨ IsAbove d p.directory := by
  have hall : Confined (fun name => (∃ t ∈ ts, t.filename? = some name) ∨ p.IsMember name) p
      (applyTransforms ts p).2 :=
    (Confined.refl hp).applyFrom hp (fun _ => .inr) (fun t ht name hn => .inl ⟨t, ht, hn⟩) ts.length 0
  rw [h] at hall
  exact ⟨hall.file, hall.dir⟩

/-- A package without files in a directory below another. -/
def belowParent : Package :=
  ⟨.overlay (.memory .empty) (.memory .empty), "m", "a/b", .standard, fun _ _ => .missing, [], [], "", ⟨[], []⟩⟩

theorem belowParent_inMemory : belowParent.InMemory := by
  refine ⟨.empty, ⟨_, rfl, .empty⟩, [['a'], ['b']], ?_, rfl⟩
  simp only [List.forall_mem_cons]
  exact ⟨⟨by decide, by decide, by decide, by decide, by decide⟩,
    ⟨by decide, by decide, by decide, by decide, by decide⟩, List.forall_mem_nil _⟩

/-- A function for a new file, and one for a file that is the directory above. -/
def climbingRun : List Transform :=
  [.add ⟨"new.go", .func "" "F", "func F() \x7b\x7d", false⟩, .add ⟨"..", .func "" "G", "func G() \x7b\x7d", false⟩]

theorem climbingRun_confined : ∃ e q, applyTransforms climbingRun belowParent = (.error e, q) ∧
    (q.layers.output.file? "a/b/new.go").isSome ∧ q.layers.output.hasDir "a" ∧
    (∀ x, q.layers.output.file? x ≠ belowParent.layers.output.file? x → Path.parent x = belowParent.directory ∧
      ((∃ t ∈ climbingRun, t.filename? = some (Path.baseName x)) ∨ belowParent.IsMember (Path.baseName x))) ∧
    ∀ d, q.layers.output.hasDir d → belowParent.layers.output.hasDir d ∨ IsAbove d belowParent.directory := by
  have hrun : (applyTransforms climbingRun belowParent).1.isOk = false ∧
      ((applyTransforms climbingRun belowParent).2.layers.output.file? "a/b/new.go").isSome ∧
      (applyTransforms climbingRun belowParent).2.layers.output.hasDir "a" := by decide +kernel
  cases h : applyTransforms climbingRun belowParent with
  | mk result q =>
    rw [h] at hrun
    obtain ⟨hfailed, hfile, hdir⟩ := hrun
    cases result with
    | ok u => cases hfailed
    | error e => exact ⟨e, q, rfl, hfile, hdir, applyTransforms_confined belowParent_inMemory h⟩

end Package

end GoSplice
