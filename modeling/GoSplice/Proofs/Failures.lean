import GoSplice.Proofs.Preservation

/-!
# Failing transforms

A transform that fails writes no file, with one exception: a declaration that is
to be replaced is cut out of its file before it turns out that the file of its
replacement cannot be written.

    write name data p = (error e, r) → r has the files of p            (files_of_failed_write)
    applyTransform t p = (error e, r) → r has the files of p, or those
      of p without the declaration that t replaces                     (applyTransform_failed)
-/

namespace GoSplice

namespace Package

variable {p q r : Package}

/-- The same files, contents and modes, in the output layer. -/
def SameOutput (p q : Package) : Prop := ∀ x, p.layers.output.file? x = q.layers.output.file? x

/-- Why no file of a name can be written. -/
inductive Refuses (p : Package) (name : String) : Prop
  | withDirectory : hasDirectory name → Refuses p name
  | noPath (e : PatchError) : p.path name = .error e → Refuses p name
  /-- The name is that of a directory. -/
  | isDirectory (x : String) : p.path name = .ok x → p.layers.output.hasDir x → Refuses p name

/-! ## Writing -/

theorem InMemory.makeDirs_eq_error (hp : p.InMemory) {mode : Nat} {e : PatchError}
    (h : p.layers.output.makeDirs p.directory mode = .error e) :
    ∃ f, p.layers.output.file? p.directory = some f := by
  obtain ⟨m, hm, -⟩ := hp.output
  rw [hm] at h ⊢
  cases hf : m.file? p.directory with
  | some f => exact ⟨f, hf⟩
  | none =>
    have hok := MemoryLayer.makeDirs_eq_ok.mpr ⟨_, hp.directory.clean, hf, rfl⟩
    rw [Layer.makeDirs_memory, hok] at h
    cases h

/-- What is not written where the package's directory was made is a directory. -/
theorem InMemory.hasDir_of_failed (hp : p.InMemory) {name x : String} {data : Bytes} {mode : Nat}
    {m m' : MemoryLayer} {e : PatchError} (hplain : hasDirectory name = false) (hx : p.path name = .ok x)
    (hroot : m.hasDir ".") (hm : m.makeDirs p.directory = .ok m')
    (h : (Layer.memory m').write x data mode = .error e) : m'.hasDir x := by
  rcases hp.directory_of_write hplain hx with hparent | habove
  · cases hdir : m'.hasDir x with
    | true => rfl
    | false =>
      obtain ⟨ss, hss, hd⟩ := hp.directory
      have hmade : m'.hasDir (Path.parent x) := by
        rw [hparent, hd]
        exact MemoryLayer.hasDir_of_makeDirs hss (List.prefix_refl ss) hroot (hd ▸ hm)
      have hok : m'.write x data mode = .ok (m'.putFile x ⟨data, mode⟩) :=
        MemoryLayer.write_eq_ok.mpr ⟨x, (isLayerPath_path hx).clean, by simp [hdir], hmade, rfl⟩
      rw [Layer.write_memory, hok] at h
      cases h
  · exact habove m m' hroot hm

/-- A write that fails leaves all files alone. -/
theorem files_of_failed_write (hp : p.InMemory) {name : String} {data : Bytes} {e : PatchError}
    (h : write name data p = (.error e, r)) :
    SameOutput r p ∧ ((∃ f, p.layers.output.file? p.directory = some f) ∨ r.Refuses name) := by
  cases hplain : hasDirectory name with
  | true =>
    unfold write at h
    rw [if_pos hplain] at h
    cases h
    exact ⟨fun _ => rfl, .inr (.withDirectory hplain)⟩
  | false =>
    cases hx : p.path name with
    | error e =>
      unfold write at h
      rw [if_neg (by simp [hplain])] at h
      dsimp only at h
      rw [bind_apply, get_apply] at h
      dsimp only at h
      rw [lift_bind_of_error hx] at h
      cases h
      exact ⟨fun _ => rfl, .inr (.noPath e hx)⟩
    | ok x =>
      rw [write_apply data hplain hx] at h
      have hlp := isLayerPath_path hx
      split at h
      · next ho =>
        cases h
        exact ⟨fun _ => rfl, .inl (hp.makeDirs_eq_error ho)⟩
      · next o ho =>
        obtain ⟨m, rfl, hbuilt, hfile⟩ := hp.makeDirs ho
        have hp1 := hp.onto hbuilt
        rw [hp1.fileMode_eq hlp] at h
        dsimp only at h
        split at h
        · next hw =>
          cases h
          have hout : (p.onto (.memory m)).layers.output = .memory m := Layers.output_withOutput _ _
          rw [hout] at hw
          obtain ⟨l, hl, hlb⟩ := hp.output
          rw [hl] at ho
          obtain ⟨m', hm, hm'⟩ := Layer.memory_makeDirs ho
          cases hm'
          refine ⟨fun y => ?_, .inr (.isDirectory x hx ?_)⟩
          · rw [hout, hfile]
          · rw [hout]
            exact hp.hasDir_of_failed hplain hx hlb.sound.root hm hw
        · cases h

/-- Where a file was written no file is in the way of the package's directory. -/
theorem no_file_at_directory (hp : p.InMemory) {name : String} {data : Bytes}
    (h : write name data p = (.ok (), q)) : q.layers.output.file? q.directory = none := by
  obtain ⟨hplain, x, o, mode, o', hx, ho, hmode, ho', hq⟩ := write_eq_ok h
  obtain ⟨-, y, hy, hw⟩ := written_of_write hp h
  rw [hx, Except.ok.injEq] at hy
  subst hy
  obtain ⟨l, hl, hb⟩ := hp.output
  obtain ⟨ss, hss, hd⟩ := hp.directory
  rw [hl] at ho
  obtain ⟨m, hm, rfl⟩ := Layer.memory_makeDirs ho
  obtain ⟨d, hd', hnone, -⟩ := MemoryLayer.makeDirs_eq_ok.mp hm
  rw [hp.directory.clean, Except.ok.injEq] at hd'
  rw [← hd'] at hnone
  have hdir : m.hasDir p.directory := by
    rw [hd] at hm ⊢
    exact MemoryLayer.hasDir_of_makeDirs hss (List.prefix_refl ss) hb.sound.root hm
  unfold Package.onto at ho'
  rw [Layers.output_withOutput] at ho'
  obtain ⟨m', hm', -⟩ := Layer.memory_write ho'
  obtain ⟨z, hz, hzdir, -⟩ := MemoryLayer.write_eq_ok.mp hm'
  rw [(isLayerPath_path hx).clean, Except.ok.injEq] at hz
  rw [hw.directory, hw.output, if_neg, hl]
  · exact hnone
  · intro he
    rw [he, hz] at hdir
    exact hzdir hdir

/-! ## Transforms -/

/-- Adding a declaration fails before anything is written, or between its two writes. -/
theorem addDeclaration_failed {a : Addition} {e : PatchError} (hp : p.InMemory)
    (h : addDeclaration a p = (.error e, r)) :
    SameOutput r p ∨ ∃ m q, a.replace = true ∧ p.files.findSubject? a.subject = some m ∧
      remove m p = (.ok (), q) ∧ SameOutput r q ∧ r.Refuses a.filename := by
  cases hm : p.files.findSubject? a.subject with
  | none =>
    rw [addDeclaration_of_none hm] at h
    exact .inl (files_of_failed_write hp h).1
  | some m =>
    rw [addDeclaration_of_some hm, bind_eq_error] at h
    rcases h with h | ⟨_, p1, hexceeds, h⟩
    · exact .inl (throwIf_eq_error h ▸ fun _ => rfl)
    obtain rfl := throwIf_eq_ok hexceeds
    split at h
    · next hreplace =>
      rw [bind_eq_error] at h
      rcases h with h | ⟨_, p2, hshares, h⟩
      · exact .inl (throwIf_eq_error h ▸ fun _ => rfl)
      obtain rfl := throwIf_eq_ok hshares
      rw [bind_eq_error] at h
      rcases h with h | ⟨_, q, hremove, h⟩
      · exact .inl (files_of_failed_write hp h).1
      · obtain ⟨-, x, -, hw⟩ := written_of_write hp hremove
        obtain ⟨hsame, hcause⟩ := files_of_failed_write hw.inMemory h
        refine .inr ⟨m, q, hreplace, rfl, hremove, hsame, hcause.resolve_left ?_⟩
        rintro ⟨f, hf⟩
        rw [no_file_at_directory hp hremove] at hf
        cases hf
    · cases h

/-- A failed transform has changed no file, unless it cut out the declaration that it was to
replace, and then could not write the file of the replacement. -/
theorem applyTransform_failed {t : Transform} {filename : String} {e : PatchError} (hp : p.InMemory)
    (ht : t.filename? = some filename) (h : applyTransform t p = (.error e, r)) :
    SameOutput r p ∨ ∃ a l m q, t = .add a ∧ a.replace = true ∧ load p = (.ok (), l) ∧
      l.files.findSubject? a.subject = some m ∧ remove m l = (.ok (), q) ∧ SameOutput r q ∧
      r.Refuses filename := by
  have hload : ∃ x l, load p = (x, l) := ⟨_, _, rfl⟩
  obtain ⟨x, l, hload⟩ := hload
  have hlayers := (layers_of_load hload).1
  unfold applyTransform at h
  rw [bind_apply, hload] at h
  cases x with
  | error e' =>
    cases h
    exact .inl fun y => by rw [hlayers]
  | ok u =>
    have hl := load_eq_ok hload
    have hlm := hl.inMemory hp
    have hsame : ∀ {s : Package}, SameOutput s l → SameOutput s p := fun hs y => by
      rw [hs, hlayers]
    change applyLoaded t l = _ at h
    cases t with
    | addImport a =>
      left
      change addImport a l = _ at h
      rw [addImport_eq] at h
      cases hw : l.withImport a with
      | error e' =>
        rw [hw] at h
        cases h
        exact hsame fun _ => rfl
      | ok data =>
        rw [hw] at h
        exact hsame (files_of_failed_write hlm h).1
    | add a =>
      cases ht
      rcases addDeclaration_failed hlm h with h | ⟨m, q, hreplace, hm, hremove, hfiles, hcause⟩
      · exact .inl (hsame h)
      · exact .inr ⟨a, l, m, q, rfl, hreplace, hload, hm, hremove, hfiles, hcause⟩
    | dedupImports names => cases ht
    | format names => cases ht

/-- The function of `onePrivateFile`, to be put where no file can be. -/
def strayF : Transform := .add ⟨"sub/b.go", .func "" "F", "func F() \x7b return \x7d", true⟩

theorem strayF_failed : ∃ e r, applyTransform strayF onePrivateFile = (.error e, r) ∧
    ¬ SameOutput r onePrivateFile ∧ (SameOutput r onePrivateFile ∨
      ∃ a l m q, strayF = .add a ∧ a.replace = true ∧ load onePrivateFile = (.ok (), l) ∧
        l.files.findSubject? a.subject = some m ∧ remove m l = (.ok (), q) ∧ SameOutput r q ∧
        r.Refuses "sub/b.go") := by
  obtain ⟨e, r, hrun⟩ : ∃ e r, applyTransform strayF onePrivateFile = (.error e, r) := by
    have herror : (applyTransform strayF onePrivateFile).1.isOk = false := by decide +kernel
    cases hrun : applyTransform strayF onePrivateFile with
    | mk x r =>
      rw [hrun] at herror
      cases x with
      | ok u => cases herror
      | error e => exact ⟨e, r, rfl⟩
  refine ⟨e, r, hrun, fun hsame => ?_, applyTransform_failed onePrivateFile_inMemory rfl hrun⟩
  have hcut : ((applyTransform strayF onePrivateFile).2.layers.output.file? "a.go").isSome := by
    decide +kernel
  rw [hrun] at hcut
  have hnone : onePrivateFile.layers.output.file? "a.go" = none := rfl
  rw [hsame, hnone] at hcut
  cases hcut

end Package

end GoSplice
