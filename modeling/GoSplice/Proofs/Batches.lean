import GoSplice.Proofs.PackageNames
import GoSplice.Proofs.Writing

/-!
# Batches

What a package did before leaves nothing behind but its layers: every transform
loads anew, and a batch is the batches it is made of.

    two packages over layers alike     →  a batch ends alike on both       (SameSite.applyTransforms)
    applyTransforms (ts ++ us) on p    =  applyTransforms ts on p, then
                                          applyTransforms us on a new package,
                                          its errors counted from ts on    (batches_compose)
-/

namespace GoSplice

/-! ## Layers alike -/

/-- Layers in memory with the same files and directories, in whatever order
these came to be. -/
structure MemoryLayer.Alike (l m : MemoryLayer) : Prop where
  left : l.Built
  right : m.Built
  files : ∀ x, l.file? x = m.file? x
  dirs : ∀ x, l.hasDir x = m.hasDir x

/-- Layers with the same contents. -/
inductive Layer.Alike : Layer → Layer → Prop
  | refl (l : Layer) : Alike l l
  | memory {l m : MemoryLayer} : l.Alike m → Alike (.memory l) (.memory m)
  | readOnly {l m : MemoryLayer} : l.Alike m → Alike (.readOnly l) (.readOnly m)

/-- The same error, or values that are related. -/
inductive SameResult {α : Type} (R : α → α → Prop) :
    Except PatchError α → Except PatchError α → Prop
  | ok {a b : α} : R a b → SameResult R (.ok a) (.ok b)
  | error (e : PatchError) : SameResult R (.error e) (.error e)

theorem SameResult.refl {α : Type} {R : α → α → Prop} (hR : ∀ a, R a a) (x : Except PatchError α) :
    SameResult R x x := by
  cases x with
  | ok a => exact .ok (hR a)
  | error e => exact .error e

theorem SameResult.map {α β : Type} {R : α → α → Prop} {S : β → β → Prop} {f : α → β}
    (hf : ∀ a b, R a b → S (f a) (f b)) {x y : Except PatchError α} (h : SameResult R x y) :
    SameResult S (f <$> x) (f <$> y) := by
  cases h with
  | ok h => exact .ok (hf _ _ h)
  | error e => exact .error e

namespace MemoryLayer.Alike

variable {l m : MemoryLayer}

theorem read (h : l.Alike m) (path : String) : l.read path = m.read path := by
  unfold MemoryLayer.read
  simp only [h.files]

theorem mode? (h : l.Alike m) (path : String) : l.mode? path = m.mode? path := by
  unfold MemoryLayer.mode?
  simp only [h.files]

theorem makeDirs (h : l.Alike m) (path : String) :
    SameResult Alike (l.makeDirs path) (m.makeDirs path) := by
  unfold MemoryLayer.makeDirs
  cases hr : resolve path with
  | error e => exact .error e
  | ok x =>
    change SameResult Alike (if (l.file? x).isSome then _ else .ok ((wayTo x).foldl putDir l))
      (if (m.file? x).isSome then _ else .ok ((wayTo x).foldl putDir m))
    rw [h.files]
    split
    · exact .error _
    · next hnone =>
      rw [Option.not_isSome_iff_eq_none] at hnone
      have hx := resolve_eq_ok hr
      obtain ⟨hfl, hdl⟩ := foldl_putDir (wayTo x) l
      obtain ⟨hfm, hdm⟩ := foldl_putDir (wayTo x) m
      refine .ok ⟨h.left.makeDirs (makeDirs_eq_ok.mpr ⟨x, hx, (h.files x).trans hnone, rfl⟩),
        h.right.makeDirs (makeDirs_eq_ok.mpr ⟨x, hx, hnone, rfl⟩), fun y => ?_, fun y => ?_⟩
      · rw [MemoryLayer.file?, MemoryLayer.file?, hfl, hfm]
        exact h.files y
      · rw [Bool.eq_iff_iff, hdl, hdm, h.dirs]

theorem write (h : l.Alike m) (path : String) (data : Bytes) (mode : Nat) :
    SameResult Alike (l.write path data mode) (m.write path data mode) := by
  unfold MemoryLayer.write
  cases hr : resolve path with
  | error e => exact .error e
  | ok x =>
    change SameResult Alike
      (if l.hasDir x then _ else if !l.hasDir (Path.parent x) then _ else .ok (l.putFile x ⟨data, mode⟩))
      (if m.hasDir x then _ else if !m.hasDir (Path.parent x) then _ else .ok (m.putFile x ⟨data, mode⟩))
    rw [h.dirs, h.dirs]
    split
    · exact .error _
    · next hdir =>
      split
      · exact .error _
      · next hparent =>
        rw [Bool.not_eq_true, Bool.not_eq_false'] at hparent
        have hx := resolve_eq_ok hr
        have hl : l.write path data mode = .ok (l.putFile x ⟨data, mode⟩) :=
          write_eq_ok.mpr ⟨x, hx, h.dirs x ▸ hdir, (h.dirs _).trans hparent, rfl⟩
        have hm : m.write path data mode = .ok (m.putFile x ⟨data, mode⟩) :=
          write_eq_ok.mpr ⟨x, hx, hdir, hparent, rfl⟩
        refine .ok ⟨h.left.write hl, h.right.write hm, fun y => ?_, h.dirs⟩
        rw [file?_putFile, file?_putFile, h.files]

/-- What layers alike list of a directory are the same names. -/
theorem list (h : l.Alike m) (path : String) :
    SameResult (fun ns ns' => ∀ n, n ∈ ns.getD [] ↔ n ∈ ns'.getD [])
      (ifFound (l.list path)) (ifFound (m.list path)) := by
  cases hd : Path.clean path with
  | error e =>
    have hr : resolve path = .error (.escape e) := by
      unfold resolve
      rw [hd]
      rfl
    unfold MemoryLayer.list
    rw [hr]
    exact .error _
  | ok d =>
    obtain ⟨ns, hns, hsome, hmem⟩ := Layer.ifFound_list (l := .memory l) h.left hd
    obtain ⟨ns', hns', hsome', hmem'⟩ := Layer.ifFound_list (l := .memory m) h.right hd
    have hdir : ns.isSome ↔ ns'.isSome := by
      rw [hsome, hsome']
      show l.hasDir d ↔ m.hasDir d
      rw [h.dirs]
    change ifFound (l.list path) = .ok ns at hns
    change ifFound (m.list path) = .ok ns' at hns'
    rw [hns, hns']
    refine .ok fun n => ?_
    cases ns with
    | none =>
      cases ns' with
      | none => exact Iff.rfl
      | some xs' => cases hdir.mpr rfl
    | some xs =>
      cases ns' with
      | none => cases hdir.mp rfl
      | some xs' =>
        refine (hmem xs rfl n).trans (Iff.trans ?_ (hmem' xs' rfl n).symm)
        show (∃ x f, l.file? x = some f ∧ _) ↔ ∃ x f, m.file? x = some f ∧ _
        simp only [h.files]

end MemoryLayer.Alike

namespace Layer.Alike

variable {a b : Layer}

theorem read (h : a.Alike b) (path : String) : a.read path = b.read path := by
  cases h with
  | refl => rfl
  | memory h | readOnly h => exact h.read path

theorem mode? (h : a.Alike b) (path : String) : a.mode? path = b.mode? path := by
  cases h with
  | refl => rfl
  | memory h | readOnly h => exact h.mode? path

theorem isWritable (h : a.Alike b) : a.isWritable = b.isWritable := by
  cases h <;> rfl

/-- What layers alike list of a directory are the same names. -/
theorem list (h : a.Alike b) (path : String) :
    SameResult (fun ns ns' => ∀ n, n ∈ ns.getD [] ↔ n ∈ ns'.getD [])
      (ifFound (a.list path)) (ifFound (b.list path)) := by
  cases h with
  | refl => exact .refl (fun _ _ => Iff.rfl) _
  | @memory l m h | @readOnly l m h => exact h.list path

theorem makeDirs (h : a.Alike b) (path : String) (mode : Nat) :
    SameResult Alike (a.makeDirs path mode) (b.makeDirs path mode) := by
  cases h with
  | refl => exact .refl .refl _
  | memory h => exact (h.makeDirs path).map fun _ _ => .memory
  | readOnly h => exact .error _

theorem write (h : a.Alike b) (path : String) (data : Bytes) (mode : Nat) :
    SameResult Alike (a.write path data mode) (b.write path data mode) := by
  cases h with
  | refl => exact .refl .refl _
  | memory h => exact (h.write path data mode).map fun _ _ => .memory
  | readOnly h => exact .error _

end Layer.Alike

/-- The same layers up to the order of their contents. -/
inductive Layers.Alike : Layers → Layers → Prop
  | shared {a b : Layer} : a.Alike b → Alike (.shared a) (.shared b)
  | overlay {i j a b : Layer} : i.Alike j → a.Alike b → Alike (.overlay i a) (.overlay j b)

namespace Layers.Alike

theorem refl (l : Layers) : l.Alike l := by
  cases l with
  | shared l => exact .shared (.refl l)
  | overlay i o => exact .overlay (.refl i) (.refl o)

variable {l m : Layers}

theorem input (h : l.Alike m) : l.input.Alike m.input := by
  cases h with
  | shared h => exact h
  | overlay hi _ => exact hi

theorem output (h : l.Alike m) : l.output.Alike m.output := by
  cases h with
  | shared h => exact h
  | overlay _ ho => exact ho

theorem withOutput (h : l.Alike m) {a b : Layer} (ho : a.Alike b) :
    (l.withOutput a).Alike (m.withOutput b) := by
  cases h with
  | shared _ => exact .shared ho
  | overlay hi _ => exact .overlay hi ho

end Layers.Alike

/-! ## Packages at the same site -/

/-- What a package is made with and keeps for good, its layers excepted. -/
structure Site where
  modulePath : String
  directory : String
  settings : Settings
  formatter : Formatter
  isWritable : Bool

def Package.site (p : Package) : Site :=
  ⟨p.modulePath, p.directory, p.settings, p.formatter, p.layers.output.isWritable⟩

/-- Two packages at one site over layers alike, whatever they have loaded and
done before.  What the formatter answers depends on the run alone. -/
structure SameSite (w : Site) (p q : Package) : Prop where
  layers : p.layers.Alike q.layers
  left : p.site = w
  right : q.site = w
  steady : ∀ m n run, w.formatter m run = w.formatter n run

/-- Packages at one site that have loaded the same files. -/
structure SameFiles (w : Site) (p q : Package) : Prop extends SameSite w p q where
  files : p.files = q.files
  contents : p.contents = q.contents
  localName : p.localName = q.localName

namespace SameSite

variable {w : Site} {p q : Package}

theorem modulePath (h : SameSite w p q) : p.modulePath = q.modulePath :=
  congrArg Site.modulePath (h.left.trans h.right.symm)

theorem directory (h : SameSite w p q) : p.directory = q.directory :=
  congrArg Site.directory (h.left.trans h.right.symm)

theorem settings (h : SameSite w p q) : p.settings = q.settings :=
  congrArg Site.settings (h.left.trans h.right.symm)

/-- The answers to a run, however many runs came before. -/
theorem formatter (h : SameSite w p q) (m n : Nat) (run : FormatRun) :
    p.formatter m run = q.formatter n run := by
  have hp : p.formatter = w.formatter := congrArg Site.formatter h.left
  have hq : q.formatter = w.formatter := congrArg Site.formatter h.right
  rw [hp, hq]
  exact h.steady m n run

theorem path (h : SameSite w p q) (name : String) : p.path name = q.path name := by
  unfold Package.path
  rw [h.directory]

theorem read (h : SameSite w p q) (name : String) : p.read name = q.read name := by
  unfold Package.read
  simp only [h.path, h.layers.output.read, h.layers.input.read]

theorem fileMode (h : SameSite w p q) (x : String) : p.fileMode x = q.fileMode x := by
  unfold Package.fileMode
  rw [h.layers.output.mode?, h.layers.input.mode?]

theorem namesIn (h : SameSite w p q) {a b : Layer} (hl : a.Alike b) :
    SameResult (fun ns ns' => ∀ n, n ∈ ns ↔ n ∈ ns') (p.namesIn a) (q.namesIn b) := by
  unfold Package.namesIn
  rw [h.directory]
  revert hl
  generalize hx : ifFound (a.list q.directory) = x
  generalize hy : ifFound (b.list q.directory) = y
  intro hl
  have hl := hl.list q.directory
  rw [hx, hy] at hl
  cases hl with
  | error e => exact .error e
  | ok hmem =>
    refine .ok fun n => ?_
    rw [List.mem_filter, List.mem_filter, hmem]

theorem fileNames (h : SameSite w p q) : p.fileNames = q.fileNames := by
  unfold Package.fileNames
  have ho := h.namesIn h.layers.output
  have hi := h.namesIn h.layers.input
  revert ho hi
  generalize p.namesIn p.layers.output = x
  generalize q.namesIn q.layers.output = x'
  generalize p.namesIn p.layers.input = y
  generalize q.namesIn q.layers.input = y'
  intro ho hi
  cases ho with
  | error e => rfl
  | ok ho =>
    cases hi with
    | error e => rfl
    | @ok given given' hi =>
      refine congrArg Except.ok (sortedNames_congr fun n => ?_)
      rw [List.mem_append, List.mem_append, ho, hi]

theorem parseFiles (h : SameSite w p q) (names : List String) :
    p.parseFiles names = q.parseFiles names := by
  induction names with
  | nil => rfl
  | cons name names ih =>
    unfold Package.parseFiles
    rw [h.read, ih]

theorem deriveName (h : SameSite w p q) (names : List String) :
    p.deriveName names = q.deriveName names := by
  unfold Package.deriveName Package.nameOfPath
  rw [h.directory, h.modulePath]

end SameSite

/-! ## Outcomes that are the same -/

/-- The same result on both sides, and the packages behind it: at the same site
always, with the same files if nothing failed. -/
structure SameOutcome {α : Type} (w : Site) (x y : Except PatchError α × Package) : Prop where
  result : x.1 = y.1
  site : SameSite w x.2 y.2
  loaded : ∀ a, x.1 = .ok a → SameFiles w x.2 y.2

section SameOutcome

open Package

variable {α β : Type} {w : Site} {p q : Package}

theorem SameSite.error (h : SameSite w p q) (e : PatchError) :
    SameOutcome (α := α) w (.error e, p) (.error e, q) :=
  ⟨rfl, h, fun _ ha => nomatch ha⟩

theorem SameFiles.outcome (h : SameFiles w p q) (r : Except PatchError α) :
    SameOutcome w (r, p) (r, q) :=
  ⟨rfl, h.toSameSite, fun _ _ => h⟩

theorem SameOutcome.bind {x y : Operation α} {f g : α → Operation β} (h : SameOutcome w (x p) (y q))
    (hf : ∀ a p' q', SameFiles w p' q' → SameOutcome w (f a p') (g a q')) :
    SameOutcome w ((x >>= f) p) ((y >>= g) q) := by
  rw [bind_apply, bind_apply]
  revert h
  obtain ⟨r, p'⟩ := x p
  obtain ⟨s, q'⟩ := y q
  rintro ⟨hrs, hsite, hfiles⟩
  dsimp only at hrs hsite hfiles
  subst hrs
  cases r with
  | ok a => exact hf a p' q' (hfiles a rfl)
  | error e => exact hsite.error e

theorem SameSite.lift {r s : Except PatchError α} {f g : α → Operation β} (h : SameSite w p q)
    (hrs : r = s) (hf : ∀ a, r = .ok a → SameOutcome w (f a p) (g a q)) :
    SameOutcome w ((liftM r >>= f) p) ((liftM s >>= g) q) := by
  subst hrs
  cases r with
  | ok a => exact hf a rfl
  | error e => exact h.error e

theorem SameOutcome.get {f g : Package → Operation β} (h : SameOutcome w (f p p) (g q q)) :
    SameOutcome w ((MonadState.get >>= f) p) ((MonadState.get >>= g) q) := h

theorem SameOutcome.set {p' q' : Package} {x y : Unit → Operation β}
    (h : SameOutcome w (x () p') (y () q')) :
    SameOutcome w ((MonadStateOf.set p' >>= x) p) ((MonadStateOf.set q' >>= y) q) := h

theorem SameFiles.forM {f : β → Operation Unit}
    (hf : ∀ b p q, SameFiles w p q → SameOutcome w (f b p) (f b q)) (h : SameFiles w p q)
    (bs : List β) : SameOutcome w (bs.forM f p) (bs.forM f q) := by
  induction bs generalizing p q with
  | nil => exact h.outcome (.ok ())
  | cons b bs ih => exact (hf b p q h).bind fun _ _ _ h' => ih h'

end SameOutcome

/-! ## Loading and writing -/

section Operations

open Package

variable {w : Site} {p q : Package}

/-- Nothing that a package did before a load shows behind it. -/
theorem SameSite.load (h : SameSite w p q) : SameOutcome w (Package.load p) (Package.load q) := by
  refine .get (h.lift h.fileNames fun names _ => ?_)
  refine h.lift (h.parseFiles names) fun files _ => ?_
  have hset : SameSite w (p.withFiles files) (q.withFiles files) :=
    ⟨h.layers, h.left, h.right, h.steady⟩
  refine .set (hset.lift (hset.deriveName _) fun name _ => ?_)
  have hfiles : SameFiles w { p.withFiles files with localName := name }
      { q.withFiles files with localName := name } :=
    ⟨⟨h.layers, h.left, h.right, h.steady⟩, rfl, rfl, rfl⟩
  exact hfiles.outcome (.ok ())

theorem SameFiles.onto {a b : Layer} (h : SameFiles w p q) (hl : a.Alike b)
    (hw : a.isWritable = p.layers.output.isWritable) : SameFiles w (p.onto a) (q.onto b) := by
  have hsite : ∀ (r : Package) (c : Layer), c.isWritable = r.layers.output.isWritable →
      (r.onto c).site = r.site := by
    intro r c hc
    unfold Package.site Package.onto
    rw [Layers.output_withOutput, hc]
  refine ⟨⟨h.layers.withOutput hl, ?_, ?_, h.steady⟩, h.files, h.contents, h.localName⟩
  · exact (hsite p a hw).trans h.left
  · refine (hsite q b ?_).trans h.right
    rw [← hl.isWritable, hw, h.layers.output.isWritable]

/-- What holds of a function's values holds of a result that it maps. -/
theorem Except.forall_map {ε α β : Type} {f : α → β} {P : β → Prop} (hf : ∀ a, P (f a)) {x : Except ε α}
    {b : β} (h : f <$> x = .ok b) : P b := by
  cases x with
  | ok a =>
    cases h
    exact hf a
  | error e => cases h

theorem Layer.isWritable_makeDirs {l o : Layer} {path : String} {mode : Nat}
    (h : l.makeDirs path mode = .ok o) : o.isWritable = l.isWritable := by
  cases l with
  | memory l | disk l =>
    unfold Layer.makeDirs at h
    exact Except.forall_map (P := fun o => o.isWritable = true) (fun _ => rfl) h
  | readOnly l => cases h

theorem Layer.isWritable_write {l o : Layer} {path : String} {data : Bytes} {mode : Nat}
    (h : l.write path data mode = .ok o) : o.isWritable = l.isWritable := by
  cases l with
  | memory l | disk l =>
    unfold Layer.write at h
    exact Except.forall_map (P := fun o => o.isWritable = true) (fun _ => rfl) h
  | readOnly l => cases h

theorem SameFiles.write (h : SameFiles w p q) (name : String) (data : Bytes) :
    SameOutcome w (Package.write name data p) (Package.write name data q) := by
  cases hplain : hasDirectory name with
  | true =>
    unfold Package.write
    rw [if_pos hplain]
    exact h.error _
  | false =>
    cases hx : p.path name with
    | error e =>
      have hx' := (h.path name).symm.trans hx
      unfold Package.write
      rw [if_neg (by simp [hplain])]
      refine .get (h.lift (hx.trans hx'.symm) fun x hok => ?_)
      rw [hx] at hok
      cases hok
    | ok x =>
      rw [write_apply data hplain hx, write_apply data hplain ((h.path name).symm.trans hx), h.directory]
      have hdirs := h.layers.output.makeDirs q.directory defaultDirMode
      revert hdirs
      generalize hm : p.layers.output.makeDirs q.directory defaultDirMode = made
      generalize q.layers.output.makeDirs q.directory defaultDirMode = made'
      intro hdirs
      cases hdirs with
      | error e => exact h.error e
      | @ok a b hl =>
        have hmade := h.onto hl (Layer.isWritable_makeDirs hm)
        dsimp only
        rw [hmade.fileMode]
        cases (q.onto b).fileMode x with
        | error e => exact hmade.error e
        | ok mode =>
          have hwrite := hmade.layers.output.write x data mode
          revert hwrite
          dsimp only
          generalize hm' : (p.onto a).layers.output.write x data mode = done
          generalize (q.onto b).layers.output.write x data mode = done'
          intro hwrite
          cases hwrite with
          | error e => exact hmade.error e
          | @ok a' b' hl' =>
            have hdone := hmade.onto hl' (Layer.isWritable_write hm')
            have hwrote : SameFiles w (wrote ((p.onto a).onto a') name x data)
                (wrote ((q.onto b).onto b') name x data) :=
              ⟨⟨hdone.layers, hdone.left, hdone.right, hdone.steady⟩, hdone.files,
                congrArg (Entries.put name data) hdone.contents, hdone.localName⟩
            exact hwrote.outcome (.ok ())

/-! ## Transforms -/

theorem SameFiles.contentsOrNew (h : SameFiles w p q) (name : String) :
    p.contentsOrNew name = q.contentsOrNew name := by
  unfold Package.contentsOrNew Package.newFile
  rw [h.contents, h.localName]

theorem SameFiles.withImport (h : SameFiles w p q) (a : ImportAddition) :
    p.withImport a = q.withImport a := by
  unfold Package.withImport
  simp only [h.files, h.contentsOrNew]

theorem SameFiles.append (h : SameFiles w p q) (name text : String) :
    SameOutcome w (Package.append name text p) (Package.append name text q) := by
  rw [append_eq, append_eq, h.contentsOrNew]
  exact h.write name _

theorem SameFiles.remove (h : SameFiles w p q) (m : Match) :
    SameOutcome w (Package.remove m p) (Package.remove m q) := by
  rw [remove_eq, remove_eq, h.contentsOrNew]
  exact h.write _ _

theorem SameFiles.throwIf (h : SameFiles w p q) (e : Option PatchError) :
    SameOutcome w (Package.throwIf e p) (Package.throwIf e q) := by
  cases e with
  | some e => exact h.outcome (.error e)
  | none => exact h.outcome (.ok ())

theorem SameFiles.addDeclaration (h : SameFiles w p q) (a : Addition) :
    SameOutcome w (Package.addDeclaration a p) (Package.addDeclaration a q) := by
  unfold Package.addDeclaration
  refine .get ?_
  rw [h.files]
  cases q.files.findSubject? a.subject with
  | none => exact h.append a.filename a.text
  | some m =>
    refine (h.throwIf _).bind fun _ p1 q1 h1 => ?_
    split
    · refine (h1.throwIf _).bind fun _ p2 q2 h2 => ?_
      exact (h2.remove m).bind fun _ p3 q3 h3 => h3.append a.filename a.text
    · exact h1.outcome (.ok ())

theorem SameFiles.addImport (h : SameFiles w p q) (a : ImportAddition) :
    SameOutcome w (Package.addImport a p) (Package.addImport a q) := by
  rw [addImport_eq, addImport_eq, h.withImport]
  cases q.withImport a with
  | error e => exact h.error e
  | ok data => exact h.write a.filename data

theorem SameFiles.dedupImports (h : SameFiles w p q) (names : Option (List String)) :
    SameOutcome w (Package.dedupImports names p) (Package.dedupImports names q) := by
  unfold Package.dedupImports
  refine .get ?_
  have hselected : p.selected names = q.selected names := by
    unfold Package.selected
    rw [h.files]
  rw [hselected]
  refine h.forM (fun f r s hrs => ?_) _
  unfold dedupFile
  split
  · exact hrs.write f.filename _
  · exact hrs.outcome (.ok ())

/-- The formatter gives the same, however often it ran. -/
theorem SameFiles.runFormatter (h : SameFiles w p q) (name : String) (source : Bytes) :
    SameOutcome w (Package.runFormatter name source p) (Package.runFormatter name source q) := by
  unfold Package.runFormatter
  refine .get ?_
  rw [h.settings, h.formatter _ q.journal.runs.length]
  have hran : ∀ runs runs', SameFiles w { p with journal := { p.journal with runs := runs } }
      { q with journal := { q.journal with runs := runs' } } := fun _ _ =>
    ⟨⟨h.layers, h.left, h.right, h.steady⟩, h.files, h.contents, h.localName⟩
  exact (hran _ _).outcome _

theorem SameFiles.formatFile (h : SameFiles w p q) (name : String) :
    SameOutcome w (Package.formatFile name p) (Package.formatFile name q) := by
  unfold Package.formatFile
  refine .get ?_
  rw [h.contentsOrNew]
  refine (h.runFormatter name _).bind fun out r s hrs => ?_
  split
  · exact hrs.write name out
  · exact hrs.outcome (.ok ())

theorem SameFiles.format (h : SameFiles w p q) (names : Option (List String)) :
    SameOutcome w (Package.format names p) (Package.format names q) := by
  unfold Package.format
  refine .get ?_
  have hformatted : p.formatted names = q.formatted names := by
    unfold Package.formatted
    rw [h.contents]
  rw [hformatted]
  exact h.forM (fun name _ _ hrs => hrs.formatFile name) _

theorem SameSite.applyTransform (h : SameSite w p q) (t : Transform) :
    SameOutcome w (Package.applyTransform t p) (Package.applyTransform t q) := by
  refine h.load.bind fun _ r s hrs => ?_
  cases t with
  | addImport a => exact hrs.addImport a
  | add a => exact hrs.addDeclaration a
  | dedupImports names => exact hrs.dedupImports names
  | format names => exact hrs.format names

end Operations

/-! ## Batches -/

section Batches

open Package

variable {w : Site} {p q : Package}

/-- A transform whose errors tell its place in a batch. -/
def Package.applyAt (total index : Nat) (t : Transform) : Operation Unit :=
  tryCatch (applyTransform t) fun e => throw (located t index total e)

theorem applyFrom_cons (total index : Nat) (t : Transform) (ts : List Transform) :
    applyFrom total index (t :: ts) = applyAt total index t >>= fun _ => applyFrom total (index + 1) ts :=
  rfl

theorem SameSite.applyAt (h : SameSite w p q) (total index : Nat) (t : Transform) :
    SameOutcome w (Package.applyAt total index t p) (Package.applyAt total index t q) := by
  have hout := h.applyTransform t
  unfold Package.applyAt
  rw [tryCatch_apply, tryCatch_apply]
  revert hout
  obtain ⟨r, p'⟩ := Package.applyTransform t p
  obtain ⟨s, q'⟩ := Package.applyTransform t q
  rintro ⟨hrs, hsite, hfiles⟩
  dsimp only at hrs hsite hfiles
  subst hrs
  cases r with
  | ok a => exact (hfiles a rfl).outcome (.ok ())
  | error e => exact hsite.error _

/-- The same result on both sides, and layers alike behind it. -/
theorem SameSite.applyFrom (h : SameSite w p q) (total index : Nat) (ts : List Transform) :
    (Package.applyFrom total index ts p).1 = (Package.applyFrom total index ts q).1 ∧
      SameSite w (Package.applyFrom total index ts p).2 (Package.applyFrom total index ts q).2 := by
  induction ts generalizing p q index with
  | nil => exact ⟨rfl, h⟩
  | cons t ts ih =>
    have hout := h.applyAt total index t
    rw [applyFrom_cons, bind_apply, bind_apply]
    revert hout
    obtain ⟨r, p'⟩ := Package.applyAt total index t p
    obtain ⟨s, q'⟩ := Package.applyAt total index t q
    rintro ⟨hrs, hsite, -⟩
    dsimp only at hrs hsite
    subst hrs
    cases r with
    | ok a => exact ih hsite (index + 1)
    | error e => exact ⟨rfl, hsite⟩

theorem SameSite.applyTransforms (h : SameSite w p q) (ts : List Transform) :
    (Package.applyTransforms ts p).1 = (Package.applyTransforms ts q).1 ∧
      SameSite w (Package.applyTransforms ts p).2 (Package.applyTransforms ts q).2 :=
  h.applyFrom ts.length 0 ts

/-! ### Counting -/

/-- An error of a batch that is part of a longer one: `before` transforms came
first, and there are `total` of them. -/
def PatchError.countedIn (before total : Nat) : PatchError → PatchError
  | .transform kind filename index _ cause => .transform kind filename (index + before) total cause
  | e => e

theorem countedIn_located (before total : Nat) (t : Transform) (index total' : Nat) (e : PatchError) :
    (located t index total' e).countedIn before total = located t (index + before) total e := by
  unfold located
  cases hl : e.isLocated with
  | true => simp [PatchError.countedIn]
  | false =>
    cases e with
    | transform => cases hl
    | _ => rfl

/-- Where a batch stands in a longer one shows in its errors alone. -/
theorem applyFrom_counted (before total index total' : Nat) (ts : List Transform) (p : Package) :
    applyFrom total (index + before) ts p =
      ((applyFrom total' index ts p).1.mapError (·.countedIn before total),
        (applyFrom total' index ts p).2) := by
  induction ts generalizing index p with
  | nil => rfl
  | cons t ts ih =>
    rw [applyFrom_cons, applyFrom_cons, bind_apply, bind_apply]
    unfold Package.applyAt
    rw [tryCatch_apply, tryCatch_apply]
    obtain ⟨r, p'⟩ := applyTransform t p
    cases r with
    | ok a =>
      have ih := ih (index + 1) p'
      rw [Nat.add_right_comm] at ih
      exact ih
    | error e =>
      show (Except.error (located t (index + before) total e), p') =
        (Except.error ((located t index total' e).countedIn before total), p')
      rw [countedIn_located]

theorem applyFrom_append (total index : Nat) (ts us : List Transform) (p : Package) :
    applyFrom total index (ts ++ us) p = match applyFrom total index ts p with
      | (.ok (), r) => applyFrom total (index + ts.length) us r
      | (.error e, r) => (.error e, r) := by
  induction ts generalizing index p with
  | nil => rfl
  | cons t ts ih =>
    rw [List.cons_append, applyFrom_cons, applyFrom_cons, bind_apply, bind_apply]
    obtain ⟨r, p'⟩ := Package.applyAt total index t p
    cases r with
    | ok a =>
      dsimp only
      rw [ih, List.length_cons, Nat.add_assoc, Nat.add_comm 1]
    | error e => rfl

/-! ### Batches that succeed -/

/-- Where the counting begins matters only to the errors. -/
theorem applyFrom_eq_ok {total index : Nat} {ts : List Transform} :
    Package.applyFrom total index ts p = (.ok (), q) ↔ Package.applyTransforms ts p = (.ok (), q) := by
  have hcounted := applyFrom_counted index total 0 ts.length ts p
  rw [Nat.zero_add] at hcounted
  unfold Package.applyTransforms
  rw [hcounted]
  obtain ⟨result, r⟩ := Package.applyFrom ts.length 0 ts p
  cases result with
  | ok a => rfl
  | error e =>
    constructor <;>
    · intro h
      cases h

/-- A batch succeeds with its first transforms and then with the others. -/
theorem applyTransforms_append_eq_ok {ts us : List Transform} {r : Package} :
    Package.applyTransforms (ts ++ us) p = (.ok (), r) ↔
      ∃ q, Package.applyTransforms ts p = (.ok (), q) ∧ Package.applyTransforms us q = (.ok (), r) := by
  unfold Package.applyTransforms
  rw [applyFrom_append]
  cases hts : Package.applyFrom (ts ++ us).length 0 ts p with
  | mk result q =>
    cases result with
    | ok a =>
      have hfirst := applyFrom_eq_ok.mp hts
      dsimp only
      rw [applyFrom_eq_ok]
      refine ⟨fun h => ⟨q, hfirst, h⟩, fun ⟨q', hq', h⟩ => ?_⟩
      rw [show applyFrom ts.length 0 ts p = _ from hfirst] at hq'
      cases hq'
      exact h
    | error e =>
      refine ⟨fun h => ?_, fun ⟨q', hq', h⟩ => ?_⟩
      · cases h
      · rw [applyFrom_eq_ok.mpr hq'] at hts
        cases hts

theorem applyTransforms_singleton_eq_ok {t : Transform} :
    Package.applyTransforms [t] p = (.ok (), q) ↔ Package.applyTransform t p = (.ok (), q) := by
  show (Package.applyAt 1 0 t >>= fun _ => pure ()) p = _ ↔ _
  unfold Package.applyAt
  rw [bind_apply, tryCatch_apply]
  obtain ⟨result, r⟩ := Package.applyTransform t p
  cases result with
  | ok a => rfl
  | error e =>
    constructor <;>
    · intro h
      cases h

theorem applyTransforms_cons_eq_ok {t : Transform} {ts : List Transform} {r : Package} :
    Package.applyTransforms (t :: ts) p = (.ok (), r) ↔
      ∃ q, Package.applyTransform t p = (.ok (), q) ∧ Package.applyTransforms ts q = (.ok (), r) := by
  rw [← List.singleton_append, applyTransforms_append_eq_ok]
  simp only [applyTransforms_singleton_eq_ok]

/-! ### Composition -/

/-- A package as `create` makes it and operations leave it. -/
structure Package.IsMade (p : Package) : Prop where
  output : p.layers.output.isWritable
  directory : Path.clean p.directory = .ok p.directory

theorem isMade_of_create {layers : Layers} {modulePath directory : String} {settings : Settings}
    {formatter : Formatter} (h : create layers modulePath directory settings formatter = .ok p) :
    p.IsMade := by
  obtain ⟨hw, d, hd, rfl⟩ := create_eq_ok h
  exact ⟨hw, IsLayerPath.clean (Path.clean_eq_ok hd)⟩

/-- A new package over the layers of another is at its site. -/
theorem Package.IsMade.exists_create (hp : p.IsMade) :
    ∃ n, create p.layers p.modulePath p.directory p.settings p.formatter = .ok n ∧
      n.layers = p.layers ∧ n.site = p.site := by
  refine ⟨⟨p.layers, p.modulePath, p.directory, p.settings, p.formatter, [], [], "", ⟨[], []⟩⟩, ?_,
    rfl, rfl⟩
  unfold Package.create
  rw [if_neg (by simp [hp.output])]
  show ((Path.clean p.directory).mapError PatchError.escape >>= _) = _
  rw [hp.directory]
  rfl

theorem Package.IsMade.of_site (hp : p.IsMade) (h : q.site = p.site) : q.IsMade := by
  have hd : q.directory = p.directory := congrArg Site.directory h
  refine ⟨(congrArg Site.isWritable h).trans hp.output, ?_⟩
  rw [hd]
  exact hp.directory

/-- The rest of a batch runs as it would on a new package. -/
theorem SameSite.applyFrom_created (h : SameSite w p p) (hp : p.IsMade) (before total : Nat)
    (us : List Transform) :
    ∃ n, create p.layers w.modulePath w.directory w.settings w.formatter = .ok n ∧
      (Package.applyFrom total before us p).1 =
        (Package.applyTransforms us n).1.mapError (·.countedIn before total) ∧
      (Package.applyFrom total before us p).2.layers.Alike (Package.applyTransforms us n).2.layers := by
  obtain ⟨n, hn, hlayers, hsite⟩ := hp.exists_create
  have hpn : SameSite w p n := ⟨hlayers ▸ .refl _, h.left, hsite.trans h.left, h.steady⟩
  obtain ⟨hresult, hend⟩ := hpn.applyTransforms us
  have hcounted := applyFrom_counted before total 0 us.length us p
  rw [Nat.zero_add] at hcounted
  refine ⟨n, h.left ▸ hn, ?_, ?_⟩
  · rw [hcounted]
    exact congrArg (Except.mapError (·.countedIn before total)) hresult
  · rw [hcounted]
    exact hend.layers

/-- A batch ends the same on packages at one site, whatever they did before; and
a batch of two parts is its first part and then, on a new package over the layers
that this leaves, its second: an error of either part is that of the whole, its
place counted from the start of the whole. -/
theorem batches_compose (hpq : SameSite w p q) (hp : p.IsMade) :
    (∀ ts, (applyTransforms ts p).1 = (applyTransforms ts q).1 ∧
      (applyTransforms ts p).2.layers.Alike (applyTransforms ts q).2.layers) ∧
    ∀ ts us,
      (∀ e r, applyTransforms ts p = (.error e, r) →
        applyTransforms (ts ++ us) p = (.error (e.countedIn 0 (ts ++ us).length), r)) ∧
      ∀ r, applyTransforms ts p = (.ok (), r) →
        ∃ n, create r.layers w.modulePath w.directory w.settings w.formatter = .ok n ∧
          (applyTransforms (ts ++ us) p).1 =
            (applyTransforms us n).1.mapError (·.countedIn ts.length (ts ++ us).length) ∧
          (applyTransforms (ts ++ us) p).2.layers.Alike (applyTransforms us n).2.layers := by
  refine ⟨fun ts => ?_, fun ts us => ?_⟩
  · obtain ⟨hresult, hsite⟩ := hpq.applyTransforms ts
    exact ⟨hresult, hsite.layers⟩
  · have hself : SameSite w p p := ⟨.refl _, hpq.left, hpq.left, hpq.steady⟩
    have hsite := (hself.applyTransforms ts).2
    have hcounted := applyFrom_counted 0 (ts ++ us).length 0 ts.length ts p
    have hwhole := applyFrom_append (ts ++ us).length 0 ts us p
    rw [Nat.add_zero] at hcounted
    rw [hcounted] at hwhole
    constructor
    · intro e r h
      change applyFrom ts.length 0 ts p = _ at h
      rw [h] at hwhole
      exact hwhole
    · intro r h
      rw [h] at hsite
      have hr : r.IsMade := hp.of_site (hsite.left.trans hpq.left.symm)
      obtain ⟨n, hn, hresult, hlayers⟩ := hsite.applyFrom_created hr ts.length (ts ++ us).length us
      change applyFrom ts.length 0 ts p = _ at h
      rw [h, Nat.zero_add] at hwhole
      change applyTransforms (ts ++ us) p = applyFrom (ts ++ us).length ts.length us r at hwhole
      rw [hwhole]
      exact ⟨n, hn, hresult, hlayers⟩

/-- A layer in which two source files were written, one after the other. -/
def twoFiles (first second : String) : MemoryLayer :=
  let file : StoredFile := ⟨bytesOf "package d\n", defaultFileMode⟩
  ⟨[(first, file), (second, file)], [".", "d"]⟩

theorem twoFiles_alike : (twoFiles "d/a.go" "d/b.go").Alike (twoFiles "d/b.go" "d/a.go") := by
  have hbuilt (l m : MemoryLayer) (n : String)
      (h : m.write n (bytesOf "package d\n") defaultFileMode = .ok l) (hm : m.Built) : l.Built := .write hm h
  have hdir : MemoryLayer.Built ⟨[], [".", "d"]⟩ :=
    .makeDirs .empty (rfl : MemoryLayer.empty.makeDirs "d" = .ok _)
  refine ⟨?_, ?_, fun x => ?_, fun x => rfl⟩
  · exact hbuilt _ _ "d/b.go" rfl (hbuilt _ ⟨[], [".", "d"]⟩ "d/a.go" rfl hdir)
  · exact hbuilt _ _ "d/a.go" rfl (hbuilt _ ⟨[], [".", "d"]⟩ "d/b.go" rfl hdir)
  · unfold MemoryLayer.file? twoFiles
    rw [Entries.lookup_cons, Entries.lookup_cons, Entries.lookup_cons, Entries.lookup_cons]
    split
    · next ha => rw [ha]; rfl
    · rfl

/-- A package over that layer, with contents that it loaded or wrote before. -/
def ofTwoFiles (first second : String) (contents : List (String × Bytes)) : Package :=
  ⟨.shared (.memory (twoFiles first second)), "m", "d", .standard, fun _ _ => .missing, [], contents,
    "old", ⟨[], []⟩⟩

theorem ofTwoFiles_compose : ∃ w p q, SameSite w p q ∧ p.IsMade ∧ p.layers ≠ q.layers ∧
    p.contents ≠ q.contents ∧
    (∀ ts, (applyTransforms ts p).1 = (applyTransforms ts q).1 ∧
      (applyTransforms ts p).2.layers.Alike (applyTransforms ts q).2.layers) ∧
    ∀ ts us,
      (∀ e r, applyTransforms ts p = (.error e, r) →
        applyTransforms (ts ++ us) p = (.error (e.countedIn 0 (ts ++ us).length), r)) ∧
      ∀ r, applyTransforms ts p = (.ok (), r) →
        ∃ n, create r.layers w.modulePath w.directory w.settings w.formatter = .ok n ∧
          (applyTransforms (ts ++ us) p).1 =
            (applyTransforms us n).1.mapError (·.countedIn ts.length (ts ++ us).length) ∧
          (applyTransforms (ts ++ us) p).2.layers.Alike (applyTransforms us n).2.layers := by
  have hsite : SameSite (ofTwoFiles "" "" []).site (ofTwoFiles "d/a.go" "d/b.go" [])
      (ofTwoFiles "d/b.go" "d/a.go" [("c.go", bytesOf "package c\n")]) :=
    ⟨.shared (.memory twoFiles_alike), rfl, rfl, fun _ _ _ => rfl⟩
  have hmade : (ofTwoFiles "d/a.go" "d/b.go" []).IsMade := ⟨rfl, rfl⟩
  refine ⟨_, _, _, hsite, hmade, ?_, by simp [ofTwoFiles], batches_compose hsite hmade⟩
  simp [ofTwoFiles, twoFiles]

end Batches

end GoSplice
