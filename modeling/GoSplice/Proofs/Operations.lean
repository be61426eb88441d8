import GoSplice.Package.Edit
import GoSplice.Proofs.LayerFiles
import GoSplice.Proofs.Ranges

/-!
# Runs of operations

An operation takes a package to a result and the package behind it.  These are
the equations for its parts, and what reading a layer gives:

    (x >>= f) p = (ok b, r) ↔ ∃ a q, x p = (ok a, q) ∧ f a q = (ok b, r)   (bind_eq_ok)
    (liftM r >>= f) p = (ok b, q) ↔ ∃ a, r = ok a ∧ f a p = (ok b, q)      (lift_bind_eq_ok)
-/

namespace GoSplice

/-! ## Parts of operations -/

namespace Package

section Parts

variable {α β : Type}

theorem bind_apply (x : Operation α) (f : α → Operation β) (p : Package) :
    (x >>= f) p = match x p with
      | (.ok a, q) => f a q
      | (.error e, q) => (.error e, q) := by
  show (ExceptT.bind x f) p = _
  unfold ExceptT.bind ExceptT.mk
  show (StateT.bind x _) p = _
  unfold StateT.bind
  cases x p with
  | mk r q => cases r <;> rfl

theorem bind_eq_ok {x : Operation α} {f : α → Operation β} {p r : Package} {b : β} :
    (x >>= f) p = (.ok b, r) ↔ ∃ a q, x p = (.ok a, q) ∧ f a q = (.ok b, r) := by
  rw [bind_apply]
  cases hx : x p with
  | mk a q =>
    cases a with
    | ok a =>
      constructor
      · intro h
        exact ⟨a, q, rfl, h⟩
      · rintro ⟨a', q', he, h⟩
        cases he
        exact h
    | error e =>
      constructor
      · intro h
        cases h
      · rintro ⟨a', q', he, -⟩
        cases he

theorem bind_eq_error {x : Operation α} {f : α → Operation β} {p r : Package} {e : PatchError} :
    (x >>= f) p = (.error e, r) ↔ x p = (.error e, r) ∨ ∃ a q, x p = (.ok a, q) ∧ f a q = (.error e, r) := by
  rw [bind_apply]
  obtain ⟨y, q⟩ := x p
  cases y with
  | ok a =>
    constructor
    · exact fun h => .inr ⟨a, q, rfl, h⟩
    · rintro (h | ⟨a', q', he, h⟩)
      · cases h
      · cases he
        exact h
  | error e' =>
    constructor
    · intro h
      cases h
      exact .inl rfl
    · rintro (h | ⟨a', q', he, -⟩)
      · cases h
        rfl
      · cases he

theorem get_apply (p : Package) : (get : Operation Package) p = (.ok p, p) := rfl

theorem lift_apply (r : Except PatchError α) (p : Package) : (liftM r : Operation α) p = (r, p) := rfl

theorem modify_apply (f : Package → Package) (p : Package) :
    (modify f : Operation Unit) p = (.ok (), f p) := rfl

theorem tryCatch_apply (x : Operation α) (f : PatchError → Operation α) (p : Package) :
    (tryCatch x f : Operation α) p = match x p with
      | (.ok a, q) => (.ok a, q)
      | (.error e, q) => f e q := by
  show (ExceptT.tryCatch x f) p = _
  unfold ExceptT.tryCatch ExceptT.mk
  show (StateT.bind x _) p = _
  unfold StateT.bind
  cases x p with
  | mk r q => cases r <;> rfl

theorem lift_bind_eq_ok {r : Except PatchError α} {f : α → Operation β} {p q : Package} {b : β} :
    (liftM r >>= f) p = (.ok b, q) ↔ ∃ a, r = .ok a ∧ f a p = (.ok b, q) := by
  rw [bind_eq_ok]
  constructor
  · rintro ⟨a, p', he, h⟩
    rw [lift_apply, Prod.mk.injEq] at he
    obtain ⟨rfl, rfl⟩ := he
    exact ⟨a, rfl, h⟩
  · rintro ⟨a, rfl, h⟩
    exact ⟨a, p, rfl, h⟩

theorem lift_bind_of_ok {r : Except PatchError α} {a : α} (h : r = .ok a) (f : α → Operation β)
    (p : Package) : (liftM r >>= f) p = f a p := by
  subst h
  rfl

theorem lift_bind_of_error {r : Except PatchError α} {e : PatchError} (h : r = .error e)
    (f : α → Operation β) (p : Package) : (liftM r >>= f) p = (.error e, p) := by
  subst h
  rfl

/-- Second parts that do the same where the first part ends do the same behind it. -/
theorem bind_congr_of_ok {x : Operation α} {f g : α → Operation β} {p : Package}
    (h : ∀ a q, x p = (.ok a, q) → f a q = g a q) : (x >>= f) p = (x >>= g) p := by
  rw [bind_apply, bind_apply]
  cases hx : x p with
  | mk r q =>
    cases r with
    | ok a => exact h a q hx
    | error e => rfl

/-- What holds behind the first part of an operation, and is kept by the second, holds behind both. -/
theorem holds_bind {P : Package → Prop} {x : Operation α} {f : α → Operation β} {p : Package}
    (hx : P (x p).2) (hf : ∀ a q, x p = (.ok a, q) → P q → P (f a q).2) : P ((x >>= f) p).2 := by
  rw [bind_apply]
  cases h : x p with
  | mk r q =>
    rw [h] at hx
    cases r with
    | ok a => exact hf a q h hx
    | error e => exact hx

/-- What every step of a loop keeps holds behind the loop. -/
theorem holds_forM {P : Package → Prop} {f : α → Operation Unit} {as : List α}
    (hf : ∀ a ∈ as, ∀ q, P q → P (f a q).2) {p : Package} (hp : P p) : P (as.forM f p).2 := by
  induction as generalizing p with
  | nil => exact hp
  | cons a as ih =>
    obtain ⟨ha, has⟩ := List.forall_mem_cons.mp hf
    exact holds_bind (ha p hp) fun _ q _ hq => ih has hq

/-- An operation that succeeds, as far as can be computed. -/
theorem eq_ok_of_isOk {x : Operation Unit} {p : Package} (h : (x p).1.isOk) :
    x p = (.ok (), (x p).2) := by
  cases hx : x p with
  | mk r q =>
    rw [hx] at h
    cases r with
    | ok u => rfl
    | error e => cases h

theorem eq_ok_of_toOption {x : Except PatchError α} {a : α} (h : x.toOption = some a) : x = .ok a := by
  cases x with
  | ok b => exact congrArg _ (Option.some.inj h)
  | error e => cases h

end Parts

end Package

/-! ## Files of a package -/

/-- The file that a layer in memory has at a layer path. -/
def Layer.file? : Layer → String → Option StoredFile
  | .memory l, x | .readOnly l, x => l.file? x
  | .disk _, _ => none

/-- The file that is seen at a layer path: that of the output layer, if there is one. -/
def Layers.file? (l : Layers) (x : String) : Option StoredFile :=
  (l.output.file? x).or (l.input.file? x)

/-- A layer in memory that was built by writing to it. -/
def Layer.IsBuilt : Layer → Prop
  | .memory l | .readOnly l => l.Built
  | .disk _ => False

namespace Layers

@[simp] theorem output_withOutput (l : Layers) (o : Layer) : (l.withOutput o).output = o := by
  cases l <;> rfl

@[simp] theorem withOutput_withOutput (l : Layers) (o o' : Layer) :
    (l.withOutput o).withOutput o' = l.withOutput o' := by
  cases l <;> rfl

/-- What is seen follows from what the output layer holds. -/
theorem file?_withOutput {l : Layers} {o : Layer} {y : String}
    (h : o.file? y = l.output.file? y) : (l.withOutput o).file? y = l.file? y := by
  cases l with
  | shared l =>
    change o.file? y = l.file? y at h
    show (o.file? y).or (o.file? y) = (l.file? y).or (l.file? y)
    rw [h]
  | overlay i o' =>
    change o.file? y = o'.file? y at h
    show (o.file? y).or (i.file? y) = (o'.file? y).or (i.file? y)
    rw [h]

theorem file?_withOutput_some {l : Layers} {o : Layer} {y : String} {f : StoredFile}
    (h : o.file? y = some f) : (l.withOutput o).file? y = some f := by
  unfold file?
  rw [output_withOutput, h, Option.some_or]

end Layers

namespace Package

/-- A package over layers in memory, as `create` makes it and operations leave it. -/
structure InMemory (p : Package) : Prop where
  input : p.layers.input.IsBuilt
  output : ∃ l, p.layers.output = .memory l ∧ l.Built
  directory : IsLayerPath p.directory

end Package

/-! ## Reading layers -/

namespace Layer

theorem mode?_layerPath {l : Layer} {x : String} (hl : l.IsBuilt) (hx : IsLayerPath x) :
    l.mode? x = .ok ((l.file? x).map (·.mode)) := by
  cases l with
  | memory l | readOnly l =>
    show l.mode? x = _
    unfold MemoryLayer.mode?
    rw [MemoryLayer.resolve_layerPath hx]
    rfl
  | disk l => exact hl.elim

theorem memory_read {l : MemoryLayer} {x : String} (hx : IsLayerPath x) :
    l.read x = (l.file? x).elim (MemoryLayer.fail .notFound x) (.ok ·.data) := by
  unfold MemoryLayer.read
  rw [MemoryLayer.resolve_layerPath hx]
  simp only [bind, Except.bind]
  cases l.file? x <;> rfl

theorem ifFound_read {l : Layer} {x : String} (hl : l.IsBuilt) (hx : IsLayerPath x) :
    ifFound (l.read x) = .ok ((l.file? x).map (·.data)) := by
  cases l with
  | memory l | readOnly l =>
    show ifFound (l.read x) = .ok ((l.file? x).map (·.data))
    rw [memory_read hx]
    cases l.file? x <;> rfl
  | disk l => exact hl.elim

theorem read_of_file? {l : Layer} {x : String} {f : StoredFile} (hl : l.IsBuilt) (hx : IsLayerPath x)
    (hf : l.file? x = some f) : l.read x = .ok f.data := by
  have h := ifFound_read hl hx
  rw [hf] at h
  unfold ifFound at h
  split at h
  · next bs hbs =>
    cases h
    exact hbs
  · split at h <;> cases h

theorem read_of_none {l : Layer} {x : String} (hl : l.IsBuilt) (hx : IsLayerPath x)
    (hf : l.file? x = none) : l.read x = MemoryLayer.fail .notFound x := by
  cases l with
  | memory l | readOnly l =>
    show l.read x = _
    rw [memory_read hx, show l.file? x = none from hf]
    rfl
  | disk l => exact hl.elim

/-- The directories of a layer in memory. -/
def hasDir : Layer → String → Bool
  | .memory l, x | .readOnly l, x => l.hasDir x
  | .disk _, _ => false

/-- What a layer lists of a directory are the names of its files there. -/
theorem ifFound_list {l : Layer} {path d : String} (hl : l.IsBuilt) (hd : Path.clean path = .ok d) :
    ∃ names, ifFound (l.list path) = .ok names ∧ (names.isSome ↔ l.hasDir d) ∧
      ∀ ns ∈ names, ∀ n, n ∈ ns ↔ ∃ x f, l.file? x = some f ∧ Path.parent x = d ∧
        Path.baseName x = n := by
  have hmem : ∀ (m : MemoryLayer) (n : String),
      n ∈ ((m.files.filter fun e => Path.parent e.1 = d).map fun e => Path.baseName e.1).mergeSort (fun a b => a ≤ b) ↔
      ∃ x f, m.file? x = some f ∧ Path.parent x = d ∧ Path.baseName x = n := by
    intro m n
    rw [List.mem_mergeSort, List.mem_map]
    constructor
    · rintro ⟨⟨x, f⟩, hmem, rfl⟩
      rw [List.mem_filter, decide_eq_true_eq] at hmem
      obtain ⟨f', hf'⟩ := Entries.exists_lookup_of_mem hmem.1
      exact ⟨x, f', hf', hmem.2, rfl⟩
    · rintro ⟨x, f, hf, hp, rfl⟩
      exact ⟨(x, f), List.mem_filter.mpr ⟨Entries.mem_of_lookup hf, by simpa using hp⟩, rfl⟩
  cases l with
  | memory l | readOnly l =>
    show ∃ names, ifFound (l.list path) = .ok names ∧ (names.isSome ↔ l.hasDir d) ∧ _
    unfold MemoryLayer.list
    rw [MemoryLayer.resolve_of_clean hd]
    show ∃ names, ifFound (if l.hasDir d then Except.ok _ else MemoryLayer.fail .notFound path) =
      .ok names ∧ _
    cases hdir : l.hasDir d with
    | true =>
      refine ⟨_, rfl, by simp, ?_⟩
      intro ns hns n
      rw [Option.mem_some_iff] at hns
      subst hns
      exact hmem l n
    | false =>
      refine ⟨none, rfl, by simp, ?_⟩
      intro ns hns
      cases hns
  | disk l => exact hl.elim

/-! ## Writing layers -/

theorem makeDirs_memory (m : MemoryLayer) (path : String) (mode : Nat) :
    (Layer.memory m).makeDirs path mode = Layer.memory <$> m.makeDirs path := rfl

theorem write_memory (m : MemoryLayer) (path : String) (data : Bytes) (mode : Nat) :
    (Layer.memory m).write path data mode = Layer.memory <$> m.write path data mode := rfl

theorem memory_makeDirs {m : MemoryLayer} {path : String} {mode : Nat} {o : Layer}
    (h : (Layer.memory m).makeDirs path mode = .ok o) :
    ∃ m', m.makeDirs path = .ok m' ∧ o = .memory m' := by
  rw [makeDirs_memory] at h
  cases hm : m.makeDirs path with
  | error e => rw [hm] at h; cases h
  | ok m' =>
    rw [hm] at h
    cases h
    exact ⟨m', rfl, rfl⟩

theorem memory_write {m : MemoryLayer} {path : String} {data : Bytes} {mode : Nat} {o : Layer}
    (h : (Layer.memory m).write path data mode = .ok o) :
    ∃ m', m.write path data mode = .ok m' ∧ o = .memory m' := by
  rw [write_memory] at h
  cases hm : m.write path data mode with
  | error e => rw [hm] at h; cases h
  | ok m' =>
    rw [hm] at h
    cases h
    exact ⟨m', rfl, rfl⟩

theorem sound_of_isBuilt {l : Layer} (hl : l.IsBuilt) :
    (∀ x f, l.file? x = some f → IsLayerPath x ∧ x ≠ ".") ∧
      (∀ x f, l.file? x = some f → l.hasDir (Path.parent x)) ∧ l.hasDir "." := by
  cases l with
  | memory l | readOnly l => exact ⟨hl.sound.path, hl.sound.parent, hl.sound.root⟩
  | disk l => exact hl.elim

end Layer

end GoSplice
