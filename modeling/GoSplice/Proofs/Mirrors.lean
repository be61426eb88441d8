import GoSplice.Proofs.PackageNames
import GoSplice.Proofs.Writing

/-!
# One layer and two

A package whose layer is both input and output, and one whose output layer is
laid over the same input: as long as both show the same files, operations give
the same results and keep it so, unless the one layer refuses a write that the
output layer alone would take.

    Mirrors i p q → p.read name = q.read name                         (Mirrors.read)
    Mirrors i p q → Agree … i (load p) (load q)                       (Mirrors.load)
    Mirrors i p q → Agree … i (write n d p) (write n d q)             (Mirrors.write)
-/

namespace GoSplice

/-! ## Layers that show the same files -/

/-- A layer `a` that shows what `o` laid over `i` shows. -/
structure Overlays (i a o : MemoryLayer) : Prop where
  input : i.Built
  single : a.Built
  output : o.Built
  files : ∀ x, a.file? x = (o.file? x).or (i.file? x)
  dirs : ∀ x, a.hasDir x ↔ o.hasDir x ∨ i.hasDir x
  nonempty : ∀ x f, o.file? x = some f → f.data ≠ []

namespace Overlays

variable {i a o a' : MemoryLayer}

theorem refl (hi : i.Built) : Overlays i i .empty := by
  refine ⟨hi, hi, .empty, fun x => rfl, fun x => ?_, fun x f h => by cases h⟩
  constructor
  · exact Or.inr
  · rintro (h | h)
    · have hx : x = "." := by simpa [MemoryLayer.hasDir, MemoryLayer.empty] using h
      rw [hx]
      exact hi.sound.root
    · exact h

theorem makeDirs (h : Overlays i a o) {d : String} (ha : a.makeDirs d = .ok a') :
    ∃ o', o.makeDirs d = .ok o' ∧ Overlays i a' o' := by
  obtain ⟨x, hx, hnone, rfl⟩ := MemoryLayer.makeDirs_eq_ok.mp ha
  have honone : o.file? x = none := by
    have hf := h.files x
    rw [hnone] at hf
    exact (Option.or_eq_none_iff.mp hf.symm).1
  have ho := MemoryLayer.makeDirs_eq_ok.mpr ⟨x, hx, honone, rfl⟩
  obtain ⟨hfa, hda⟩ := MemoryLayer.foldl_putDir (MemoryLayer.wayTo x) a
  obtain ⟨hfo, hdo⟩ := MemoryLayer.foldl_putDir (MemoryLayer.wayTo x) o
  refine ⟨_, ho, h.input, h.single.makeDirs ha, h.output.makeDirs ho, fun y => ?_, fun y => ?_, ?_⟩
  · unfold MemoryLayer.file?
    rw [hfa, hfo]
    exact h.files y
  · rw [hda, hdo, h.dirs, or_right_comm]
  · intro y f hy
    unfold MemoryLayer.file? at hy
    rw [hfo] at hy
    exact h.nonempty y f hy

theorem write (h : Overlays i a o) {path x : String} {data : Bytes} {mode : Nat}
    (hx : Path.clean path = .ok x) (hparent : o.hasDir (Path.parent x)) (hdata : data ≠ [])
    (ha : a.write path data mode = .ok a') :
    ∃ o', o.write path data mode = .ok o' ∧ Overlays i a' o' := by
  obtain ⟨y, hy, hdir, -, rfl⟩ := MemoryLayer.write_eq_ok.mp ha
  rw [hx, Except.ok.injEq] at hy
  subst hy
  have hodir : ¬ o.hasDir x := fun ho => hdir ((h.dirs x).mpr (Or.inl ho))
  have ho : o.write path data mode = .ok (o.putFile x ⟨data, mode⟩) :=
    MemoryLayer.write_eq_ok.mpr ⟨x, hx, hodir, hparent, rfl⟩
  refine ⟨_, ho, h.input, h.single.write ha, h.output.write ho, fun y => ?_, h.dirs, ?_⟩
  · rw [MemoryLayer.file?_putFile, MemoryLayer.file?_putFile]
    split
    · rfl
    · exact h.files y
  · intro y f hy
    rw [MemoryLayer.file?_putFile] at hy
    split at hy
    · cases hy
      exact hdata
    · exact h.nonempty y f hy

end Overlays

/-! ## Packages that show the same files -/

/-- A package over the layer `a` and one over `o` laid over `i` that show the same files. -/
structure Mirror (i a o : MemoryLayer) (p q : Package) : Prop where
  single : p.layers = .shared (.memory a)
  double : q.layers = .overlay (.memory i) (.memory o)
  rest : q = { p with layers := q.layers }
  directory : IsLayerPath p.directory
  overlays : Overlays i a o

def Mirrors (i : MemoryLayer) (p q : Package) : Prop := ∃ a o, Mirror i a o p q

theorem Mirror.output {i a o : MemoryLayer} {p q : Package} (h : Mirror i a o p q) :
    p.layers.output = .memory a ∧ q.layers.output = .memory o := by
  rw [h.single, h.double]
  exact ⟨rfl, rfl⟩

/-- Other output layers that show the same files. -/
theorem Mirror.onto {i a o a' o' : MemoryLayer} {p q : Package} (h : Mirror i a o p q)
    (h' : Overlays i a' o') : Mirror i a' o' (p.onto (.memory a')) (q.onto (.memory o')) := by
  unfold Package.onto
  rw [h.single, h.double]
  refine ⟨rfl, rfl, ?_, h.directory, h'⟩
  conv => lhs; rw [h.rest]

namespace Mirrors

variable {i : MemoryLayer} {p q : Package}

theorem inMemory (h : Mirrors i p q) : p.InMemory ∧ q.InMemory := by
  obtain ⟨a, o, h⟩ := h
  have hd : q.directory = p.directory := by rw [h.rest]
  refine ⟨⟨?_, ⟨a, ?_, h.overlays.single⟩, h.directory⟩, ⟨?_, ⟨o, ?_, h.overlays.output⟩, hd ▸ h.directory⟩⟩
  · rw [h.single]
    exact h.overlays.single
  · rw [h.single]
    rfl
  · rw [h.double]
    exact h.overlays.input
  · rw [h.double]
    rfl

theorem file? (h : Mirrors i p q) (x : String) : p.layers.file? x = q.layers.file? x := by
  obtain ⟨a, o, h⟩ := h
  rw [h.single, h.double]
  show (a.file? x).or (a.file? x) = (o.file? x).or (i.file? x)
  rw [h.overlays.files]
  cases (o.file? x).or (i.file? x) <;> rfl

theorem path (h : Mirrors i p q) (name : String) : p.path name = q.path name := by
  obtain ⟨a, o, h⟩ := h
  rw [h.rest]
  rfl

theorem read (h : Mirrors i p q) (name : String) : p.read name = q.read name := by
  cases hx : p.path name with
  | error e =>
    have hx' := hx
    rw [h.path] at hx'
    unfold Package.read
    rw [hx, hx']
    rfl
  | ok x =>
    rw [h.inMemory.1.read_eq hx, h.inMemory.2.read_eq (h.path name ▸ hx), h.file?]

theorem fileNames (h : Mirrors i p q) : p.fileNames = q.fileNames := by
  obtain ⟨ns, hns, hmem⟩ := Package.fileNames_eq h.inMemory.1
  obtain ⟨ns', hns', hmem'⟩ := Package.fileNames_eq h.inMemory.2
  have hd : q.directory = p.directory := by
    obtain ⟨a, o, h⟩ := h
    rw [h.rest]
  rw [hns, hns', sortedNames_congr fun n => ?_]
  rw [hmem, hmem', hd]
  simp only [h.file?]

theorem parseFiles (h : Mirrors i p q) (names : List String) :
    p.parseFiles names = q.parseFiles names := by
  induction names with
  | nil => rfl
  | cons name names ih =>
    unfold Package.parseFiles
    rw [h.read, ih]

theorem fileMode (h : Mirrors i p q) {x : String} (hx : IsLayerPath x) :
    p.fileMode x = q.fileMode x := by
  rw [h.inMemory.1.fileMode_eq hx, h.inMemory.2.fileMode_eq hx]
  unfold Package.keptMode
  rw [h.file?]

/-- Changes besides the layers that are the same on both sides. -/
theorem change (h : Mirrors i p q) (f : Package → Package) (hl : ∀ r, (f r).layers = r.layers)
    (hd : (f p).directory = p.directory)
    (hf : ∀ (r : Package) l, f { r with layers := l } = { f r with layers := l }) :
    Mirrors i (f p) (f q) := by
  obtain ⟨a, o, h⟩ := h
  refine ⟨a, o, (hl p).trans h.single, (hl q).trans h.double, ?_, hd ▸ h.directory, h.overlays⟩
  rw [hl]
  conv => lhs; rw [h.rest]
  exact hf p q.layers

end Mirrors

/-! ## Results that agree -/

/-- Two results that are the same over packages that show the same files, the first
being no error of a kind that is left out. -/
def Agree {α : Type} (out : PatchError → Prop) (i : MemoryLayer)
    (x y : Except PatchError α × Package) : Prop :=
  (∃ e, x.1 = .error e ∧ out e) ∨ (x.1 = y.1 ∧ Mirrors i x.2 y.2)

section Agree

open Package

variable {α β : Type} {out : PatchError → Prop} {i : MemoryLayer} {p q : Package}

theorem agree_bind {x y : Operation α} {f g : α → Operation β} (h : Agree out i (x p) (y q))
    (hf : ∀ a p' q', x p = (.ok a, p') → Mirrors i p' q' → Agree out i (f a p') (g a q')) :
    Agree out i ((x >>= f) p) ((y >>= g) q) := by
  rw [bind_apply, bind_apply]
  cases hx : x p with
  | mk r p' =>
    cases hy : y q with
    | mk s q' =>
      rw [hx, hy] at h
      rcases h with ⟨e, he, hout⟩ | ⟨hrs, hm⟩
      · left
        dsimp only at he
        subst he
        exact ⟨e, rfl, hout⟩
      · dsimp only at hrs hm
        subst hrs
        cases r with
        | ok a => exact hf a p' q' hx hm
        | error e => exact Or.inr ⟨rfl, hm⟩

theorem agree_lift {r s : Except PatchError α} {f g : α → Operation β} (hm : Mirrors i p q)
    (h : r = s) (hf : ∀ a, r = .ok a → Agree out i (f a p) (g a q)) :
    Agree out i ((liftM r >>= f) p) ((liftM s >>= g) q) := by
  subst h
  cases r with
  | ok a => exact hf a rfl
  | error e => exact Or.inr ⟨rfl, hm⟩

theorem agree_get {f g : Package → Operation β} (h : Agree out i (f p p) (g q q)) :
    Agree out i ((get >>= f) p) ((get >>= g) q) := h

theorem agree_set {p' q' : Package} {x y : Unit → Operation β} (h : Agree out i (x () p') (y () q')) :
    Agree out i ((set p' >>= x) p) ((set q' >>= y) q) := h

theorem agree_modify {f : Package → Package} {x y : Unit → Operation β}
    (h : Agree out i (x () (f p)) (y () (f q))) :
    Agree out i ((modify f >>= x) p) ((modify f >>= y) q) := h

theorem agree_forM {f : β → Operation Unit} {bs : List β}
    (hf : ∀ b ∈ bs, ∀ p q : Package, Mirrors i p q → Agree out i (f b p) (f b q))
    (hm : Mirrors i p q) : Agree out i (bs.forM f p) (bs.forM f q) := by
  induction bs generalizing p q with
  | nil => exact Or.inr ⟨rfl, hm⟩
  | cons b bs ih =>
    refine agree_bind (hf b List.mem_cons_self p q hm) fun _ p' q' _ hm' => ?_
    exact ih (fun c hc => hf c (List.mem_cons_of_mem _ hc)) hm'

end Agree

/-! ## Loading and writing -/

namespace Mirrors

open Package

variable {i : MemoryLayer} {p q : Package}

theorem load (h : Mirrors i p q) : Agree MemoryLayer.IsLayerError i (Package.load p) (Package.load q) := by
  refine agree_get (agree_lift h h.fileNames fun names _ => ?_)
  refine agree_lift h (h.parseFiles names) fun files _ => ?_
  have hname : ∀ ns, p.deriveName ns = q.deriveName ns := by
    obtain ⟨a, o, h⟩ := h
    rw [h.rest]
    intro ns
    rfl
  have hset : Mirrors i (p.withFiles files) (q.withFiles files) :=
    h.change (·.withFiles files) (fun _ => rfl) rfl fun _ _ => rfl
  refine agree_set (agree_lift hset (hname _) fun name _ => Or.inr ⟨rfl, ?_⟩)
  exact hset.change (fun r => { r with localName := name }) (fun _ => rfl) rfl fun _ _ => rfl

/-- A write that the one layer takes is taken by the output layer too. -/
theorem write (h : Mirrors i p q) {name : String} {data : Bytes} (hdata : data ≠ []) :
    Agree MemoryLayer.IsLayerError i (Package.write name data p) (Package.write name data q) := by
  cases hplain : hasDirectory name with
  | true =>
    unfold Package.write
    rw [if_pos hplain]
    exact Or.inr ⟨rfl, h⟩
  | false =>
    cases hx : p.path name with
    | error e =>
      have hx' := h.path name ▸ hx
      unfold Package.write
      rw [if_neg (by simp [hplain])]
      exact agree_get (agree_lift h (h.path name) fun x hok => by rw [hx] at hok; cases hok)
    | ok x =>
      rw [write_apply data hplain hx, write_apply data hplain (h.path name ▸ hx)]
      have hlp := isLayerPath_path hx
      have hroom := h.inMemory.1.directory_of_write hplain hx
      obtain ⟨a, o, hm⟩ := h
      have hdir : q.directory = p.directory := by rw [hm.rest]
      rw [hm.output.1, hm.output.2, hdir]
      cases ha : a.makeDirs p.directory with
      | error e =>
        left
        refine ⟨e, ?_, MemoryLayer.makeDirs_eq_error hm.directory ha⟩
        rw [Layer.makeDirs_memory, ha]
        rfl
      | ok a' =>
        obtain ⟨o', ho, hover⟩ := hm.overlays.makeDirs ha
        have hm' := hm.onto hover
        rw [Layer.makeDirs_memory, Layer.makeDirs_memory, ha, ho]
        dsimp only [Functor.map, Except.map]
        rw [← Mirrors.fileMode ⟨a', o', hm'⟩ hlp,
          (Mirrors.inMemory ⟨a', o', hm'⟩).1.fileMode_eq hlp]
        dsimp only
        rw [hm'.output.1, hm'.output.2]
        generalize keptMode (p.onto (.memory a')).layers x = mode
        cases hw : a'.write x data mode with
        | error e =>
          left
          refine ⟨e, ?_, MemoryLayer.write_eq_error hlp hw⟩
          rw [Layer.write_memory, hw]
          rfl
        | ok a'' =>
          have hroot := hover.output.sound.root
          have hparent : o'.hasDir (Path.parent x) := by
            rcases hroom with hpar | habove
            · obtain ⟨ss, hss, hd⟩ := hm.directory
              rw [hpar, hd]
              exact MemoryLayer.hasDir_of_makeDirs hss (List.prefix_refl ss)
                hm.overlays.output.sound.root (hd ▸ ho)
            · obtain ⟨y, hy, hdir', -, -⟩ := MemoryLayer.write_eq_ok.mp hw
              rw [hlp.clean, Except.ok.injEq] at hy
              subst hy
              exact absurd (habove a a' hm.overlays.single.sound.root ha) hdir'
          obtain ⟨o'', ho'', hover'⟩ := hover.write
            hlp.clean hparent hdata hw
          rw [Layer.write_memory, Layer.write_memory, hw, ho'']
          have hm'' : Mirrors i _ _ := ⟨a'', o'', hm'.onto hover'⟩
          exact Or.inr ⟨rfl, hm''.change (wrote · name x data) (fun _ => rfl) rfl fun _ _ => rfl⟩

end Mirrors

end GoSplice
