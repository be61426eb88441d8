import GoSplice.Proofs.Mirrors
import GoSplice.Proofs.PartImports
import GoSplice.Proofs.Preservation

/-!
# Packages made of parts

A package whose files are made of single parts, no two of which declare the same
identity, is loaded, and a write of such a file, whether it fails or not, leaves
such a package:

    Consists name p parts → load p = (ok (), q), Opened name q parts         (Consists.load)
    Consists name p parts → write f (encode (fileText name ps)) p leaves
      parts, or parts with ps in the place of those of f                     (Consists.write)
-/

namespace GoSplice

open Syntax GoSplice.Part

namespace Package

variable {p q r : Package} {name : List Char} {parts : String → List Part}

/-! ## Writes that fail -/

/-- A package that shows the files of another. -/
structure Shows (p q : Package) : Prop where
  inMemory : q.InMemory
  directory : q.directory = p.directory
  modulePath : q.modulePath = p.modulePath
  file? : ∀ y, q.layers.file? y = p.layers.file? y

theorem Shows.refl (hp : p.InMemory) : Shows p p := ⟨hp, rfl, rfl, fun _ => rfl⟩

theorem Shows.path (h : Shows p q) (n : String) : q.path n = p.path n :=
  path_eq_of_directory h.directory n

theorem shows_onto (hp : p.InMemory) {path : String} {mode : Nat} {o : Layer}
    (h : p.layers.output.makeDirs path mode = .ok o) : Shows p (p.onto o) := by
  obtain ⟨m, rfl, hbuilt, hfile⟩ := hp.makeDirs h
  exact ⟨hp.onto hbuilt, rfl, rfl, fun y => Layers.file?_withOutput (hfile y)⟩

/-- A write succeeds, or leaves all files as they are. -/
theorem write_cases (hp : p.InMemory) (filename : String) (data : Bytes) :
    (∃ q, write filename data p = (.ok (), q) ∧ q.modulePath = p.modulePath) ∨
      ∃ e q, write filename data p = (.error e, q) ∧ Shows p q := by
  cases h : write filename data p with
  | mk result q =>
    cases result with
    | ok u =>
      obtain ⟨-, x, o, mode, o', -, -, -, -, rfl⟩ := write_eq_ok h
      exact .inl ⟨_, rfl, rfl⟩
    | error e =>
      refine .inr ⟨e, q, rfl, ?_⟩
      rcases write_eq_error h with rfl | ⟨o, ho, rfl⟩
      · exact .refl hp
      · exact shows_onto hp ho

/-! ## Packages made of parts -/

/-- A package whose files consist of parts: those of each layer path, a blank line where
there is no file. -/
structure Consists (name : List Char) (p : Package) (parts : String → List Part) : Prop where
  inMemory : p.InMemory
  nameOfPath : p.nameOfPath = String.ofList name
  file : ∀ x f, p.layers.file? x = some f → ∃ n, IsFileName n ∧ p.path n = .ok x ∧
    f.data = Utf8.encode (fileText name (parts x))
  noFile : ∀ x, p.layers.file? x = none → parts x = [.blank]
  single : ∀ x, ∀ b ∈ parts x, b.IsSingle
  nodup : ∀ x, (allIdentities (parts x)).Nodup
  disjoint : ∀ x y, ∀ s ∈ allIdentities (parts x), s ∈ allIdentities (parts y) → x = y

theorem nameOfPath_congr (hd : q.directory = p.directory) (hm : q.modulePath = p.modulePath) :
    q.nameOfPath = p.nameOfPath := by
  unfold Package.nameOfPath
  rw [hd, hm]

theorem Consists.of_shows (h : Consists name p parts) (hq : Shows p q) : Consists name q parts := by
  refine ⟨hq.inMemory, (nameOfPath_congr hq.directory hq.modulePath).trans h.nameOfPath, ?_, ?_,
    h.single, h.nodup, h.disjoint⟩
  · intro x f hf
    obtain ⟨n, hn, hx, hdata⟩ := h.file x f (hq.file? x ▸ hf)
    exact ⟨n, hn, (hq.path n).trans hx, hdata⟩
  · intro x hx
    exact h.noFile x (hq.file? x ▸ hx)

/-- Parts with others at one layer path. -/
def put (x : String) (ps : List Part) (parts : String → List Part) (y : String) : List Part :=
  if y = x then ps else parts y

@[simp] theorem put_same (x : String) (ps : List Part) (parts : String → List Part) :
    put x ps parts x = ps := if_pos rfl

theorem put_of_ne {x y : String} (h : y ≠ x) (ps : List Part) (parts : String → List Part) :
    put x ps parts y = parts y := if_neg h

/-- Parts that can stand in the place of those at a layer path. -/
structure Fits (parts : String → List Part) (x : String) (ps : List Part) : Prop where
  single : ∀ b ∈ ps, b.IsSingle
  nodup : (allIdentities ps).Nodup
  fresh : ∀ s ∈ allIdentities ps, ∀ y, y ≠ x → s ∉ allIdentities (parts y)

theorem Consists.of_written (h : Consists name p parts) {filename x : String} {ps : List Part}
    (hn : IsFileName filename) (hx : p.path filename = .ok x) (hps : Fits parts x ps)
    (hm : q.modulePath = p.modulePath)
    (hw : Written p q filename x (Utf8.encode (fileText name ps))) :
    Consists name q (put x ps parts) := by
  have hpath := path_eq_of_directory hw.directory
  refine ⟨hw.inMemory, (nameOfPath_congr hw.directory hm).trans h.nameOfPath, ?_, ?_, ?_, ?_, ?_⟩
  · intro y f hf
    rw [hw.file?] at hf
    by_cases hy : y = x
    · subst hy
      rw [if_pos rfl] at hf
      cases hf
      exact ⟨filename, hn, (hpath filename).trans hx, by rw [put_same]⟩
    · rw [if_neg hy] at hf
      rw [put_of_ne hy]
      obtain ⟨n, hn, hpn, hdata⟩ := h.file y f hf
      exact ⟨n, hn, (hpath n).trans hpn, hdata⟩
  · intro y hy
    rw [hw.file?] at hy
    by_cases hyx : y = x
    · rw [if_pos hyx] at hy
      cases hy
    · rw [if_neg hyx] at hy
      rw [put_of_ne hyx]
      exact h.noFile y hy
  · intro y
    by_cases hy : y = x
    · rw [hy, put_same]
      exact hps.single
    · rw [put_of_ne hy]
      exact h.single y
  · intro y
    by_cases hy : y = x
    · rw [hy, put_same]
      exact hps.nodup
    · rw [put_of_ne hy]
      exact h.nodup y
  · intro y z s hs hs'
    by_cases hy : y = x
    · by_cases hz : z = x
      · rw [hy, hz]
      · rw [hy, put_same] at hs
        rw [put_of_ne hz] at hs'
        exact absurd hs' (hps.fresh s hs z hz)
    · rw [put_of_ne hy] at hs
      by_cases hz : z = x
      · rw [hz, put_same] at hs'
        exact absurd hs (hps.fresh s hs' y hy)
      · rw [put_of_ne hz] at hs'
        exact h.disjoint y z s hs hs'

/-- A write of parts that fit leaves a package made of parts, whether it fails or not. -/
theorem Consists.write (h : Consists name p parts) {filename x : String} {ps : List Part}
    (hn : IsFileName filename) (hx : p.path filename = .ok x) (hps : Fits parts x ps) :
    (∃ q, Package.write filename (Utf8.encode (fileText name ps)) p = (.ok (), q) ∧
      Written p q filename x (Utf8.encode (fileText name ps)) ∧ Consists name q (put x ps parts)) ∨
    ∃ e q, Package.write filename (Utf8.encode (fileText name ps)) p = (.error e, q) ∧
      Consists name q parts := by
  rcases write_cases h.inMemory filename (Utf8.encode (fileText name ps)) with ⟨q, hq, hm⟩ | ⟨e, q, hq, hs⟩
  · left
    obtain ⟨-, y, hy, hw⟩ := written_of_write h.inMemory hq
    rw [hx, Except.ok.injEq] at hy
    subst hy
    exact ⟨q, hq, hw, h.of_written hn hx hps hm hw⟩
  · exact Or.inr ⟨e, q, hq, h.of_shows hs⟩

/-! ## Loading -/

/-- A package made of parts that was just loaded. -/
structure Opened (name : List Char) (q : Package) (parts : String → List Part) : Prop extends
    Consists name q parts where
  localName : q.localName = String.ofList name
  files : ∀ f ∈ q.files, ∃ x, IsFileName f.filename ∧ q.path f.filename = .ok x ∧
    f = fileOf f.filename name (parts x)
  member : ∀ x f, q.layers.file? x = some f → ∃ g ∈ q.files, q.path g.filename = .ok x
  nodupFiles : (q.files.map (·.filename)).Nodup
  contents : ∀ n x, IsFileName n → q.path n = .ok x →
    q.contentsOrNew n = Utf8.encode (fileText name (parts x))

/-- A package made of parts is loaded. -/
theorem Consists.load (h : Consists name p parts) (hn : IsNameText name) (hname : isName name) :
    ∃ q, Package.load p = (.ok (), q) ∧ Opened name q parts := by
  obtain ⟨names, hnames, hmem⟩ := fileNames_eq h.inMemory
  have hmember : ∀ n ∈ sortedNames names, IsFileName n ∧ ∃ x f, p.path n = .ok x ∧
      p.layers.file? x = some f := by
    intro n hn
    rw [mem_sortedNames, hmem] at hn
    obtain ⟨-, x, f, hf, -, rfl⟩ := hn
    obtain ⟨m, hm, hx, -⟩ := h.file x f hf
    rw [(h.inMemory.place_of_path hm hx).2]
    exact ⟨hm, x, f, hx, hf⟩
  have hread : ∀ n ∈ sortedNames names, ∃ source f, p.read n = .ok source ∧
      SourceFile.parse n source true = .ok f := by
    intro n hmem
    obtain ⟨-, x, f, hx, hf⟩ := hmember n hmem
    obtain ⟨-, -, -, hdata⟩ := h.file x f hf
    have hparse := parse_fileText hn (fun b hb => (h.single x b hb).isWhole) n true
    exact ⟨f.data, _, by rw [h.inMemory.read_eq hx, hf], hdata ▸ hparse⟩
  obtain ⟨files, hfiles⟩ := parseFiles_of_forall hread
  obtain ⟨hmap, hall⟩ := parseFiles_eq_ok hfiles
  have hparsed : ∀ f ∈ files, ∃ x, IsFileName f.filename ∧ p.path f.filename = .ok x ∧
      f = fileOf f.filename name (parts x) := by
    intro f hf
    obtain ⟨hfile, x, g, hx, hg⟩ := hmember f.filename (hmap ▸ List.mem_map_of_mem hf)
    obtain ⟨hread, hparse⟩ := hall f hf
    obtain ⟨-, -, -, hdata⟩ := h.file x g hg
    rw [h.inMemory.read_eq hx, hg] at hread
    have hsource : f.source = Utf8.encode (fileText name (parts x)) :=
      (Except.ok.inj hread).symm.trans hdata
    rw [hsource, parse_fileText hn fun b hb => (h.single x b hb).isWhole] at hparse
    exact ⟨x, hfile, hx, (Except.ok.inj hparse).symm⟩
  have hderive : p.deriveName (files.map (·.packageName)).eraseDups = .ok (String.ofList name) := by
    refine deriveName_eq_ok_iff.mpr ⟨.of_all h.nameOfPath fun n hn => ?_, by rwa [String.toList_ofList]⟩
    obtain ⟨f, hf, rfl⟩ := List.mem_map.mp hn
    obtain ⟨x, -, -, hf⟩ := hparsed f hf
    rw [hf]
    rfl
  have hload := load_apply hnames hfiles hderive
  have hloaded := load_eq_ok hload
  have hconsists := h.of_shows ⟨hloaded.inMemory h.inMemory, rfl, rfl, fun _ => rfl⟩
  refine ⟨_, hload, hconsists, rfl, hparsed, fun x f hf => ?_, ?_, fun n x hn hx => ?_⟩
  · obtain ⟨n, hn, hx, -⟩ := h.file x f hf
    have hmemn : n ∈ sortedNames names :=
      mem_sortedNames.mpr ((hmem n).mpr ⟨hn.suffix, x, f, hf, h.inMemory.place_of_path hn hx⟩)
    rw [← hmap] at hmemn
    obtain ⟨g, hg, rfl⟩ := List.mem_map.mp hmemn
    exact ⟨g, hg, hx⟩
  · show (files.map (·.filename)).Nodup
    rw [hmap, sortedNames]
    exact ((List.mergeSort_perm _ _).nodup_iff).mpr (nodup_eraseDups names)
  · rw [contentsOrNew_loaded h.inMemory hloaded hn, bytesOr, h.inMemory.read_eq hx]
    cases hf : p.layers.file? x with
    | some f =>
      obtain ⟨-, -, -, hdata⟩ := h.file x f hf
      rw [← hdata]
      rfl
    | none =>
      rw [h.noFile x hf]
      exact newFile_eq rfl

end Package

end GoSplice
