import GoSplice.Proofs.StoredFiles

/-!
# Files that can be written

Whether a file can be written depends on the layers and not on the bytes, and a write takes that
from no file of the package:

    p.Writable name → ∃ q, write name data p = (ok (), q)                  (Writable.exists_write)
    write other data p = (ok (), q) → p.Writable name → q.Writable name    (Writable.behind)

A file that is written once more with the same bytes is left as it is:

    write name data p = (ok (), q) → write name data q = (ok (), r), r.layers = q.layers      (write_again)
-/

namespace GoSplice

open GoSplice.Path (IsPlain spell)

/-! ## Trees -/

namespace DiskTree

variable {n n' n'' : DiskTree} {path : List String} {s t : String} {mode mode' : Nat} {data data' : Bytes}

/-- A directory that is there is made. -/
theorem makeDirs_of_directory (h : n.spot path = .directory) : n.makeDirs path mode = .ok n := by
  rw [makeDirs_eq]
  rcases List.eq_nil_or_concat path with rfl | ⟨above, s, rfl⟩
  · rfl
  · rw [List.concat_eq_append] at h ⊢
    obtain ⟨m, entries, hfind⟩ := spot_eq_directory.mp h
    have hmake : n.makeDir (above ++ [s]) mode = .error .alreadyExists := change_of_find hfind rfl
    rw [makeDirsUp_of_error hmake nofun, isDirAt_eq, h]
    rfl

/-- A write leaves the directory of its file. -/
theorem spot_directory_of_write (h : n.write (path ++ [s]) data mode = .ok n') : n'.spot path = .directory := by
  have hne : path ≠ path ++ [s] := by simp
  rw [spot_write h, if_neg hne]
  exact (write_succeeds.mp ⟨n', h⟩).1

/-- What can be written in a directory can be written behind a write there. -/
theorem write_behind (h : n.write (path ++ [s]) data mode = .ok n') (hother : n.write (path ++ [t]) data' mode' = .ok n'')
    (data : Bytes) (mode : Nat) : ∃ m, n'.write (path ++ [t]) data mode = .ok m := by
  refine write_succeeds.mpr ⟨spot_directory_of_write h, ?_⟩
  rw [spot_write h]
  split
  · nofun
  · exact (write_succeeds.mp ⟨n'', hother⟩).2

/-- A change that leaves what a path leads to leaves the tree. -/
theorem change_eq_self {f : Option DiskTree → Except LayerProblem DiskTree} {k : DiskTree} (h : n.find path = .ok k)
    (hf : f (some k) = .ok k) : change f n path = .ok n := by
  induction path generalizing n with
  | nil =>
    cases h
    exact hf
  | cons s path ih =>
    cases n with
    | file g => cases h
    | dir mode entries =>
      rw [find] at h
      split at h
      · next m hm =>
        unfold change
        rw [hm]
        show (change f m path).map _ = _
        rw [ih h]
        exact congrArg (fun es => Except.ok (dir mode es)) (Entries.put_of_lookup hm)
      · cases h

end DiskTree

/-! ## Layers -/

namespace MemoryLayer

/-- Directories that are there are put nowhere. -/
theorem foldl_putDir_of_hasDir {l : MemoryLayer} {names : List String} (h : ∀ x ∈ names, l.hasDir x) :
    names.foldl putDir l = l := by
  induction names with
  | nil => rfl
  | cons x names ih =>
    obtain ⟨hx, hnames⟩ := List.forall_mem_cons.mp h
    rw [List.foldl_cons, putDir, if_pos hx]
    exact ih hnames

/-- A file that is put where it is changes nothing. -/
theorem putFile_of_file? {l : MemoryLayer} {x : String} {f : StoredFile} (h : l.file? x = some f) : l.putFile x f = l :=
  congrArg (MemoryLayer.mk · l.dirs) (Entries.put_of_lookup h)

end MemoryLayer

namespace Layer

variable {l o o' o'' : Layer} {ss : List (List Char)} {name other : List Char} {mode mode' : Nat} {data data' : Bytes}

/-- An operation that changes the tree of a layer on disk. -/
theorem onTree_eq_ok {d : DiskLayer} (hss : ∀ s ∈ ss, IsPlain s)
    {run : DiskTree → List String → Except LayerProblem DiskTree} :
    Layer.disk <$> (d.onTree (spell ss) run >>= fun tree => pure { d with tree }) = .ok o ↔
      (spell ss).toList.contains '\x00' = false ∧
        ∃ tree, run d.tree (d.root ++ ss.map String.ofList) = .ok tree ∧ o = .disk { d with tree } := by
  constructor
  · intro h
    cases hd : d.onTree (spell ss) run with
    | error e =>
      rw [hd] at h
      cases h
    | ok tree =>
      rw [hd] at h
      cases h
      obtain ⟨hnul, hrun⟩ := (DiskLayer.onTree_eq_ok hss).mp hd
      exact ⟨hnul, tree, hrun, rfl⟩
  · rintro ⟨hnul, tree, hrun, rfl⟩
    rw [(DiskLayer.onTree_eq_ok hss).mpr ⟨hnul, hrun⟩]
    rfl

/-- A file on disk that is written in a directory. -/
theorem write_disk_eq_ok {d : DiskLayer} (hss : ∀ s ∈ ss, IsPlain s) (hname : IsPlain name) :
    (Layer.disk d).write (spell (ss ++ [name])) data mode = .ok o ↔
      (spell (ss ++ [name])).toList.contains '\x00' = false ∧
        ∃ tree, d.tree.write (d.root ++ ss.map String.ofList ++ [String.ofList name]) data mode = .ok tree ∧
          o = .disk { d with tree } := by
  rw [List.append_assoc, ← List.map_singleton, ← List.map_append]
  exact onTree_eq_ok (Path.isPlain_concat hss hname)

/-- Whether a file can be written does not depend on its bytes and its permission bits. -/
theorem write_any (hss : ∀ s ∈ ss, IsPlain s) (hname : IsPlain name)
    (h : l.write (spell (ss ++ [name])) data mode = .ok o) (data' : Bytes) (mode' : Nat) :
    ∃ o', l.write (spell (ss ++ [name])) data' mode' = .ok o' := by
  cases l with
  | memory m =>
    obtain ⟨m', hm', rfl⟩ := memory_write h
    obtain ⟨x, hx, hdir, hparent, -⟩ := MemoryLayer.write_eq_ok.mp hm'
    have hwritten := MemoryLayer.write_eq_ok.mpr ⟨x, hx, hdir, hparent, Eq.refl (m.putFile x ⟨data', mode'⟩)⟩
    exact ⟨_, congrArg (Layer.memory <$> ·) hwritten⟩
  | disk d =>
    obtain ⟨hnul, tree, hwritten, -⟩ := (write_disk_eq_ok hss hname).mp h
    obtain ⟨tree', hwritten'⟩ := DiskTree.write_succeeds.mpr (DiskTree.write_succeeds.mp ⟨tree, hwritten⟩)
    exact ⟨_, (write_disk_eq_ok hss hname).mpr ⟨hnul, tree', hwritten', rfl⟩⟩
  | readOnly m => cases h

/-- Behind a write of a file its directory is there. -/
theorem makeDirs_behind (hss : ∀ s ∈ ss, IsPlain s) (hname : IsPlain name)
    (hmade : l.makeDirs (spell ss) mode = .ok o) (h : o.write (spell (ss ++ [name])) data mode' = .ok o') :
    o'.makeDirs (spell ss) mode = .ok o' := by
  cases l with
  | memory m =>
    obtain ⟨m1, hm1, rfl⟩ := memory_makeDirs hmade
    obtain ⟨m2, hm2, rfl⟩ := memory_write h
    obtain ⟨d, hd, hnone, rfl⟩ := MemoryLayer.makeDirs_eq_ok.mp hm1
    obtain ⟨x, hx, -, -, rfl⟩ := MemoryLayer.write_eq_ok.mp hm2
    have hall := Path.isPlain_concat hss hname
    rw [Path.clean_spell hss, Except.ok.injEq] at hd
    rw [Path.clean_spell hall, Except.ok.injEq] at hx
    subst hd hx
    obtain ⟨hfiles, hdirs⟩ := MemoryLayer.foldl_putDir (MemoryLayer.wayTo (spell ss)) m
    have hne : spell ss ≠ spell (ss ++ [name]) := fun heq => by
      have hlength := congrArg List.length (Path.spell_injective hss hall heq)
      simp at hlength
    refine congrArg (Layer.memory <$> ·) (MemoryLayer.makeDirs_eq_ok.mpr
      ⟨_, Path.clean_spell hss, ?_, (MemoryLayer.foldl_putDir_of_hasDir fun x hx => ?_).symm⟩)
    · rw [MemoryLayer.file?_putFile, if_neg hne, MemoryLayer.file?, hfiles]
      exact hnone
    · rw [MemoryLayer.hasDir_putFile]
      exact (hdirs x).mpr (.inr hx)
  | disk d =>
    obtain ⟨hnul, tree, -, rfl⟩ := (onTree_eq_ok hss).mp hmade
    obtain ⟨-, tree', hwritten, rfl⟩ := (write_disk_eq_ok hss hname).mp h
    have hthere : tree'.makeDirs _ mode = .ok tree' :=
      DiskTree.makeDirs_of_directory (DiskTree.spot_directory_of_write hwritten)
    exact (onTree_eq_ok (d := { d with tree := tree' }) hss).mpr ⟨hnul, tree', hthere, rfl⟩
  | readOnly m => cases hmade

/-- What can be written in a directory can be written behind a write there. -/
theorem write_behind (hss : ∀ s ∈ ss, IsPlain s) (hname : IsPlain name) (hother : IsPlain other)
    (h : l.write (spell (ss ++ [other])) data mode = .ok o)
    (hfirst : l.write (spell (ss ++ [name])) data' mode' = .ok o') (data'' : Bytes) (mode'' : Nat) :
    ∃ o'', o.write (spell (ss ++ [name])) data'' mode'' = .ok o'' := by
  cases l with
  | memory m =>
    obtain ⟨m1, hm1, rfl⟩ := memory_write h
    obtain ⟨m2, hm2, rfl⟩ := memory_write hfirst
    obtain ⟨y, -, -, -, rfl⟩ := MemoryLayer.write_eq_ok.mp hm1
    obtain ⟨x, hx, hdir, hparent, -⟩ := MemoryLayer.write_eq_ok.mp hm2
    -- a file that is put changes no directory
    have hwritten : (m.putFile y ⟨data, mode⟩).write (spell (ss ++ [name])) data'' mode'' = _ :=
      MemoryLayer.write_eq_ok.mpr ⟨x, hx, hdir, hparent, rfl⟩
    exact ⟨_, congrArg (Layer.memory <$> ·) hwritten⟩
  | disk d =>
    obtain ⟨-, tree, hwritten, rfl⟩ := (write_disk_eq_ok hss hother).mp h
    obtain ⟨hnul, tree', hwritten', -⟩ := (write_disk_eq_ok hss hname).mp hfirst
    obtain ⟨tree'', hbehind⟩ := DiskTree.write_behind hwritten hwritten' data'' mode''
    exact ⟨_, (write_disk_eq_ok hss hname).mpr ⟨hnul, tree'', hbehind, rfl⟩⟩
  | readOnly m => cases h

/-- A file that is written with the bytes it has is left as it is. -/
theorem write_again (hss : ∀ s ∈ ss, IsPlain s) (hname : IsPlain name)
    (h : l.write (spell (ss ++ [name])) data mode = .ok o) :
    ∃ f, o.stored? (spell (ss ++ [name])) = some f ∧ o.write (spell (ss ++ [name])) data f.mode = .ok o := by
  cases l with
  | memory m =>
    obtain ⟨m', hm', rfl⟩ := memory_write h
    obtain ⟨x, hx, hdir, hparent, rfl⟩ := MemoryLayer.write_eq_ok.mp hm'
    have hclean := hx
    rw [Path.clean_spell (Path.isPlain_concat hss hname), Except.ok.injEq] at hclean
    subst hclean
    have hfile := MemoryLayer.file?_putFile m (spell (ss ++ [name])) (spell (ss ++ [name])) ⟨data, mode⟩
    rw [if_pos rfl] at hfile
    have hwritten : (m.putFile (spell (ss ++ [name])) ⟨data, mode⟩).write (spell (ss ++ [name])) data mode = _ :=
      MemoryLayer.write_eq_ok.mpr ⟨_, hx, hdir, hparent, rfl⟩
    rw [MemoryLayer.putFile_of_file? hfile] at hwritten
    exact ⟨⟨data, mode⟩, hfile, congrArg (Layer.memory <$> ·) hwritten⟩
  | disk d =>
    obtain ⟨hnul, tree, hwritten, rfl⟩ := (write_disk_eq_ok hss hname).mp h
    have hspot := DiskTree.spot_write hwritten (d.root ++ ss.map String.ofList ++ [String.ofList name])
    rw [if_pos rfl] at hspot
    have hdata : (d.tree.written (d.root ++ ss.map String.ofList ++ [String.ofList name]) data mode).data = data := by
      unfold DiskTree.written
      split <;> rfl
    generalize d.tree.written _ data mode = f at hspot hdata
    subst hdata
    refine ⟨f, ?_, (write_disk_eq_ok (d := { d with tree }) hss hname).mpr ⟨hnul, tree,
      DiskTree.change_eq_self (DiskTree.spot_eq_file.mp hspot) rfl, rfl⟩⟩
    show (tree.spot (DiskLayer.target { d with tree } (spell (ss ++ [name])))).file? = some f
    rw [target_spell _ (Path.isPlain_concat hss hname), List.map_append, List.map_singleton, ← List.append_assoc, hspot]
    rfl
  | readOnly m => cases h

end Layer

/-! ## Packages -/

namespace Package

variable {p q : Package} {name other : String} {data data' : Bytes}

/-- Whether a file of a package can be written, as far as that depends on the layers. -/
def Writable (p : Package) (name : String) : Prop := ∃ data q, write name data p = (.ok (), q)

/-- The steps of a write that succeeds, in the directory of a package. -/
theorem write_steps {ss : List (List Char)} (hss : ∀ s ∈ ss, IsPlain s) (hd : p.directory = spell ss)
    (hn : IsPlain name.toList) (h : write name data p = (.ok (), q)) : ∃ o mode o',
      p.layers.output.makeDirs (spell ss) defaultDirMode = .ok o ∧
      (p.onto o).fileMode (spell (ss ++ [name.toList])) = .ok mode ∧
      o.write (spell (ss ++ [name.toList])) data mode = .ok o' ∧
      q.layers = p.layers.withOutput o' ∧ q.directory = p.directory := by
  obtain ⟨-, x, o, mode, o', hx, hmade, hmode, hwritten, rfl⟩ := write_eq_ok h
  rw [path_spell hss hd hn, Except.ok.injEq] at hx
  subst hx
  unfold onto at hwritten
  rw [Layers.output_withOutput] at hwritten
  exact ⟨o, mode, o', hd ▸ hmade, hmode, hwritten, Layers.withOutput_withOutput p.layers o o', rfl⟩

/-- A write succeeds where its steps do. -/
theorem write_of_steps {x : String} {o o' : Layer} {mode : Nat} (hplain : hasDirectory name = false) (hx : p.path name = .ok x)
    (hmade : p.layers.output.makeDirs p.directory defaultDirMode = .ok o) (hmode : (p.onto o).fileMode x = .ok mode)
    (hwritten : o.write x data mode = .ok o') : ∃ q, write name data p = (.ok (), q) := by
  refine ⟨wrote ((p.onto o).onto o') name x data, ?_⟩
  have hout : (p.onto o).layers.output = o := Layers.output_withOutput p.layers o
  rw [write_apply data hplain hx, hmade]
  dsimp only
  rw [hmode]
  dsimp only
  rw [hout, hwritten]

/-- A file that can be written can be written with all bytes. -/
theorem Writable.exists_write (hd : IsLayerPath p.directory) (hn : IsFileName name) (h : p.Writable name) (data : Bytes) :
    ∃ q, write name data p = (.ok (), q) := by
  obtain ⟨data', q, h⟩ := h
  obtain ⟨ss, hss, hd⟩ := hd
  obtain ⟨o, mode, o', hmade, hmode, hwritten, -, -⟩ := write_steps hss hd hn.isPlain h
  obtain ⟨o'', hwritten'⟩ := Layer.write_any hss hn.isPlain hwritten data mode
  exact write_of_steps hn.plain (path_spell hss hd hn.isPlain) (hd ▸ hmade) hmode hwritten'

/-- The permission bits of a file that can be written, behind a write, can be told. -/
theorem exists_fileMode {o o' o'' : Layer} {x y : String} {mode mode' : Nat} (hx : IsLayerPath x) (hy : IsLayerPath y)
    (hmode : (p.onto o).fileMode x = .ok mode) (hold : ∃ l, o.write x data mode = .ok l)
    (hother : o.write y data' mode' = .ok o') (hnew : o'.write x data mode = .ok o'') (hlayers : q.layers = p.layers.withOutput o') :
    ∃ mode, (q.onto o').fileMode x = .ok mode := by
  obtain ⟨l, hold⟩ := hold
  unfold fileMode onto at hmode ⊢
  rw [Layers.output_withOutput, Layer.mode?_of_write hx hold] at hmode
  rw [Layers.output_withOutput, Layer.mode?_of_write hx hnew, hlayers, Layers.withOutput_withOutput]
  cases hstored : o'.stored? x with
  | some f => exact ⟨f.mode, rfl⟩
  | none =>
    -- then it is not the file that was written, and there was none
    have hne : x ≠ y := by
      rintro rfl
      have := Layer.stored?_of_read hx (Layer.read_write hx hother)
      rw [hstored] at this
      cases this
    rw [Layer.stored?_write_ne hy hx hne hother] at hstored
    rw [hstored] at hmode
    cases hp : p.layers with
    | shared l' =>
      refine ⟨((o'.stored? x).map (·.mode)).getD defaultFileMode, ?_⟩
      show (o'.mode? x >>= fun m => pure (m.getD defaultFileMode)) = _
      rw [Layer.mode?_of_write hx hnew]
      rfl
    | overlay i l' =>
      rw [hp] at hmode
      exact ⟨mode, hmode⟩

/-- A file that can be written can be written behind a write of another, or of itself. -/
theorem Writable.behind (hd : IsLayerPath p.directory) (hn : IsFileName name) (ho : IsFileName other)
    (hother : Package.write other data p = (.ok (), q)) (h : p.Writable name) : q.Writable name := by
  obtain ⟨data', r, h⟩ := h
  obtain ⟨ss, hss, hd⟩ := hd
  obtain ⟨o, mode, o', hmade, hmode, hwritten, -, -⟩ := write_steps hss hd hn.isPlain h
  obtain ⟨o1, mode1, o1', hmade1, -, hwritten1, hlayers, hdirectory⟩ := write_steps hss hd ho.isPlain hother
  rw [hmade, Except.ok.injEq] at hmade1
  subst hmade1
  have hx := path_spell (p := q) hss (hdirectory.trans hd) hn.isPlain
  have hmade' : q.layers.output.makeDirs q.directory defaultDirMode = .ok o1' := by
    rw [hlayers, Layers.output_withOutput, hdirectory, hd]
    exact Layer.makeDirs_behind hss ho.isPlain hmade hwritten1
  obtain ⟨o2, hwritten2⟩ := Layer.write_behind hss hn.isPlain ho.isPlain hwritten1 hwritten data' mode
  obtain ⟨mode', hmode'⟩ := exists_fileMode (isLayerPath_path hx) ⟨_, Path.isPlain_concat hss ho.isPlain, rfl⟩ hmode
    ⟨_, hwritten⟩ hwritten1 hwritten2 hlayers
  obtain ⟨o3, hwritten3⟩ := Layer.write_any hss hn.isPlain hwritten2 data' mode'
  exact ⟨data', write_of_steps hn.plain hx hmade' hmode' hwritten3⟩

/-- A file that is written once more with the same bytes is left as it is. -/
theorem write_again {r : Package} (hd : IsLayerPath p.directory) (hn : IsPlain name.toList)
    (h : write name data p = (.ok (), q)) (hlayers : r.layers = q.layers) (hdirectory : r.directory = q.directory) :
    ∃ r', write name data r = (.ok (), r') ∧ r'.layers = q.layers := by
  obtain ⟨ss, hss, hd⟩ := hd
  obtain ⟨o, mode, o', hmade, -, hwritten, hlayers', hdirectory'⟩ := write_steps hss hd hn h
  have hdr := hdirectory.trans (hdirectory'.trans hd)
  have hout : r.layers.output = o' := by rw [hlayers, hlayers', Layers.output_withOutput]
  have hx := path_spell (p := r) hss hdr hn
  -- each step finds what the one before left
  have hmade' := Layer.makeDirs_behind hss hn hmade hwritten
  obtain ⟨f, hstored, hagain⟩ := Layer.write_again hss hn hwritten
  have hmode : (r.onto o').fileMode (spell (ss ++ [name.toList])) = .ok f.mode := by
    unfold fileMode onto
    rw [Layers.output_withOutput, Layer.mode?_of_write (isLayerPath_path hx) hagain, hstored]
    rfl
  obtain ⟨r', hwrite⟩ := write_of_steps (write_eq_ok h).1 hx (by rw [hout, hdr]; exact hmade') hmode hagain
  refine ⟨r', hwrite, ?_⟩
  obtain ⟨o1, mode1, o2, hmade1, hmode1, hwritten1, hlayers1, -⟩ := write_steps hss hdr hn hwrite
  rw [hout, hmade', Except.ok.injEq] at hmade1
  subst hmade1
  rw [hmode, Except.ok.injEq] at hmode1
  subst hmode1
  rw [hagain, Except.ok.injEq] at hwritten1
  subst hwritten1
  rw [hlayers1, hlayers, hlayers', Layers.withOutput_withOutput]

end Package

end GoSplice
